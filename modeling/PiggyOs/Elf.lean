import PiggyOs.AddressSpace

/-! Loading a program. `elf_load` reads headers into local variables and segments into new pages;
`node->read` is `tmpfs_read`, since programs are regular files. The lengths and places of these
reads are kept in a list. -/
namespace PiggyOs.Elf
open ByteMemory Vmm

def enomem : ℤ := 13
def efault : ℤ := 5
def eio : ℤ := 6
def enoexec : ℤ := 12

/-- A regular file: where its bytes are, and `st_size`. -/
structure Node where
  data : ℕ
  size : BitVec 64
  deriving DecidableEq, Repr

/-- How many bytes `tmpfs_read` copies. The comparison is signed, the rest is not. -/
def tmpfsReadCount (node : Node) (offset count : BitVec 64) : BitVec 64 :=
  if node.size.sle (offset + count) then count - ((offset + count) - node.size) else count

def Node.source (node : Node) (offset : BitVec 64) : ℕ := (node.data + offset.toNat) % 2 ^ 64

/-- `tmpfs_read` into a local variable, of which a short read leaves the rest. -/
def readLocal (mem : Memory) (node : Node) (buf : Memory) (offset count : BitVec 64) : Memory := fun k =>
  if k < (tmpfsReadCount node offset count).toNat then mem (node.source offset + k) else buf k

def sizeofHeader : BitVec 64 := 64
def sizeofProgramHeader : BitVec 64 := 56

def eMachine (header : Memory) : ℕ := readNat header 18 2
def eEntry (header : Memory) : BitVec 64 := read64 header 24
def ePhoff (header : Memory) : BitVec 64 := read64 header 32
def ePhentsize (header : Memory) : ℕ := readNat header 54 2
def ePhnum (header : Memory) : ℕ := readNat header 56 2

def pType (pheader : Memory) : ℕ := readNat pheader 0 4
def pFlags (pheader : Memory) : BitVec 32 := BitVec.ofNat 32 (readNat pheader 4 4)
def pOffset (pheader : Memory) : BitVec 64 := read64 pheader 8
def pVaddr (pheader : Memory) : BitVec 64 := read64 pheader 16
def pFilesz (pheader : Memory) : BitVec 64 := read64 pheader 32
def pMemsz (pheader : Memory) : BitVec 64 := read64 pheader 40

def ptLoad : ℕ := 1
def pfX : BitVec 32 := 1
def pfW : BitVec 32 := 2

/-- The magic number, the class, the byte order, the ABI and the machine. -/
def Executable (header : Memory) : Prop :=
  header 0 = 0x7f ∧ header 1 = 0x45 ∧ header 2 = 0x4c ∧ header 3 = 0x46 ∧
    header 4 = 2 ∧ header 5 = 1 ∧ header 7 = 0 ∧ eMachine header = 62

instance (header : Memory) : Decidable (Executable header) := inferInstanceAs (Decidable (_ ∧ _))

def misalign (pheader : Memory) : BitVec 64 := pVaddr pheader &&& 0xfff

def pageCount (pheader : Memory) : BitVec 64 := (misalign pheader + pMemsz pheader + 0xfff) / 0x1000

def vmmFlags (pheader : Memory) : BitVec 64 :=
  ptePresent ||| pteUser ||| (if pFlags pheader &&& pfW ≠ 0 then pteWritable else 0) |||
    (if pFlags pheader &&& pfX = 0 then pteNx else 0)

def phOffset (header : Memory) (i : ℕ) : BitVec 64 :=
  ePhoff header + BitVec.ofNat 64 (i * ePhentsize header)

/-- A read of the file, by where it puts how many bytes: to a local variable of `size` bytes, or to
`dest` in a segment of `pages` pages from `base` on. -/
inductive FileWrite
  | toLocal (size count : ℕ)
  | toPages (base pages dest count : ℕ)
  deriving DecidableEq, Repr

/-- The bytes stay inside what was meant for them. -/
def FileWrite.Confined : FileWrite → Prop
  | .toLocal size count => count ≤ size
  | .toPages base pages dest count => base ≤ dest ∧ dest + count ≤ base + pageSize * pages

instance : DecidablePred FileWrite.Confined
  | .toLocal size count => inferInstanceAs (Decidable (count ≤ size))
  | .toPages base pages dest count =>
      inferInstanceAs (Decidable (base ≤ dest ∧ dest + count ≤ base + pageSize * pages))

/-- The machine, the local variable `pheader` and the reads so far. -/
structure Load (σ : Type) where
  machine : Machine σ
  pheader : Memory
  writes : List FileWrite

section Loading
variable {σ : Type} (pmmAlloc : σ → ℕ → Option (ℕ × σ)) (pagemap : Pagemap) (node : Node)

/-- The loop that maps the pages of a segment. -/
def mapPages (pheader : Memory) (physPages : ℕ) : List ℕ → Machine σ → Option (Bool × Machine σ)
  | [], m => some (true, m)
  | j :: js, m =>
      match vmmMapPage pmmAlloc m pagemap (pVaddr pheader + BitVec.ofNat 64 (j * pageSize))
        (BitVec.ofNat 64 (physPages + j * pageSize)) (vmmFlags pheader) with
      | none => none
      | some (false, m') => some (false, m')
      | some (true, m') => mapPages pheader physPages js m'

/-- The part of the loop body for a header of type `PT_LOAD`. An error ends the loop. -/
def loadSegment (l : Load σ) : Option (Option ℤ × Load σ) :=
  match pmmAllocz pmmAlloc l.machine (pageCount l.pheader).toNat with
  | none => none
  | some (physPages, m1) =>
      if physPages = 0 then some (some (-enomem), { l with machine := m1 })
      else match mapPages pmmAlloc pagemap l.pheader physPages
          (List.range (pageCount l.pheader).toNat) m1 with
      | none => none
      | some (false, m2) => some (some (-efault), { l with machine := m2 })
      | some (true, m2) =>
          let dest := physPages + (misalign l.pheader).toNat
          let count := tmpfsReadCount node (pOffset l.pheader) (pFilesz l.pheader)
          let l' : Load σ :=
            { machine := { m2 with
                mem := movsb m2.mem dest (node.source (pOffset l.pheader)) count.toNat }
              pheader := l.pheader
              writes := .toPages physPages (pageCount l.pheader).toNat dest count.toNat :: l.writes }
          if count.slt 0 then some (some (-eio), l') else some (none, l')

/-- The loop over the program headers. -/
def loadSegments (header : Memory) : List ℕ → Load σ → Option (ℤ × Load σ)
  | [], l => some (0, l)
  | i :: is, l =>
      let count := tmpfsReadCount node (phOffset header i) sizeofProgramHeader
      let l1 : Load σ :=
        { l with
          pheader := readLocal l.machine.mem node l.pheader (phOffset header i) sizeofProgramHeader
          writes := .toLocal sizeofProgramHeader.toNat count.toNat :: l.writes }
      if count.slt 0 then some (-eio, l1)
      else if pType l1.pheader ≠ ptLoad then loadSegments header is l1
      else match loadSegment pmmAlloc pagemap node l1 with
      | none => none
      | some (some error, l2) => some (error, l2)
      | some (none, l2) => loadSegments header is l2

/-- `none` is a panic. `stack` is what the local variables hold before they are written. The second
component is the entry point, which is set on success only. -/
def elfLoad (stack : Memory × Memory) (m : Machine σ) : Option (ℤ × Option (BitVec 64) × Load σ) :=
  let count := tmpfsReadCount node 0 sizeofHeader
  let header := readLocal m.mem node stack.1 0 sizeofHeader
  let l : Load σ := ⟨m, stack.2, [.toLocal sizeofHeader.toNat count.toNat]⟩
  if count.slt 0 then some (-eio, none, l)
  else if ¬ Executable header then some (-enoexec, none, l)
  else (loadSegments pmmAlloc pagemap node header (List.range (ePhnum header)) l).map fun r =>
    (r.1, if r.1 = 0 then some (eEntry header) else none, r.2)

end Loading

end PiggyOs.Elf
