import PiggyOs.ByteMemory

/-! The heap of the C library: a linked list of chunks, each with its header before the block that it stands for,
above which `sbrk` moves the break. Addresses are numbers; 0 is `NULL`. -/
namespace PiggyOs.MallocFree
open ByteMemory Filter

def heapChunkMagic : BitVec 64 := 0xffba67ed89ab32be

def chunkSize (m : Memory) (chunk : ℕ) : BitVec 63 := (read64 m chunk).setWidth 63
def chunkFree (m : Memory) (chunk : ℕ) : Bool := (read64 m chunk).msb
def chunkMagic (m : Memory) (chunk : ℕ) : BitVec 64 := read64 m (chunk + 8)
def chunkNext (m : Memory) (chunk : ℕ) : ℕ := (read64 m (chunk + 16)).toNat

def setSize (m : Memory) (chunk : ℕ) (size : BitVec 63) : Memory :=
  write64 m chunk (BitVec.cons (chunkFree m chunk) size)
def setFree (m : Memory) (chunk : ℕ) (free : Bool) : Memory := write64 m chunk (BitVec.cons free (chunkSize m chunk))
def setMagic (m : Memory) (chunk : ℕ) (magic : BitVec 64) : Memory := write64 m (chunk + 8) magic
def setNext (m : Memory) (chunk next : ℕ) : Memory := write64 m (chunk + 16) (BitVec.ofNat 64 next)

structure Heap where
  mem : Memory
  first : ℕ
  last : ℕ
  brk : ℕ

/-- The new break, or `none` if the kernel refuses to move it, which it does at the ends of the address space and
whenever there is no `room`. -/
def sbrk (room : Bool) (brk : ℕ) (n : BitVec 64) : Option ℕ :=
  if room ∧ 0 ≤ brk + n.toInt ∧ brk + n.toInt < 2 ^ 64 then some (brk + n.toInt).toNat else none

/-- `none` if the loop does not end within the fuel. -/
def getFreeChunk (m : Memory) (size : BitVec 64) : ℕ → ℕ → Option ℕ
  | 0, _ => none
  | fuel + 1, iter =>
      if iter = 0 then some 0
      else if chunkFree m iter ∧ (chunkSize m iter).setWidth 64 ≥ size ∧ chunkMagic m iter = heapChunkMagic then
        some iter
      else getFreeChunk m size fuel (chunkNext m iter)

/-- What `malloc` does with the memory that it gets from `sbrk`. -/
def appendChunk (h : Heap) (size : BitVec 64) (brk : ℕ) : Heap :=
  let chunk := h.brk
  let mem := setNext (setMagic (setFree (setSize h.mem chunk (size.setWidth 63)) chunk false) chunk heapChunkMagic) chunk 0
  { mem := if h.last ≠ 0 then setNext mem h.last chunk else mem
    first := if h.first = 0 then chunk else h.first
    last := chunk
    brk := brk }

def malloc (fuel : ℕ) (h : Heap) (size : BitVec 64) (room : Bool) : Option (ℕ × Heap) :=
  if size = 0 then some (0, h)
  else (getFreeChunk h.mem size fuel h.first).map fun chunk =>
    if chunk ≠ 0 then (chunk + 24, { h with mem := setFree h.mem chunk false })
    else match sbrk room h.brk (24 + size) with
      | none => (0, h)
      | some brk => (h.brk + 24, appendChunk h size brk)

/-- The loop of `free` that looks for the chunk before the last one, with `mem` and `last` after it. -/
def unlinkLast (m : Memory) (last : ℕ) : ℕ → ℕ → Option (Memory × ℕ)
  | 0, _ => none
  | fuel + 1, iter =>
      if iter = 0 then some (m, last)
      else if chunkNext m iter = last then some (setNext m iter 0, iter)
      else unlinkLast m last fuel (chunkNext m iter)

def dropLastChunk (fuel : ℕ) (h : Heap) : Option Heap :=
  if h.first = h.last then some { h with first := 0, last := 0 }
  else (unlinkLast h.mem h.last fuel h.first).map fun r => { h with mem := r.1, last := r.2 }

/-- `none` also if the assertion fails. -/
def free (fuel : ℕ) (h : Heap) (ptr : ℕ) (room : Bool) : Option Heap :=
  let chunk := ptr - 24
  if ptr = 0 then some h
  else if chunkMagic h.mem chunk ≠ heapChunkMagic then none
  else if (ptr + (chunkSize h.mem chunk).toNat) % 2 ^ 64 = h.brk then
    (dropLastChunk fuel h).map fun h' =>
      { h' with brk := (sbrk room h.brk (-(24 - (chunkSize h.mem chunk).setWidth 64))).getD h.brk }
  else some { h with mem := setFree h.mem chunk true }

def realloc (fuel : ℕ) (h : Heap) (ptr : ℕ) (newSize : BitVec 64) (room1 room2 : Bool) : Option (ℕ × Heap) :=
  let chunk := ptr - 24
  if ptr = 0 then malloc fuel h newSize room1
  else if newSize = 0 then some (0, h)
  else if (chunkSize h.mem chunk).setWidth 64 ≥ newSize then some (ptr, h)
  else (malloc fuel h newSize room1).bind fun r =>
    if r.1 ≠ 0 then
      (free fuel { r.2 with mem := copy r.2.mem r.1 ptr (chunkSize r.2.mem chunk).toNat } ptr room2).map fun h' =>
        (r.1, h')
    else some (0, r.2)

/-- A chunk as the list has it. -/
structure Chunk where
  addr : ℕ
  size : ℕ
  free : Bool

def Chunk.ptr (c : Chunk) : ℕ := c.addr + 24
def Chunk.stop (c : Chunk) : ℕ := c.addr + 24 + c.size

/-- The links from `a` on lead through the chunks. -/
def Linked (m : Memory) : ℕ → List Chunk → Prop
  | a, [] => a = 0
  | a, c :: cs => a = c.addr ∧ 0 < a ∧ Linked m (chunkNext m a) cs

structure Header (m : Memory) (c : Chunk) : Prop where
  word : read64 m c.addr = BitVec.cons c.free (BitVec.ofNat 63 c.size)
  magic : chunkMagic m c.addr = heapChunkMagic

/-- The chunks stand one behind the other below the break. -/
structure Laid (brk : ℕ) (cs : List Chunk) : Prop where
  size : ∀ c ∈ cs, 0 < c.size ∧ c.size < 2 ^ 62
  order : cs.Pairwise fun c d => c.stop ≤ d.addr
  below : ∀ c ∈ cs, c.stop ≤ brk

structure Chunks (h : Heap) (cs : List Chunk) : Prop where
  linked : Linked h.mem h.first cs
  last : h.last = (cs.getLast?.map Chunk.addr).getD 0
  header : ∀ c ∈ cs, Header h.mem c
  laid : Laid h.brk cs
  start : 0 < h.brk
  fits : h.brk < 2 ^ 64

section Lists
variable {m m' : Memory} {h : Heap} {cs ds : List Chunk} {c d : Chunk} {a brk : ℕ}

lemma Laid.apart (h : Laid brk cs) (hc : c ∈ cs) (hd : d ∈ cs) (hne : c ≠ d) : c.stop ≤ d.addr ∨ d.stop ≤ c.addr := by
  have hapart : cs.Pairwise fun c d => c.stop ≤ d.addr ∨ d.stop ≤ c.addr := h.order.imp Or.inl
  have : Std.Symm fun c d : Chunk => c.stop ≤ d.addr ∨ d.stop ≤ c.addr := ⟨fun _ _ => Or.symm⟩
  exact hapart.forall hc hd hne

lemma Laid.addr_inj (h : Laid brk cs) (hc : c ∈ cs) (hd : d ∈ cs) (heq : c.addr = d.addr) : c = d := by
  by_contra hne
  rcases h.apart hc hd hne with hle | hle
  · rw [Chunk.stop] at hle
    omega
  · rw [Chunk.stop] at hle
    omega

lemma Laid.mono {brk' : ℕ} (h : Laid brk cs) (hle : ∀ c ∈ cs, c.stop ≤ brk') : Laid brk' cs := ⟨h.size, h.order, hle⟩

/-- The header of one chunk and the whole of another do not overlap. -/
lemma Laid.addr_apart (h : Laid brk cs) (hc : c ∈ cs) (hd : d ∈ cs) (hne : c ≠ d) :
    c.addr + 24 ≤ d.addr ∨ d.addr + 24 + d.size ≤ c.addr := by
  rcases h.apart hc hd hne with hle | hle
  · rw [Chunk.stop] at hle
    omega
  · exact Or.inr hle

lemma Linked.congr (h : Linked m a cs) (hnext : ∀ c ∈ cs, chunkNext m' c.addr = chunkNext m c.addr) :
    Linked m' a cs := by
  induction cs generalizing a with
  | nil => exact h
  | cons c cs ih =>
    obtain ⟨rfl, hpos, hrest⟩ := h
    rw [List.forall_mem_cons] at hnext
    refine ⟨rfl, hpos, ?_⟩
    rw [hnext.1]
    exact ih hrest hnext.2

lemma Linked.pos (h : Linked m a cs) : ∀ c ∈ cs, 0 < c.addr := by
  induction cs generalizing a with
  | nil => exact fun c hc => absurd hc List.not_mem_nil
  | cons c cs ih =>
    obtain ⟨rfl, hpos, hrest⟩ := h
    exact List.forall_mem_cons.mpr ⟨hpos, ih hrest⟩

lemma chunkNext_congr (h : ∀ k < 24, m' (a + k) = m (a + k)) : chunkNext m' a = chunkNext m a := by
  refine congrArg BitVec.toNat (read64_congr fun k hk => ?_)
  rw [Nat.add_assoc]
  exact h _ (by omega)

lemma Header.congr (hd : Header m c) (h : ∀ k < 24, m' (c.addr + k) = m (c.addr + k)) : Header m' c := by
  refine ⟨?_, ?_⟩
  · rw [← hd.word]
    exact read64_congr fun k hk => h k (by omega)
  · rw [← hd.magic]
    refine read64_congr fun k hk => ?_
    rw [Nat.add_assoc]
    exact h _ (by omega)

/-- Nothing but the headers matters. -/
lemma Chunks.frame (hc : Chunks h cs) (hsame : ∀ c ∈ cs, ∀ k < 24, m' (c.addr + k) = h.mem (c.addr + k)) :
    Chunks { h with mem := m' } cs :=
  ⟨hc.linked.congr fun c hin => chunkNext_congr (hsame c hin), hc.last, fun c hin => (hc.header c hin).congr (hsame c hin),
    hc.laid, hc.start, hc.fits⟩

lemma Header.chunkSize (h : Header m c) : MallocFree.chunkSize m c.addr = BitVec.ofNat 63 c.size := by
  rw [MallocFree.chunkSize, h.word]
  exact BitVec.setWidth_cons

lemma Header.chunkFree (h : Header m c) : MallocFree.chunkFree m c.addr = c.free := by
  rw [MallocFree.chunkFree, h.word]
  exact BitVec.msb_cons

lemma Header.toNat_chunkSize (h : Header m c) (hlt : c.size < 2 ^ 62) : (MallocFree.chunkSize m c.addr).toNat = c.size := by
  rw [h.chunkSize, BitVec.toNat_ofNat]
  exact Nat.mod_eq_of_lt (by omega)

lemma Header.le_chunkSize (h : Header m c) (hlt : c.size < 2 ^ 62) (size : BitVec 64) :
    (MallocFree.chunkSize m c.addr).setWidth 64 ≥ size ↔ size.toNat ≤ c.size := by
  rw [ge_iff_le, BitVec.le_def, BitVec.toNat_setWidth, h.toNat_chunkSize hlt, Nat.mod_eq_of_lt (by omega)]

/-- The search finds the first chunk on the list that is free and large enough. -/
lemma getFreeChunk_linked {fuel : ℕ} (size : BitVec 64) (h : Linked m a cs) (hh : ∀ c ∈ cs, Header m c)
    (hs : ∀ c ∈ cs, c.size < 2 ^ 62) (hf : cs.length < fuel) :
    getFreeChunk m size fuel a = some (((cs.find? fun c => c.free ∧ size.toNat ≤ c.size).map Chunk.addr).getD 0) := by
  induction cs generalizing a fuel with
  | nil =>
    obtain ⟨fuel, rfl⟩ := Nat.exists_eq_succ_of_ne_zero hf.ne'
    obtain rfl : a = 0 := h
    rfl
  | cons c cs ih =>
    obtain ⟨fuel, rfl⟩ : ∃ n, fuel = n + 1 := ⟨fuel - 1, by omega⟩
    obtain ⟨rfl, hpos, hrest⟩ := h
    rw [List.forall_mem_cons] at hh hs
    have hle := hh.1.le_chunkSize hs.1 size
    rw [getFreeChunk, if_neg hpos.ne', hh.1.chunkFree, List.find?_cons]
    by_cases hfit : c.free = true ∧ size.toNat ≤ c.size
    · rw [if_pos ⟨hfit.1, hle.mpr hfit.2, hh.1.magic⟩, decide_eq_true hfit]
      rfl
    · rw [if_neg fun h => hfit ⟨h.1, hle.mp h.2.1⟩, decide_eq_false hfit]
      exact ih hrest hh.2 hs.2 (by simpa using hf)

def Chunk.mark (a : ℕ) (free : Bool) (c : Chunk) : Chunk := if c.addr = a then { c with free := free } else c

@[simp] lemma mark_addr (a : ℕ) (free : Bool) (c : Chunk) : (c.mark a free).addr = c.addr := by
  unfold Chunk.mark
  split_ifs <;> rfl

@[simp] lemma mark_size (a : ℕ) (free : Bool) (c : Chunk) : (c.mark a free).size = c.size := by
  unfold Chunk.mark
  split_ifs <;> rfl

@[simp] lemma mark_stop (a : ℕ) (free : Bool) (c : Chunk) : (c.mark a free).stop = c.stop := by simp [Chunk.stop]

lemma Linked.mark (h : Linked m a cs) (x : ℕ) (free : Bool) : Linked m a (cs.map (Chunk.mark x free)) := by
  induction cs generalizing a with
  | nil => exact h
  | cons c cs ih =>
    obtain ⟨rfl, hpos, hrest⟩ := h
    exact ⟨(mark_addr x free c).symm, hpos, ih hrest⟩

lemma Laid.mark (h : Laid brk cs) (x : ℕ) (free : Bool) : Laid brk (cs.map (Chunk.mark x free)) := by
  refine ⟨List.forall_mem_map.mpr fun c hc => ?_, List.pairwise_map.mpr ?_, List.forall_mem_map.mpr fun c hc => ?_⟩
  · rw [mark_size]
    exact h.size c hc
  · simpa using h.order
  · rw [mark_stop]
    exact h.below c hc

lemma setFree_outside {b : ℕ} (m : Memory) (a : ℕ) (free : Bool) (h : b < a ∨ a + 8 ≤ b) : setFree m a free b = m b :=
  write64_outside m _ h

/-- The mark of one chunk changes. -/
lemma Chunks.mark (hh : Chunks h cs) (hc : c ∈ cs) (free : Bool) :
    Chunks { h with mem := setFree h.mem c.addr free } (cs.map (Chunk.mark c.addr free)) := by
  refine ⟨(hh.linked.congr fun d hd => ?_).mark c.addr free, ?_, List.forall_mem_map.mpr fun d hd => ?_,
    hh.laid.mark c.addr free, hh.start, hh.fits⟩
  · refine congrArg BitVec.toNat (read64_write64_of_apart _ _ ?_)
    by_cases hne : c = d
    · rw [hne]
      omega
    · have := hh.laid.addr_apart hc hd hne
      omega
  · rw [List.getLast?_map, Option.map_map]
    simp only [Function.comp_def, mark_addr]
    exact hh.last
  · by_cases hne : c = d
    · subst hne
      rw [Chunk.mark, if_pos rfl]
      refine ⟨?_, ?_⟩
      · rw [setFree, read64_write64, (hh.header c hc).chunkSize]
      · rw [← (hh.header c hc).magic]
        exact read64_write64_of_apart _ _ (Or.inl (le_refl (c.addr + 8)))
    · rw [Chunk.mark, if_neg fun heq => hne (hh.laid.addr_inj hd hc heq).symm]
      apply (hh.header d hd).congr
      intro k hk
      apply setFree_outside
      have := hh.laid.addr_apart hc hd hne
      omega

/-- The list is the same up to one chunk, whose link leads to other chunks. -/
lemma Linked.splice {rest rest' : List Chunk} (h : Linked m a (cs ++ d :: rest))
    (hnext : ∀ c ∈ cs, chunkNext m' c.addr = chunkNext m c.addr) (hrest : Linked m' (chunkNext m' d.addr) rest') :
    Linked m' a (cs ++ d :: rest') := by
  induction cs generalizing a with
  | nil =>
    obtain ⟨rfl, hpos, -⟩ := h
    exact ⟨rfl, hpos, hrest⟩
  | cons c cs ih =>
    obtain ⟨rfl, hpos, htail⟩ := h
    rw [List.forall_mem_cons] at hnext
    refine ⟨rfl, hpos, ?_⟩
    rw [hnext.1]
    exact ih htail hnext.2

lemma Linked.head (h : Linked m a (c :: cs)) : a = c.addr := h.1

lemma chunkNext_setNext (m : Memory) (a : ℕ) {b : ℕ} (h : b < 2 ^ 64) : chunkNext (setNext m a b) a = b := by
  rw [chunkNext, setNext, read64_write64, BitVec.toNat_ofNat, Nat.mod_eq_of_lt h]

lemma setNext_outside {b : ℕ} (m : Memory) (a n : ℕ) (h : b < a + 16 ∨ a + 24 ≤ b) : setNext m a n b = m b :=
  write64_outside m _ h

/-- The link of one chunk is no part of the others, and the rest of its header is not its link. -/
lemma Header.setNext (hh : Header m c) (hlaid : Laid brk cs) (hc : c ∈ cs) (hd : d ∈ cs) (b : ℕ) :
    Header (setNext m d.addr b) c := by
  refine ⟨?_, ?_⟩
  · rw [← hh.word]
    refine read64_congr fun k hk => setNext_outside _ _ _ ?_
    by_cases hne : d = c
    · rw [hne]
      omega
    · have := hlaid.addr_apart hd hc hne
      omega
  · rw [← hh.magic]
    refine read64_congr fun k hk => setNext_outside _ _ _ ?_
    by_cases hne : d = c
    · rw [hne]
      omega
    · have := hlaid.addr_apart hd hc hne
      omega

lemma Laid.chunkNext_setNext (hlaid : Laid brk cs) (hc : c ∈ cs) (hd : d ∈ cs) (hne : d ≠ c) (m : Memory) (b : ℕ) :
    chunkNext (setNext m d.addr b) c.addr = chunkNext m c.addr := by
  apply chunkNext_congr
  intro k hk
  apply setNext_outside
  have := hlaid.addr_apart hd hc hne
  omega

/-- The header that `malloc` writes, but for the link from the chunk before. -/
def newHeader (m : Memory) (chunk : ℕ) (size : BitVec 64) : Memory :=
  setNext (setMagic (setFree (setSize m chunk (size.setWidth 63)) chunk false) chunk heapChunkMagic) chunk 0

lemma newHeader_outside {b : ℕ} (m : Memory) (chunk : ℕ) (size : BitVec 64) (h : b < chunk ∨ chunk + 24 ≤ b) :
    newHeader m chunk size b = m b := by
  rw [newHeader, setNext_outside _ _ _ (by omega), setMagic, write64_outside _ _ (by omega),
    setFree_outside _ _ _ (by omega), setSize, write64_outside _ _ (by omega)]

lemma newHeader_header (m : Memory) (chunk : ℕ) (size : BitVec 64) :
    Header (newHeader m chunk size) ⟨chunk, size.toNat, false⟩ := by
  refine ⟨?_, ?_⟩
  · dsimp only
    rw [newHeader, MallocFree.setNext, read64_write64_of_apart _ _ (by omega), setMagic,
      read64_write64_of_apart _ _ (by omega), setFree, read64_write64, MallocFree.chunkSize, setSize, read64_write64]
    refine congrArg _ ?_
    rw [BitVec.setWidth_cons, BitVec.ofNat_toNat]
  · dsimp only
    rw [chunkMagic, newHeader, MallocFree.setNext, read64_write64_of_apart _ _ (by omega), setMagic, read64_write64]

/-- A new chunk at the break becomes the last one. -/
lemma Chunks.append (hh : Chunks h cs) {size : BitVec 64} (hpos : 0 < size.toNat) (hsize : size.toNat < 2 ^ 62)
    (hfit : h.brk + 24 + size.toNat < 2 ^ 64) :
    Chunks (appendChunk h size (h.brk + 24 + size.toNat)) (cs ++ [⟨h.brk, size.toNat, false⟩]) := by
  have hbelow := hh.laid.below
  have hlaid : Laid (h.brk + 24 + size.toNat) (cs ++ [⟨h.brk, size.toNat, false⟩]) := by
    refine ⟨fun c hc => ?_, List.pairwise_append.mpr ⟨hh.laid.order, List.pairwise_singleton _ _, fun c hc d hd => ?_⟩,
      fun c hc => ?_⟩
    · rcases List.mem_append.mp hc with hc | hc
      · exact hh.laid.size c hc
      · rw [List.mem_singleton.mp hc]
        exact ⟨hpos, hsize⟩
    · rw [List.mem_singleton.mp hd]
      exact hbelow c hc
    · rcases List.mem_append.mp hc with hc | hc
      · exact (hbelow c hc).trans (by omega)
      · rw [List.mem_singleton.mp hc]
        exact le_rfl
  have hnew : Chunk.mk h.brk size.toNat false ∈ cs ++ [⟨h.brk, size.toNat, false⟩] := by simp
  have hold : ∀ c ∈ cs, ∀ k < 24, newHeader h.mem h.brk size (c.addr + k) = h.mem (c.addr + k) := by
    intro c hc k hk
    have hle := hbelow c hc
    rw [Chunk.stop] at hle
    exact newHeader_outside _ _ _ (by omega)
  have hlast : chunkNext (newHeader h.mem h.brk size) h.brk = 0 := chunkNext_setNext _ _ (by norm_num)
  have happend : appendChunk h size (h.brk + 24 + size.toNat) =
    { mem := if h.last ≠ 0 then setNext (newHeader h.mem h.brk size) h.last h.brk else newHeader h.mem h.brk size
      first := if h.first = 0 then h.brk else h.first
      last := h.brk
      brk := h.brk + 24 + size.toNat } := rfl
  rw [happend]
  refine ⟨?_, by simp, ?_, hlaid, by dsimp only; omega, hfit⟩
  · rcases List.eq_nil_or_concat cs with rfl | ⟨l, d, rfl⟩
    · have hfirst : h.first = 0 := hh.linked
      have hnone : ¬ h.last ≠ 0 := not_not.mpr hh.last
      dsimp only
      rw [if_pos hfirst, if_neg hnone]
      exact ⟨rfl, hh.start, hlast⟩
    · rw [List.concat_eq_append] at *
      have hd : d ∈ l ++ [d] := by simp
      have hlastd : h.last = d.addr := by simpa using hh.last
      have hfirst : h.first ≠ 0 := by
        cases l with
        | nil => exact hh.linked.2.1.ne'
        | cons x l => exact hh.linked.2.1.ne'
      have hdpos := hh.linked.pos d hd
      dsimp only
      rw [if_neg hfirst, if_pos (by omega), hlastd, List.append_assoc]
      have hne : d ≠ ⟨h.brk, size.toNat, false⟩ := by
        intro heq
        have hle := hbelow d hd
        rw [heq] at hle
        dsimp only [Chunk.stop] at hle
        omega
      refine hh.linked.splice (fun c hc => ?_) ?_
      · have hcd : d ≠ c := by
          rintro rfl
          have := List.pairwise_append.mp hh.laid.order
          have hle := this.2.2 d hc d (by simp)
          rw [Chunk.stop] at hle
          omega
        have hcin : c ∈ l ++ [d] := by simp [hc]
        rw [hh.laid.chunkNext_setNext hcin hd hcd]
        exact chunkNext_congr (hold c hcin)
      · rw [MallocFree.chunkNext_setNext _ _ hh.fits]
        refine ⟨rfl, hh.start, ?_⟩
        rw [hlaid.chunkNext_setNext hnew (List.mem_append_left _ hd) hne]
        exact hlast
  · have hheader : ∀ c ∈ cs ++ [⟨h.brk, size.toNat, false⟩], Header (newHeader h.mem h.brk size) c := by
      intro c hc
      rcases List.mem_append.mp hc with hc | hc
      · exact (hh.header c hc).congr (hold c hc)
      · rw [List.mem_singleton.mp hc]
        exact newHeader_header _ _ _
    intro c hc
    dsimp only
    split_ifs with hl
    · obtain ⟨d, hd, hlastd⟩ : ∃ d ∈ cs, h.last = d.addr := by
        rcases List.eq_nil_or_concat cs with rfl | ⟨l, d, rfl⟩
        · exact absurd hh.last hl
        · exact ⟨d, by simp, by simpa using hh.last⟩
      rw [hlastd]
      exact (hheader c hc).setNext hlaid hc (List.mem_append_left _ hd) _
    · exact hheader c hc

lemma unlinkLast_linked {e : Chunk} {fuel : ℕ} (h : Linked m a (cs ++ [d, e])) (hlaid : Laid brk (cs ++ [d, e]))
    (hf : cs.length < fuel) : unlinkLast m e.addr fuel a = some (setNext m d.addr 0, d.addr) := by
  induction cs generalizing a fuel with
  | nil =>
    obtain ⟨fuel, rfl⟩ := Nat.exists_eq_succ_of_ne_zero hf.ne'
    obtain ⟨rfl, hpos, hnext, -⟩ := h
    rw [unlinkLast, if_neg hpos.ne', if_pos hnext]
  | cons c cs ih =>
    obtain ⟨fuel, rfl⟩ : ∃ n, fuel = n + 1 := ⟨fuel - 1, by omega⟩
    obtain ⟨rfl, hpos, hrest⟩ := h
    have hlaid' : Laid brk (cs ++ [d, e]) :=
      ⟨fun x hx => hlaid.size x (List.mem_cons_of_mem c hx), (List.pairwise_cons.mp hlaid.order).2,
        fun x hx => hlaid.below x (List.mem_cons_of_mem c hx)⟩
    have hne : chunkNext m c.addr ≠ e.addr := by
      intro heq
      cases cs with
      | nil =>
        have hde := (List.pairwise_cons.mp hlaid'.order).1 e (List.mem_singleton_self e)
        rw [← heq, hrest.head, Chunk.stop] at hde
        omega
      | cons x cs =>
        have hxe := (List.pairwise_cons.mp hlaid'.order).1 e (by simp)
        rw [← heq, hrest.head, Chunk.stop] at hxe
        omega
    rw [unlinkLast, if_neg hpos.ne', if_neg hne]
    exact ih hrest hlaid' (by simpa using hf)

lemma Laid.append_left (h : Laid brk (cs ++ ds)) : Laid brk cs :=
  ⟨fun c hc => h.size c (List.mem_append_left ds hc), (List.pairwise_append.mp h.order).1,
    fun c hc => h.below c (List.mem_append_left ds hc)⟩

/-- The last chunk goes, and the break may be moved to anywhere above the others. -/
lemma Chunks.dropLast {e : Chunk} (hh : Chunks h (cs ++ [e])) (hle : e.addr ≤ brk) (hlt : brk < 2 ^ 64) :
    ∃ h', (∀ᶠ fuel in atTop, dropLastChunk fuel h = some h') ∧ Chunks { h' with brk := brk } cs ∧
      ∀ b, (∀ c ∈ cs, b < c.addr ∨ c.addr + 24 ≤ b) → h'.mem b = h.mem b := by
  have hbelow : ∀ c ∈ cs, c.stop ≤ brk := fun c hc =>
    ((List.pairwise_append.mp hh.laid.order).2.2 c hc e (List.mem_singleton_self e)).trans hle
  have hpos : 0 < brk := (hh.linked.pos e (by simp)).trans_le hle
  have hlaid := hh.laid.append_left.mono hbelow
  have hlast : h.last = e.addr := by simpa using hh.last
  rcases List.eq_nil_or_concat cs with rfl | ⟨l, d, rfl⟩
  · have hsame : h.first = h.last := hh.linked.head.trans hlast.symm
    refine ⟨{ h with first := 0, last := 0 }, .of_forall fun fuel => if_pos hsame, ?_, fun _ _ => rfl⟩
    exact ⟨rfl, rfl, fun c hc => absurd hc List.not_mem_nil, hlaid, hpos, hlt⟩
  · rw [List.concat_eq_append] at *
    have hd : d ∈ l ++ [d] := by simp
    have hlinked : Linked h.mem h.first (l ++ [d, e]) := by
      have := hh.linked
      rwa [List.append_assoc] at this
    have hlaid2 : Laid h.brk (l ++ [d, e]) := by
      have := hh.laid
      rwa [List.append_assoc] at this
    have hdiff : ¬ h.first = h.last := by
      intro heq
      cases l with
      | nil =>
        have := (List.pairwise_cons.mp hlaid2.order).1 e (List.mem_singleton_self e)
        rw [← hlast, ← heq, hlinked.head, Chunk.stop] at this
        omega
      | cons x l =>
        have := (List.pairwise_cons.mp hlaid2.order).1 e (by simp)
        rw [← hlast, ← heq, hlinked.head, Chunk.stop] at this
        omega
    refine ⟨{ h with mem := setNext h.mem d.addr 0, last := d.addr }, ?_, ⟨?_, by simp, fun c hc => ?_, hlaid, hpos, hlt⟩,
      fun b hb => setNext_outside _ _ _ ?_⟩
    · filter_upwards [eventually_gt_atTop l.length] with fuel hf
      rw [dropLastChunk, if_neg hdiff, hlast, unlinkLast_linked hlinked hlaid2 hf]
      rfl
    · refine hlinked.splice (fun c hc => ?_) (chunkNext_setNext _ _ (by norm_num))
      have hcd : d ≠ c := by
        rintro rfl
        have hself := (List.pairwise_append.mp hlaid.order).2.2 d hc d (by simp)
        rw [Chunk.stop] at hself
        omega
      exact hlaid.chunkNext_setNext (by simp [hc]) hd hcd _ _
    · exact (hh.header c (List.mem_append_left _ hc)).setNext hlaid hc hd 0
    · have := hb d hd
      omega

lemma sbrk_some {room : Bool} {n : BitVec 64} {brk' : ℕ} (h : sbrk room brk n = some brk') :
    (brk' : ℤ) = brk + n.toInt ∧ brk' < 2 ^ 64 := by
  rw [sbrk] at h
  split_ifs at h with hroom
  cases h
  omega

/-- What `free` asks of `sbrk`. -/
lemma toInt_shrink {size : BitVec 63} (h : size.toNat < 2 ^ 62) :
    (-(24 - size.setWidth 64) : BitVec 64).toInt = size.toNat - 24 := by
  have hneg : (-(24 - size.setWidth 64) : BitVec 64) = size.setWidth 64 - 24 := by
    generalize size.setWidth 64 = x
    grind
  have hx : (size.setWidth 64).toInt = size.toNat := by
    rw [BitVec.toInt_eq_toNat_of_lt]
    · rw [BitVec.toNat_setWidth, Nat.mod_eq_of_lt (by omega)]
    · rw [BitVec.toNat_setWidth, Nat.mod_eq_of_lt (by omega)]
      omega
  have h24 : (24 : BitVec 64).toInt = 24 := rfl
  rw [hneg, BitVec.toInt_sub, hx, h24]
  apply Int.bmod_eq_of_le <;> omega

lemma toInt_grow {size : BitVec 64} (h : size.toNat < 2 ^ 62) : (24 + size).toInt = 24 + size.toNat := by
  have hn : (24 + size).toNat = 24 + size.toNat := by
    rw [BitVec.toNat_add]
    exact Nat.mod_eq_of_lt (by change 24 + size.toNat < 2 ^ 64; omega)
  rw [BitVec.toInt_eq_toNat_of_lt (by omega), hn]
  push_cast
  rfl

/-- The blocks of the chunks keep their bytes. -/
abbrev SameBlocks (cs : List Chunk) (m m' : Memory) : Prop :=
  ∀ c ∈ cs, ∀ k < c.size, m' (c.ptr + k) = m (c.ptr + k)

/-- What `malloc` does: nothing, or a free chunk is used again, or there is a new chunk. -/
lemma Chunks.malloc (hh : Chunks h cs) {size : BitVec 64} (hsize : size.toNat < 2 ^ 62) (room : Bool) :
    ∃ p h', (∀ᶠ fuel in atTop, malloc fuel h size room = some (p, h')) ∧ SameBlocks cs h.mem h'.mem ∧
      ((p = 0 ∧ h' = h) ∨
      (∃ c ∈ cs, c.free = true ∧ size.toNat ≤ c.size ∧ p = c.ptr ∧ Chunks h' (cs.map (Chunk.mark c.addr false))) ∨
      (p = h.brk + 24 ∧ Chunks h' (cs ++ [⟨h.brk, size.toNat, false⟩]))) := by
  by_cases hzero : size = 0
  · exact ⟨0, h, .of_forall fun fuel => if_pos hzero, fun _ _ _ _ => rfl, Or.inl ⟨rfl, rfl⟩⟩
  have hpos : 0 < size.toNat := Nat.pos_of_ne_zero fun h => hzero (BitVec.eq_of_toNat_eq h)
  have hfind : ∀ᶠ fuel in atTop, getFreeChunk h.mem size fuel h.first =
      some (((cs.find? fun c => c.free ∧ size.toNat ≤ c.size).map Chunk.addr).getD 0) := by
    filter_upwards [eventually_gt_atTop cs.length] with fuel hf
    exact getFreeChunk_linked size hh.linked hh.header (fun c hc => (hh.laid.size c hc).2) hf
  cases hfound : cs.find? fun c => c.free ∧ size.toNat ≤ c.size with
  | some c =>
    have hc := List.mem_of_find?_eq_some hfound
    have hfit : c.free = true ∧ size.toNat ≤ c.size := by simpa using List.find?_some hfound
    refine ⟨c.ptr, { h with mem := setFree h.mem c.addr false }, ?_, fun d hd k hk => setFree_outside _ _ _ ?_,
      Or.inr (Or.inl ⟨c, hc, hfit.1, hfit.2, rfl, hh.mark hc false⟩)⟩
    · filter_upwards [hfind] with fuel hf
      rw [MallocFree.malloc, if_neg hzero, hf, hfound]
      dsimp only [Option.map_some, Option.getD_some]
      rw [if_pos (hh.linked.pos c hc).ne']
      rfl
    · rw [Chunk.ptr]
      by_cases hne : c = d
      · rw [hne]
        omega
      · have := hh.laid.addr_apart hc hd hne
        omega
  | none =>
    have hmalloc : ∀ᶠ fuel in atTop, MallocFree.malloc fuel h size room =
        some (match sbrk room h.brk (24 + size) with
          | none => (0, h)
          | some brk => (h.brk + 24, appendChunk h size brk)) := by
      filter_upwards [hfind] with fuel hf
      rw [MallocFree.malloc, if_neg hzero, hf, hfound]
      rfl
    cases hbrk : sbrk room h.brk (24 + size) with
    | none =>
      rw [hbrk] at hmalloc
      exact ⟨0, h, hmalloc, fun _ _ _ _ => rfl, Or.inl ⟨rfl, rfl⟩⟩
    | some brk =>
      rw [hbrk] at hmalloc
      obtain ⟨hbrk', hfit⟩ := sbrk_some hbrk
      rw [toInt_grow hsize] at hbrk'
      obtain rfl : brk = h.brk + 24 + size.toNat := by omega
      refine ⟨h.brk + 24, _, hmalloc, fun d hd k hk => ?_, Or.inr (Or.inr ⟨rfl, hh.append hpos hsize hfit⟩)⟩
      have hle := hh.laid.below d hd
      have hout : newHeader h.mem h.brk size (d.ptr + k) = h.mem (d.ptr + k) := by
        rw [Chunk.stop] at hle
        rw [Chunk.ptr]
        exact newHeader_outside _ _ _ (by omega)
      change (if h.last ≠ 0 then setNext (newHeader h.mem h.brk size) h.last h.brk
        else newHeader h.mem h.brk size) (d.ptr + k) = _
      split_ifs with hl
      · rw [← hout]
        apply setNext_outside
        rcases List.eq_nil_or_concat cs with rfl | ⟨l, e, rfl⟩
        · exact absurd hd List.not_mem_nil
        · have he : e ∈ l.concat e := by simp
          have hlast : h.last = e.addr := by simpa using hh.last
          rw [hlast, Chunk.ptr]
          by_cases hne : e = d
          · rw [hne]
            omega
          · have := hh.laid.addr_apart he hd hne
            omega
      · exact hout

/-- What `free` does: the chunk is taken off the list if it ends at the break, and else it is marked. -/
lemma Chunks.free (hh : Chunks h cs) (hc : c ∈ cs) (room : Bool) :
    ∃ h', (∀ᶠ fuel in atTop, free fuel h c.ptr room = some h') ∧ SameBlocks cs h.mem h'.mem ∧
      ((∃ l, cs = l ++ [c] ∧ Chunks h' l ∧ MallocFree.chunkFree h'.mem c.addr = c.free) ∨
      Chunks h' (cs.map (Chunk.mark c.addr true))) := by
  have hsize := hh.laid.size c hc
  have hstop := hh.laid.below c hc
  have hfits := hh.fits
  have hchunk : c.ptr - 24 = c.addr := Nat.add_sub_cancel _ _
  have hptr : ¬ c.ptr = 0 := by
    rw [Chunk.ptr]
    omega
  have hend : (c.ptr + (MallocFree.chunkSize h.mem c.addr).toNat) % 2 ^ 64 = c.stop := by
    rw [(hh.header c hc).toNat_chunkSize hsize.2]
    exact Nat.mod_eq_of_lt (hstop.trans_lt hfits)
  have hmagic := (hh.header c hc).magic
  by_cases htop : c.stop = h.brk
  · obtain ⟨l, rfl⟩ : ∃ l, cs = l ++ [c] := by
      rcases List.eq_nil_or_concat cs with rfl | ⟨l, e, rfl⟩
      · exact absurd hc List.not_mem_nil
      · rw [List.concat_eq_append] at *
        rcases List.mem_append.mp hc with hl | hl
        · have horder := (List.pairwise_append.mp hh.laid.order).2.2 c hl e (List.mem_singleton_self e)
          have hle := hh.laid.below e (by simp)
          have := (hh.laid.size e (by simp)).1
          rw [Chunk.stop] at hle
          omega
        · exact ⟨l, by rw [List.mem_singleton.mp hl]⟩
    have hbrk : c.addr ≤ (sbrk room h.brk (-(24 - (MallocFree.chunkSize h.mem c.addr).setWidth 64))).getD h.brk ∧
        (sbrk room h.brk (-(24 - (MallocFree.chunkSize h.mem c.addr).setWidth 64))).getD h.brk < 2 ^ 64 := by
      rw [Chunk.stop] at htop
      cases hs : sbrk room h.brk (-(24 - (MallocFree.chunkSize h.mem c.addr).setWidth 64)) with
      | none =>
        rw [Option.getD_none]
        omega
      | some brk =>
        obtain ⟨hbrk, hlt⟩ := sbrk_some hs
        have hn := (hh.header c hc).toNat_chunkSize hsize.2
        rw [toInt_shrink (by omega), hn] at hbrk
        rw [Option.getD_some]
        omega
    obtain ⟨h', hdrop, hrest, hsame⟩ := hh.dropLast hbrk.1 hbrk.2
    refine ⟨{ h' with brk := (sbrk room h.brk (-(24 - (MallocFree.chunkSize h.mem c.addr).setWidth 64))).getD h.brk },
      ?_, fun d hd k hk => hsame _ fun x hx => ?_, Or.inl ⟨l, rfl, hrest, ?_⟩⟩
    · filter_upwards [hdrop] with fuel hf
      rw [MallocFree.free, if_neg hptr, hchunk, if_neg (not_not.mpr hmagic), if_pos (hend.trans htop), hf]
      rfl
    · rw [Chunk.ptr]
      by_cases hne : x = d
      · rw [hne]
        omega
      · have := hh.laid.addr_apart (List.mem_append_left _ hx) hd hne
        omega
    · rw [← (hh.header c hc).chunkFree]
      refine congrArg BitVec.msb (read64_congr fun k hk => hsame _ fun x hx => ?_)
      have horder := (List.pairwise_append.mp hh.laid.order).2.2 x hx c (List.mem_singleton_self c)
      rw [Chunk.stop] at horder
      omega
  · refine ⟨{ h with mem := setFree h.mem c.addr true }, .of_forall fun fuel => ?_, fun d hd k hk =>
      setFree_outside _ _ _ ?_, Or.inr (hh.mark hc true)⟩
    · rw [MallocFree.free, if_neg hptr, hchunk, if_neg (not_not.mpr hmagic), if_neg fun heq => htop (hend.symm.trans heq)]
    · rw [Chunk.ptr]
      by_cases hne : c = d
      · rw [hne]
        omega
      · have := hh.laid.addr_apart hc hd hne
        omega

end Lists

end PiggyOs.MallocFree
