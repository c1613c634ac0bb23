import PiggyOs.ByteMemory
import PiggyOs.Walk
import PiggyOs.Macros

/-! Page tables. A table is named by the number of its frame; the direct map, through which the
kernel reads and writes it, cancels out. Entries are 64-bit words of physical memory, and the
page allocator is a parameter. -/
namespace PiggyOs.Vmm
open ByteMemory Walk

def ptePresent : BitVec 64 := 0x1
def pteWritable : BitVec 64 := 0x2
def pteUser : BitVec 64 := 0x4
def pteSize : BitVec 64 := 0x80
def pteGlobal : BitVec 64 := 0x100
def pteNx : BitVec 64 := 0x8000000000000000
def pteFlagMask : BitVec 64 := 0x8000000000000fff
def maskedFlags : BitVec 64 := ~~~(pteSize ||| pteGlobal ||| pteNx)

structure Pagemap where
  topLevel : ℕ
  hasLevel5 : Bool
  deriving DecidableEq, Repr

structure Machine (σ : Type) where
  mem : Memory
  pmm : σ

def Present (e : BitVec 64) : Prop := e &&& ptePresent ≠ 0
def Large (e : BitVec 64) : Prop := e &&& pteSize ≠ 0

instance (e : BitVec 64) : Decidable (Present e) := inferInstanceAs (Decidable (_ ≠ _))
instance (e : BitVec 64) : Decidable (Large e) := inferInstanceAs (Decidable (_ ≠ _))

/-- The frame an entry points to. -/
def frameOf (e : BitVec 64) : ℕ := (e &&& ~~~pteFlagMask).toNat / pageSize

def index (vaddr : BitVec 64) (shift : ℕ) : Fin 512 :=
  Fin.ofNat 512 ((vaddr &&& (0x1ff#64 <<< shift)) >>> shift).toNat

def pml5Index (vaddr : BitVec 64) : Fin 512 := index vaddr 48
def pml4Index (vaddr : BitVec 64) : Fin 512 := index vaddr 39
def pml3Index (vaddr : BitVec 64) : Fin 512 := index vaddr 30
def pml2Index (vaddr : BitVec 64) : Fin 512 := index vaddr 21
def pml1Index (vaddr : BitVec 64) : Fin 512 := index vaddr 12

/-- The indices that lead from the top level to the table called `pml2`. -/
def upperIndices (hasLevel5 : Bool) (vaddr : BitVec 64) : List (Fin 512) :=
  if hasLevel5 then [pml5Index vaddr, pml4Index vaddr, pml3Index vaddr]
  else [pml4Index vaddr, pml3Index vaddr]

section Tables
variable {σ : Type}

def entryAddr (table : ℕ) (i : Fin 512) : ℕ := table * pageSize + 8 * i.val

def Machine.entry (m : Machine σ) (table : ℕ) (i : Fin 512) : BitVec 64 :=
  read64 m.mem (entryAddr table i)

def Machine.setEntry (m : Machine σ) (table : ℕ) (i : Fin 512) (e : BitVec 64) : Machine σ :=
  { m with mem := write64 m.mem (entryAddr table i) e }

/-- The table that a present entry leads to. -/
def Machine.next (m : Machine σ) (table : ℕ) (i : Fin 512) : Option ℕ :=
  if Present (m.entry table i) then some (frameOf (m.entry table i)) else none

def vmmUnmapPage (m : Machine σ) (pagemap : Pagemap) (vaddr : BitVec 64) : Bool × Machine σ :=
  match walk m.next pagemap.topLevel (upperIndices pagemap.hasLevel5 vaddr) with
  | none => (false, m)
  | some pml2 =>
      let e := m.entry pml2 (pml2Index vaddr)
      if Large e then (true, m.setEntry pml2 (pml2Index vaddr) 0)
      else if ¬ Present e then (false, m)
      else (true, m.setEntry (frameOf e) (pml1Index vaddr) 0)

def vmmUpdateFlags (m : Machine σ) (pagemap : Pagemap) (vaddr flags : BitVec 64) :
    Bool × Machine σ :=
  match walk m.next pagemap.topLevel (upperIndices pagemap.hasLevel5 vaddr) with
  | none => (false, m)
  | some pml2 =>
      let e := m.entry pml2 (pml2Index vaddr)
      if Large e then
        (true, m.setEntry pml2 (pml2Index vaddr) ((e &&& ~~~pteFlagMask) ||| flags))
      else if ¬ Present e then (false, m)
      else
        let paddr := m.entry (frameOf e) (pml1Index vaddr) &&& ~~~pteFlagMask
        (true, m.setEntry (frameOf e) (pml1Index vaddr) (paddr ||| flags))

/-- What `vmm_get_page_mapping` returns where nothing is mapped. -/
def noMapping : BitVec 64 := -1

def vmmGetPageMapping (m : Machine σ) (pagemap : Pagemap) (vaddr : BitVec 64) : BitVec 64 :=
  match walk m.next pagemap.topLevel (upperIndices pagemap.hasLevel5 vaddr) with
  | none => noMapping
  | some pml2 =>
      let e := m.entry pml2 (pml2Index vaddr)
      if Large e then e
      else if ¬ Present e then noMapping
      else
        let leaf := m.entry (frameOf e) (pml1Index vaddr)
        if Present leaf then leaf else noMapping

/-- The `(address, pages)` arguments of the calls of `pmm_free`, in order. -/
def destroyLevelsRecursive (m : Machine σ) : ℕ → ℕ → List (Fin 512) → List (ℕ × ℕ)
  | 0, _, _ => []
  | 1, level, _ => [(level * pageSize, 1)]
  | depth + 2, level, range =>
      (range.flatMap fun i =>
        if Present (m.entry level i) then
          (if Large (m.entry level i) ∧ depth = 0 then
            [(level * pageSize, bigpageSize / pageSize)] else []) ++
          destroyLevelsRecursive m (depth + 1) (frameOf (m.entry level i)) (List.finRange 512)
        else []) ++ [(level * pageSize, 1)]

def userHalf : List (Fin 512) := (List.finRange 512).filter fun i => i.val < 256
def kernelHalf : List (Fin 512) := (List.finRange 512).filter fun i => 256 ≤ i.val

def vmmDestroyPagemap (m : Machine σ) (pagemap : Pagemap) : List (ℕ × ℕ) :=
  destroyLevelsRecursive m (if pagemap.hasLevel5 then 5 else 4) pagemap.topLevel userHalf ++
    [(pagemap.topLevel * pageSize, 1)]

end Tables

def entriesToVaddr (pml4 pml3 pml2 pml1 : Fin 512) : BitVec 64 :=
  (BitVec.ofNat 64 pml4.val <<< 39) ||| (BitVec.ofNat 64 pml3.val <<< 30) |||
    (BitVec.ofNat 64 pml2.val <<< 21) ||| (BitVec.ofNat 64 pml1.val <<< 12)

section Allocating
variable {σ : Type} (pmmAlloc : σ → ℕ → Option (ℕ × σ))

/-- `none` is the panic of the page allocator. -/
def pmmAllocz (m : Machine σ) (pages : ℕ) : Option (ℕ × Machine σ) :=
  (pmmAlloc m.pmm pages).map fun r => (r.1, ⟨clear m.mem r.1 (pageSize * pages), r.2⟩)

/-- The step that `vmm_map_page` repeats: the table behind `table[i]`, made first if there is
none. No table is the `goto end` after an allocation that returned 0. -/
def ensureTable (m : Machine σ) (flags : BitVec 64) (table : ℕ) (i : Fin 512) :
    Option (Option ℕ × Machine σ) :=
  if Present (m.entry table i) then some (some (frameOf (m.entry table i)), m)
  else (pmmAllocz pmmAlloc m 1).map fun r =>
    let m1 := r.2.setEntry table i (BitVec.ofNat 64 r.1)
    if m1.entry table i = 0 then (none, m1)
    else
      let m2 := m1.setEntry table i
        (m1.entry table i ||| ((flags &&& maskedFlags) ||| pteWritable))
      (some (frameOf (m2.entry table i)), m2)

def ensureTables (flags : BitVec 64) : Machine σ → ℕ → List (Fin 512) →
    Option (Option ℕ × Machine σ)
  | m, table, [] => some (some table, m)
  | m, table, i :: is => match ensureTable pmmAlloc m flags table i with
      | none => none
      | some (none, m') => some (none, m')
      | some (some t, m') => ensureTables flags m' t is

def vmmMapPage (m : Machine σ) (pagemap : Pagemap) (vaddr paddr flags : BitVec 64) :
    Option (Bool × Machine σ) :=
  match ensureTables pmmAlloc flags m pagemap.topLevel (upperIndices pagemap.hasLevel5 vaddr) with
  | none => none
  | some (none, m1) => some (false, m1)
  | some (some pml2, m1) =>
      if flags &&& pteSize ≠ 0 then
        some (true, m1.setEntry pml2 (pml2Index vaddr) (paddr ||| flags))
      else match ensureTable pmmAlloc m1 flags pml2 (pml2Index vaddr) with
      | none => none
      | some (none, m2) => some (false, m2)
      | some (some pml1, m2) => some (true, m2.setEntry pml1 (pml1Index vaddr) (paddr ||| flags))

/-- `level5` is the answer of `cpuid`; `kernelTop` is the top level of `kernel_pagemap`. -/
def vmmNewPagemap (level5 : Bool) (kernelTop : ℕ) (m : Machine σ) :
    Option (Option Pagemap × Machine σ) :=
  (pmmAllocz pmmAlloc m 1).map fun r =>
    if r.1 = 0 then (none, r.2)
    else (some ⟨r.1 / pageSize, level5⟩,
      kernelHalf.foldl (fun m i => m.setEntry (r.1 / pageSize) i (m.entry kernelTop i)) r.2)

/-- The part of `vmm_init` that fills the top-level entries 256 to 511. -/
def fillKernelHalf (kernelTop : ℕ) (m : Machine σ) : Option (Machine σ) :=
  kernelHalf.foldlM (fun m i => (pmmAllocz pmmAlloc m 1).map fun r =>
    r.2.setEntry kernelTop i (BitVec.ofNat 64 r.1 ||| ptePresent ||| pteWritable)) m

/-- The innermost body of `vmm_fork_pagemap`. -/
def forkPage (new : Pagemap) (pml2 : ℕ) (i j k l : Fin 512) (m : Machine σ) : Option (Machine σ) :=
  match pmmAllocz pmmAlloc m 1 with
  | none => none
  | some (paddr, m1) =>
      let m2 := { m1 with
        mem := copy m1.mem paddr (frameOf (m1.entry pml2 l) * pageSize) pageSize }
      (vmmMapPage pmmAlloc m2 new (entriesToVaddr i j k l) (BitVec.ofNat 64 paddr)
        (m2.entry pml2 l &&& pteFlagMask)).map Prod.snd

/-- One of the nested loops of `vmm_fork_pagemap`: the body runs for every present entry. -/
def forEachPresent (body : Fin 512 → Machine σ → Option (Machine σ)) (table : ℕ)
    (range : List (Fin 512)) (m : Machine σ) : Option (Machine σ) :=
  range.foldlM (fun m i => if Present (m.entry table i) then body i m else some m) m

def forkTables (new : Pagemap) (topLevel : ℕ) (m : Machine σ) : Option (Machine σ) :=
  forEachPresent (fun i m =>
    let pml4 := frameOf (m.entry topLevel i)
    forEachPresent (fun j m =>
      let pml3 := frameOf (m.entry pml4 j)
      forEachPresent (fun k m =>
        let pml2 := frameOf (m.entry pml3 k)
        forEachPresent (fun l m => forkPage pmmAlloc new pml2 i j k l m) pml2 (List.finRange 512) m)
      pml3 (List.finRange 512) m)
    pml4 (List.finRange 512) m)
  topLevel userHalf m

def vmmForkPagemap (level5 : Bool) (kernelTop : ℕ) (m : Machine σ) (old : Pagemap) :
    Option (Option Pagemap × Machine σ) :=
  match vmmNewPagemap pmmAlloc level5 kernelTop m with
  | none => none
  | some (none, m1) => some (none, m1)
  | some (some new, m1) => (forkTables pmmAlloc new old.topLevel m1).map fun m2 => (some new, m2)

end Allocating

end PiggyOs.Vmm
