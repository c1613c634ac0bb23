import PiggyOs.ByteMemory

/-! The partition tables of a block device and the device nodes that are created for their entries. -/
namespace PiggyOs.PartitionScan
open ByteMemory

section Slots
variable {α : Type} (stride : ℕ) (create : ℕ → ℕ → Option α)

/-- The loop over the entries: where each round looks and what it creates. The pointer moves on only behind an entry for
which something has been created. -/
def visit : ℕ → ℕ → ℕ → List (ℕ × Option α)
  | 0, _, _ => []
  | n + 1, i, p => (p, create i p) :: visit n (i + 1) (if (create i p).isSome then p + stride else p)

/-- One after the other, `stride` bytes apart. -/
def tabulated (n i p : ℕ) : List α := (List.range n).filterMap fun k => create (i + k) (p + stride * k)

def created (n i p : ℕ) : List α := (visit stride create n i p).filterMap Prod.snd

variable {stride create}

lemma tabulated_succ (n i p : ℕ) :
    tabulated stride create (n + 1) i p = (create i p).toList ++ tabulated stride create n (i + 1) (p + stride) := by
  have hnext : ∀ k, create (i + (k + 1)) (p + stride * (k + 1)) = create (i + 1 + k) (p + stride + stride * k) := by
    intro k
    congr 1 <;> ring
  simp only [tabulated, List.range_succ_eq_map, List.filterMap_cons, List.filterMap_map, Function.comp_def, hnext,
    Nat.add_zero, Nat.mul_zero]
  cases create i p <;> rfl

lemma created_succ (n i p : ℕ) : created stride create (n + 1) i p = (create i p).toList ++
    created stride create n (i + 1) (if (create i p).isSome then p + stride else p) := by
  simp only [created, visit, List.filterMap_cons]
  cases create i p <;> rfl

lemma tabulated_eq_nil_iff {n i p : ℕ} :
    tabulated stride create n i p = [] ↔ ∀ k < n, create (i + k) (p + stride * k) = none := by
  simp [tabulated, List.filterMap_eq_nil_iff]

/-- Each place that is visited is at most a stride behind the one before it. -/
lemma le_of_mem_visit {n i p q : ℕ} {r : Option α} (h : (q, r) ∈ visit stride create n i p) :
    q ≤ p + stride * (n - 1) := by
  induction n generalizing i p with
  | zero => exact absurd h List.not_mem_nil
  | succ n ih =>
    obtain heq | hmem := List.mem_cons.mp h
    · rw [(Prod.mk.inj heq).1]
      exact Nat.le_add_right _ _
    · have hle := ih hmem
      have hn : 0 < n := by
        cases n with
        | zero => exact absurd hmem List.not_mem_nil
        | succ n => exact n.succ_pos
      have hstep : stride * n = stride * (n - 1) + stride := by
        rw [← Nat.mul_succ, Nat.succ_eq_add_one, Nat.sub_add_cancel hn]
      rw [Nat.add_sub_cancel, hstep]
      split_ifs at hle <;> omega

/-- If something is always created, the last place is the last slot. -/
lemma mem_visit_last (hall : ∀ i p, (create i p).isSome) (n i p : ℕ) :
    (p + stride * n, create (i + n) (p + stride * n)) ∈ visit stride create (n + 1) i p := by
  induction n generalizing i p with
  | zero => exact List.mem_cons_self
  | succ n ih =>
    have hnext := ih (i + 1) (p + stride)
    rw [show p + stride + stride * n = p + stride * (n + 1) by ring, show i + 1 + n = i + (n + 1) by ring] at hnext
    rw [visit, if_pos (hall i p)]
    exact List.mem_cons_of_mem _ hnext

section Gaps
variable {used : ℕ → Prop} (hused : ∀ i p, (create i p).isSome ↔ used p)
include hused

/-- Behind an unused entry nothing is created. -/
lemma created_of_unused {p : ℕ} (h : ¬ used p) (n i : ℕ) : created stride create n i p = [] := by
  induction n generalizing i with
  | zero => rfl
  | succ n ih =>
    have hnone : create i p = none := Option.not_isSome_iff_eq_none.mp (mt (hused i p).mp h)
    rw [created_succ, hnone]
    exact ih (i + 1)

/-- The loop finds all entries exactly if no used one stands behind an unused one. -/
lemma created_eq_tabulated_iff (n i p : ℕ) : created stride create n i p = tabulated stride create n i p ↔
    ∀ k < n, used (p + stride * k) → ∀ j < k, used (p + stride * j) := by
  induction n generalizing i p with
  | zero => exact iff_of_true rfl fun k hk => absurd hk (Nat.not_lt_zero k)
  | succ n ih =>
    have hshift : ∀ k, p + stride + stride * k = p + stride * (k + 1) := fun k => by ring
    by_cases hp : used p
    · rw [created_succ, tabulated_succ, if_pos ((hused i p).mpr hp), List.append_cancel_left_eq, ih]
      constructor
      · intro h k hk hk' j hj
        cases j with
        | zero => exact hp
        | succ j =>
          cases k with
          | zero => exact absurd hj (Nat.not_lt_zero _)
          | succ k =>
            rw [← hshift] at hk' ⊢
            exact h k (Nat.lt_of_succ_lt_succ hk) hk' j (Nat.lt_of_succ_lt_succ hj)
      · intro h k hk hk' j hj
        rw [hshift] at hk' ⊢
        exact h (k + 1) (Nat.succ_lt_succ hk) hk' (j + 1) (Nat.succ_lt_succ hj)
    · rw [created_of_unused hused hp, eq_comm, tabulated_eq_nil_iff]
      constructor
      · intro h k hk hk'
        have hsome := (hused (i + k) _).mpr hk'
        rw [h k hk] at hsome
        exact absurd hsome Bool.false_ne_true
      · intro h k hk
        refine Option.not_isSome_iff_eq_none.mp fun hsome => ?_
        have hk' := (hused (i + k) _).mp hsome
        cases k with
        | zero => exact hp hk'
        | succ k => exact hp (h (k + 1) hk hk' 0 k.succ_pos)

end Gaps

end Slots

def read16 (m : Memory) (a : ℕ) : BitVec 16 := BitVec.ofNat 16 (readNat m a 2)
def read32 (m : Memory) (a : ℕ) : BitVec 32 := BitVec.ofNat 32 (readNat m a 4)

def gptAttributesDontmount : BitVec 64 := 1 <<< 1
def gptAttributesLegacy : BitVec 64 := 1 <<< 2

structure GptHeader where
  signature : List (BitVec 8)
  length : BitVec 32
  lba : BitVec 64
  first : BitVec 64
  last : BitVec 64
  partitionLba : BitVec 64
  entryCount : BitVec 32
  entrySize : BitVec 32

def gptHeader (m : Memory) (a : ℕ) : GptHeader where
  signature := readBytes m a 8
  length := read32 m (a + 12)
  lba := read64 m (a + 24)
  first := read64 m (a + 40)
  last := read64 m (a + 48)
  partitionLba := read64 m (a + 72)
  entryCount := read32 m (a + 80)
  entrySize := read32 m (a + 84)

structure GptEntry where
  uniqueGuidLow : BitVec 64
  uniqueGuidHigh : BitVec 64
  startLba : BitVec 64
  endLba : BitVec 64
  attributes : BitVec 64

def gptEntry (m : Memory) (a : ℕ) : GptEntry where
  uniqueGuidLow := read64 m (a + 16)
  uniqueGuidHigh := read64 m (a + 24)
  startLba := read64 m (a + 32)
  endLba := read64 m (a + 40)
  attributes := read64 m (a + 48)

/-- `sizeof(struct gpt_entry)`. -/
def gptEntrySize : ℕ := 128

structure MbrEntry where
  type : BitVec 8
  startLba : BitVec 32
  sectorCount : BitVec 32

def mbrEntry (m : Memory) (a : ℕ) : MbrEntry where
  type := m (a + 4)
  startLba := read32 m (a + 8)
  sectorCount := read32 m (a + 12)

def mbrEntrySize : ℕ := 16

/-- A device: what it holds, and what its `read` returns for an offset and a count. -/
structure BlockDevice where
  name : List Char
  blksize : BitVec 64
  disk : Memory
  result : BitVec 64 → BitVec 64 → BitVec 64

/-- The node of a partition with its metadata. -/
structure PartitionNode where
  name : List Char
  startLba : BitVec 64
  sectorCount : BitVec 64
  size : BitVec 64
  blksize : BitVec 64
  deriving DecidableEq

def partitionName (dev : BlockDevice) (i : ℕ) : List Char := (dev.name ++ 'p' :: Nat.toDigits 10 i).take 11

def partitionNode (dev : BlockDevice) (i : ℕ) (startLba sectorCount : BitVec 64) : PartitionNode where
  name := partitionName dev i
  startLba := startLba
  sectorCount := sectorCount
  size := sectorCount * dev.blksize
  blksize := dev.blksize

/-- What an allocated block holds after the device has filled its first `count` bytes from `offset` on; `stale` is what
stood there before, and what is found where there is no block. -/
def filled (block : Option ℕ) (dev : BlockDevice) (stale : Memory) (offset count : BitVec 64) : Memory := fun k =>
  if block.isSome ∧ k < count.toNat then dev.disk (offset.toNat + k) else stale k

def GptEntry.empty (e : GptEntry) : Bool := e.uniqueGuidLow = 0 ∧ e.uniqueGuidHigh = 0

def GptEntry.skipped (e : GptEntry) : Bool := e.attributes &&& (gptAttributesDontmount ||| gptAttributesLegacy) ≠ 0

/-- What one round of the loop creates. -/
def gptRound (dev : BlockDevice) (m : Memory) (i p : ℕ) : Option PartitionNode :=
  let e := gptEntry m p
  if e.empty then none
  else if e.skipped then none
  else some (partitionNode dev i e.startLba (e.endLba - e.startLba))

/-- The bytes of the entry that the round reads. -/
def gptRoundReads (m : Memory) (p : ℕ) : List (ℕ × ℕ) :=
  let e := gptEntry m p
  [(p + 16, 8)] ++ (if e.uniqueGuidLow = 0 then [(p + 24, 8)] else []) ++
    if e.empty then [] else [(p + 48, 8)] ++ if e.skipped then [] else [(p + 40, 8), (p + 32, 8)]

/-- `ALIGN_UP` of the 32-bit product, in signed 64-bit arithmetic. -/
def alignedSize (h : GptHeader) (blksize : BitVec 64) : BitVec 64 :=
  ((h.entryCount * h.entrySize).setWidth 64 + (blksize - 1)).sdiv blksize * blksize

/-- The table that is asked for, the block for it, the bytes of the block that are read and the nodes. -/
structure GptRun where
  requested : BitVec 64
  block : Option ℕ
  reads : List (ℕ × ℕ)
  nodes : List PartitionNode

/-- `none` for a division by zero. -/
def enumGpt (kmalloc : BitVec 64 → Option ℕ) (dev : BlockDevice) (stale : Memory) (h : GptHeader) : Option GptRun :=
  if dev.blksize = 0 then none
  else
    let size := alignedSize h dev.blksize
    let offset := h.partitionLba * dev.blksize
    let block := kmalloc size
    if dev.result offset size ≠ size then some ⟨size, block, [], []⟩
    else
      let m := filled block dev stale offset size
      let rounds := visit gptEntrySize (gptRound dev m) h.entryCount.toNat 0 0
      some ⟨size, block, rounds.flatMap fun r => gptRoundReads m r.1, rounds.filterMap Prod.snd⟩

def mbrRound (dev : BlockDevice) (m : Memory) (i p : ℕ) : Option PartitionNode :=
  let e := mbrEntry m p
  if e.type = 0 then none
  else some (partitionNode dev i (e.startLba.setWidth 64) (e.sectorCount.setWidth 64))

def mbrHint (m : Memory) : Bool := read16 m 444 = 0 ∨ read16 m 444 = 0x5a5a

def enumMbr (kmalloc : BitVec 64 → Option ℕ) (dev : BlockDevice) (stale : Memory) : List PartitionNode :=
  let m := filled (kmalloc dev.blksize) dev stale 0 dev.blksize
  if dev.result 0 dev.blksize ≠ dev.blksize then []
  else if !mbrHint m then []
  else created mbrEntrySize (mbrRound dev m) 4 0 446

def efiPart : List (BitVec 8) := [0x45, 0x46, 0x49, 0x20, 0x50, 0x41, 0x52, 0x54]

/-- The checks of `partition_scan`. -/
def GptHeader.accepted (h : GptHeader) : Bool :=
  h.signature = efiPart ∧ ¬ h.length < 92 ∧ h.lba = 1 ∧ ¬ h.last < h.first

/-- The nodes that are created; nothing where the header cannot be read. -/
def partitionScan (kmalloc : BitVec 64 → Option ℕ) (dev : BlockDevice) (stale : Memory) : Option (List PartitionNode) :=
  if dev.result 512 dev.blksize ≠ dev.blksize then some []
  else
    let h := gptHeader (filled (kmalloc dev.blksize) dev stale 512 dev.blksize) 0
    if h.accepted then (enumGpt kmalloc dev stale h).map GptRun.nodes else some (enumMbr kmalloc dev stale)

/-- A used entry that is to be mounted. -/
def GptEntry.Mounted (e : GptEntry) : Prop :=
  (e.uniqueGuidLow ≠ 0 ∨ e.uniqueGuidHigh ≠ 0) ∧ e.attributes.getLsbD 1 = false ∧ e.attributes.getLsbD 2 = false

instance (e : GptEntry) : Decidable e.Mounted := inferInstanceAs (Decidable (_ ∧ _))

lemma and_six_eq_zero (v : BitVec 64) : v &&& 6 = 0 ↔ v.getLsbD 1 = false ∧ v.getLsbD 2 = false := by
  constructor
  · intro h
    constructor
    · have hbit := congrArg (BitVec.getLsbD · 1) h
      simpa using hbit
    · have hbit := congrArg (BitVec.getLsbD · 2) h
      simpa using hbit
  · rintro ⟨h1, h2⟩
    apply BitVec.eq_of_getLsbD_eq
    intro i hi
    rw [BitVec.getLsbD_and]
    obtain rfl | rfl | hne : i = 1 ∨ i = 2 ∨ i ≠ 1 ∧ i ≠ 2 := by omega
    · rw [h1]
      rfl
    · rw [h2]
      rfl
    · have hsix : ∀ i < 64, i ≠ 1 ∧ i ≠ 2 → (6 : BitVec 64).getLsbD i = false := by decide
      rw [hsix i hi hne, Bool.and_false]
      exact BitVec.getLsbD_zero.symm

lemma gptEntry_unmounted_iff (e : GptEntry) : e.empty = true ∨ e.skipped = true ↔ ¬ e.Mounted := by
  have hmask : gptAttributesDontmount ||| gptAttributesLegacy = 6 := by decide
  have hbits := and_six_eq_zero e.attributes
  simp only [GptEntry.empty, GptEntry.skipped, GptEntry.Mounted, hmask, decide_eq_true_eq, ← hbits]
  tauto

lemma gptRound_eq (dev : BlockDevice) (m : Memory) (i p : ℕ) : gptRound dev m i p =
    if (gptEntry m p).Mounted then
      some (partitionNode dev i (gptEntry m p).startLba ((gptEntry m p).endLba - (gptEntry m p).startLba))
    else none := by
  have hcases := gptEntry_unmounted_iff (gptEntry m p)
  by_cases hmounted : (gptEntry m p).Mounted
  · have hno : ¬ ((gptEntry m p).empty = true ∨ (gptEntry m p).skipped = true) := fun h => hcases.mp h hmounted
    rw [gptRound, if_neg fun h => hno (Or.inl h), if_neg fun h => hno (Or.inr h), if_pos hmounted]
  · rw [gptRound, if_neg hmounted]
    split_ifs with hempty hskipped
    · rfl
    · rfl
    · exact absurd (hcases.mpr hmounted) (not_or.mpr ⟨hempty, hskipped⟩)

lemma gptRound_isSome (dev : BlockDevice) (m : Memory) (i p : ℕ) :
    (gptRound dev m i p).isSome ↔ (gptEntry m p).Mounted := by
  rw [gptRound_eq]
  split_ifs with h
  · exact iff_of_true rfl h
  · exact iff_of_false Bool.false_ne_true h

/-- `count` bytes, rounded up to whole blocks. -/
def roundUp (count blksize : ℕ) : ℕ := (count + (blksize - 1)) / blksize * blksize

section Sizes
variable {blksize : BitVec 64}

lemma le_roundUp {b : ℕ} (hb : 0 < b) (n : ℕ) : n ≤ roundUp n b := by
  have hmod := Nat.mod_lt (n + (b - 1)) hb
  have hdiv := Nat.div_add_mod' (n + (b - 1)) b
  rw [roundUp]
  omega

lemma roundUp_lt {b : ℕ} (hb : 0 < b) (n : ℕ) : roundUp n b < n + b := by
  have hle := Nat.div_mul_le_self (n + (b - 1)) b
  rw [roundUp]
  omega

lemma roundUp_zero {b : ℕ} (hb : 0 < b) : roundUp 0 b = 0 := by
  rw [roundUp, Nat.zero_add, Nat.div_eq_of_lt (by omega), Nat.zero_mul]

lemma le_roundUp_of_pos {b n : ℕ} (hn : 0 < n) : b ≤ roundUp n b := by
  obtain rfl | hb := Nat.eq_zero_or_pos b
  · exact Nat.zero_le _
  · exact Nat.le_mul_of_pos_left b (Nat.div_pos (by omega) hb)

lemma toNat_alignedSize (h : GptHeader) (hpos : 0 < blksize.toNat) (hlt : blksize.toNat < 2 ^ 32) :
    (alignedSize h blksize).toNat = roundUp (h.entryCount * h.entrySize).toNat blksize.toNat := by
  have hp := (h.entryCount * h.entrySize).isLt
  have hminus : (blksize - 1).toNat = blksize.toNat - 1 := by
    have hone : (1 : BitVec 64) ≤ blksize := BitVec.le_def.mpr hpos
    rw [BitVec.toNat_sub_of_le hone]
    rfl
  have hsum : ((h.entryCount * h.entrySize).setWidth 64 + (blksize - 1)).toNat =
      (h.entryCount * h.entrySize).toNat + (blksize.toNat - 1) := by
    rw [BitVec.toNat_add, hminus, BitVec.toNat_setWidth_of_le (by decide), Nat.mod_eq_of_lt (by omega)]
  have hmsb : ∀ v : BitVec 64, v.toNat < 2 ^ 63 → v.msb = false := by
    intro v hv
    rw [BitVec.msb_eq_decide]
    exact decide_eq_false (not_le.mpr hv)
  have hround := roundUp_lt hpos (h.entryCount * h.entrySize).toNat
  rw [alignedSize, BitVec.sdiv_eq, hmsb _ (by omega), hmsb _ (by omega), BitVec.toNat_mul]
  dsimp only
  rw [BitVec.udiv_eq, BitVec.toNat_udiv, hsum, ← roundUp, Nat.mod_eq_of_lt (by omega)]

end Sizes

end PiggyOs.PartitionScan
