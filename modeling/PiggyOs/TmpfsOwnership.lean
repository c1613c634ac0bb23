import PiggyOs.Tmpfs
import PiggyOs.Transition

/-! Who owns the buffer of a file of `tmpfs`. Blocks are numbered in the order in which they are
allocated, so that a number stands for one allocation. -/
namespace PiggyOs.Tmpfs
open ByteMemory Transition

/-- The size of the blocks that are allocated, and how often a block was passed to `kfree`. -/
structure Blocks where
  live : ℕ → Option ℕ
  frees : ℕ → ℕ

def Blocks.kmalloc (heap : Blocks) (b size : ℕ) : Blocks := { heap with live := Function.update heap.live b (some size) }

def Blocks.kfree (heap : Blocks) (b : ℕ) : Blocks where
  live := Function.update heap.live b none
  frees := Function.update heap.frees b (heap.frees b + 1)

/-- How `krealloc` ends: without memory, with the block where it was, or with another one. -/
inductive Realloc
  | failed | inPlace | moved (b : ℕ)
  deriving DecidableEq, Repr

/-- The old block is freed if and only if the new one is another. -/
def Blocks.krealloc (heap : Blocks) (b size : ℕ) : Realloc → Option ℕ × Blocks
  | .failed => (none, heap)
  | .inPlace => (some b, heap.kmalloc b size)
  | .moved b' => (some b', (heap.kmalloc b' size).kfree b)

/-- `struct tmp_node_metadata`, with `st_size` and the heap. -/
structure OwnedFile where
  capacity : BitVec 64
  size : BitVec 64
  data : ℕ
  heap : Blocks

inductive Change
  | write (offset count : BitVec 64) (realloc : Realloc)
  | truncate (length : BitVec 64) (realloc : Realloc)

/-- `tmpfs_write` up to the copy, and whether there is memory. -/
def growForWrite (file : OwnedFile) (sum : BitVec 64) (realloc : Realloc) : Option (Bool × OwnedFile) :=
  if file.capacity.ule sum then
    (doubleUntil (fun c => sum.ult c) rounds file.capacity).map fun c =>
      match file.heap.krealloc file.data c.toNat realloc with
      | (none, heap) => (false, { file with heap := heap })
      | (some newData, heap) => (true, { file with data := newData, capacity := c, heap := heap })
  else some (true, file)

def writeOwned (file : OwnedFile) (offset count : BitVec 64) (realloc : Realloc) : Option OwnedFile :=
  (growForWrite file (offset + count) realloc).map fun (enough, file) =>
    if enough then { file with size := if file.size.sle (offset + count) then offset + count else file.size } else file

/-- `tmpfs_truncate` frees the old block once more. -/
def growForTruncate (file : OwnedFile) (length : BitVec 64) (realloc : Realloc) : Option (Bool × OwnedFile) :=
  if file.capacity.ult length then
    (doubleUntil (fun c => length.ule c) rounds file.capacity).map fun c =>
      match file.heap.krealloc file.data c.toNat realloc with
      | (none, heap) => (false, { file with heap := heap })
      | (some newData, heap) => (true, { file with capacity := c, data := newData, heap := heap.kfree file.data })
  else some (true, file)

def truncateOwned (file : OwnedFile) (length : BitVec 64) (realloc : Realloc) : Option OwnedFile :=
  (growForTruncate file length realloc).map fun (enough, file) => if enough then { file with size := length } else file

def change (file : OwnedFile) : Change → Option OwnedFile
  | .write offset count realloc => writeOwned file offset count realloc
  | .truncate length realloc => truncateOwned file length realloc

def Change.realloc : Change → Realloc
  | .write _ _ realloc => realloc
  | .truncate _ realloc => realloc

/-- A call that returns. A block that `krealloc` moves to is a new one. -/
def Changes (file : OwnedFile) (c : Change) (file' : OwnedFile) : Prop :=
  (∀ b, c.realloc = .moved b → file.heap.live b = none ∧ file.heap.frees b = 0) ∧ change file c = some file'

/-- The buffer is allocated and large enough for its capacity, the file fits, and no block was freed
twice. -/
structure Owns (file : OwnedFile) : Prop where
  live : ∃ size, file.heap.live file.data = some size ∧ file.capacity.toNat ≤ size
  fits : file.size.toNat ≤ file.capacity.toNat
  once : ∀ b, file.heap.frees b ≤ 1

/-- What is kept besides: a block that is allocated was not freed, and the capacity is a power of two. -/
structure Sound (file : OwnedFile) : Prop extends Owns file where
  unfreed : ∀ b, file.heap.live b ≠ none → file.heap.frees b = 0
  capacity : ∃ k, 12 ≤ k ∧ k ≤ 63 ∧ file.capacity.toNat = 2 ^ k

/-- No truncation gets a larger buffer. -/
def NoGrowth (file : OwnedFile) : Change → Prop
  | .write .. => True
  | .truncate length realloc => file.capacity.ult length = true → realloc = .failed

/-- `tmpfs_create` with a block that `kmalloc` returns. -/
def createOwned (heap : Blocks) (b : ℕ) : OwnedFile := ⟨4096, 0, b, heap.kmalloc b 4096⟩

section Contents
variable {file : OwnedFile} {realloc : Realloc}

lemma krealloc_of_ne_failed (heap : Blocks) (b size : ℕ) (h : realloc ≠ .failed) :
    ∃ b' heap', heap.krealloc b size realloc = (some b', heap') := by
  cases realloc with
  | failed => exact absurd rfl h
  | inPlace => exact ⟨_, _, rfl⟩
  | moved => exact ⟨_, _, rfl⟩

/-- With memory for the buffer, capacity and size are those of the file whose bytes are modelled. -/
lemma writeOwned_eq (h : realloc ≠ .failed) (stale data buf : Memory) (offset count : BitVec 64) :
    (writeOwned file offset count realloc).map (fun f => (f.capacity, f.size)) =
      (tmpfsWrite stale ⟨file.capacity, file.size, data⟩ buf offset count).map fun f => (f.capacity, f.size) := by
  unfold writeOwned growForWrite tmpfsWrite writeBuffer grow
  dsimp only
  split_ifs
  · simp only [Option.map_map]
    refine congrArg (fun g => Option.map g _) (funext fun c => ?_)
    obtain ⟨b', heap', hrealloc⟩ := krealloc_of_ne_failed file.heap file.data c.toNat h
    simp [hrealloc]
  · rfl

lemma truncateOwned_eq (h : realloc ≠ .failed) (stale data : Memory) (length : BitVec 64) :
    (truncateOwned file length realloc).map (fun f => (f.capacity, f.size)) =
      (tmpfsTruncate stale ⟨file.capacity, file.size, data⟩ length).map fun f => (f.capacity, f.size) := by
  unfold truncateOwned growForTruncate tmpfsTruncate truncateBuffer grow
  dsimp only
  split_ifs
  · simp only [Option.map_map]
    refine congrArg (fun g => Option.map g _) (funext fun c => ?_)
    obtain ⟨b', heap', hrealloc⟩ := krealloc_of_ne_failed file.heap file.data c.toNat h
    simp [hrealloc]
  · rfl

end Contents

section Heaps
variable {heap : Blocks} {b b' size : ℕ}

@[simp] lemma kmalloc_live_self (heap : Blocks) (b size : ℕ) : (heap.kmalloc b size).live b = some size :=
  Function.update_self ..

lemma kmalloc_live_of_ne (heap : Blocks) (size : ℕ) (h : b' ≠ b) : (heap.kmalloc b size).live b' = heap.live b' :=
  Function.update_of_ne h ..

@[simp] lemma kmalloc_frees (heap : Blocks) (b size : ℕ) : (heap.kmalloc b size).frees = heap.frees := rfl

@[simp] lemma kfree_live_self (heap : Blocks) (b : ℕ) : (heap.kfree b).live b = none := Function.update_self ..

lemma kfree_live_of_ne (heap : Blocks) (h : b' ≠ b) : (heap.kfree b).live b' = heap.live b' := Function.update_of_ne h ..

@[simp] lemma kfree_frees_self (heap : Blocks) (b : ℕ) : (heap.kfree b).frees b = heap.frees b + 1 :=
  Function.update_self ..

lemma kfree_frees_of_ne (heap : Blocks) (h : b' ≠ b) : (heap.kfree b).frees b' = heap.frees b' := Function.update_of_ne h ..

end Heaps

section Capacities
variable {enough : BitVec 64 → Bool} {n k : ℕ} {c c' : BitVec 64}

lemma doubleUntil_enough (h : doubleUntil enough n c = some c') : enough c' = true := by
  induction n generalizing c with
  | zero => simp [doubleUntil] at h
  | succ n ih =>
    rw [doubleUntil] at h
    split_ifs at h with he
    · obtain rfl := Option.some.inj h
      exact he
    · exact ih h

lemma doubleUntil_zero (h0 : enough 0 = false) : doubleUntil enough n 0 = none := by
  induction n with
  | zero => rfl
  | succ n ih =>
    rw [doubleUntil, if_neg (Bool.eq_false_iff.mp h0)]
    exact ih

/-- The loop ends with a power of two that is not smaller. -/
lemma doubleUntil_pow (h0 : enough 0 = false) (hk : k ≤ 63) (hc : c.toNat = 2 ^ k) (h : doubleUntil enough n c = some c') :
    ∃ k', k ≤ k' ∧ k' ≤ 63 ∧ c'.toNat = 2 ^ k' := by
  induction n generalizing c k with
  | zero => simp [doubleUntil] at h
  | succ n ih =>
    rw [doubleUntil] at h
    split_ifs at h with he
    · obtain rfl := Option.some.inj h
      exact ⟨k, le_rfl, hk, hc⟩
    · have htwo : (2 : BitVec 64).toNat = 2 := rfl
      have hdouble : (c * 2).toNat = 2 ^ (k + 1) % 2 ^ 64 := by rw [BitVec.toNat_mul, hc, htwo, ← pow_succ]
      by_cases hlast : k = 63
      · have hzero : c * 2 = 0 := by
          rw [BitVec.toNat_eq, hdouble, hlast]
          rfl
        rw [hzero, doubleUntil_zero h0] at h
        exact absurd h (by simp)
      · rw [Nat.mod_eq_of_lt (Nat.pow_lt_pow_right (by norm_num) (by omega))] at hdouble
        obtain ⟨k', hle, h63, hk'⟩ := ih (by omega) hdouble h
        exact ⟨k', by omega, h63, hk'⟩

end Capacities

section Ownership
variable {file file' : OwnedFile} {offset count length c : BitVec 64} {realloc : Realloc}

lemma Sound.data_unfreed (h : Sound file) : file.heap.frees file.data = 0 := by
  obtain ⟨size, hlive, -⟩ := h.live
  exact h.unfreed _ (by simp [hlive])

/-- A larger buffer, as `tmpfs_write` takes it. -/
lemma Sound.grown {newData : ℕ} {heap : Blocks} (h : Sound file) (hle : file.capacity.toNat ≤ c.toNat)
    (hpow : ∃ k, 12 ≤ k ∧ k ≤ 63 ∧ c.toNat = 2 ^ k)
    (hfresh : ∀ b, realloc = .moved b → file.heap.live b = none ∧ file.heap.frees b = 0)
    (hrealloc : file.heap.krealloc file.data c.toNat realloc = (some newData, heap)) :
    Sound { file with data := newData, capacity := c, heap := heap } := by
  obtain ⟨size, hlive, -⟩ := h.live
  have hfits := h.fits
  cases realloc with
  | failed => simp [Blocks.krealloc] at hrealloc
  | inPlace =>
    obtain ⟨hdata, rfl⟩ := Prod.mk.inj hrealloc
    obtain rfl := Option.some.inj hdata
    refine ⟨⟨⟨_, kmalloc_live_self .., le_rfl⟩, hfits.trans hle, h.once⟩, fun b hb => ?_, hpow⟩
    by_cases hbd : b = file.data
    · rw [hbd]
      exact h.data_unfreed
    · exact h.unfreed b (kmalloc_live_of_ne _ _ hbd ▸ hb)
  | moved b' =>
    obtain ⟨hdata, rfl⟩ := Prod.mk.inj hrealloc
    obtain rfl := Option.some.inj hdata
    obtain ⟨hnone, hzero⟩ := hfresh b' rfl
    have hne : b' ≠ file.data := by
      rintro rfl
      rw [hlive] at hnone
      exact absurd hnone (by simp)
    refine ⟨⟨⟨c.toNat, ?_, le_rfl⟩, hfits.trans hle, fun b => ?_⟩, fun b hb => ?_, hpow⟩
    · exact (kfree_live_of_ne _ hne).trans (kmalloc_live_self ..)
    · by_cases hbd : b = file.data
      · rw [hbd, kfree_frees_self, kmalloc_frees, h.data_unfreed]
      · rw [kfree_frees_of_ne _ hbd]
        exact h.once b
    · have hbd : b ≠ file.data := by
        rintro rfl
        exact hb (kfree_live_self ..)
      rw [kfree_frees_of_ne _ hbd, kmalloc_frees]
      by_cases hbb : b = b'
      · rw [hbb]
        exact hzero
      · dsimp only at hb
        rw [kfree_live_of_ne _ hbd, kmalloc_live_of_ne _ _ hbb] at hb
        exact h.unfreed b hb

lemma Sound.setSize (h : Sound file) (hsize : length.toNat ≤ file.capacity.toNat) : Sound { file with size := length } :=
  ⟨⟨h.live, hsize, h.once⟩, h.unfreed, h.capacity⟩

/-- `tmpfs_write` keeps the buffer its own. -/
lemma Sound.write (h : Sound file) (hfresh : ∀ b, realloc = .moved b → file.heap.live b = none ∧ file.heap.frees b = 0)
    (hwrite : writeOwned file offset count realloc = some file') : Sound file' := by
  obtain ⟨⟨enough, f⟩, hgrow, rfl⟩ := Option.map_eq_some_iff.mp hwrite
  have hsize : ∀ f : OwnedFile, Sound f → (offset + count).toNat < f.capacity.toNat →
      Sound { f with size := if f.size.sle (offset + count) then offset + count else f.size } := by
    intro f hf hlt
    refine hf.setSize ?_
    split_ifs
    · exact hlt.le
    · exact hf.fits
  unfold growForWrite at hgrow
  split_ifs at hgrow with hfull
  · obtain ⟨c, hc, hrealloc⟩ := Option.map_eq_some_iff.mp hgrow
    have hlt := doubleUntil_enough hc
    rw [BitVec.ult, decide_eq_true_eq] at hlt
    obtain ⟨k, h12, h63, hk⟩ := h.capacity
    obtain ⟨k', hle, h63', hk'⟩ := doubleUntil_pow (by simp [BitVec.ult]) h63 hk hc
    have hlarger : file.capacity.toNat ≤ c.toNat := by
      rw [hk, hk']
      exact Nat.pow_le_pow_right (by norm_num) hle
    cases hheap : file.heap.krealloc file.data c.toNat realloc with
    | mk result heap =>
      rw [hheap] at hrealloc
      cases result with
      | none =>
        obtain ⟨rfl, rfl⟩ := Prod.mk.inj hrealloc
        cases realloc with
        | failed =>
          obtain ⟨-, rfl⟩ := Prod.mk.inj hheap
          exact h
        | inPlace => simp [Blocks.krealloc] at hheap
        | moved => simp [Blocks.krealloc] at hheap
      | some newData =>
        obtain ⟨rfl, rfl⟩ := Prod.mk.inj hrealloc
        exact hsize _ (h.grown hlarger ⟨k', by omega, h63', hk'⟩ hfresh hheap) hlt
  · obtain ⟨rfl, rfl⟩ := Prod.mk.inj (Option.some.inj hgrow)
    rw [BitVec.ule, decide_eq_true_eq] at hfull
    exact hsize _ h (by omega)

/-- `tmpfs_truncate` keeps it if it does not get a larger one. -/
lemma Sound.truncate (h : Sound file) (hgrowth : NoGrowth file (.truncate length realloc))
    (htruncate : truncateOwned file length realloc = some file') : Sound file' := by
  obtain ⟨⟨enough, f⟩, hgrow, rfl⟩ := Option.map_eq_some_iff.mp htruncate
  unfold growForTruncate at hgrow
  split_ifs at hgrow with hfull
  · obtain ⟨c, -, hrealloc⟩ := Option.map_eq_some_iff.mp hgrow
    rw [hgrowth hfull] at hrealloc
    obtain ⟨rfl, rfl⟩ := Prod.mk.inj hrealloc
    exact h
  · obtain ⟨rfl, rfl⟩ := Prod.mk.inj (Option.some.inj hgrow)
    rw [BitVec.ult, decide_eq_true_eq] at hfull
    exact h.setSize (by omega)

/-- Otherwise it has lost the buffer, or it has freed the old one twice. -/
lemma not_owns_of_growth (hgrowth : ¬NoGrowth file (.truncate length realloc))
    (htruncate : truncateOwned file length realloc = some file') : ¬Owns file' := by
  intro howns
  obtain ⟨hfull, hmemory⟩ := Classical.not_imp.mp hgrowth
  obtain ⟨⟨enough, f⟩, hgrow, rfl⟩ := Option.map_eq_some_iff.mp htruncate
  unfold growForTruncate at hgrow
  rw [if_pos hfull] at hgrow
  obtain ⟨c, -, hrealloc⟩ := Option.map_eq_some_iff.mp hgrow
  cases realloc with
  | failed => exact hmemory rfl
  | inPlace =>
    obtain ⟨rfl, rfl⟩ := Prod.mk.inj hrealloc
    obtain ⟨size, hlive, -⟩ := howns.live
    exact absurd ((kfree_live_self ..).symm.trans hlive) (by simp)
  | moved b' =>
    obtain ⟨rfl, rfl⟩ := Prod.mk.inj hrealloc
    have honce := howns.once file.data
    change (((file.heap.kmalloc b' c.toNat).kfree file.data).kfree file.data).frees file.data ≤ 1 at honce
    rw [kfree_frees_self, kfree_frees_self] at honce
    omega

end Ownership

section Runs
variable {file : OwnedFile} {heap : Blocks} {b : ℕ} {changes : List Change}

lemma createOwned_sound (hb : heap.live b = none ∧ heap.frees b = 0) (honce : ∀ b, heap.frees b ≤ 1)
    (hunfreed : ∀ b, heap.live b ≠ none → heap.frees b = 0) : Sound (createOwned heap b) := by
  refine ⟨⟨⟨4096, kmalloc_live_self .., le_rfl⟩, Nat.zero_le _, honce⟩, fun b' hb' => ?_, 12, le_rfl, by norm_num, rfl⟩
  by_cases hne : b' = b
  · rw [hne]
    exact hb.2
  · exact hunfreed b' (kmalloc_live_of_ne _ _ hne ▸ hb')

/-- From its creation on a file owns its buffer after every call if and only if no truncation gets a
larger one. -/
theorem tmpfs_owns_buffer (hb : heap.live b = none ∧ heap.frees b = 0) (honce : ∀ b, heap.frees b ≤ 1)
    (hunfreed : ∀ b, heap.live b ≠ none → heap.frees b = 0) :
    Run (fun file c file' => Changes file c file' ∧ Owns file') (createOwned heap b) changes file ↔
      Run (fun file c file' => Changes file c file' ∧ NoGrowth file c) (createOwned heap b) changes file := by
  have hkeep : ∀ file c file', Sound file → Changes file c file' → NoGrowth file c → Sound file' := by
    intro file c file' h hchange hgrowth
    cases c with
    | write offset count realloc => exact h.write hchange.1 hchange.2
    | truncate length realloc => exact h.truncate hgrowth hchange.2
  refine Run.congr hkeep (fun file c file' h hchange => ?_) (createOwned_sound hb honce hunfreed)
  by_cases hgrowth : NoGrowth file c
  · exact iff_of_true (hkeep file c file' h hchange hgrowth).toOwns hgrowth
  · refine iff_of_false ?_ hgrowth
    cases c with
    | write => exact absurd trivial hgrowth
    | truncate length realloc => exact not_owns_of_growth hgrowth hchange.2

/-- Before anything is allocated. -/
def noBlocks : Blocks := ⟨fun _ => none, fun _ => 0⟩

theorem tmpfs_owns_buffer_write : ∃ file, Run (fun file c file' => Changes file c file' ∧ Owns file')
    (createOwned noBlocks 0) [.write 4000 200 (.moved 1), .truncate 100 .failed] file := by
  have hrun : ∃ file, Run (fun file c file' => Changes file c file' ∧ NoGrowth file c)
      (createOwned noBlocks 0) [.write 4000 200 (.moved 1), .truncate 100 .failed] file := by
    refine ⟨_, .cons ⟨⟨fun b hb => ?_, rfl⟩, trivial⟩ (.single ⟨⟨fun b hb => ?_, rfl⟩, fun h => ?_⟩)⟩
    · obtain rfl := Realloc.moved.inj hb
      exact ⟨rfl, rfl⟩
    · exact Realloc.noConfusion hb
    · rfl
  obtain ⟨file, hrun⟩ := hrun
  exact ⟨file, (tmpfs_owns_buffer ⟨rfl, rfl⟩ (fun _ => Nat.zero_le _) fun _ _ => rfl).mpr hrun⟩

/-- Block 0 is freed twice. -/
theorem tmpfs_double_free : ¬∀ heap b changes file, heap.live b = none ∧ heap.frees b = 0 → (∀ b, heap.frees b ≤ 1) →
    (∀ b, heap.live b ≠ none → heap.frees b = 0) → Run Changes (createOwned heap b) changes file → Owns file := by
  intro h
  have hrun : Run Changes (createOwned noBlocks 0) [.truncate 5000 (.moved 1)]
      ⟨8192, 5000, 1, (((noBlocks.kmalloc 0 4096).kmalloc 1 8192).kfree 0).kfree 0⟩ := by
    refine .single ⟨fun b hb => ?_, rfl⟩
    obtain rfl := Realloc.moved.inj hb
    exact ⟨rfl, rfl⟩
  have howns := h _ _ _ _ ⟨rfl, rfl⟩ (fun _ => Nat.zero_le _) (fun _ _ => rfl) hrun
  exact absurd (howns.once 0) (by decide)

end Runs

end PiggyOs.Tmpfs
