import Mathlib.Tactic
import Mathlib.Data.Finset.Card

/-! Bit arrays kept eight bits to a byte. Every operation is characterised by the
bits it reads back, so users of the arrays never look at the bytes again. -/
namespace PiggyOs.Bitmap

abbrev Bytes := ℕ → BitVec 8

def mask (b : ℕ) : BitVec 8 := 1#8 <<< (b % 8)

def test (a : Bytes) (b : ℕ) : Bool := a (b / 8) &&& mask b != 0#8

def set (a : Bytes) (b : ℕ) : Bytes := Function.update a (b / 8) (a (b / 8) ||| mask b)

def clear (a : Bytes) (b : ℕ) : Bytes := Function.update a (b / 8) (a (b / 8) &&& ~~~mask b)

lemma mask_getLsbD (b i : ℕ) : (mask b).getLsbD i = decide (i = b % 8) := by
  have h : b % 8 < 8 := Nat.mod_lt _ (by decide)
  simp only [mask, BitVec.getLsbD_shiftLeft, BitVec.getLsbD_one]
  by_cases hi : i = b % 8
  · simp [hi, h]
  · have hd : i < b % 8 ∨ i - b % 8 ≠ 0 := by omega
    rcases hd with hd | hd <;> simp [hd, hi]

lemma test_eq (a : Bytes) (b : ℕ) : test a b = (a (b / 8)).getLsbD (b % 8) := by
  have h : b % 8 < 8 := Nat.mod_lt _ (by decide)
  rw [test, Bool.eq_iff_iff, bne_iff_ne, ne_eq, BitVec.eq_of_getLsbD_eq_iff]
  simp only [BitVec.getLsbD_and, mask_getLsbD, BitVec.getLsbD_zero]
  constructor
  · intro hn
    by_contra hc
    apply hn
    intro i _
    by_cases hi : i = b % 8
    · subst hi
      simpa using hc
    · simp [hi]
  · intro ht hn
    simpa [ht] using hn (b % 8) h

lemma same_byte {i j : ℕ} (hd : i / 8 = j / 8) : i % 8 = j % 8 ↔ i = j := by
  constructor <;> intro h <;> omega

@[simp] theorem test_set (a : Bytes) (i j : ℕ) :
    test (set a i) j = (decide (i = j) || test a j) := by
  simp only [test_eq, set, Function.update_apply]
  split_ifs with h
  · have hm := same_byte h
    simp only [h, BitVec.getLsbD_or, mask_getLsbD, hm, eq_comm (a := i)]
    rw [Bool.or_comm]
  · have hne : i ≠ j := by rintro rfl; exact h rfl
    simp [hne]

@[simp] theorem test_clear (a : Bytes) (i j : ℕ) :
    test (clear a i) j = (!decide (i = j) && test a j) := by
  have hlt : j % 8 < 8 := Nat.mod_lt _ (by decide)
  simp only [test_eq, clear, Function.update_apply]
  split_ifs with h
  · have hm := same_byte h
    simp only [h, BitVec.getLsbD_and, BitVec.getLsbD_not, mask_getLsbD, hm, hlt, eq_comm (a := i),
      decide_true, Bool.true_and]
    rw [Bool.and_comm]
  · have hne : i ≠ j := by rintro rfl; exact h rfl
    simp [hne]

/-- Set `count` consecutive bits, lowest first. -/
def setRange (a : Bytes) (start : ℕ) : ℕ → Bytes
  | 0 => a
  | count + 1 => setRange (set a start) (start + 1) count

/-- Clear `count` consecutive bits, lowest first. -/
def clearRange (a : Bytes) (start : ℕ) : ℕ → Bytes
  | 0 => a
  | count + 1 => clearRange (clear a start) (start + 1) count

@[simp] theorem test_setRange (a : Bytes) (start count j : ℕ) :
    test (setRange a start count) j = (decide (start ≤ j ∧ j < start + count) || test a j) := by
  induction count generalizing a start with
  | zero =>
    have hn : ¬ (start ≤ j ∧ j < start + 0) := by omega
    simp only [setRange, hn, decide_false, Bool.false_or]
  | succ n ih =>
    rw [setRange, ih, test_set, ← Bool.or_assoc]
    congr 1
    rw [Bool.eq_iff_iff]
    simp only [Bool.or_eq_true, decide_eq_true_eq]
    omega

@[simp] theorem test_clearRange (a : Bytes) (start count j : ℕ) :
    test (clearRange a start count) j = (!decide (start ≤ j ∧ j < start + count) && test a j) := by
  induction count generalizing a start with
  | zero =>
    have hn : ¬ (start ≤ j ∧ j < start + 0) := by omega
    simp only [clearRange, hn, decide_false, Bool.not_false, Bool.true_and]
  | succ n ih =>
    rw [clearRange, ih, test_clear, ← Bool.and_assoc]
    congr 1
    rw [Bool.eq_iff_iff]
    simp only [Bool.and_eq_true, Bool.not_eq_true', decide_eq_false_iff_not]
    omega

/-- How many of the first `n` bits are set. -/
def countSet (a : Bytes) (n : ℕ) : ℕ := ((Finset.range n).filter fun i => test a i = true).card

lemma countSet_zero (n : ℕ) : countSet (fun _ => 0) n = 0 := by
  simp [countSet, test]

lemma countSet_set {a : Bytes} {i n : ℕ} (hi : i < n) (h : test a i = false) :
    countSet (set a i) n = countSet a n + 1 := by
  have he : (Finset.range n).filter (fun j => test (set a i) j = true) =
      insert i ((Finset.range n).filter fun j => test a j = true) := by
    ext j
    simp only [Finset.mem_filter, Finset.mem_insert, Finset.mem_range, test_set, Bool.or_eq_true,
      decide_eq_true_eq]
    constructor
    · rintro ⟨hj, rfl | ht⟩
      · exact Or.inl rfl
      · exact Or.inr ⟨hj, ht⟩
    · rintro (rfl | ⟨hj, ht⟩)
      · exact ⟨hi, Or.inl rfl⟩
      · exact ⟨hj, Or.inr ht⟩
  rw [countSet, he, Finset.card_insert_of_notMem (by simp [h])]
  rfl

lemma countSet_clear {a : Bytes} {i n : ℕ} (hi : i < n) (h : test a i = true) :
    countSet (clear a i) n + 1 = countSet a n := by
  have he : (Finset.range n).filter (fun j => test (clear a i) j = true) =
      ((Finset.range n).filter fun j => test a j = true).erase i := by
    ext j
    simp only [Finset.mem_filter, Finset.mem_erase, Finset.mem_range, test_clear, Bool.and_eq_true,
      Bool.not_eq_true', decide_eq_false_iff_not]
    constructor
    · rintro ⟨hj, hne, ht⟩
      exact ⟨fun he => hne he.symm, hj, ht⟩
    · rintro ⟨hne, hj, ht⟩
      exact ⟨hj, fun he => hne he.symm, ht⟩
  rw [countSet, he, Finset.card_erase_add_one (by simp [hi, h])]
  rfl

/-- A first clear bit is found as long as one is left. -/
lemma find_clear {a : Bytes} {n : ℕ} (h : countSet a n < n) :
    ∃ i, ((List.range n).find? fun i => !test a i) = some i ∧ i < n ∧ test a i = false := by
  have hex : ∃ i < n, test a i = false := by
    by_contra hc
    push Not at hc
    have hall : (Finset.range n).filter (fun i => test a i = true) = Finset.range n :=
      Finset.filter_true_of_mem fun i hi => by simpa using hc i (Finset.mem_range.mp hi)
    rw [countSet, hall, Finset.card_range] at h
    omega
  obtain ⟨i, hi, ht⟩ := hex
  have hs : ((List.range n).find? fun i => !test a i).isSome := by
    rw [List.find?_isSome]
    exact ⟨i, List.mem_range.mpr hi, by simp [ht]⟩
  obtain ⟨j, hj⟩ := Option.isSome_iff_exists.mp hs
  refine ⟨j, hj, List.mem_range.mp (List.mem_of_find?_eq_some hj), ?_⟩
  simpa using List.find?_some hj

lemma find_clear_zero (n : ℕ) :
    ((List.range (n + 1)).find? fun i => !test (fun _ => 0) i) = some 0 := by
  rw [List.range_succ_eq_map, List.find?_cons_of_pos (by simp [test])]

end PiggyOs.Bitmap
