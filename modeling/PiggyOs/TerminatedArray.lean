import Mathlib.Data.List.Basic
import Mathlib.Logic.Function.Basic
import Mathlib.Tactic

/-! Arrays of pointers that end with a null pointer. -/
namespace PiggyOs.TerminatedArray
open Function

variable {α : Type*} {a : ℕ → Option α} {l : List α}

/-- The entries of a list, and null behind them. -/
def Holds (a : ℕ → Option α) (l : List α) : Prop := ∀ i ≤ l.length, a i = l[i]?

lemma Holds.entry (h : Holds a l) {i : ℕ} (hi : i < l.length) : a i = some l[i] :=
  (h i hi.le).trans (List.getElem?_eq_getElem hi)

lemma Holds.terminated (h : Holds a l) : a l.length = none := (h _ le_rfl).trans (List.getElem?_eq_none le_rfl)

lemma Holds.congr {a' : ℕ → Option α} (h : Holds a l) (heq : ∀ i ≤ l.length, a' i = a i) : Holds a' l :=
  fun i hi => (heq i hi).trans (h i hi)

/-- Another entry in a place. -/
lemma Holds.set (h : Holds a l) {i : ℕ} (hi : i < l.length) (x : α) : Holds (update a i (some x)) (l.set i x) := by
  intro j hj
  rw [List.length_set] at hj
  rw [List.getElem?_set]
  by_cases hij : j = i
  · subst hij
    rw [update_self, if_pos rfl, if_pos hi]
  · rw [update_of_ne hij, if_neg (Ne.symm hij), h j hj]

/-- Another entry behind the others. -/
lemma Holds.push (h : Holds a l) (x : α) :
    Holds (update (update a l.length (some x)) (l.length + 1) none) (l ++ [x]) := by
  intro j hj
  rw [List.length_append, List.length_singleton] at hj
  by_cases hlast : j = l.length + 1
  · subst hlast
    rw [update_self, List.getElem?_eq_none (by simp)]
  rw [update_of_ne hlast]
  by_cases hnew : j = l.length
  · subst hnew
    rw [update_self, List.getElem?_concat_length]
  · have hjlt : j < l.length := by omega
    rw [update_of_ne hnew, List.getElem?_append_left hjlt, h j hjlt.le]

/-- The last entry takes the place of another one. -/
def swapRemove (l : List α) (i : ℕ) : List α :=
  match l.getLast? with
  | none => []
  | some x => (l.set i x).dropLast

lemma swapRemove_perm {i : ℕ} (hi : i < l.length) : (swapRemove l i).Perm (l.eraseIdx i) := by
  induction l using List.reverseRecOn with
  | nil => exact absurd hi (Nat.not_lt_zero i)
  | append_singleton l x _ =>
    rw [List.length_append, List.length_singleton] at hi
    rw [swapRemove, List.getLast?_append, List.getLast?_singleton, Option.some_or]
    dsimp only
    by_cases hlast : i = l.length
    · subst hlast
      rw [List.set_append_right _ _ le_rfl, Nat.sub_self, List.eraseIdx_append_of_length_le le_rfl, Nat.sub_self,
        List.set_cons_zero, List.dropLast_concat, List.eraseIdx_cons_zero, List.append_nil]
    · have hilt : i < l.length := by omega
      rw [List.set_append_left _ _ hilt, List.dropLast_concat, List.eraseIdx_append_of_lt_length hilt]
      exact (List.set_perm_cons_eraseIdx hilt x).trans (List.perm_append_singleton x _).symm

lemma Holds.swapRemove (h : Holds a l) {i : ℕ} (hi : i < l.length) :
    Holds (update (update a i (a (l.length - 1))) (l.length - 1) none) (swapRemove l i) := by
  induction l using List.reverseRecOn with
  | nil => exact absurd hi (Nat.not_lt_zero i)
  | append_singleton l x _ =>
    have hlen : (l ++ [x]).length = l.length + 1 := by simp
    rw [hlen] at hi
    have hlast : a l.length = some x := by rw [h l.length (by simp), List.getElem?_concat_length]
    rw [TerminatedArray.swapRemove, List.getLast?_append, List.getLast?_singleton, Option.some_or, hlen,
      Nat.add_sub_cancel, hlast]
    dsimp only
    intro j hj
    rw [List.length_dropLast, List.length_set, hlen, Nat.add_sub_cancel] at hj
    by_cases hend : j = l.length
    · subst hend
      rw [update_self, List.getElem?_eq_none (by simp)]
    have hjlt : j < l.length := by omega
    rw [update_of_ne hend, List.getElem?_dropLast, List.length_set, hlen, Nat.add_sub_cancel, if_pos hjlt,
      List.getElem?_set]
    by_cases hij : j = i
    · subst hij
      rw [update_self, if_pos rfl, if_pos (by omega)]
    · rw [update_of_ne hij, if_neg (Ne.symm hij), h j (by omega)]

/-- The entries behind a place move down by one. -/
lemma Holds.shift {a' : ℕ → Option α} (h : Holds a l) {i : ℕ} (hi : i < l.length) (hlow : ∀ j < i, a' j = a j)
    (hhigh : ∀ j, i ≤ j → j < l.length → a' j = a (j + 1)) : Holds a' (l.eraseIdx i) := by
  intro j hj
  rw [List.length_eraseIdx_of_lt hi] at hj
  rw [List.getElem?_eraseIdx]
  split_ifs with hji
  · rw [hlow j hji, h j (by omega)]
  · rw [hhigh j (by omega) (by omega), h (j + 1) (by omega)]

end PiggyOs.TerminatedArray
