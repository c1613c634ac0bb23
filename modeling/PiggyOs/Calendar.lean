import Mathlib.Tactic

/-! The proleptic Gregorian calendar: days counted from the first of January 1970, in both directions.
Months are numbered from 0. -/
namespace PiggyOs.Calendar

def Leap (year : ℤ) : Prop := year % 4 = 0 ∧ (year % 100 ≠ 0 ∨ year % 400 = 0)

instance : DecidablePred Leap := fun _ => inferInstanceAs (Decidable (_ ∧ _))

def yearDays (year : ℤ) : ℤ := if Leap year then 366 else 365

def monthDays (year : ℤ) (mon : ℕ) : ℤ :=
  if mon = 1 then if Leap year then 29 else 28
  else if mon = 3 ∨ mon = 5 ∨ mon = 8 ∨ mon = 10 then 30 else 31

def daysToYear (year : ℤ) : ℤ :=
  365 * (year - 1970) + (year - 1969) / 4 - (year - 1901) / 100 + (year - 1601) / 400

def daysToMonth (year : ℤ) (mon : ℕ) : ℤ := ∑ i ∈ Finset.range mon, monthDays year i

section Years
variable {y z : ℤ}

lemma yearDays_bounds (y : ℤ) : 365 ≤ yearDays y ∧ yearDays y ≤ 366 := by
  unfold yearDays
  split_ifs <;> omega

@[simp] lemma daysToYear_epoch : daysToYear 1970 = 0 := rfl

/-- Year after year. -/
lemma daysToYear_succ (y : ℤ) : daysToYear (y + 1) = daysToYear y + yearDays y := by
  unfold daysToYear yearDays Leap
  split_ifs <;> omega

lemma daysToYear_pred (y : ℤ) : daysToYear (y - 1) = daysToYear y - yearDays (y - 1) := by
  have h := daysToYear_succ (y - 1)
  rw [sub_add_cancel] at h
  omega

lemma daysToYear_gap (h : y ≤ z) :
    daysToYear y + 365 * (z - y) ≤ daysToYear z ∧ daysToYear z ≤ daysToYear y + 366 * (z - y) := by
  induction z, h using Int.leInduction with
  | base => omega
  | succ z _ ih =>
    have := yearDays_bounds z
    rw [daysToYear_succ]
    omega

/-- A day lies in one year. -/
lemma year_unique {d : ℤ} (hy : daysToYear y ≤ d ∧ d < daysToYear (y + 1))
    (hz : daysToYear z ≤ d ∧ d < daysToYear (z + 1)) : y = z := by
  rcases lt_trichotomy y z with h | h | h
  · have := (daysToYear_gap (show y + 1 ≤ z from h)).1
    omega
  · exact h
  · have := (daysToYear_gap (show z + 1 ≤ y from h)).1
    omega

end Years

section Months
variable {y z : ℤ} {m n : ℕ}

lemma monthDays_bounds (y : ℤ) (m : ℕ) : 28 ≤ monthDays y m ∧ monthDays y m ≤ 31 := by
  unfold monthDays
  split_ifs <;> omega

@[simp] lemma daysToMonth_zero (y : ℤ) : daysToMonth y 0 = 0 := rfl

lemma daysToMonth_succ (y : ℤ) (m : ℕ) : daysToMonth y (m + 1) = daysToMonth y m + monthDays y m :=
  Finset.sum_range_succ ..

/-- The months make up the year. -/
lemma daysToMonth_twelve (y : ℤ) : daysToMonth y 12 = yearDays y := by
  unfold daysToMonth yearDays
  by_cases h : Leap y <;> simp [Finset.sum_range_succ, monthDays, h]

lemma daysToMonth_gap (y : ℤ) (h : m ≤ n) : daysToMonth y m + 28 * ((n : ℤ) - m) ≤ daysToMonth y n := by
  induction n, h using Nat.le_induction with
  | base => omega
  | succ n _ ih =>
    have := monthDays_bounds y n
    rw [daysToMonth_succ]
    push_cast
    omega

lemma daysToMonth_le (y : ℤ) (hm : m ≤ 12) : 0 ≤ daysToMonth y m ∧ daysToMonth y m ≤ yearDays y := by
  have h0 := daysToMonth_gap y (Nat.zero_le m)
  have h1 := daysToMonth_gap y hm
  rw [daysToMonth_zero] at h0
  rw [daysToMonth_twelve] at h1
  omega

/-- A day of the year lies in one month. -/
lemma month_unique {d : ℤ} (hm : daysToMonth y m ≤ d ∧ d < daysToMonth y (m + 1))
    (hn : daysToMonth y n ≤ d ∧ d < daysToMonth y (n + 1)) : m = n := by
  rcases lt_trichotomy m n with h | h | h
  · have := daysToMonth_gap y (show m + 1 ≤ n from h)
    omega
  · exact h
  · have := daysToMonth_gap y (show n + 1 ≤ m from h)
    omega

lemma daysToMonth_congr (h : Leap y ↔ Leap z) (m : ℕ) : daysToMonth y m = daysToMonth z m := by
  refine Finset.sum_congr rfl fun i _ => ?_
  simp only [monthDays, h]

/-- Only the 29th of February tells two years apart. -/
lemma daysToMonth_close (y z : ℤ) (m : ℕ) : daysToMonth y m ≤ daysToMonth z m + 1 := by
  have hterm : ∀ i ∈ Finset.range m, monthDays y i ≤ monthDays z i + if i = 1 then 1 else 0 := by
    intro i _
    unfold monthDays
    split_ifs <;> omega
  refine (Finset.sum_le_sum hterm).trans ?_
  rw [Finset.sum_add_distrib, Finset.sum_ite_eq', daysToMonth]
  split_ifs <;> omega

end Months

end PiggyOs.Calendar
