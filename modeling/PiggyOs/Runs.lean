import Mathlib.Data.List.TakeWhile
import Mathlib.Tactic

/-! The maximal runs of a list without separators, each with the place where it begins. -/
namespace PiggyOs.Runs

variable {α : Type*} {sep : α → Bool} {l : List α} {o p q e : ℕ}

/-- No separator stands at `o`, but one before it, or nothing. -/
def begins (sep : α → Bool) (l : List α) (o : ℕ) : Bool :=
  l[o]?.any (fun x => !sep x) && (o == 0 || l[o - 1]?.any sep)

def runAt (sep : α → Bool) (l : List α) (o : ℕ) : List α := (l.drop o).takeWhile fun x => !sep x

/-- The runs that begin at `p` or behind. -/
def runsFrom (sep : α → Bool) (l : List α) (p : ℕ) : List (ℕ × List α) :=
  ((List.range' p (l.length - p)).filter (begins sep l)).map fun o => (o, runAt sep l o)

def runs (sep : α → Bool) (l : List α) : List (ℕ × List α) := runsFrom sep l 0

/-- How far the elements behind `p` satisfy `P`. -/
lemma exists_stop (P : α → Bool) (hp : p ≤ l.length) : ∃ e, p ≤ e ∧ e ≤ l.length ∧
    (∀ k, p ≤ k → k < e → l[k]?.any P) ∧ (e = l.length ∨ l[e]?.any fun x => !P x) := by
  induction hn : l.length - p generalizing p with
  | zero => exact ⟨p, le_rfl, hp, fun k hk hlt => by omega, Or.inl (by omega)⟩
  | succ n ih =>
    have hlt : p < l.length := by omega
    have hget := List.getElem?_eq_getElem hlt
    by_cases hP : P l[p]
    · obtain ⟨e, hpe, he, hall, hstop⟩ := ih hlt (by omega)
      refine ⟨e, by omega, he, fun k hk hke => ?_, hstop⟩
      obtain rfl | hk := Nat.eq_or_lt_of_le hk
      · rw [hget]
        exact hP
      · exact hall k hk hke
    · refine ⟨p, le_rfl, hp, fun k hk hlt => by omega, Or.inr ?_⟩
      rw [hget]
      simpa using hP

lemma begins_of_sep (h : l[o]?.any sep) : begins sep l o = false := by
  rw [Option.any_eq_true] at h
  obtain ⟨x, hx, hsep⟩ := h
  simp [begins, hx, hsep]

lemma runsFrom_split {p q : ℕ} (hpq : p ≤ q) (hq : q ≤ l.length) : runsFrom sep l p =
    ((List.range' p (q - p)).filter (begins sep l)).map (fun o => (o, runAt sep l o)) ++ runsFrom sep l q := by
  rw [runsFrom, runsFrom, ← List.map_append, ← List.filter_append]
  have hrange : List.range' p (l.length - p) = List.range' p (q - p) ++ List.range' q (l.length - q) := by
    have happend := List.range'_append_1 (s := p) (m := q - p) (n := l.length - q)
    rw [show p + (q - p) = q by omega, show q - p + (l.length - q) = l.length - p by omega] at happend
    exact happend.symm
  rw [hrange]

/-- Where nothing begins nothing is found. -/
lemma runsFrom_skip (hpq : p ≤ q) (hq : q ≤ l.length) (h : ∀ k, p ≤ k → k < q → begins sep l k = false) :
    runsFrom sep l p = runsFrom sep l q := by
  rw [runsFrom_split hpq hq, List.filter_eq_nil_iff.mpr]
  · rfl
  · intro k hk
    obtain ⟨hpk, hkq⟩ := List.mem_range'_1.mp hk
    rw [h k hpk (by omega)]
    exact Bool.false_ne_true

lemma runsFrom_end (h : l.length ≤ p) : runsFrom sep l p = [] := by
  rw [runsFrom, Nat.sub_eq_zero_of_le h]
  rfl

/-- Separators, then a run up to a separator or the end. -/
lemma runsFrom_cons (hpq : p ≤ q) (hqe : q < e) (he : e ≤ l.length) (hfirst : p = 0 ∨ l[p - 1]?.any sep)
    (hseps : ∀ k, p ≤ k → k < q → l[k]?.any sep) (hrun : ∀ k, q ≤ k → k < e → l[k]?.any fun x => !sep x) :
    runsFrom sep l p = (q, runAt sep l q) :: runsFrom sep l e := by
  have hq : q < l.length := by omega
  have hbegin : begins sep l q = true := by
    rw [begins, hrun q le_rfl hqe, Bool.true_and, Bool.or_eq_true, beq_iff_eq]
    obtain rfl | hlt := Nat.eq_or_lt_of_le hpq
    · exact hfirst
    · exact Or.inr (hseps (q - 1) (by omega) (by omega))
  have hrest : runsFrom sep l (q + 1) = runsFrom sep l e := by
    refine runsFrom_skip hqe he fun k hk hke => ?_
    have hbefore := hrun (k - 1) (by omega) (by omega)
    rw [Option.any_eq_true] at hbefore
    obtain ⟨x, hx, hsep⟩ := hbefore
    rw [Bool.not_eq_true'] at hsep
    simp [begins, hx, hsep, show k ≠ 0 by omega]
  have hone : q.succ - q = 1 := by omega
  rw [runsFrom_skip hpq hq.le fun k hk hkq => begins_of_sep (hseps k hk hkq), runsFrom_split (Nat.le_succ q) hq, hrest,
    hone, List.range'_one, List.filter_cons_of_pos hbegin, List.filter_nil]
  rfl

lemma runAt_eq_take (hrun : ∀ k, q ≤ k → k < e → l[k]?.any fun x => !sep x) (hqe : q ≤ e)
    (hend : e = l.length ∨ l[e]?.any sep) : runAt sep l q = (l.drop q).take (e - q) := by
  have hfront : ∀ x ∈ (l.drop q).take (e - q), (!sep x) = true := by
    intro x hx
    obtain ⟨k, hk⟩ := List.mem_iff_getElem?.mp hx
    rw [List.getElem?_take] at hk
    split_ifs at hk with hlt
    rw [List.getElem?_drop] at hk
    have hany := hrun (q + k) (by omega) (by omega)
    rwa [hk] at hany
  have hback : ((l.drop q).drop (e - q)).takeWhile (fun x => !sep x) = [] := by
    rw [List.drop_drop, show q + (e - q) = e by omega]
    obtain rfl | hsep := hend
    · rw [List.drop_length, List.takeWhile_nil]
    · obtain ⟨x, hx, hsep⟩ := (Option.any_eq_true ..).mp hsep
      obtain ⟨hlt, rfl⟩ := List.getElem?_eq_some_iff.mp hx
      rw [List.drop_eq_getElem_cons hlt, List.takeWhile_cons_of_neg (by simp [hsep])]
  rw [runAt, ← List.take_append_drop (e - q) (l.drop q), List.takeWhile_append_of_pos hfront, hback, List.append_nil,
    List.take_append_drop]

/-- The runs are what stands between separators, and the ends of the list. -/
theorem mem_runs {t : List α} : (o, t) ∈ runs sep l ↔ ∃ before behind, l = before ++ t ++ behind ∧ before.length = o ∧
    t ≠ [] ∧ (∀ x ∈ t, sep x = false) ∧ (∀ x ∈ before.getLast?, sep x) ∧ ∀ x ∈ behind.head?, sep x := by
  simp only [runs, runsFrom, List.mem_map, List.mem_filter, List.mem_range'_1, Prod.mk.injEq, Nat.sub_zero, zero_add,
    Nat.zero_le, true_and]
  constructor
  · rintro ⟨_, ⟨ho, hbegin⟩, rfl, rfl⟩
    rename_i o
    rw [begins, Bool.and_eq_true, Bool.or_eq_true, beq_iff_eq, Option.any_eq_true] at hbegin
    obtain ⟨⟨x, hx, hsep⟩, hfirst⟩ := hbegin
    obtain ⟨hlt, rfl⟩ := List.getElem?_eq_some_iff.mp hx
    rw [Bool.not_eq_true'] at hsep
    refine ⟨l.take o, (l.drop o).dropWhile fun x => !sep x, ?_, List.length_take_of_le ho.le, ?_, ?_, ?_, ?_⟩
    · rw [runAt, List.append_assoc, List.takeWhile_append_dropWhile, List.take_append_drop]
    · rw [runAt, List.drop_eq_getElem_cons ho, List.takeWhile_cons_of_pos (by rw [hsep]; rfl)]
      exact List.cons_ne_nil _ _
    · intro x hx
      simpa using List.mem_takeWhile_imp hx
    · intro x hx
      rw [List.getLast?_take] at hx
      split_ifs at hx with h0
      · exact absurd hx (Option.not_mem_none x)
      · obtain ⟨y, hy, hysep⟩ := (Option.any_eq_true ..).mp (hfirst.resolve_left h0)
        rw [hy, Option.some_or, Option.mem_some] at hx
        exact hx ▸ hysep
    · intro x hx
      have hhead := List.head?_dropWhile_not (fun x => !sep x) (l.drop o)
      rw [Option.mem_def.mp hx] at hhead
      simpa using hhead
  · rintro ⟨before, behind, rfl, rfl, hne, hrun, hbefore, hbehind⟩
    have hrunAt : runAt sep (before ++ t ++ behind) before.length = t := by
      rw [runAt, List.append_assoc, List.drop_left, List.takeWhile_append_of_pos fun x hx => by simp [hrun x hx]]
      cases behind with
      | nil => rw [List.takeWhile_nil, List.append_nil]
      | cons x behind => rw [List.takeWhile_cons_of_neg (by simp [hbehind x rfl]), List.append_nil]
    obtain ⟨x, t, rfl⟩ := List.exists_cons_of_ne_nil hne
    refine ⟨before.length, ⟨by simp, ?_⟩, rfl, hrunAt⟩
    rw [begins, Bool.and_eq_true, Bool.or_eq_true, beq_iff_eq]
    constructor
    · rw [List.append_assoc, List.getElem?_append_right le_rfl, Nat.sub_self]
      simp [hrun x (List.mem_cons_self ..)]
    · obtain rfl | ⟨before, y, rfl⟩ := List.eq_nil_or_concat' before
      · exact Or.inl rfl
      · right
        rw [List.length_append, List.length_singleton, Nat.add_sub_cancel]
        simp [hbefore y (by simp)]

lemma runs_sorted (sep : α → Bool) (l : List α) : (runs sep l).Pairwise fun r r' => r.1 < r'.1 := by
  rw [runs, runsFrom, List.pairwise_map]
  exact (List.pairwise_lt_range' ..).sublist List.filter_sublist

end PiggyOs.Runs
