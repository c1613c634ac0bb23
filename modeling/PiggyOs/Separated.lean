import Mathlib.Data.List.DropRight
import Mathlib.Data.List.TakeWhile
import Mathlib.Tactic

/-! The non-empty parts of a list between separators. -/
namespace PiggyOs.Separated

variable {α : Type*} [DecidableEq α] {sep x : α} {l l' c : List α}

def components (sep : α) (l : List α) : List (List α) := (l.splitOn sep).filter (· ≠ [])

@[simp] lemma components_nil : components sep [] = [] := by simp [components]

lemma components_append_sep (l l' : List α) :
    components sep (l ++ sep :: l') = components sep l ++ components sep l' := by
  simp only [components, List.splitOn_eq_splitOnP]
  rw [List.splitOnP_append_cons _ _ (by simp), List.filter_append]

@[simp] lemma components_sep_cons (l : List α) : components sep (sep :: l) = components sep l :=
  (components_append_sep [] l).trans (by simp)

lemma components_of_notMem (h : sep ∉ l) (hl : l ≠ []) : components sep l = [l] := by
  rw [components, List.splitOn_eq_singleton h]
  simp [hl]

lemma components_append_of_notMem (l : List α) (h : sep ∉ c) (hc : c ≠ []) :
    components sep (l ++ sep :: c) = components sep l ++ [c] := by
  rw [components_append_sep, components_of_notMem h hc]

lemma components_replicate (n : ℕ) (l : List α) :
    components sep (List.replicate n sep ++ l) = components sep l := by
  induction n with
  | zero => rfl
  | succ n ih => rw [List.replicate_succ, List.cons_append, components_sep_cons, ih]

lemma components_append_replicate (l : List α) (n : ℕ) :
    components sep (l ++ List.replicate n sep) = components sep l := by
  induction n with
  | zero => rw [List.replicate_zero, List.append_nil]
  | succ n ih =>
    have hn : components sep (List.replicate n sep) = [] := by simpa using components_replicate n []
    rw [List.replicate_succ, components_append_sep, hn, List.append_nil]

/-- Separators in front of a list do not count. -/
lemma components_dropWhile (l : List α) : components sep (l.dropWhile (· = sep)) = components sep l := by
  induction l with
  | nil => rfl
  | cons x l ih =>
    by_cases hx : x = sep
    · subst hx
      simpa using ih
    · simp [hx]

/-- The first part goes up to the first separator. -/
lemma components_cons (hx : x ≠ sep) : components sep (x :: l) =
    (x :: l).takeWhile (· ≠ sep) :: components sep ((x :: l).dropWhile (· ≠ sep)) := by
  have hnot : sep ∉ (x :: l).takeWhile (· ≠ sep) := fun h => by simpa using List.mem_takeWhile_imp h
  have hne : (x :: l).takeWhile (· ≠ sep) ≠ [] := by simp [hx]
  conv_lhs => rw [← List.takeWhile_append_dropWhile (p := fun y => decide (y ≠ sep)) (l := x :: l)]
  cases hd : (x :: l).dropWhile (· ≠ sep) with
  | nil => rw [List.append_nil, components_of_notMem hnot hne, components_nil]
  | cons y t =>
    have hy : y = sep := by
      have hhead := List.head?_dropWhile_not (fun y => decide (y ≠ sep)) (x :: l)
      rw [hd] at hhead
      simpa using hhead
    subst hy
    rw [components_append_sep, components_of_notMem hnot hne, components_sep_cons, List.singleton_append]

lemma mem_components (hc : c ∈ components sep l) : c ≠ [] ∧ sep ∉ c ∧ c ⊆ l := by
  induction hn : l.length using Nat.strong_induction_on generalizing l with
  | _ n ih =>
    cases l with
    | nil => simp at hc
    | cons x l =>
      by_cases hx : x = sep
      · subst hx
        rw [components_sep_cons] at hc
        obtain ⟨h1, h2, h3⟩ := ih l.length (by simp [← hn]) hc rfl
        exact ⟨h1, h2, fun y hy => List.mem_cons_of_mem _ (h3 hy)⟩
      · rw [components_cons hx, List.mem_cons] at hc
        rcases hc with rfl | hc
        · refine ⟨by simp [hx], fun h => by simpa using List.mem_takeWhile_imp h, ?_⟩
          exact (List.takeWhile_prefix _).subset
        · have hlt : ((x :: l).dropWhile (· ≠ sep)).length < n := by
            have := (List.dropWhile_suffix (fun y => decide (y ≠ sep)) (l := l)).length_le
            simp [hx, ← hn] at this ⊢
            omega
          obtain ⟨h1, h2, h3⟩ := ih _ hlt hc rfl
          exact ⟨h1, h2, fun y hy => (List.dropWhile_suffix _).subset (h3 hy)⟩

/-- The last part, with what stands before and behind it. -/
lemma components_last (h : components sep l ≠ []) : ∃ p c n, l = p ++ c ++ List.replicate n sep ∧ c ≠ [] ∧
    sep ∉ c ∧ (p = [] ∨ p.getLast? = some sep) ∧ components sep l = components sep p ++ [c] := by
  induction l using List.reverseRecOn with
  | nil => simp at h
  | append_singleton l x ih =>
    by_cases hx : x = sep
    · subst hx
      have hl : components x (l ++ [x]) = components x l := components_append_replicate l 1
      rw [hl] at h ⊢
      obtain ⟨p, c, n, hlc, hrest⟩ := ih h
      refine ⟨p, c, n + 1, ?_, hrest⟩
      rw [hlc, List.replicate_succ', List.append_assoc]
    · have hnot : sep ∉ (l ++ [x]).rtakeWhile (· ≠ sep) := fun hin => by
        simpa using List.mem_rtakeWhile_imp hin
      have hne : (l ++ [x]).rtakeWhile (· ≠ sep) ≠ [] := by
        rw [List.rtakeWhile_concat_pos _ _ _ (by simpa using hx)]
        simp
      have hsplit := List.rdropWhile_append_rtakeWhile (p := fun y => decide (y ≠ sep)) (l := l ++ [x])
      refine ⟨_, _, 0, by rw [List.replicate_zero, List.append_nil, hsplit], hne, hnot, ?_⟩
      rcases List.eq_nil_or_concat ((l ++ [x]).rdropWhile (· ≠ sep)) with hp | ⟨p, y, hp⟩
      · refine ⟨Or.inl hp, ?_⟩
        conv_lhs => rw [← hsplit]
        rw [hp, List.nil_append, components_of_notMem hnot hne, components_nil, List.nil_append]
      · rw [List.concat_eq_append] at hp
        have hy : y = sep := by
          have hhead := List.head?_dropWhile_not (fun y => decide (y ≠ sep)) (l ++ [x]).reverse
          have hrev := List.reverse_eq_iff.mp hp
          rw [hrev, List.reverse_append] at hhead
          simpa using hhead
        subst hy
        refine ⟨Or.inr (by rw [hp, List.getLast?_concat]), ?_⟩
        conv_lhs => rw [← hsplit]
        have hp' : components y (p ++ [y]) = components y p := components_append_replicate p 1
        rw [hp, List.append_assoc, List.singleton_append, components_append_of_notMem p hnot hne, hp']

end PiggyOs.Separated
