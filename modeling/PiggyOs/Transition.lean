import Mathlib.Tactic

/-! Finite runs of labelled transition systems and the invariant rule. -/
namespace PiggyOs.Transition

variable {σ ι : Type*} {Step Step' : σ → ι → σ → Prop}

inductive Run (Step : σ → ι → σ → Prop) : σ → List ι → σ → Prop
  | nil (s : σ) : Run Step s [] s
  | cons {s t u : σ} {a : ι} {as : List ι} : Step s a t → Run Step t as u → Run Step s (a :: as) u

lemma Run.single {s t : σ} {a : ι} (h : Step s a t) : Run Step s [a] t := .cons h (.nil t)

lemma Run.append {s t u : σ} {as bs : List ι} (h : Run Step s as t) (g : Run Step t bs u) :
    Run Step s (as ++ bs) u := by
  induction h with
  | nil s => exact g
  | cons hs _ ih => exact .cons hs (ih g)

/-- What holds at the start and is kept by every step holds at the end of every run. -/
theorem Run.invariant {Inv : σ → Prop} (keep : ∀ s a t, Inv s → Step s a t → Inv t)
    {s t : σ} {as : List ι} (h : Run Step s as t) (h0 : Inv s) : Inv t := by
  induction h with
  | nil s => exact h0
  | cons hs _ ih => exact ih (keep _ _ _ h0 hs)

lemma Run.mono (imp : ∀ s a t, Step s a t → Step' s a t) {s t : σ} {as : List ι}
    (h : Run Step s as t) : Run Step' s as t := by
  induction h with
  | nil s => exact .nil s
  | cons hs _ ih => exact .cons (imp _ _ _ hs) ih

/-- Runs whose steps all have one property are those whose steps all have another, if on the states
that they reach the two properties are the same. -/
theorem Run.congr {Inv : σ → Prop} {P Q : σ → ι → σ → Prop} (keep : ∀ s a t, Inv s → Step s a t → Q s a t → Inv t)
    (same : ∀ s a t, Inv s → Step s a t → (P s a t ↔ Q s a t)) {s t : σ} {as : List ι} (h0 : Inv s) :
    Run (fun s a t => Step s a t ∧ P s a t) s as t ↔ Run (fun s a t => Step s a t ∧ Q s a t) s as t := by
  constructor
  · intro h
    induction h with
    | nil s => exact .nil s
    | cons hs _ ih =>
      have hq := (same _ _ _ h0 hs.1).mp hs.2
      exact .cons ⟨hs.1, hq⟩ (ih (keep _ _ _ h0 hs.1 hq))
  · intro h
    induction h with
    | nil s => exact .nil s
    | cons hs _ ih => exact .cons ⟨hs.1, (same _ _ _ h0 hs.1).mpr hs.2⟩ (ih (keep _ _ _ h0 hs.1 hs.2))

end PiggyOs.Transition
