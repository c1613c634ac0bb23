import Mathlib.Tactic

/-! Deterministic machines that answer every call, and the simulation rule: machines whose states
stay related give the same answers. -/
namespace PiggyOs.Simulation

variable {σ τ ι ω : Type*} {step : σ → ι → ω × σ} {step' : τ → ι → ω × τ}

def outputs (step : σ → ι → ω × σ) : σ → List ι → List ω
  | _, [] => []
  | s, i :: is => (step s i).1 :: outputs step (step s i).2 is

def after (step : σ → ι → ω × σ) : σ → List ι → σ
  | s, [] => s
  | s, i :: is => after step (step s i).2 is

/-- What holds at the start and is kept by every call holds after every sequence of calls. -/
theorem after_invariant {Inv : σ → Prop} {s : σ} (h0 : Inv s)
    (keep : ∀ s i, Inv s → Inv (step s i).2) (is : List ι) : Inv (after step s is) := by
  induction is generalizing s with
  | nil => exact h0
  | cons i is ih => exact ih (keep s i h0)

/-- One call at a time: the same answer, and related states again. -/
theorem simulation {R : σ → τ → Prop} {s : σ} {t : τ} (h0 : R s t)
    (sim : ∀ s t i, R s t → (step s i).1 = (step' t i).1 ∧ R (step s i).2 (step' t i).2) (is : List ι) :
    outputs step s is = outputs step' t is ∧ R (after step s is) (after step' t is) := by
  induction is generalizing s t with
  | nil => exact ⟨rfl, h0⟩
  | cons i is ih =>
    obtain ⟨hout, hrel⟩ := sim s t i h0
    obtain ⟨houts, hend⟩ := ih hrel
    exact ⟨by rw [outputs, outputs, hout, houts], hend⟩

end PiggyOs.Simulation
