import Mathlib.Order.Filter.AtTopBot.Basic
import Mathlib.Tactic

/-! Computations that may need any amount of fuel. With more and more of it they settle on one value,
which is `none` if no amount is enough. -/
namespace PiggyOs.Fuel
open Filter

variable {α β : Type*} {f : ℕ → Option α} {v : Option α} {a : α}

structure Settles (f : ℕ → Option α) (v : Option α) : Prop where
  sound : ∀ n a, f n = some a → v = some a
  eventually : ∀ᶠ n in atTop, f n = v

lemma settles_const (v : Option α) : Settles (fun _ => v) v := ⟨fun _ _ h => h, .of_forall fun _ => rfl⟩

lemma Settles.unique {w : Option α} (h : Settles f v) (h' : Settles f w) : v = w := by
  obtain ⟨n, hn, hn'⟩ := (h.eventually.and h'.eventually).exists
  exact hn.symm.trans hn'

/-- Two computations give the same for enough fuel if and only if they settle to the same. -/
lemma Settles.eventually_eq_iff {g : ℕ → Option α} {w : Option α} (h : Settles f v) (hg : Settles g w) :
    (∀ᶠ n in atTop, f n = g n) ↔ v = w := by
  constructor
  · intro heq
    obtain ⟨n, ⟨hn, hv⟩, hw⟩ := ((heq.and h.eventually).and hg.eventually).exists
    exact hv.symm.trans (hn.trans hw)
  · intro hvw
    filter_upwards [h.eventually, hg.eventually] with n hv hw
    rw [hv, hw, hvw]

/-- The first unit of fuel may be spent without a step. -/
lemma Settles.of_succ (h0 : f 0 = none) (h : Settles (fun n => f (n + 1)) v) : Settles f v := by
  refine ⟨fun n a hn => ?_, ?_⟩
  · cases n with
    | zero => simp [h0] at hn
    | succ n => exact h.sound n a hn
  · filter_upwards [(tendsto_sub_atTop_nat 1).eventually h.eventually, eventually_gt_atTop 0] with n hn hpos
    rwa [Nat.sub_add_cancel hpos] at hn

/-- One computation after the other, with the same fuel. -/
lemma Settles.bind {g : ℕ → α → Option β} {w : α → Option β} (h : Settles f v)
    (hg : ∀ a, v = some a → Settles (fun n => g n a) (w a)) :
    Settles (fun n => (f n).bind (g n)) (v.bind w) := by
  refine ⟨fun n b hb => ?_, ?_⟩
  · obtain ⟨a, ha, hb⟩ := Option.bind_eq_some_iff.mp hb
    have hv := h.sound n a ha
    rw [hv, Option.bind_some]
    exact (hg a hv).sound n b hb
  · cases v with
    | none =>
      filter_upwards [h.eventually] with n hn
      rw [hn]
      rfl
    | some a =>
      filter_upwards [h.eventually, (hg a rfl).eventually] with n hn hb
      rw [hn]
      exact hb

lemma Settles.map (h : Settles f v) (g : α → β) : Settles (fun n => (f n).map g) (v.map g) := by
  simp only [Option.map_eq_bind]
  exact h.bind fun a _ => settles_const _

open Classical in
/-- What some amount of fuel gives. -/
noncomputable def limit (f : ℕ → Option α) : Option α := if h : ∃ a n, f n = some a then some h.choose else none

lemma settles_limit (mono : ∀ n a, f n = some a → f (n + 1) = some a) : Settles f (limit f) := by
  have hle : ∀ m n a, m ≤ n → f m = some a → f n = some a := by
    intro m n a hmn hm
    induction hmn with
    | refl => exact hm
    | step _ ih => exact mono _ a ih
  by_cases h : ∃ a n, f n = some a
  · obtain ⟨n, hn⟩ := h.choose_spec
    rw [limit, dif_pos h]
    refine ⟨fun m a hm => ?_, ?_⟩
    · have ha := hle m (max m n) a (le_max_left m n) hm
      have hc := hle n (max m n) _ (le_max_right m n) hn
      exact hc.symm.trans ha
    · filter_upwards [eventually_ge_atTop n] with m hm
      exact hle n m _ hm hn
  · rw [limit, dif_neg h]
    refine ⟨fun n a hn => absurd ⟨a, n, hn⟩ h, .of_forall fun n => ?_⟩
    exact Option.eq_none_iff_forall_not_mem.mpr fun a ha => h ⟨a, n, ha⟩

end PiggyOs.Fuel
