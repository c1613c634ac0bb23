import PiggyOs.PmmContract

/-! When `pmm_alloc` overlooks pages that it could give out. -/
namespace PiggyOs.Pmm
open Bitmap Transition

/-- The `pages` pages from `q` on are all free. -/
def FreeRun (bitmap : Bytes) (q pages : ℕ) : Prop := ∀ i < pages, test bitmap (q + i) = false

instance (bitmap : Bytes) (q pages : ℕ) : Decidable (FreeRun bitmap q pages) :=
  inferInstanceAs (Decidable (∀ i < pages, _))

/-- The allocator panics only if no page range below `highestPageIndex` would do. -/
def Complete (s : State) (pages : ℕ) : Prop :=
  pmmAlloc s pages = none → ∀ q, q + pages ≤ s.highestPageIndex → ¬ FreeRun s.bitmap q pages

/-- A call from anywhere in the kernel. Nothing checks what is released. -/
def Called (s : State) (c : Call) (t : State) : Prop :=
  match c with
  | .alloc pages => ∃ addr, pmmAlloc s pages = some (addr, t)
  | .free addr pages => t = pmmFree s addr pages

variable {s t s0 : State} {ram : Bytes} {entries : List MemmapEntry} {calls : List Call} {n q : ℕ}

lemma pmmInit_cursor (h : pmmInit ram entries = some s) : s.lastUsedIndex ≤ s.highestPageIndex := by
  obtain ⟨r, -, rfl⟩ := Option.map_eq_some_iff.mp h
  exact Nat.zero_le _

lemma Called.cursor (s : State) (c : Call) (t : State) (hs : s.lastUsedIndex ≤ s.highestPageIndex) (h : Called s c t) :
    t.lastUsedIndex ≤ t.highestPageIndex := by
  cases c with
  | alloc pages =>
    obtain ⟨addr, h⟩ := h
    obtain ⟨-, page, -, rfl, hhit⟩ := pmmAlloc_cases h
    rcases hhit with hhit | ⟨-, hhit⟩
    · exact hhit.below
    · exact hhit.below.trans hs
  | free addr pages =>
    rw [Called] at h
    subst h
    exact hs

/-- A range is seen by one of the two scans, unless it contains page 0, or both the page of the cursor and
the next one. -/
lemma runBehind_or_runBefore_iff (hcursor : s.lastUsedIndex ≤ s.highestPageIndex) : RunBehind s n ∨ RunBefore s n ↔
    ∃ q, 1 ≤ q ∧ q + n ≤ s.highestPageIndex + 1 ∧ (q + n ≤ s.lastUsedIndex + 1 ∨ s.lastUsedIndex < q) ∧
      FreeRun s.bitmap q n := by
  constructor
  · rintro (⟨q, hq, hle, hrun⟩ | ⟨q, hle, hrun⟩)
    · exact ⟨q + 1, by omega, by omega, Or.inr (by omega), hrun⟩
    · exact ⟨q + 1, by omega, by omega, Or.inl (by omega), hrun⟩
  · rintro ⟨q, hq, hle, hside, hrun⟩
    obtain ⟨q, rfl⟩ := Nat.exists_eq_add_of_le' hq
    rcases hside with hside | hside
    · exact Or.inr ⟨q, by omega, hrun⟩
    · exact Or.inl ⟨q, by omega, by omega, hrun⟩

/-- The allocator panics in vain if and only if there are free ranges, but those below `highestPageIndex` + 1
contain page 0, or both the page of the cursor and the next one. -/
theorem pmmAlloc_complete_iff (hinit : pmmInit ram entries = some s0) (hrun : Run Called s0 calls s) (hn : 1 ≤ n) :
    Complete s n ↔ ((∃ q, q + n ≤ s.highestPageIndex ∧ FreeRun s.bitmap q n) →
      ∃ q, 1 ≤ q ∧ q + n ≤ s.highestPageIndex + 1 ∧ (q + n ≤ s.lastUsedIndex + 1 ∨ s.lastUsedIndex < q) ∧
        FreeRun s.bitmap q n) := by
  have hcursor := hrun.invariant Called.cursor (pmmInit_cursor hinit)
  rw [← runBehind_or_runBefore_iff hcursor, Complete, pmmAlloc_none_iff]
  constructor
  · rintro hcomplete ⟨q, hle, hfree⟩
    by_contra hmissed
    exact hcomplete (Or.inr (not_or.mp hmissed)) q hle hfree
  · rintro hseen (rfl | hmissed) q hle hfree
    · omega
    · exact (not_or.mpr hmissed) (hseen ⟨q, hle, hfree⟩)

/-- After booting with seven free pages. -/
theorem pmmAlloc_complete_lowMap : pmmInit (fun _ => 0) lowMap = some lowState ∧ Complete lowState 2 := by
  have hinit : pmmInit (fun _ => 0) lowMap = some lowState := (Option.some_get _).symm
  refine ⟨hinit, (pmmAlloc_complete_iff hinit (.nil _) (by decide)).mpr fun _ => ?_⟩
  exact ⟨1, by decide, by decide, by decide, by decide⟩

def straddled : ℕ × State := (pmmAlloc smallState 1).get (by decide)

/-- Pages 2 to 8 are free, and a first call has left the cursor at page 2. -/
theorem pmmAlloc_overlooks : pmmInit (fun _ => 0) smallMap = some smallState ∧
    Run Called smallState [.alloc 1] straddled.2 ∧ pmmAlloc straddled.2 7 = none ∧
    FreeRun straddled.2.bitmap 2 7 ∧ ¬ Complete straddled.2 7 := by
  have hpanic : pmmAlloc straddled.2 7 = none := by
    have hscan : (scanTwice straddled.2 7).1 = none := by decide
    rw [pmmAlloc_eq, hscan]
  have hfree : FreeRun straddled.2.bitmap 2 7 := by decide
  have hcall : pmmAlloc smallState 1 = some straddled := (Option.some_get _).symm
  exact ⟨(Option.some_get _).symm, .single ⟨_, hcall⟩, hpanic, hfree, fun hcomplete =>
    hcomplete hpanic 2 (by decide) hfree⟩

end PiggyOs.Pmm
