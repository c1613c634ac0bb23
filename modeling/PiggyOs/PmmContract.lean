import PiggyOs.PmmRuns

/-! What callers of the page allocator expect of a request that cannot be served: they compare the result
with 0, and nothing may have changed. -/
namespace PiggyOs.Pmm
open Bitmap

/-- The allocator and whether `pmm_lock` is held. -/
structure Guarded where
  pmm : State
  locked : Bool

inductive Outcome
  | returned (addr : ℕ) (after : Guarded)
  | panicked (after : Guarded)

/-- The scan from the cursor, and the one from page 0 if that fails. -/
def scanTwice (s : State) (pages : ℕ) : Option ℕ × State :=
  let first := allocFirstFitFromLast s pages s.highestPageIndex
  match first.1 with
  | some _ => first
  | none => allocFirstFitFromLast { first.2 with lastUsedIndex := 0 } pages s.lastUsedIndex

/-- `pmm_alloc` from the moment on at which it has got the lock. -/
def pmmAllocGuarded (s : State) (pages : BitVec 64) : Outcome :=
  match scanTwice s pages.toNat with
  | (none, s') => .panicked ⟨s', true⟩
  | (some addr, s') => .returned addr ⟨{ s' with usedPages := s'.usedPages + pages }, false⟩

/-- Somewhere there are `pages` pages in a row that are free. -/
def CanServe (s : State) (pages : ℕ) : Prop :=
  1 ≤ pages ∧ ∃ q, q + pages ≤ s.highestPageIndex + 1 ∧ ∀ i < pages, test s.bitmap (q + i) = false

/-- The call returns and gives the lock back, and 0 means that there was nothing to give and that nothing
has changed. -/
def MeetsContract (s : State) (pages : BitVec 64) : Prop :=
  ∃ addr t, pmmAllocGuarded s pages = .returned addr ⟨t, false⟩ ∧
    (addr = 0 → ¬ CanServe s pages.toNat ∧ t.bitmap = s.bitmap ∧ t.usedPages = s.usedPages)

/-- Some run behind the cursor is long enough. -/
def RunBehind (s : State) (pages : ℕ) : Prop :=
  ∃ q, s.lastUsedIndex ≤ q ∧ q + pages ≤ s.highestPageIndex ∧ RunAfter s.bitmap q pages

/-- Some run up to the cursor is long enough. -/
def RunBefore (s : State) (pages : ℕ) : Prop := ∃ q, q + pages ≤ s.lastUsedIndex ∧ RunAfter s.bitmap q pages

/-- One of the two scans finds a run, and not right behind page 0, from where both could start. -/
def FoundAbove (s : State) (pages : ℕ) : Prop :=
  1 ≤ pages ∧
    (RunBehind s pages ∧ ¬ (s.lastUsedIndex = 0 ∧ RunAfter s.bitmap 0 pages) ∨
      ¬ RunBehind s pages ∧ RunBefore s pages ∧ ¬ RunAfter s.bitmap 0 pages)

variable {s t : State} {addr n : ℕ} {pages : BitVec 64}

lemma pmmAlloc_eq (s : State) (n : ℕ) : pmmAlloc s n = match (scanTwice s n).1 with
    | none => none
    | some addr => some (addr,
        { (scanTwice s n).2 with usedPages := (scanTwice s n).2.usedPages + BitVec.ofNat 64 n }) := rfl

lemma pmmAllocGuarded_returned {g : Guarded} : pmmAllocGuarded s pages = .returned addr g ↔
    pmmAlloc s pages.toNat = some (addr, g.pmm) ∧ g.locked = false := by
  rw [pmmAllocGuarded, pmmAlloc_eq]
  obtain ⟨ret, u⟩ := scanTwice s pages.toNat
  cases ret with
  | none => simp
  | some a =>
    obtain ⟨pmm, locked⟩ := g
    simp [and_assoc, eq_comm]

lemma pmmAllocGuarded_panicked (h : (scanTwice s pages.toNat).1 = none) :
    (∃ g, pmmAllocGuarded s pages = .panicked g ∧ g.locked = true) ∧ ¬ MeetsContract s pages := by
  have hpanic : pmmAllocGuarded s pages = .panicked ⟨(scanTwice s pages.toNat).2, true⟩ := by
    rw [pmmAllocGuarded]
    generalize scanTwice s pages.toNat = scan at h
    obtain ⟨ret, u⟩ := scan
    obtain rfl : ret = none := h
    rfl
  refine ⟨⟨_, hpanic, rfl⟩, ?_⟩
  rintro ⟨addr, t, hreturn, -⟩
  rw [hpanic] at hreturn
  simp at hreturn

/-- The call panics if and only if both scans fail. -/
lemma pmmAlloc_none_iff : pmmAlloc s n = none ↔ n = 0 ∨ ¬ RunBehind s n ∧ ¬ RunBefore s n := by
  constructor
  · intro h
    by_contra hc
    push Not at hc
    obtain ⟨hn, hruns⟩ := hc
    have hpos : 1 ≤ n := Nat.one_le_iff_ne_zero.mpr hn
    unfold pmmAlloc at h
    cases hfirst : allocFirstFitFromLast s n s.highestPageIndex with
    | mk ret u =>
      cases ret with
      | some a => simp [hfirst] at h
      | none =>
        obtain ⟨hu, hmiss⟩ := allocFirstFitFromLast_none hpos hfirst
        cases hsecond : allocFirstFitFromLast { u with lastUsedIndex := 0 } n s.lastUsedIndex with
        | mk ret v =>
          cases ret with
          | some a => simp [hfirst, hsecond] at h
          | none =>
            obtain ⟨-, hmiss'⟩ := allocFirstFitFromLast_none hpos hsecond
            rw [hu] at hmiss'
            obtain ⟨q, hq, hrun⟩ := hruns fun ⟨q, h1, h2, h3⟩ => hmiss q h1 h2 h3
            exact hmiss' q (Nat.zero_le q) hq hrun
  · intro h
    by_contra hc
    obtain ⟨⟨addr, t⟩, hr⟩ := Option.ne_none_iff_exists'.mp hc
    obtain ⟨hn, page, -, -, hhit⟩ := pmmAlloc_cases hr
    rcases h with rfl | ⟨hbehind, hbefore⟩
    · omega
    · rcases hhit with hhit | ⟨-, hhit⟩
      · exact hbehind ⟨page, hhit.after, hhit.below, hhit.run⟩
      · exact hbefore ⟨page, hhit.below, hhit.run⟩

/-- Which run a call takes: page 0 is below it exactly if it is the first that a scan sees. -/
lemma pmmAlloc_ne_zero_iff (h : pmmAlloc s n = some (addr, t)) : addr ≠ 0 ↔ FoundAbove s n := by
  obtain ⟨hn, page, rfl, -, hhit⟩ := pmmAlloc_cases h
  have hpage : page * pageSize ≠ 0 ↔ page ≠ 0 := by simp [pageSize]
  rw [hpage, FoundAbove, and_iff_right hn]
  rcases hhit with hhit | ⟨hmiss, hhit⟩
  · have hbehind : RunBehind s n := ⟨page, hhit.after, hhit.below, hhit.run⟩
    simp only [hbehind, true_and, not_true_eq_false, false_and, or_false]
    constructor
    · rintro hne ⟨hlast, hrun⟩
      exact hhit.first 0 hlast.le (Nat.pos_of_ne_zero hne) hrun
    · rintro hno rfl
      exact hno ⟨Nat.le_zero.mp hhit.after, hhit.run⟩
  · have hbehind : ¬ RunBehind s n := by
      rintro ⟨q, h1, h2, h3⟩
      exact hmiss q h1 h2 h3
    have hbefore : RunBefore s n := ⟨page, hhit.below, hhit.run⟩
    simp only [hbehind, hbefore, false_and, not_false_eq_true, true_and, false_or]
    constructor
    · exact fun hne hrun => hhit.first 0 le_rfl (Nat.pos_of_ne_zero hne) hrun
    · rintro hno rfl
      exact hno hhit.run

/-- Page 0 is marked and counted like any other. -/
lemma pmmAlloc_zero_counts (h : pmmAlloc s pages.toNat = some (0, t)) : ¬ MeetsContract s pages := by
  rintro ⟨addr, t', hreturn, hzero⟩
  have hr := (pmmAllocGuarded_returned.mp hreturn).1
  obtain ⟨rfl, rfl⟩ := Prod.mk.inj (Option.some.inj (h.symm.trans hr))
  obtain ⟨hn, page, -, ht, -⟩ := pmmAlloc_cases h
  have hused := (hzero rfl).2.2
  rw [ht, BitVec.ofNat_toNat, BitVec.setWidth_eq] at hused
  have hnone : pages = 0 := by simpa using hused
  rw [hnone] at hn
  exact absurd hn (by decide)

/-- The contract is kept if and only if pages are found above page 0. Every other request ends in a panic, or
returns 0 for pages that are marked and counted. -/
theorem pmmAlloc_contract_iff (s : State) (pages : BitVec 64) :
    MeetsContract s pages ↔ FoundAbove s pages.toNat := by
  constructor
  · rintro ⟨addr, t, hreturn, hzero⟩
    have hr := (pmmAllocGuarded_returned.mp hreturn).1
    refine (pmmAlloc_ne_zero_iff hr).mp ?_
    rintro rfl
    exact pmmAlloc_zero_counts hr ⟨0, t, hreturn, hzero⟩
  · intro hfound
    have hsome : pmmAlloc s pages.toNat ≠ none := by
      rw [Ne, pmmAlloc_none_iff]
      rintro (h0 | ⟨hbehind, hbefore⟩)
      · exact absurd hfound.1 (by omega)
      · rcases hfound.2 with h | h
        · exact hbehind h.1
        · exact hbefore h.2.1
    obtain ⟨⟨addr, t⟩, hr⟩ := Option.ne_none_iff_exists'.mp hsome
    exact ⟨addr, t, pmmAllocGuarded_returned.mpr ⟨hr, rfl⟩,
      fun h0 => absurd h0 ((pmmAlloc_ne_zero_iff hr).mpr hfound)⟩

/-- After booting with seven free pages: a request for eight, a request for none, and a request that is
served from page 0. -/
theorem pmmAlloc_breaks_contract : pmmInit (fun _ => 0) lowMap = some lowState ∧
    (∃ g, pmmAllocGuarded lowState 8 = .panicked g ∧ g.locked = true) ∧
    (∃ g, pmmAllocGuarded lowState 0 = .panicked g ∧ g.locked = true) ∧
    (∃ g, pmmAllocGuarded lowState 1 = .returned 0 g ∧ g.pmm.usedPages = 1) ∧
    ¬ MeetsContract lowState 8 ∧ ¬ MeetsContract lowState 0 ∧ ¬ MeetsContract lowState 1 := by
  have h8 : (scanTwice lowState (8 : BitVec 64).toNat).1 = none := by decide
  have h0 : (scanTwice lowState (0 : BitVec 64).toNat).1 = none := by decide
  have h1 : (pmmAlloc lowState (1 : BitVec 64).toNat).any fun r => r.1 = 0 ∧ r.2.usedPages = 1 := by decide
  obtain ⟨⟨addr, t⟩, hr, hrt⟩ := (Option.any_eq_true ..).mp h1
  obtain ⟨rfl, hused⟩ := of_decide_eq_true hrt
  exact ⟨(Option.some_get _).symm, (pmmAllocGuarded_panicked h8).1, (pmmAllocGuarded_panicked h0).1,
    ⟨⟨t, false⟩, pmmAllocGuarded_returned.mpr ⟨hr, rfl⟩, hused⟩, (pmmAllocGuarded_panicked h8).2,
    (pmmAllocGuarded_panicked h0).2, pmmAlloc_zero_counts hr⟩

end PiggyOs.Pmm
