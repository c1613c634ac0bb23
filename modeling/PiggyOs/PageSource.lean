import PiggyOs.PmmRuns

/-! A supplier of pages as its users see it: whatever it gives out is page aligned, inside the
direct map, and apart from everything it gave out before. The allocator of the kernel is one as
long as its calls start at the cursor. -/
namespace PiggyOs

/-- `granted` lists the `(address, bytes)` ranges given out so far. A request for no pages is
never served. -/
structure PageSource (σ : Type) (highVma : ℕ) where
  alloc : σ → ℕ → Option (ℕ × σ)
  granted : σ → List (ℕ × ℕ)
  positive : ∀ {s n a t}, alloc s n = some (a, t) → 1 ≤ n
  aligned : ∀ {s n a t}, alloc s n = some (a, t) → a % pageSize = 0
  mapped : ∀ {s n a t}, alloc s n = some (a, t) → a + pageSize * n + highVma ≤ 2 ^ 64
  apart : ∀ {s n a t}, alloc s n = some (a, t) → ∀ x ∈ granted s, Apart x (a, pageSize * n)
  record : ∀ {s n a t}, alloc s n = some (a, t) → granted t = (a, pageSize * n) :: granted s

/-- A supplier that never reuses memory: what lies between `next` and `limit` is free. -/
structure Bump where
  next : ℕ
  limit : ℕ
  given : List (ℕ × ℕ)
  aligned : next % pageSize = 0
  outside : ∀ x ∈ given, x.1 + x.2 ≤ next ∨ limit ≤ x.1

lemma Bump.aligned_behind (s : Bump) (pages : ℕ) : (s.next + pageSize * pages) % pageSize = 0 := by
  have := s.aligned
  simp only [pageSize] at *
  omega

lemma Bump.outside_behind (s : Bump) (pages : ℕ) :
    ∀ x ∈ (s.next, pageSize * pages) :: s.given, x.1 + x.2 ≤ s.next + pageSize * pages ∨ s.limit ≤ x.1 := by
  intro x hx
  rcases List.mem_cons.mp hx with rfl | hx
  · exact Or.inl le_rfl
  · exact (s.outside x hx).imp_left fun h => h.trans (Nat.le_add_right _ _)

def Bump.take (s : Bump) (pages : ℕ) : Bump where
  next := s.next + pageSize * pages
  limit := s.limit
  given := (s.next, pageSize * pages) :: s.given
  aligned := s.aligned_behind pages
  outside := s.outside_behind pages

def bumpAlloc (highVma : ℕ) (s : Bump) (pages : ℕ) : Option (ℕ × Bump) :=
  if 1 ≤ pages ∧ s.next + pageSize * pages ≤ s.limit ∧ s.next + pageSize * pages + highVma ≤ 2 ^ 64 then
    some (s.next, s.take pages)
  else none

lemma bumpAlloc_some {highVma : ℕ} {s t : Bump} {n a : ℕ} (h : bumpAlloc highVma s n = some (a, t)) :
    1 ≤ n ∧ s.next + pageSize * n ≤ s.limit ∧ s.next + pageSize * n + highVma ≤ 2 ^ 64 ∧ a = s.next ∧
      t = s.take n := by
  unfold bumpAlloc at h
  split_ifs at h with hc
  simp only [Option.some.injEq, Prod.mk.injEq] at h
  exact ⟨hc.1, hc.2.1, hc.2.2, h.1.symm, h.2.symm⟩

def bumpSource (highVma : ℕ) : PageSource Bump highVma where
  alloc := bumpAlloc highVma
  granted s := s.given
  positive h := (bumpAlloc_some h).1
  aligned {s n a t} h := by
    obtain ⟨-, -, -, rfl, -⟩ := bumpAlloc_some h
    exact s.aligned
  mapped {s n a t} h := by
    obtain ⟨-, -, hm, rfl, -⟩ := bumpAlloc_some h
    exact hm
  apart {s n a t} h x hx := by
    obtain ⟨-, hl, -, rfl, -⟩ := bumpAlloc_some h
    rcases s.outside x hx with h | h
    · exact Or.inl h
    · exact Or.inr (hl.trans h)
  record {s n a t} h := by
    obtain ⟨-, -, -, rfl, rfl⟩ := bumpAlloc_some h
    rfl

namespace Pmm
open Bitmap

instance (s : State) (pages : ℕ) : Decidable (StartsAtCursor s pages) := by
  refine decidable_of_iff ((s.lastUsedIndex + pages ≤ s.highestPageIndex ∧
      test s.bitmap s.lastUsedIndex = false ∧ RunAfter s.bitmap s.lastUsedIndex pages) ∨
    ((∀ q < s.highestPageIndex + 1, s.lastUsedIndex ≤ q → q + pages ≤ s.highestPageIndex →
        ¬ RunAfter s.bitmap q pages) ∧
      pages ≤ s.lastUsedIndex ∧ test s.bitmap 0 = false ∧ RunAfter s.bitmap 0 pages)) ?_
  refine or_congr_right (and_congr_left' ⟨fun h q hq hp => h q (by omega) hq hp, fun h q _ => h q⟩)

/-- A history that keeps its accounts and whose memory lies in the direct map. -/
structure Mapped (initial : Bytes) (highVma : ℕ) where
  session : Session
  accounted : Accounted initial session
  mapped : session.pmm.highestPageIndex * pageSize + highVma ≤ 2 ^ 64
  cursor : session.pmm.lastUsedIndex ≤ session.pmm.highestPageIndex
  aligned : ∀ x ∈ session.live, x.1 % pageSize = 0

lemma pmmAlloc_below {s t : State} {pages addr : ℕ} (h : pmmAlloc s pages = some (addr, t))
    (hc : s.lastUsedIndex ≤ s.highestPageIndex) :
    addr % pageSize = 0 ∧ addr / pageSize + pages ≤ s.highestPageIndex ∧
      t.highestPageIndex = s.highestPageIndex ∧ t.lastUsedIndex ≤ t.highestPageIndex := by
  obtain ⟨-, page, rfl, rfl, hit⟩ := pmmAlloc_cases h
  have hpage : page + pages ≤ s.highestPageIndex := by
    rcases hit with hit | ⟨-, hit⟩
    · exact hit.below
    · exact hit.below.trans hc
  rw [Nat.mul_div_cancel _ (by decide : 0 < pageSize)]
  exact ⟨Nat.mul_mod_left _ _, hpage, rfl, hpage⟩

variable {initial : Bytes} {highVma : ℕ}

/-- The kernel's allocator, stopped where a call would leave the cursor. -/
def cursorAlloc (m : Mapped initial highVma) (pages : ℕ) : Option (ℕ × Mapped initial highVma) :=
  if hf : StartsAtCursor m.session.pmm pages then
    match hr : pmmAlloc m.session.pmm pages with
    | none => none
    | some (addr, t) => some (addr,
        { session := ⟨t, (addr, pages) :: m.session.live⟩
          accounted := m.accounted.alloc (pmmAlloc_cases hr).1 ((pmmAlloc_exact_iff hr).mpr hf)
          mapped := by
            have := m.mapped
            rwa [← (pmmAlloc_below hr m.cursor).2.2.1] at this
          cursor := (pmmAlloc_below hr m.cursor).2.2.2
          aligned := by
            intro x hx
            rcases List.mem_cons.mp hx with rfl | hx
            · exact (pmmAlloc_below hr m.cursor).1
            · exact m.aligned x hx })
  else none

lemma cursorAlloc_cases {m t : Mapped initial highVma} {pages addr : ℕ}
    (h : cursorAlloc m pages = some (addr, t)) :
    pmmAlloc m.session.pmm pages = some (addr, t.session.pmm) ∧
      t.session.live = (addr, pages) :: m.session.live := by
  unfold cursorAlloc at h
  split_ifs at h
  split at h
  · simp at h
  · next addr' u hr =>
    simp only [Option.some.injEq, Prod.mk.injEq] at h
    obtain ⟨rfl, rfl⟩ := h
    exact ⟨hr, rfl⟩

lemma apart_bytes {x y : ℕ × ℕ} (hx : x.1 % pageSize = 0) (hy : y.1 % pageSize = 0)
    (h : Apart (pagesOf x) (pagesOf y)) : Apart (x.1, pageSize * x.2) (y.1, pageSize * y.2) := by
  simp only [Apart, pagesOf, pageSize] at *
  omega

lemma cursorAlloc_positive {s t : Mapped initial highVma} {n a : ℕ} (h : cursorAlloc s n = some (a, t)) : 1 ≤ n :=
  (pmmAlloc_cases (cursorAlloc_cases h).1).1

lemma cursorAlloc_aligned {s t : Mapped initial highVma} {n a : ℕ} (h : cursorAlloc s n = some (a, t)) :
    a % pageSize = 0 :=
  (pmmAlloc_below (cursorAlloc_cases h).1 s.cursor).1

lemma cursorAlloc_mapped {s t : Mapped initial highVma} {n a : ℕ} (h : cursorAlloc s n = some (a, t)) :
    a + pageSize * n + highVma ≤ 2 ^ 64 := by
  obtain ⟨ha, hb, -⟩ := pmmAlloc_below (cursorAlloc_cases h).1 s.cursor
  have := s.mapped
  simp only [pageSize] at *
  omega

lemma cursorAlloc_apart {s t : Mapped initial highVma} {n a : ℕ} (h : cursorAlloc s n = some (a, t)) :
    ∀ x ∈ s.session.live.map fun x => (x.1, pageSize * x.2), Apart x (a, pageSize * n) := by
  intro x hx
  obtain ⟨y, hy, rfl⟩ := List.mem_map.mp hx
  have hlive := (cursorAlloc_cases h).2
  have hd := t.accounted.disjoint
  rw [hlive] at hd
  have ha := t.aligned (a, n) (by simp [hlive])
  exact (apart_bytes ha (s.aligned y hy) ((List.pairwise_cons.mp hd).1 y hy)).symm

lemma cursorAlloc_record {s t : Mapped initial highVma} {n a : ℕ} (h : cursorAlloc s n = some (a, t)) :
    (t.session.live.map fun x => (x.1, pageSize * x.2)) =
      (a, pageSize * n) :: s.session.live.map fun x => (x.1, pageSize * x.2) := by
  simp [(cursorAlloc_cases h).2]

/-- Allocations at the cursor make the kernel's allocator a supplier of disjoint ranges. -/
def cursorSource (initial : Bytes) (highVma : ℕ) : PageSource (Mapped initial highVma) highVma where
  alloc := cursorAlloc
  granted m := m.session.live.map fun x => (x.1, pageSize * x.2)
  positive := cursorAlloc_positive
  aligned := cursorAlloc_aligned
  mapped := cursorAlloc_mapped
  apart := cursorAlloc_apart
  record := cursorAlloc_record

/-- A direct map in the upper half of the address space. -/
def directMap : ℕ := 0xffff800000000000

/-- Seven free pages and nothing given out. -/
def lowPages : Mapped lowState.bitmap directMap where
  session := ⟨lowState, []⟩
  accounted := accounted_start _
  mapped := by decide
  cursor := by decide
  aligned := by simp

end Pmm
end PiggyOs
