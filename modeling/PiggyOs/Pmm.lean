import PiggyOs.Bitmap
import PiggyOs.Macros

/-! The physical page allocator: the next-fit scan with its cursor, allocation with the
wrap-around second scan, release, and the initialisation from the boot memory map. -/
namespace PiggyOs.Pmm
open Bitmap

/-- `usedPages` is a counter modulo the word size; the other fields index pages. -/
structure State where
  bitmap : Bytes
  usedPages : BitVec 64
  lastUsedIndex : ℕ
  highestPageIndex : ℕ

/-- The loop of `alloc_first_fit_from_last`, with `remaining` turns left before the cursor
meets the limit. The cursor moves before its bit is tested. -/
def scan (bitmap : Bytes) (pages : ℕ) : ℕ → ℕ → ℕ → Option ℕ × ℕ
  | 0, lastUsedIndex, _ => (none, lastUsedIndex)
  | remaining + 1, lastUsedIndex, p =>
      if test bitmap (lastUsedIndex + 1) then scan bitmap pages remaining (lastUsedIndex + 1) 0
      else if p + 1 = pages then (some (lastUsedIndex + 1 - pages), lastUsedIndex + 1)
      else scan bitmap pages remaining (lastUsedIndex + 1) (p + 1)

def allocFirstFitFromLast (s : State) (pages lastLimit : ℕ) : Option ℕ × State :=
  match scan s.bitmap pages (lastLimit - s.lastUsedIndex) s.lastUsedIndex 0 with
  | (none, index) => (none, { s with lastUsedIndex := index })
  | (some page, index) =>
      (some (page * pageSize),
        { s with bitmap := setRange s.bitmap page (index - page), lastUsedIndex := index })

/-- `none` is the panic of the source. -/
def pmmAlloc (s : State) (pages : ℕ) : Option (ℕ × State) :=
  let last := s.lastUsedIndex
  let first := allocFirstFitFromLast s pages s.highestPageIndex
  let ret := match first.1 with
    | some _ => first
    | none => allocFirstFitFromLast { first.2 with lastUsedIndex := 0 } pages last
  match ret.1 with
  | none => none
  | some addr => some (addr, { ret.2 with usedPages := ret.2.usedPages + BitVec.ofNat 64 pages })

def pmmFree (s : State) (addr pages : ℕ) : State :=
  { s with
    bitmap := clearRange s.bitmap (addr / pageSize) pages
    usedPages := s.usedPages - BitVec.ofNat 64 pages }

inductive MemmapType
  | usable | reserved | acpiReclaimable | acpiNvs | badMemory | bootloaderReclaimable
  | kernelAndModules | framebuffer
  deriving DecidableEq, Repr

structure MemmapEntry where
  base : ℕ
  length : ℕ
  type : MemmapType
  deriving DecidableEq, Repr

def highestAddr (entries : List MemmapEntry) : ℕ :=
  entries.foldl (fun h e => if e.type = .usable then max h (e.base + e.length) else h) 0

/-- The first usable entry that can hold the bitmap gives up its head to it. -/
def placeBitmap (size : ℕ) : List MemmapEntry → Option (ℕ × List MemmapEntry)
  | [] => none
  | e :: es =>
      if e.type = .usable ∧ size ≤ e.length then
        some (e.base, { e with base := e.base + size, length := e.length - size } :: es)
      else (placeBitmap size es).map fun r => (r.1, e :: r.2)

def clearEntry (bitmap : Bytes) (e : MemmapEntry) : Bytes :=
  if e.type = .usable then
    (List.range ((e.length + (pageSize - 1)) / pageSize)).foldl
      (fun b j => clear b ((e.base + j * pageSize) / pageSize)) bitmap
  else bitmap

/-- `ram` is what memory held before; past its own length the bitmap shows that memory.
`none` is a map with no room for the bitmap. -/
def pmmInit (ram : Bytes) (entries : List MemmapEntry) : Option State :=
  let highestPageIndex := highestAddr entries / pageSize
  let size := alignUp (highestPageIndex / 8) pageSize
  (placeBitmap size entries).map fun r =>
    { bitmap := r.2.foldl clearEntry fun i => if i < size then 0xff#8 else ram (r.1 + i)
      usedPages := 0
      lastUsedIndex := 0
      highestPageIndex := highestPageIndex }

/-- The `pages` bits after page `q` are all clear. -/
def RunAfter (bitmap : Bytes) (q pages : ℕ) : Prop :=
  ∀ i < pages, test bitmap (q + 1 + i) = false

instance (bitmap : Bytes) (q pages : ℕ) : Decidable (RunAfter bitmap q pages) :=
  inferInstanceAs (Decidable (∀ i < pages, _))

/-- A successful scan stops after the first clear run; its result is one page below that run,
and unless the run starts right after the scan did, that page is one the scan saw in use. -/
lemma scan_some {bitmap : Bytes} {pages r c p page index : ℕ} (hp : p < pages) (hc : p ≤ c)
    (h : scan bitmap pages r c p = (some page, index)) :
    page + pages = index ∧ index ≤ c + r ∧ c - p ≤ page ∧
      (page = c - p ∨ test bitmap page = true) ∧
      (∀ i, c < i → page < i → i ≤ index → test bitmap i = false) ∧
      ∀ q, c - p ≤ q → q < page → ∃ i, c < i ∧ q < i ∧ i ≤ q + pages ∧ test bitmap i = true := by
  induction r generalizing c p with
  | zero => simp [scan] at h
  | succ r ih =>
    simp only [scan] at h
    split_ifs at h with ht he
    · obtain ⟨h1, h2, h3, h4, h5, h6⟩ := ih (by omega) (by omega) h
      refine ⟨h1, by omega, by omega, ?_, ?_, ?_⟩
      · rcases h4 with h4 | h4
        · exact Or.inr (by rw [h4]; simpa using ht)
        · exact Or.inr h4
      · intro i hci hpi hi
        exact h5 i (by omega) hpi hi
      · intro q hq hqp
        by_cases hqc : c + 1 ≤ q
        · obtain ⟨i, h7, h8⟩ := h6 q (by omega) hqp
          exact ⟨i, by omega, h8⟩
        · exact ⟨c + 1, by omega, by omega, by omega, ht⟩
    · simp only [Prod.mk.injEq, Option.some.injEq] at h
      obtain ⟨rfl, rfl⟩ := h
      refine ⟨by omega, by omega, by omega, Or.inl (by omega), ?_, ?_⟩
      · intro i hci hpi hi
        have : i = c + 1 := by omega
        subst this
        simpa using ht
      · intro q hq hqp
        omega
    · obtain ⟨h1, h2, h3, h4, h5, h6⟩ := ih (by omega) (by omega) h
      refine ⟨h1, by omega, by omega, ?_, ?_, ?_⟩
      · rwa [show c - p = c + 1 - (p + 1) by omega]
      · intro i hci hpi hi
        by_cases hic : i = c + 1
        · subst hic
          simpa using ht
        · exact h5 i (by omega) hpi hi
      · intro q hq hqp
        obtain ⟨i, h7, h8⟩ := h6 q (by omega) hqp
        exact ⟨i, by omega, h8⟩

/-- A scan that fails has seen no clear run of the requested length. -/
lemma scan_none {bitmap : Bytes} {pages r c p index : ℕ} (hp : p < pages) (hc : p ≤ c)
    (h : scan bitmap pages r c p = (none, index)) :
    index = c + r ∧ ∀ q, c - p ≤ q → q + pages ≤ c + r →
      ∃ i, c < i ∧ q < i ∧ i ≤ q + pages ∧ test bitmap i = true := by
  induction r generalizing c p with
  | zero =>
    simp only [scan, Prod.mk.injEq, true_and] at h
    exact ⟨by omega, fun q hq hqr => by omega⟩
  | succ r ih =>
    simp only [scan] at h
    split_ifs at h with ht he
    · obtain ⟨h1, h2⟩ := ih (by omega) (by omega) h
      refine ⟨by omega, fun q hq hqr => ?_⟩
      by_cases hqc : c + 1 ≤ q
      · obtain ⟨i, h7, h8⟩ := h2 q (by omega) (by omega)
        exact ⟨i, by omega, h8⟩
      · exact ⟨c + 1, by omega, by omega, by omega, ht⟩
    · simp at h
    · obtain ⟨h1, h2⟩ := ih (by omega) (by omega) h
      refine ⟨by omega, fun q hq hqr => ?_⟩
      obtain ⟨i, h7, h8⟩ := h2 q (by omega) (by omega)
      exact ⟨i, by omega, h8⟩

/-- The call gives out `pages` whole pages that were all free, marks exactly these, and
touches no other bit. -/
structure AllocExact (s : State) (pages addr : ℕ) (t : State) : Prop where
  aligned : addr % pageSize = 0
  free : ∀ i < pages, test s.bitmap (addr / pageSize + i) = false
  marks : ∀ i, test t.bitmap i =
    (decide (addr / pageSize ≤ i ∧ i < addr / pageSize + pages) || test s.bitmap i)

/-- The page under the cursor is free together with the `pages` pages after it, or no run of
`pages` free pages lies beyond the cursor and the same is true of page 0. -/
def StartsAtCursor (s : State) (pages : ℕ) : Prop :=
  (s.lastUsedIndex + pages ≤ s.highestPageIndex ∧ test s.bitmap s.lastUsedIndex = false ∧
    RunAfter s.bitmap s.lastUsedIndex pages) ∨
  ((∀ q, s.lastUsedIndex ≤ q → q + pages ≤ s.highestPageIndex → ¬ RunAfter s.bitmap q pages) ∧
    pages ≤ s.lastUsedIndex ∧ test s.bitmap 0 = false ∧ RunAfter s.bitmap 0 pages)

lemma scan_zero (bitmap : Bytes) (r c p : ℕ) : (scan bitmap 0 r c p).1 = none := by
  induction r generalizing c p with
  | zero => rfl
  | succ r ih =>
    simp only [scan, Nat.add_one_ne_zero, if_false]
    split_ifs <;> exact ih _ _

lemma not_runAfter {bitmap : Bytes} {q pages : ℕ} :
    ¬ RunAfter bitmap q pages ↔ ∃ i, q < i ∧ i ≤ q + pages ∧ test bitmap i = true := by
  unfold RunAfter
  push Not
  constructor
  · rintro ⟨i, hi, ht⟩
    exact ⟨q + 1 + i, by omega, by omega, by simpa using ht⟩
  · rintro ⟨i, h1, h2, ht⟩
    refine ⟨i - (q + 1), by omega, ?_⟩
    rw [show q + 1 + (i - (q + 1)) = i by omega, ht]
    simp

/-- One scan from the cursor: where it succeeds, and what it then says about the page it returns. -/
structure ScanHit (bitmap : Bytes) (c limit pages page : ℕ) : Prop where
  after : c ≤ page
  below : page + pages ≤ limit
  run : RunAfter bitmap page pages
  first : ∀ q, c ≤ q → q < page → ¬ RunAfter bitmap q pages
  edge : page = c ∨ test bitmap page = true

lemma allocFirstFitFromLast_some {s t : State} {pages limit addr : ℕ} (hn : 1 ≤ pages)
    (h : allocFirstFitFromLast s pages limit = (some addr, t)) :
    ∃ page, addr = page * pageSize ∧ ScanHit s.bitmap s.lastUsedIndex limit pages page ∧
      t = { s with bitmap := setRange s.bitmap page pages, lastUsedIndex := page + pages } := by
  unfold allocFirstFitFromLast at h
  split at h
  · simp at h
  · next page index hs =>
    obtain ⟨h1, h2, h3, h4, h5, h6⟩ := scan_some (by omega) (by omega) hs
    simp only [Prod.mk.injEq, Option.some.injEq] at h
    obtain ⟨rfl, rfl⟩ := h
    refine ⟨page, rfl, ⟨by omega, by omega, ?_, ?_, by simpa using h4⟩, ?_⟩
    · intro i hi
      exact h5 _ (by omega) (by omega) (by omega)
    · intro q hq hqp
      obtain ⟨i, -, h7, h8, h9⟩ := h6 q (by omega) hqp
      exact not_runAfter.mpr ⟨i, h7, h8, h9⟩
    · rw [← h1, Nat.add_sub_cancel_left]

lemma allocFirstFitFromLast_none {s t : State} {pages limit : ℕ} (hn : 1 ≤ pages)
    (h : allocFirstFitFromLast s pages limit = (none, t)) :
    t = { s with lastUsedIndex := t.lastUsedIndex } ∧
      ∀ q, s.lastUsedIndex ≤ q → q + pages ≤ limit → ¬ RunAfter s.bitmap q pages := by
  unfold allocFirstFitFromLast at h
  split at h
  · next index hs =>
    obtain ⟨h1, h2⟩ := scan_none (by omega) (by omega) hs
    simp only [Prod.mk.injEq, true_and] at h
    subst h
    refine ⟨rfl, fun q hq hql => ?_⟩
    obtain ⟨i, -, h7, h8, h9⟩ := h2 q (by omega) (by omega)
    exact not_runAfter.mpr ⟨i, h7, h8, h9⟩
  · simp at h

/-- `pmm_alloc` never serves a request for no pages: both scans run dry. -/
theorem pmmAlloc_zero (s : State) : pmmAlloc s 0 = none := by
  have hz : ∀ (s : State) limit, (allocFirstFitFromLast s 0 limit).1 = none := by
    intro s limit
    have := scan_zero s.bitmap (limit - s.lastUsedIndex) s.lastUsedIndex 0
    unfold allocFirstFitFromLast
    split
    · rfl
    · next hs => simp [hs] at this
  simp [pmmAlloc, hz]

/-- Everything a successful call can do: a hit of the scan from the cursor, or a failure of
that scan and a hit of the one that starts over at page 0. -/
theorem pmmAlloc_cases {s t : State} {pages addr : ℕ} (h : pmmAlloc s pages = some (addr, t)) :
    1 ≤ pages ∧ ∃ page, addr = page * pageSize ∧
      t = { s with
        bitmap := setRange s.bitmap page pages
        lastUsedIndex := page + pages
        usedPages := s.usedPages + BitVec.ofNat 64 pages } ∧
      (ScanHit s.bitmap s.lastUsedIndex s.highestPageIndex pages page ∨
        (∀ q, s.lastUsedIndex ≤ q → q + pages ≤ s.highestPageIndex →
          ¬ RunAfter s.bitmap q pages) ∧
        ScanHit s.bitmap 0 s.lastUsedIndex pages page) := by
  have hn : 1 ≤ pages := by
    by_contra hc
    obtain rfl : pages = 0 := by omega
    simp [pmmAlloc_zero] at h
  refine ⟨hn, ?_⟩
  unfold pmmAlloc at h
  obtain ⟨ret, u, hf⟩ : ∃ ret u, allocFirstFitFromLast s pages s.highestPageIndex = (ret, u) :=
    ⟨_, _, rfl⟩
  cases ret with
  | some a =>
    simp only [hf, Option.some.injEq, Prod.mk.injEq] at h
    obtain ⟨rfl, rfl⟩ := h
    obtain ⟨page, rfl, hit, rfl⟩ := allocFirstFitFromLast_some hn hf
    exact ⟨page, rfl, rfl, Or.inl hit⟩
  | none =>
    obtain ⟨hu, hmiss⟩ := allocFirstFitFromLast_none hn hf
    obtain ⟨ret, v, hg⟩ : ∃ ret v, allocFirstFitFromLast { u with lastUsedIndex := 0 } pages
      s.lastUsedIndex = (ret, v) := ⟨_, _, rfl⟩
    cases ret with
    | none => simp [hf, hg] at h
    | some a =>
      simp only [hf, hg, Option.some.injEq, Prod.mk.injEq] at h
      obtain ⟨rfl, rfl⟩ := h
      obtain ⟨page, rfl, hit, rfl⟩ := allocFirstFitFromLast_some hn hg
      rw [hu] at hit ⊢
      exact ⟨page, rfl, rfl, Or.inr ⟨hmiss, hit⟩⟩

/-- The pages a hit returns were all free exactly when the scan never moved off a free cursor. -/
lemma ScanHit.free_iff {bitmap : Bytes} {c limit pages page : ℕ} (hn : 1 ≤ pages)
    (hit : ScanHit bitmap c limit pages page) :
    (∀ i < pages, test bitmap (page + i) = false) ↔
      c + pages ≤ limit ∧ test bitmap c = false ∧ RunAfter bitmap c pages := by
  constructor
  · intro hfree
    have hpage : test bitmap page = false := by simpa using hfree 0 (by omega)
    have hc : page = c := hit.edge.resolve_right (by simp [hpage])
    subst hc
    exact ⟨hit.below, hpage, hit.run⟩
  · rintro ⟨-, hc, hrun⟩ i hi
    have hpc : page = c := by
      by_contra hne
      have := hit.after
      exact hit.first c le_rfl (by omega) hrun
    subst hpc
    cases i with
    | zero => simpa using hc
    | succ i => simpa [Nat.add_assoc, Nat.add_comm 1] using hrun i (by omega)

/-- A call that returns is exact if and only if it starts at the cursor. -/
theorem pmmAlloc_exact_iff {s t : State} {pages addr : ℕ}
    (h : pmmAlloc s pages = some (addr, t)) :
    AllocExact s pages addr t ↔ StartsAtCursor s pages := by
  obtain ⟨hn, page, rfl, rfl, hhit⟩ := pmmAlloc_cases h
  have hdiv : page * pageSize / pageSize = page := Nat.mul_div_cancel _ (by decide)
  have hexact : AllocExact s pages (page * pageSize) { s with
        bitmap := setRange s.bitmap page pages
        lastUsedIndex := page + pages
        usedPages := s.usedPages + BitVec.ofNat 64 pages } ↔
      ∀ i < pages, test s.bitmap (page + i) = false := by
    constructor
    · intro he
      simpa [hdiv] using he.free
    · intro hf
      exact ⟨Nat.mul_mod_left _ _, by simpa [hdiv] using hf, by simp [hdiv]⟩
  rw [hexact]
  unfold StartsAtCursor
  rcases hhit with hit | ⟨hmiss, hit⟩
  · rw [hit.free_iff hn]
    refine ⟨Or.inl, ?_⟩
    rintro (h | ⟨hmiss, -⟩)
    · exact h
    · exact (hmiss page hit.after hit.below hit.run).elim
  · rw [hit.free_iff hn]
    constructor
    · rintro ⟨h1, h2, h3⟩
      exact Or.inr ⟨hmiss, by omega, h2, h3⟩
    · rintro (⟨h1, -, h3⟩ | ⟨-, h1, h2, h3⟩)
      · exact (hmiss _ le_rfl h1 h3).elim
      · exact ⟨by omega, h2, h3⟩

end PiggyOs.Pmm
