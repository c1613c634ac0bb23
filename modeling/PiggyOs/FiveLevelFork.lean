import PiggyOs.VmmFork

/-! Copying an address space of five levels. The loops of `vmm_fork_pagemap` follow four levels of
tables: what they take for pages are the tables that map pages, and each copy goes below index 0 of
the child. -/
namespace PiggyOs.Vmm
open ByteMemory Walk Transition

lemma pml5Index_entriesToVaddr (i j k l : Fin 512) : pml5Index (entriesToVaddr i j k l) = 0 := by
  have hi := i.isLt
  have hj := j.isLt
  have hk := k.isLt
  have hl := l.isLt
  apply Fin.ext
  rw [pml5Index, index_val _ (by omega), entriesToVaddr_toNat]
  change _ = 0
  omega

section Below
variable {σ : Type} {pmmAlloc : σ → ℕ → Option (ℕ × σ)} {m m1 : Machine σ} {top p4 : ℕ}
  {v paddr flags : BitVec 64}

/-- Behind its first link a pagemap of five levels is one of four. -/
lemma vmmMapPage_below (h : ensureTable pmmAlloc m flags top (pml5Index v) = some (some p4, m1)) :
    vmmMapPage pmmAlloc m ⟨top, true⟩ v paddr flags = vmmMapPage pmmAlloc m1 ⟨p4, false⟩ v paddr flags := by
  have htables : ensureTables pmmAlloc flags m top (upperIndices true v) =
      ensureTables pmmAlloc flags m1 p4 (upperIndices false v) := by
    rw [upperIndices, if_pos rfl, ensureTables, h]
    rfl
  simp only [vmmMapPage, htables]

lemma vmmGetPageMapping_below (h : m.next top (pml5Index v) = some p4) :
    vmmGetPageMapping m ⟨top, true⟩ v = vmmGetPageMapping m ⟨p4, false⟩ v := by
  have hw : walk m.next top (upperIndices true v) = walk m.next p4 (upperIndices false v) := by
    rw [upperIndices, if_pos rfl, walk_cons, h]
    rfl
  simp only [vmmGetPageMapping, hw]

lemma vmmGetPageMapping_absent (pm : Pagemap) (h : ¬ Present (m.entry pm.topLevel (topIndex pm.hasLevel5 v))) :
    vmmGetPageMapping m pm v = noMapping := by
  obtain ⟨top, five⟩ := pm
  have hnone : m.next top (topIndex five v) = none := next_absent h
  have hw : walk m.next top (upperIndices five v) = none := by
    cases five with
    | false =>
      rw [topIndex, if_neg (by decide)] at hnone
      rw [upperIndices, if_neg (by decide), walk_cons, hnone, Option.bind_none]
    | true =>
      rw [topIndex, if_pos rfl] at hnone
      rw [upperIndices, if_pos rfl, walk_cons, hnone, Option.bind_none]
  simp only [vmmGetPageMapping, hw]

end Below

section Child
variable {σ : Type} {highVma : ℕ} {src : PageSource σ highVma} {m0 m m' : Machine σ} {old new p4 : ℕ}
  {D D' : Set (List (Fin 512) × Fin 512)} {v : BitVec 64}

/-- The top level of the child: below the user half only index 0 may lead to a table. -/
structure FiveTop (src : PageSource σ highVma) (m0 m : Machine σ) (new : ℕ) : Prop where
  taken : Taken src m.pmm new
  fresh : ¬ Taken src m0.pmm new
  others : ∀ i, User i → i ≠ 0 → ¬ Present (m.entry new i)

/-- The table behind index 0, under which the copies hang as in a pagemap of four levels. -/
structure FiveSub (src : PageSource σ highVma) (m0 : Machine σ) (old new p4 : ℕ)
    (D : Set (List (Fin 512) × Fin 512)) (m : Machine σ) : Prop where
  next : m.next new 0 = some p4
  fork : ForkInv src m0 old p4 D m
  apart : NotTable User p4 3 m new
  high : ∀ i, ¬ User i → ¬ Present (m.entry p4 i)

/-- What the loops keep, before and after the first copy. -/
structure FiveInv (src : PageSource σ highVma) (m0 : Machine σ) (old new : ℕ)
    (D : Set (List (Fin 512) × Fin 512)) (m : Machine σ) : Prop where
  zero : Taken src m.pmm 0
  taken : ∀ g, Taken src m0.pmm g → Taken src m.pmm g
  bytes : ∀ b, Taken src m0.pmm (b / pageSize) → m.mem b = m0.mem b
  top : FiveTop src m0 m new
  sub : (D = ∅ ∧ ¬ Present (m.entry new 0)) ∨ ∃ p4, FiveSub src m0 old new p4 D m

lemma FiveTop.newPage {f : ℕ} (h : FiveTop src m0 m new) (hc : NewPage src m m' f) :
    FiveTop src m0 m' new ∧ ∀ i, m'.entry new i = m.entry new i := by
  have hne : new ≠ f := fun heq => hc.fresh (heq ▸ h.taken)
  have hentry : ∀ i, m'.entry new i = m.entry new i :=
    entry_congr fun b hb => hc.other b (by rwa [hb])
  refine ⟨⟨(hc.taken new).mpr (Or.inl h.taken), h.fresh, fun i hi h0 => ?_⟩, hentry⟩
  rw [hentry]
  exact h.others i hi h0

/-- Progress below the table behind index 0. -/
lemma FiveSub.spared (h : FiveSub src m0 old new p4 D m) (ht : FiveTop src m0 m new)
    (hs : Spares src User p4 3 m m') (hf : ForkInv src m0 old p4 D' m') :
    FiveTop src m0 m' new ∧ FiveSub src m0 old new p4 D' m' := by
  have hentry : ∀ i, m'.entry new i = m.entry new i :=
    entry_congr (hs.bytes new ht.taken h.apart)
  refine ⟨⟨hs.taken new ht.taken, ht.fresh, fun i hi h0 => ?_⟩,
    ⟨(next_congr (hentry 0)).trans h.next, hf, hs.tables new ht.taken h.apart, fun i hi => ?_⟩⟩
  · rw [hentry]
    exact ht.others i hi h0
  · rw [hs.others i hi]
    exact h.high i hi

/-- The table behind index 0 when it is new. -/
lemma FiveTop.linked {flags : BitVec 64} (h : FiveTop src m0 m new) (h0 : Taken src m.pmm 0)
    (htaken : ∀ g, Taken src m0.pmm g → Taken src m.pmm g)
    (hbytes : ∀ b, Taken src m0.pmm (b / pageSize) → m.mem b = m0.mem b) (hf : FlagsOnly flags)
    (hp : Present flags) (hl : Linked src m m' new 0 p4 (link p4 flags)) :
    FiveTop src m0 m' new ∧ FiveSub src m0 old new p4 ∅ m' ∧ ∀ g, g ≠ p4 → NotTable User p4 3 m' g := by
  have hne : new ≠ p4 := fun heq => hl.fresh (heq ▸ h.taken)
  have hkeep : ∀ g, Taken src m.pmm g → Taken src m'.pmm g := fun g hg => (hl.taken g).mpr (Or.inl hg)
  have hold : ¬ Taken src m0.pmm p4 := fun hg => hl.fresh (htaken p4 hg)
  have hzero : ∀ i, m'.entry p4 i = 0 := by
    intro i
    rw [hl.entry, if_neg fun heq => hne heq.1.symm, if_pos rfl]
  have hempty : Empty src m' ⟨p4, false⟩ := ⟨hkeep 0 h0, (hl.taken p4).mpr (Or.inr rfl), hzero⟩
  have hlink : m'.entry new 0 = link p4 flags := by rw [hl.entry, if_pos ⟨rfl, rfl⟩]
  have honly : ∀ g, g ≠ p4 → NotTable User p4 3 m' g := fun g hg π _ hw => hg (hempty.walk_eq hw).2
  refine ⟨⟨hkeep new h.taken, h.fresh, fun i hi hi0 => ?_⟩, ⟨?_, ?_, honly new hne, fun i _ => ?_⟩, honly⟩
  · rw [hl.entry, if_neg fun heq => hi0 heq.2, if_neg hne]
    exact h.others i hi hi0
  · rw [next_present (by rw [hlink]; exact present_link.mpr hp), hlink, frameOf_link hl.low hf]
  · refine ⟨hkeep 0 h0, fun g hg => hkeep g (htaken g hg), fun b hb => ?_, hempty.treeInv User, ?_, ?_, ?_, ?_⟩
    · rw [hl.bytes b (fun heq => hold (heq ▸ hb)) fun heq => h.fresh (heq ▸ hb), hbytes b hb]
    · exact fun g hg => honly g fun heq => hold (heq ▸ hg)
    · intro ρ _ _ j hD
      exact absurd hD (Set.notMem_empty _)
    · intro ρ _ hn j _
      cases hw : walk m'.next p4 ρ with
      | none => exact entryAt_of_walk_none hw j
      | some t =>
        rw [(hempty.walk_eq hw).1] at hn
        simp at hn
    · intro ρ _ _ ρ' _ _ j j' hD
      exact absurd hD (Set.notMem_empty _)
  · rw [hzero]
    decide

/-- The first page of the child hangs its table behind index 0. -/
lemma vmmMapPage_first {v paddr flags : BitVec 64} {b : Bool} (hv : 2 ^ 63 ≤ highVma) (h0 : Taken src m.pmm 0)
    (habs : ¬ Present (m.entry new (pml5Index v))) (hf : FlagsOnly flags)
    (h : vmmMapPage src.alloc m ⟨new, true⟩ v paddr flags = some (b, m')) :
    ∃ p4 m1, Linked src m m1 new (pml5Index v) p4 (link p4 flags) ∧
      vmmMapPage src.alloc m1 ⟨p4, false⟩ v paddr flags = some (b, m') := by
  cases he : ensureTable src.alloc m flags new (pml5Index v) with
  | none =>
    rw [vmmMapPage, upperIndices, if_pos rfl, ensureTables, he] at h
    simp at h
  | some x =>
    obtain ⟨r, m1⟩ := x
    rcases ensureTable_cases hv he with ⟨hp, -, -⟩ | ⟨-, -, hl⟩ | ⟨-, p4, -, rfl, hl⟩
    · exact absurd hp habs
    · exact absurd h0 hl.fresh
    · rw [frameOf_link hl.low hf] at he
      rw [vmmMapPage_below he] at h
      exact ⟨p4, m1, hl, h⟩

/-- A copied table is mapped below the table behind index 0. -/
lemma FiveSub.map {i j k l : Fin 512} {e : BitVec 64} {f : ℕ} {b : Bool} (hv : 2 ^ 63 ≤ highVma)
    (sub : FiveSub src m0 old new p4 D m) (top : FiveTop src m0 m new) (hi : User i)
    (hlook : lookup m0 old [i, j, k] l = e) (hp : Present e) (hlarge : ¬ Large e) (hc : LooseCopy src m0 m p4 D e f)
    (hmap : vmmMapPage src.alloc m ⟨p4, false⟩ (entriesToVaddr i j k l) (BitVec.ofNat 64 (f * pageSize))
      (e &&& pteFlagMask) = some (b, m')) : FiveInv src m0 old new (D ∪ {([i, j, k], l)}) m' := by
  obtain ⟨fork, hs⟩ := sub.fork.map hv hi hlook hp hlarge hc hmap
  obtain ⟨top', sub'⟩ := sub.spared top hs fork
  exact ⟨fork.zero, fork.taken, fork.bytes, top', Or.inr ⟨p4, sub'⟩⟩

/-- One body of the innermost loop: a table of the parent becomes a page of the child. -/
theorem FiveInv.forkPage {i j k l : Fin 512} {pml2 : ℕ} (hv : 2 ^ 63 ≤ highVma) (hold : UserFrames src m0 old)
    (inv : FiveInv src m0 old new D m) (hi : User i) (hw : walk m0.next old [i, j, k] = some pml2)
    (hp : Present (m0.entry pml2 l)) (h : forkPage src.alloc ⟨new, true⟩ pml2 i j k l m = some m') :
    FiveInv src m0 old new (D ∪ {([i, j, k], l)}) m' := by
  obtain ⟨hlarge, f, m2, b, hc, hbytes, hmap⟩ := forkPage_copy hv hold inv.taken inv.bytes hi hw hp h
  have hsmall := smallPage_copy hp hlarge
  have hlook := lookup_present hw hp
  have hfive := pml5Index_entriesToVaddr i j k l
  have hfresh : ¬ Taken src m0.pmm f := fun hf => hc.fresh (inv.taken f hf)
  have hf2 : Taken src m2.pmm f := (hc.taken f).mpr (Or.inr rfl)
  obtain ⟨top2, hentry⟩ := inv.top.newPage hc.toNewPage
  rcases inv.sub with ⟨rfl, habs⟩ | ⟨p4, sub⟩
  · rw [← hentry, ← hfive] at habs
    have h02 : Taken src m2.pmm 0 := (hc.taken 0).mpr (Or.inl inv.zero)
    have htaken2 : ∀ g, Taken src m0.pmm g → Taken src m2.pmm g := fun g hg =>
      (hc.taken g).mpr (Or.inl (inv.taken g hg))
    have hbytes2 : ∀ b, Taken src m0.pmm (b / pageSize) → m2.mem b = m0.mem b := by
      intro b hb
      rw [hc.other b fun heq => hfresh (heq ▸ hb), inv.bytes b hb]
    obtain ⟨p4, m3, hl, hmap3⟩ := vmmMapPage_first hv h02 habs hsmall.flagsOnly hmap
    rw [hfive] at hl
    obtain ⟨top3, sub3, honly⟩ := top2.linked h02 htaken2 hbytes2 hsmall.flagsOnly hsmall.present hl
    refine sub3.map hv top3 hi hlook hp hlarge
      ⟨hc.low, hfresh, (hl.taken f).mpr (Or.inl hf2), honly f fun heq => hl.fresh (heq ▸ hf2), ?_, fun k' hk' => ?_⟩
      hmap3
    · intro ρ _ _ j' hD
      exact absurd hD (Set.notMem_empty _)
    · have hin : (f * pageSize + k') / pageSize = f := by
        simp only [pageSize] at *
        omega
      have hp4 : f ≠ p4 := fun heq => hl.fresh (heq ▸ hf2)
      have hnew : f ≠ new := fun heq => hc.fresh (heq ▸ inv.top.taken)
      rw [hl.bytes _ (by rwa [hin]) (by rwa [hin]), hbytes k' hk']
  · obtain ⟨fork2, hs2, hnot, hapart⟩ := sub.fork.newPage hc.toNewPage
    obtain ⟨-, sub2⟩ := sub.spared inv.top hs2 fork2
    have he : ensureTable src.alloc m2 (m0.entry pml2 l &&& pteFlagMask) new (pml5Index (entriesToVaddr i j k l)) =
        some (some p4, m2) := by
      rw [hfive, ensureTable_of_next sub2.next]
    rw [vmmMapPage_below he] at hmap
    exact sub2.map hv top2 hi hlook hp hlarge ⟨hc.low, hfresh, hf2, hnot, hapart, hbytes⟩ hmap

/-- The top level of a new pagemap. -/
lemma NewTop.fiveInv {kernelTop : ℕ} (hn : NewTop src m0 m kernelTop new) (h0 : Taken src m0.pmm 0) :
    FiveInv src m0 old new ∅ m := by
  have habs : ∀ i, User i → ¬ Present (m.entry new i) := by
    intro i hi
    rw [hn.entry, if_pos rfl, if_neg (Nat.not_le.mpr hi)]
    decide
  have hkeep : ∀ g, Taken src m0.pmm g → Taken src m.pmm g := fun g hg => (hn.taken g).mpr (Or.inl hg)
  refine ⟨hkeep 0 h0, hkeep, fun b hb => hn.bytes b fun heq => hn.fresh (heq ▸ hb),
    ⟨(hn.taken new).mpr (Or.inr rfl), hn.fresh, fun i hi _ => habs i hi⟩, Or.inl ⟨rfl, habs 0 ?_⟩⟩
  unfold User
  decide

/-- What the child maps in the end: the tables of the parent, at index 0. -/
lemma FiveInv.get_child (inv : FiveInv src m0 old new D m) (hold : UserFrames src m0 old)
    (hD : ∀ ρ ∈ words User 3, ρ.length = 3 → ∀ j, (ρ, j) ∈ D ↔ lookup m0 old ρ j ≠ noMapping)
    (hu : User (pml5Index v)) :
    (vmmGetPageMapping m ⟨new, true⟩ v ≠ noMapping ↔ pml5Index v = 0 ∧ User (pml4Index v) ∧
      lookup m0 old (tablePath false v) (pml1Index v) ≠ noMapping) ∧
    (vmmGetPageMapping m ⟨new, true⟩ v ≠ noMapping →
      ∃ p4, CopyOf src m0 m old p4 (tablePath false v) (pml1Index v) (frameOf (vmmGetPageMapping m ⟨new, true⟩ v)) ∧
        vmmGetPageMapping m ⟨new, true⟩ v = lookup m p4 (tablePath false v) (pml1Index v)) := by
  by_cases h5 : pml5Index v = 0
  · rcases inv.sub with ⟨rfl, habs⟩ | ⟨p4, sub⟩
    · have hno := vmmGetPageMapping_absent (v := v) ⟨new, true⟩ (by rwa [topIndex, if_pos rfl, h5])
      rw [hno]
      refine ⟨iff_of_false (fun h => h rfl) ?_, fun h => absurd rfl h⟩
      rintro ⟨-, hi, hmap⟩
      have hmem : tablePath false v ∈ words User 3 := tablePath_mem (show User (topIndex false v) from hi)
      exact absurd ((hD _ hmem (tablePath_length false v) _).mpr hmap) (Set.notMem_empty _)
    · rw [vmmGetPageMapping_below (by rw [h5]; exact sub.next)]
      by_cases hi : User (pml4Index v)
      · have hmem : tablePath false v ∈ words User 3 := tablePath_mem (show User (topIndex false v) from hi)
        have hlen := tablePath_length false v
        have hget := sub.fork.get_child (v := v) hi
        have hcopy : lookup m0 old (tablePath false v) (pml1Index v) ≠ noMapping →
            ∃ f, CopyOf src m0 m old p4 (tablePath false v) (pml1Index v) f := fun hmap =>
          sub.fork.copied _ hmem hlen _ ((hD _ hmem hlen _).mpr hmap)
        have hiff : lookup m p4 (tablePath false v) (pml1Index v) ≠ noMapping ↔
            lookup m0 old (tablePath false v) (pml1Index v) ≠ noMapping := by
          constructor
          · intro hmap
            rw [← hD _ hmem hlen]
            by_contra hno
            exact hmap (by rw [lookup, sub.fork.absent _ hmem hlen _ hno, Option.getD_none])
          · intro hmap
            obtain ⟨f, hf⟩ := hcopy hmap
            exact hf.mapped hold hmem hlen hmap
        rw [hget, hiff]
        refine ⟨⟨fun h => ⟨h5, hi, h⟩, fun h => h.2.2⟩, fun h => ?_⟩
        obtain ⟨f, hf⟩ := hcopy h
        exact ⟨p4, by rwa [hf.frame_eq], rfl⟩
      · have hno := vmmGetPageMapping_absent ⟨p4, false⟩ (sub.high _ hi)
        rw [hno]
        exact ⟨iff_of_false (fun h => h rfl) fun h => hi h.2.1, fun h => absurd rfl h⟩
  · have hno := vmmGetPageMapping_absent ⟨new, true⟩ (inv.top.others _ hu h5)
    rw [hno]
    exact ⟨iff_of_false (fun h => h rfl) fun h => h5 h.1, fun h => absurd rfl h⟩

end Child

section Pages
variable {σ : Type} {highVma : ℕ} {src : PageSource σ highVma} {m0 m m' : Machine σ} {old new : Pagemap}

/-- The child maps the addresses of the user half that the parent maps, with the same flags, to pages
with the same bytes. -/
structure SamePages (m0 m : Machine σ) (old new : Pagemap) : Prop where
  mapped : ∀ v, User (topIndex old.hasLevel5 v) →
    (vmmGetPageMapping m new v ≠ noMapping ↔ vmmGetPageMapping m0 old v ≠ noMapping)
  flags : ∀ v, User (topIndex old.hasLevel5 v) → vmmGetPageMapping m0 old v ≠ noMapping →
    vmmGetPageMapping m new v &&& pteFlagMask = vmmGetPageMapping m0 old v &&& pteFlagMask
  bytes : ∀ v, User (topIndex old.hasLevel5 v) → vmmGetPageMapping m0 old v ≠ noMapping → ∀ k < pageSize,
    m.mem (frameOf (vmmGetPageMapping m new v) * pageSize + k) =
      m0.mem (frameOf (vmmGetPageMapping m0 old v) * pageSize + k)

/-- All pages of the user half are at index 0, one at each address whose other four indices lead to a
table, with the flags of the link to this table and the bytes of the table. -/
structure TablesAsPages (m : Machine σ) (top : ℕ) : Prop where
  mapped : ∀ v, User (pml5Index v) → (vmmGetPageMapping m ⟨top, true⟩ v ≠ noMapping ↔
    pml5Index v = 0 ∧ User (pml4Index v) ∧ lookup m top (tablePath false v) (pml1Index v) ≠ noMapping)
  flags : ∀ v, User (pml5Index v) → vmmGetPageMapping m ⟨top, true⟩ v ≠ noMapping →
    vmmGetPageMapping m ⟨top, true⟩ v &&& pteFlagMask =
      lookup m top (tablePath false v) (pml1Index v) &&& pteFlagMask
  bytes : ∀ v, User (pml5Index v) → vmmGetPageMapping m ⟨top, true⟩ v ≠ noMapping → ∀ k < pageSize,
    m.mem (frameOf (vmmGetPageMapping m ⟨top, true⟩ v) * pageSize + k) =
      m.mem (frameOf (lookup m top (tablePath false v) (pml1Index v)) * pageSize + k)

lemma words_snoc {U : Fin 512 → Prop} {n : ℕ} {π : List (Fin 512)} (hπ : π ∈ words U n) (hpos : 0 < π.length)
    (l : Fin 512) : π ++ [l] ∈ words U (n + 1) := by
  refine ⟨by simpa using hπ.1, fun i hi => hπ.2 i ?_⟩
  cases π with
  | nil => simp at hpos
  | cons j π => simpa using hi

lemma SpaceInv.userFrames {s : Space σ} {pm : Pagemap} (inv : SpaceInv src pm s) (hfive : pm.hasLevel5 = true) :
    UserFrames src s.machine pm.topLevel := by
  obtain ⟨top, five⟩ := pm
  obtain rfl : five = true := hfive
  have hwords : ∀ π ∈ words User 3, π ∈ words User 4 := fun π hπ => ⟨hπ.1.trans (by decide), hπ.2⟩
  refine ⟨fun π hπ => inv.tree.taken π (hwords π hπ), fun π hπ hn t hw l hp => ?_⟩
  refine ⟨inv.tree.small π (hwords π hπ) (by rw [hn]; rfl) t hw l, ?_⟩
  refine inv.tree.taken (π ++ [l]) (words_snoc hπ (by omega) l) _ ?_
  rw [walk_snoc, hw, Option.bind_some, next_present hp]

/-- What the child of a pagemap of five levels maps. -/
lemma vmmForkPagemap_child {kernelTop : ℕ} {r : Option Pagemap} (hv : 2 ^ 63 ≤ highVma) (h0 : Taken src m0.pmm 0)
    (hk : Taken src m0.pmm kernelTop) (hold : UserFrames src m0 old.topLevel)
    (h : vmmForkPagemap src.alloc true kernelTop m0 old = some (r, m')) :
    ∃ top D, r = some ⟨top, true⟩ ∧ FiveInv src m0 old.topLevel top D m' ∧
      ∀ ρ ∈ words User 3, ρ.length = 3 → ∀ j, (ρ, j) ∈ D ↔ lookup m0 old.topLevel ρ j ≠ noMapping := by
  unfold vmmForkPagemap at h
  cases hnew : vmmNewPagemap src.alloc true kernelTop m0 with
  | none => simp [hnew] at h
  | some x =>
    obtain ⟨r1, m1⟩ := x
    rcases vmmNewPagemap_cases hv hk hnew with ⟨-, hfree, -⟩ | ⟨f, rfl, -, htop⟩
    · exact absurd h0 hfree
    rw [hnew] at h
    obtain ⟨m2, hfork, h⟩ := Option.map_eq_some_iff.mp h
    obtain ⟨rfl, rfl⟩ := Prod.mk.inj h
    obtain ⟨D, inv, hD⟩ := forkTables_keep (I := FiveInv src m0 old.topLevel f) hold
      (fun t ht D m inv => entry_congr fun b hb => inv.bytes b (by rwa [hb]))
      (fun _ _ _ _ _ hi hw hp _ _ _ inv h => inv.forkPage hv hold hi hw hp h) (htop.fiveInv h0) hfork
    exact ⟨f, D, rfl, inv, hD⟩

/-- Frames in use stay in use. -/
lemma SpaceInv.step_taken {pm : Pagemap} {s s' : Space σ} {c : SpaceCall} {g : ℕ} (hv : 2 ^ 63 ≤ highVma)
    (inv : SpaceInv src pm s) (h : SpaceStep src pm s c s') (hg : Taken src s.machine.pmm g) :
    Taken src s'.machine.pmm g := by
  cases h with
  | alloc h => exact (pmmAllocz_cases hv h).2.1 g hg
  | map _ hu hs h =>
    obtain ⟨-, -, -, -, hspare⟩ := vmmMapPage_updates hv inv.tree inv.zero hu hs h
    exact hspare.taken g hg
  | unmap hu =>
    obtain ⟨-, -, -, hspare⟩ := vmmUnmapPage_updates inv.tree hu
    exact hspare.taken g hg
  | store _ => exact hg

lemma fiveSpace_of_run {m1 : Machine σ} {kernelTop : ℕ} {calls : List SpaceCall} {s : Space σ}
    (hv : 2 ^ 63 ≤ highVma) (h0 : Taken src m.pmm 0) (hk : Taken src m.pmm kernelTop)
    (hnew : vmmNewPagemap src.alloc true kernelTop m = some (some old, m1))
    (hrun : Run (SpaceStep src old) ⟨m1, []⟩ calls s) :
    ∃ top, old = ⟨top, true⟩ ∧ SpaceInv src old s ∧ Taken src s.machine.pmm kernelTop := by
  rcases vmmNewPagemap_cases hv hk hnew with ⟨h, -⟩ | ⟨top, h, -, htop⟩
  · simp at h
  obtain rfl : old = ⟨top, true⟩ := Option.some.inj h
  have hkeep : ∀ s c s', SpaceInv src ⟨top, true⟩ s ∧ Taken src s.machine.pmm kernelTop →
      SpaceStep src ⟨top, true⟩ s c s' → SpaceInv src ⟨top, true⟩ s' ∧ Taken src s'.machine.pmm kernelTop :=
    fun s c s' h hs => ⟨h.1.step hv hs, h.1.step_taken hv hs h.2⟩
  exact ⟨top, rfl, hrun.invariant hkeep ⟨htop.space h0, (htop.taken kernelTop).mpr (Or.inl hk)⟩⟩

/-- `vmm_fork_pagemap` copies a pagemap of five levels exactly when its pages repeat its tables. -/
theorem vmmForkPagemap_five {m1 : Machine σ} {kernelTop : ℕ} {calls : List SpaceCall} {s : Space σ}
    (hv : 2 ^ 63 ≤ highVma) (h0 : Taken src m.pmm 0) (hk : Taken src m.pmm kernelTop)
    (hnew : vmmNewPagemap src.alloc true kernelTop m = some (some old, m1))
    (hrun : Run (SpaceStep src old) ⟨m1, []⟩ calls s)
    (hfork : vmmForkPagemap src.alloc true kernelTop s.machine old = some (some new, m')) :
    SamePages s.machine m' old new ↔ TablesAsPages s.machine old.topLevel := by
  obtain ⟨top, rfl, inv, hk'⟩ := fiveSpace_of_run hv h0 hk hnew hrun
  have hold := inv.userFrames rfl
  obtain ⟨child, D, hr, five, hD⟩ := vmmForkPagemap_child hv inv.zero hk' hold hfork
  obtain rfl := Option.some.inj hr
  have hchild := fun v hu => five.get_child (v := v) hold hD hu
  constructor
  · intro hsame
    refine ⟨fun v hu => (hsame.mapped v hu).symm.trans (hchild v hu).1, fun v hu hmap => ?_, fun v hu hmap k hk => ?_⟩
    · obtain ⟨p4, hc, hget⟩ := (hchild v hu).2 ((hsame.mapped v hu).mpr hmap)
      rw [← hsame.flags v hu hmap, hget, hc.flags]
    · obtain ⟨p4, hc, hget⟩ := (hchild v hu).2 ((hsame.mapped v hu).mpr hmap)
      rw [← hsame.bytes v hu hmap k hk, hc.bytes k hk]
  · intro htables
    have hiff := fun v hu => (hchild v hu).1.trans (htables.mapped v hu).symm
    refine ⟨hiff, fun v hu hmap => ?_, fun v hu hmap k hk => ?_⟩
    · obtain ⟨p4, hc, hget⟩ := (hchild v hu).2 ((hiff v hu).mpr hmap)
      rw [htables.flags v hu hmap, hget, hc.flags]
    · obtain ⟨p4, hc, hget⟩ := (hchild v hu).2 ((hiff v hu).mpr hmap)
      rw [htables.bytes v hu hmap k hk, hc.bytes k hk]

/-- No table that maps pages is empty. -/
def NoEmptyTable (m : Machine σ) (top : ℕ) : Prop :=
  ∀ ρ ∈ words User 4, ρ.length = 4 → ∀ t, walk m.next top ρ = some t → ∃ j, Present (m.entry t j)

lemma exists_address (a b c d e : Fin 512) : ∃ v : BitVec 64, pml5Index v = a ∧ pml4Index v = b ∧
    pml3Index v = c ∧ pml2Index v = d ∧ pml1Index v = e := by
  have ha := a.isLt
  have hb := b.isLt
  have hc := c.isLt
  have hd := d.isLt
  have he := e.isLt
  obtain ⟨v, hn⟩ : ∃ v : BitVec 64, v.toNat =
      a.val * 2 ^ 48 + b.val * 2 ^ 39 + c.val * 2 ^ 30 + d.val * 2 ^ 21 + e.val * 2 ^ 12 := by
    refine ⟨BitVec.ofNat 64 (a.val * 2 ^ 48 + b.val * 2 ^ 39 + c.val * 2 ^ 30 + d.val * 2 ^ 21 + e.val * 2 ^ 12), ?_⟩
    rw [BitVec.toNat_ofNat]
    omega
  refine ⟨v, Fin.ext ?_, Fin.ext ?_, Fin.ext ?_, Fin.ext ?_, Fin.ext ?_⟩
  · rw [pml5Index, index_val _ (by omega), hn]
    omega
  · rw [pml4Index, index_val _ (by omega), hn]
    omega
  · rw [pml3Index, index_val _ (by omega), hn]
    omega
  · rw [pml2Index, index_val _ (by omega), hn]
    omega
  · rw [pml1Index, index_val _ (by omega), hn]
    omega

/-- The table that a page stands for maps a page, whose address begins with the later indices. -/
lemma TablesAsPages.shift {s : Space σ} {top : ℕ} {v : BitVec 64} (h : TablesAsPages s.machine top)
    (inv : SpaceInv src ⟨top, true⟩ s) (hfull : NoEmptyTable s.machine top) (hu : User (pml5Index v))
    (hmap : vmmGetPageMapping s.machine ⟨top, true⟩ v ≠ noMapping) :
    pml5Index v = 0 ∧ ∃ w, User (pml5Index w) ∧ vmmGetPageMapping s.machine ⟨top, true⟩ w ≠ noMapping ∧
      pml5Index w = pml4Index v ∧ pml4Index w = pml3Index v ∧ pml3Index w = pml2Index v ∧
      pml2Index w = pml1Index v := by
  obtain ⟨h5, h4, hlook⟩ := (h.mapped v hu).mp hmap
  obtain ⟨t, hw, hp⟩ := present_of_lookup hlook
  have hmem : tablePath false v ++ [pml1Index v] ∈ words User 4 :=
    words_snoc (tablePath_mem (show User (topIndex false v) from h4)) (by rw [tablePath_length]; decide) _
  have hwalk : walk s.machine.next top (tablePath false v ++ [pml1Index v]) =
      some (frameOf (s.machine.entry t (pml1Index v))) := by
    rw [walk_snoc, hw, Option.bind_some, next_present hp]
  obtain ⟨j, hj⟩ := hfull _ hmem (by simp [tablePath, upperIndices]) _ hwalk
  obtain ⟨w, e5, e4, e3, e2, e1⟩ := exists_address (pml4Index v) (pml3Index v) (pml2Index v) (pml1Index v) j
  have hpath : tablePath true w = tablePath false v ++ [pml1Index v] := by
    simp [tablePath, upperIndices, e5, e4, e3, e2]
  have huw : User (pml5Index w) := by rwa [e5]
  refine ⟨h5, w, huw, ?_, e5, e4, e3, e2⟩
  rw [vmmGetPageMapping_eq inv.tree huw, hpath, e1, lookup_present hwalk hj]
  intro hno
  have hpage := inv.page hmem (by simp [tablePath, upperIndices, depth]) (entryAt_eq_some.mpr ⟨_, hwalk, hj, rfl⟩)
  rw [hno] at hpage
  exact hpage.1 (by decide)

/-- When no table is empty, only the page at address 0 can repeat its table. -/
theorem TablesAsPages.first {s : Space σ} {top : ℕ} {v : BitVec 64} (h : TablesAsPages s.machine top)
    (inv : SpaceInv src ⟨top, true⟩ s) (hfull : NoEmptyTable s.machine top) (hu : User (pml5Index v))
    (hmap : vmmGetPageMapping s.machine ⟨top, true⟩ v ≠ noMapping) : pageIndices true v = [0, 0, 0, 0, 0] := by
  obtain ⟨h0, w1, hu1, hm1, e0, e1, e2, e3⟩ := h.shift inv hfull hu hmap
  obtain ⟨h1, w2, hu2, hm2, f0, f1, f2, -⟩ := h.shift inv hfull hu1 hm1
  obtain ⟨h2, w3, hu3, hm3, g0, g1, -⟩ := h.shift inv hfull hu2 hm2
  obtain ⟨h3, w4, hu4, hm4, k0, -⟩ := h.shift inv hfull hu3 hm3
  obtain ⟨h4, -⟩ := h.shift inv hfull hu4 hm4
  have hv4 : pml4Index v = 0 := e0.symm.trans h1
  have hv3 : pml3Index v = 0 := e1.symm.trans (f0.symm.trans h2)
  have hv2 : pml2Index v = 0 := e2.symm.trans (f1.symm.trans (g0.symm.trans h3))
  have hv1 : pml1Index v = 0 := e3.symm.trans (f2.symm.trans (g1.symm.trans (k0.symm.trans h4)))
  simp [pageIndices, tablePath, upperIndices, h0, hv4, hv3, hv2, hv1]

end Pages

/-- A space of five levels with one page, at `0x400000`. -/
structure FivePage (pm : Pagemap) (m1 : Machine Bump) (s : Space Bump) (f : ℕ) : Prop where
  new : vmmNewPagemap (bumpSource (2 ^ 63)).alloc true 1 bareMachine = some (some pm, m1)
  run : Run (SpaceStep (bumpSource (2 ^ 63)) pm) ⟨m1, []⟩ [.alloc 1, .map 0x400000 f (ptePresent ||| pteUser)] s
  left : 2 ^ 50 ≤ Bump.left (2 ^ 63) s.machine.pmm
  mapped : vmmGetPageMapping s.machine pm 0x400000 ≠ noMapping
  others : ∀ w, User (topIndex true w) → pageIndices true w ≠ pageIndices true 0x400000 →
    vmmGetPageMapping s.machine pm w = noMapping

lemma exists_fivePage : ∃ pm m1 s f, FivePage pm m1 s f := by
  have hv : 2 ^ 63 ≤ 2 ^ 63 := le_rfl
  have hs := bump_serves (2 ^ 63)
  have hbare := bareMachine_empty (2 ^ 63) true
  have hleft : 2 ^ 50 + 4 + 1 + 1 ≤ Bump.left (2 ^ 63) bareMachine.pmm := by
    norm_num [Bump.left, bareMachine, firstPages, pageSize]
  obtain ⟨r, m1, hnew, hk1⟩ := hs.newPagemap hleft true 1
  rcases vmmNewPagemap_cases hv hbare.top hnew with ⟨-, hno, -⟩ | ⟨t, rfl, -, htop⟩
  · exact absurd hbare.zero hno
  have inv1 : SpaceInv (bumpSource (2 ^ 63)) ⟨t, true⟩ ⟨m1, []⟩ := htop.space hbare.zero
  obtain ⟨a, m2, halloc, hk2⟩ := hs.allocz hk1
  have inv2 := inv1.alloc hv halloc
  have hown : a / pageSize ∈ List.range' (a / pageSize) 1 ++ [] := by simp
  obtain ⟨b, m3, hmap, hk3⟩ := hs.mapPage hk2 ⟨t, true⟩ 0x400000 (BitVec.ofNat 64 (a / pageSize * pageSize))
    (ptePresent ||| pteUser)
  have hu : User (topIndex true 0x400000) := by
    unfold User
    decide
  obtain ⟨-, tree3, -, hupd, -⟩ := vmmMapPage_updates hv inv2.tree inv2.zero hu smallPage_user hmap
  obtain ⟨-, hkeep, -, hbytes⟩ := pmmAllocz_cases hv halloc
  obtain ⟨-, hsame, -⟩ := inv1.tree.congr hkeep hbytes
  refine ⟨⟨t, true⟩, m1, ⟨m3, _⟩, a / pageSize, hnew, .cons (.alloc halloc) (.single (.map hown hu smallPage_user hmap)),
    hk3, ?_, fun w hw hne => ?_⟩
  · rw [hupd.get inv2.tree tree3 hu, if_pos rfl]
    intro hno
    exact smallPage_user.not_large_or _ (by rw [← Option.getD_some (a := BitVec.ofNat 64 _ ||| _), hno]; decide)
  · rw [hupd.get inv2.tree tree3 hw, if_neg hne, vmmGetPageMapping_eq inv2.tree hw, lookup,
      hsame _ (tablePath_mem hw) (tablePath_length _ _), htop.entryAt_eq (tablePath_mem hw)
        (by rw [tablePath_length]; exact depth_pos _), Option.getD_none]

/-- Its child maps `0x2000`, and the page at `0x2000` is the table of the parent. -/
lemma FivePage.child {pm new : Pagemap} {m1 m' : Machine Bump} {s : Space Bump} {f : ℕ} (h : FivePage pm m1 s f)
    (hfork : vmmForkPagemap (bumpSource (2 ^ 63)).alloc true 1 s.machine pm = some (some new, m')) :
    vmmGetPageMapping m' new 0x2000 ≠ noMapping ∧ vmmGetPageMapping s.machine pm 0x2000 = noMapping := by
  have hbare := bareMachine_empty (2 ^ 63) true
  obtain ⟨top, rfl, inv, hk⟩ := fiveSpace_of_run le_rfl hbare.zero hbare.top h.new h.run
  obtain ⟨child, D, hr, five, hD⟩ := vmmForkPagemap_child le_rfl inv.zero hk (inv.userFrames rfl) hfork
  obtain rfl := Option.some.inj hr
  have hu : User (topIndex true 0x400000) := by
    unfold User
    decide
  have hu2 : ∀ five, User (topIndex five 0x2000) := by
    unfold User
    decide
  refine ⟨(five.get_child (inv.userFrames rfl) hD (hu2 true)).1.mpr ⟨by decide, hu2 false, ?_⟩, h.others _ (hu2 true) (by decide)⟩
  have hmap := h.mapped
  rw [vmmGetPageMapping_eq inv.tree hu] at hmap
  obtain ⟨t, hw, -⟩ := present_of_lookup hmap
  rw [show tablePath true 0x400000 = tablePath false 0x2000 ++ [pml1Index 0x2000] by decide, walk_snoc] at hw
  obtain ⟨u, hu, hnext⟩ := Option.bind_eq_some_iff.mp hw
  refine ((inv.userFrames rfl).entry (tablePath_mem (hu2 false)) (tablePath_length false _)).mpr ⟨u, hu, ?_⟩
  by_contra hno
  rw [next_absent hno] at hnext
  exact absurd hnext (Option.some_ne_none t).symm

lemma FivePage.fork {pm : Pagemap} {m1 : Machine Bump} {s : Space Bump} {f : ℕ} (h : FivePage pm m1 s f) :
    ∃ new m', vmmForkPagemap (bumpSource (2 ^ 63)).alloc true 1 s.machine pm = some (some new, m') := by
  have hbare := bareMachine_empty (2 ^ 63) true
  obtain ⟨top, rfl, inv, hk⟩ := fiveSpace_of_run le_rfl hbare.zero hbare.top h.new h.run
  obtain ⟨c, hc⟩ : ∃ c, c = 512 * (512 * (512 * 5)) := ⟨_, rfl⟩
  obtain ⟨r, m', hfork, -⟩ := (bump_serves (2 ^ 63)).forkPagemap ⟨top, true⟩ true 1 hc (forkPages_le hc h.left)
  obtain ⟨child, -, rfl, -⟩ := vmmForkPagemap_child le_rfl inv.zero hk (inv.userFrames rfl) hfork
  exact ⟨_, m', hfork⟩

/-- The child of such a space does not map the same addresses. -/
theorem vmmForkPagemap_five_moved : ∃ (m1 m' : Machine Bump) (s : Space Bump) (old new : Pagemap) (f : ℕ),
    vmmNewPagemap (bumpSource (2 ^ 63)).alloc true 1 bareMachine = some (some old, m1) ∧
    Run (SpaceStep (bumpSource (2 ^ 63)) old) ⟨m1, []⟩ [.alloc 1, .map 0x400000 f (ptePresent ||| pteUser)] s ∧
    vmmForkPagemap (bumpSource (2 ^ 63)).alloc true 1 s.machine old = some (some new, m') ∧
    vmmGetPageMapping m' new 0x2000 ≠ noMapping ∧ vmmGetPageMapping s.machine old 0x2000 = noMapping ∧
    ¬ SamePages s.machine m' old new := by
  obtain ⟨pm, m1, s, f, h⟩ := exists_fivePage
  obtain ⟨new, m', hfork⟩ := h.fork
  obtain ⟨hchild, hparent⟩ := h.child hfork
  refine ⟨m1, m', s, pm, new, f, h.new, h.run, hfork, hchild, hparent, fun hsame => ?_⟩
  have hbare := bareMachine_empty (2 ^ 63) true
  obtain ⟨top, rfl, -⟩ := fiveSpace_of_run le_rfl hbare.zero hbare.top h.new h.run
  have hu : User (topIndex true 0x2000) := by
    unfold User
    decide
  exact (hsame.mapped 0x2000 hu).mp hchild hparent

theorem vmmForkPagemap_five_onePage : ∃ (m1 m' : Machine Bump) (s : Space Bump) (old new : Pagemap),
    vmmForkPagemap (bumpSource (2 ^ 63)).alloc true 1 s.machine old = some (some new, m') ∧
    vmmNewPagemap (bumpSource (2 ^ 63)).alloc true 1 bareMachine = some (some old, m1) ∧
    vmmGetPageMapping s.machine old 0x400000 ≠ noMapping ∧
    (SamePages s.machine m' old new ↔ TablesAsPages s.machine old.topLevel) := by
  obtain ⟨pm, m1, s, f, h⟩ := exists_fivePage
  obtain ⟨new, m', hfork⟩ := h.fork
  have hbare := bareMachine_empty (2 ^ 63) true
  exact ⟨m1, m', s, pm, new, hfork, h.new, h.mapped,
    vmmForkPagemap_five le_rfl hbare.zero hbare.top h.new h.run hfork⟩

end PiggyOs.Vmm
