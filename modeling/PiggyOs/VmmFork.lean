import PiggyOs.AddressSpace

/-! Copying an address space. The loops of `vmm_fork_pagemap` read the tables of the parent while
the tables of the child grow; everything they write is in frames that were not in use before. -/
namespace PiggyOs.Vmm
open ByteMemory Walk Transition

section Indices

/-- The address built from four indices, as a number. -/
lemma entriesToVaddr_toNat (i j k l : Fin 512) : (entriesToVaddr i j k l).toNat =
    i.val * 2 ^ 39 + (j.val * 2 ^ 30 + (k.val * 2 ^ 21 + l.val * 2 ^ 12)) := by
  have hi := i.isLt
  have hj := j.isLt
  have hk := k.isLt
  have hl := l.isLt
  have hshift : ∀ (x : Fin 512) (s : ℕ), s ≤ 39 →
      (BitVec.ofNat 64 x.val <<< s).toNat = x.val <<< s := by
    intro x s hs
    have hx := x.isLt
    have hpow : 2 ^ s ≤ 2 ^ 39 := Nat.pow_le_pow_right (by decide) hs
    have hx64 : x.val % 2 ^ 64 = x.val := Nat.mod_eq_of_lt (by omega)
    have hlt : x.val * 2 ^ s < 2 ^ 64 := by
      calc x.val * 2 ^ s ≤ 511 * 2 ^ 39 := Nat.mul_le_mul (by omega) hpow
        _ < 2 ^ 64 := by norm_num
    rw [BitVec.toNat_shiftLeft, BitVec.toNat_ofNat, hx64, Nat.shiftLeft_eq, Nat.mod_eq_of_lt hlt]
  rw [entriesToVaddr, BitVec.toNat_or, BitVec.toNat_or, BitVec.toNat_or, hshift i 39 (by omega),
    hshift j 30 (by omega), hshift k 21 (by omega), hshift l 12 (by omega), Nat.or_assoc,
    Nat.or_assoc, ← Nat.shiftLeft_add_eq_or_of_lt (b := l.val <<< 12),
    ← Nat.shiftLeft_add_eq_or_of_lt (i := 30), ← Nat.shiftLeft_add_eq_or_of_lt (i := 39)]
  all_goals simp only [Nat.shiftLeft_eq]
  all_goals omega

lemma index_entriesToVaddr (i j k l : Fin 512) :
    pml4Index (entriesToVaddr i j k l) = i ∧ pml3Index (entriesToVaddr i j k l) = j ∧
      pml2Index (entriesToVaddr i j k l) = k ∧ pml1Index (entriesToVaddr i j k l) = l := by
  have hi := i.isLt
  have hj := j.isLt
  have hk := k.isLt
  have hl := l.isLt
  have hn := entriesToVaddr_toNat i j k l
  refine ⟨Fin.ext ?_, Fin.ext ?_, Fin.ext ?_, Fin.ext ?_⟩
  · rw [pml4Index, index_val _ (by omega), hn]
    omega
  · rw [pml3Index, index_val _ (by omega), hn]
    omega
  · rw [pml2Index, index_val _ (by omega), hn]
    omega
  · rw [pml1Index, index_val _ (by omega), hn]
    omega

end Indices

section Fork
variable {σ : Type} {highVma : ℕ} {src : PageSource σ highVma} {m0 m m' : Machine σ}
  {old new : ℕ} {D : Set (List (Fin 512) × Fin 512)}

/-- Frame `f` is the copy that the child `new` has of the page of the parent `old` at `ρ`, `j`. -/
structure CopyOf (src : PageSource σ highVma) (m0 m : Machine σ) (old new : ℕ) (ρ : List (Fin 512))
    (j : Fin 512) (f : ℕ) : Prop where
  low : f * pageSize < 2 ^ 63
  entry : lookup m new ρ j = BitVec.ofNat 64 (f * pageSize) ||| (lookup m0 old ρ j &&& pteFlagMask)
  fresh : ¬ Taken src m0.pmm f
  taken : Taken src m.pmm f
  notTable : NotTable User new 3 m f
  bytes : ∀ k < pageSize,
    m.mem (f * pageSize + k) = m0.mem (frameOf (lookup m0 old ρ j) * pageSize + k)

/-- What the loops keep, when the pages at the places in `D` have been copied. `m0` is the machine
at the start. -/
structure ForkInv (src : PageSource σ highVma) (m0 : Machine σ) (old new : ℕ)
    (D : Set (List (Fin 512) × Fin 512)) (m : Machine σ) : Prop where
  zero : Taken src m.pmm 0
  taken : ∀ g, Taken src m0.pmm g → Taken src m.pmm g
  bytes : ∀ b, Taken src m0.pmm (b / pageSize) → m.mem b = m0.mem b
  tree : TreeInv src User m new 3
  fresh : ∀ g, Taken src m0.pmm g → NotTable User new 3 m g
  copied : ∀ ρ ∈ words User 3, ρ.length = 3 → ∀ j, (ρ, j) ∈ D → ∃ f, CopyOf src m0 m old new ρ j f
  absent : ∀ ρ ∈ words User 3, ρ.length = 3 → ∀ j, (ρ, j) ∉ D → entryAt m new ρ j = none
  distinct : ∀ ρ ∈ words User 3, ρ.length = 3 → ∀ ρ' ∈ words User 3, ρ'.length = 3 → ∀ j j',
    (ρ, j) ∈ D → (ρ', j') ∈ D → frameOf (lookup m new ρ j) = frameOf (lookup m new ρ' j') →
    ρ = ρ' ∧ j = j'

/-- A copy stays a copy while the tables of the child grow elsewhere. -/
lemma CopyOf.spared {ρ : List (Fin 512)} {j : Fin 512} {f : ℕ} (hc : CopyOf src m0 m old new ρ j f)
    (hs : Spares src User new 3 m m') (hl : lookup m' new ρ j = lookup m new ρ j) :
    CopyOf src m0 m' old new ρ j f where
  low := hc.low
  entry := hl.trans hc.entry
  fresh := hc.fresh
  taken := hs.taken f hc.taken
  notTable := hs.tables f hc.taken hc.notTable
  bytes k hk := by
    rw [hs.bytes f hc.taken hc.notTable, hc.bytes k hk]
    simp only [pageSize] at *
    omega

lemma flagsOnly_and_mask (e : BitVec 64) : FlagsOnly (e &&& pteFlagMask) := by
  rw [FlagsOnly, BitVec.and_assoc, BitVec.and_not_self]
  exact BitVec.and_zero

lemma frameOf_copy {e : BitVec 64} {f : ℕ} (h : f * pageSize < 2 ^ 63) :
    frameOf (BitVec.ofNat 64 (f * pageSize) ||| (e &&& pteFlagMask)) = f := by
  rw [frameOf_or (flagsOnly_and_mask e), frameOf_ofNat h]

lemma CopyOf.frame_eq {ρ : List (Fin 512)} {j : Fin 512} {f : ℕ}
    (hc : CopyOf src m0 m old new ρ j f) : frameOf (lookup m new ρ j) = f := by
  rw [hc.entry, frameOf_copy hc.low]

lemma smallPage_copy {e : BitVec 64} (hp : Present e) (hl : ¬ Large e) :
    SmallPage (e &&& pteFlagMask) where
  flagsOnly := flagsOnly_and_mask e
  present := by
    have hm : pteFlagMask.getLsbD 0 = true := by decide
    rw [present_iff] at *
    rw [BitVec.getLsbD_and, hp, hm]
    rfl
  small := by
    rw [large_iff, Bool.not_eq_true] at *
    rw [BitVec.getLsbD_and, hl, Bool.false_and]

/-- Progress of the child that touches no frame in use except its own tables. -/
lemma ForkInv.spared (inv : ForkInv src m0 old new D m)
    (hs : Spares src User new 3 m m') :
    Taken src m'.pmm 0 ∧ (∀ g, Taken src m0.pmm g → Taken src m'.pmm g) ∧
      (∀ b, Taken src m0.pmm (b / pageSize) → m'.mem b = m0.mem b) ∧
      ∀ g, Taken src m0.pmm g → NotTable User new 3 m' g := by
  refine ⟨hs.taken 0 inv.zero, fun g hg => hs.taken g (inv.taken g hg), fun b hb => ?_, fun g hg => ?_⟩
  · rw [hs.bytes _ (inv.taken _ hb) (inv.fresh _ hb) b rfl, inv.bytes b hb]
  · exact hs.tables g (inv.taken g hg) (inv.fresh g hg)

/-- The entry of a table of the parent is what it was. -/
lemma ForkInv.entry (inv : ForkInv src m0 old new D m) {t : ℕ} (ht : Taken src m0.pmm t)
    (i : Fin 512) : m.entry t i = m0.entry t i := by
  apply entry_congr
  intro b hb
  apply inv.bytes
  rwa [hb]

/-- `m'` is `m` with something written to the new frame `f`. -/
structure NewPage (src : PageSource σ highVma) (m m' : Machine σ) (f : ℕ) : Prop where
  low : f * pageSize < 2 ^ 63
  fresh : ¬ Taken src m.pmm f
  taken : ∀ h, Taken src m'.pmm h ↔ Taken src m.pmm h ∨ h = f
  other : ∀ b, b / pageSize ≠ f → m'.mem b = m.mem b

/-- What is written are the bytes of frame `g`. -/
structure PageCopy (src : PageSource σ highVma) (m m' : Machine σ) (f g : ℕ) : Prop
    extends NewPage src m m' f where
  bytes : ∀ k < pageSize, m'.mem (f * pageSize + k) = m.mem (g * pageSize + k)

/-- The clearing and the copying of one page. -/
lemma newPage {f : ℕ} {q : σ} (hv : 2 ^ 63 ≤ highVma)
    (ha : src.alloc m.pmm 1 = some (f * pageSize, q)) (x : ℕ) :
    NewPage src m ⟨copy (clear m.mem (f * pageSize) pageSize) (f * pageSize) x pageSize, q⟩ f := by
  obtain ⟨f', hf', hlow, hfresh, htaken⟩ := alloc_frame hv ha
  obtain rfl : f = f' := by
    simp only [pageSize] at hf'
    omega
  refine ⟨hlow, hfresh, htaken, fun b hb => ?_⟩
  simp only
  rw [copy_outside, clear_outside]
  · simp only [pageSize] at *
    omega
  · simp only [pageSize] at *
    omega

lemma pageCopy {f g : ℕ} {q : σ} (hv : 2 ^ 63 ≤ highVma)
    (ha : src.alloc m.pmm 1 = some (f * pageSize, q)) (hg : Taken src m.pmm g) :
    PageCopy src m ⟨copy (clear m.mem (f * pageSize) pageSize) (f * pageSize) (g * pageSize) pageSize, q⟩
      f g := by
  have hnew := newPage hv ha (g * pageSize)
  have hne : g ≠ f := fun h => hnew.fresh (h ▸ hg)
  refine ⟨hnew, fun k hk => ?_⟩
  simp only
  rw [copy_inside _ _ hk, clear_outside]
  simp only [pageSize] at *
  omega

/-- Frame `f` is a copy of the page behind the entry `e` of the parent that the child does not map yet. -/
structure LooseCopy (src : PageSource σ highVma) (m0 m : Machine σ) (new : ℕ) (D : Set (List (Fin 512) × Fin 512))
    (e : BitVec 64) (f : ℕ) : Prop where
  low : f * pageSize < 2 ^ 63
  fresh : ¬ Taken src m0.pmm f
  taken : Taken src m.pmm f
  notTable : NotTable User new 3 m f
  apart : ∀ ρ ∈ words User 3, ρ.length = 3 → ∀ j, (ρ, j) ∈ D → frameOf (lookup m new ρ j) ≠ f
  bytes : ∀ k < pageSize, m.mem (f * pageSize + k) = m0.mem (frameOf e * pageSize + k)

/-- The loops go on after something was written to a new frame. -/
lemma ForkInv.newPage {f : ℕ} {m2 : Machine σ} (inv : ForkInv src m0 old new D m) (hc : NewPage src m m2 f) :
    ForkInv src m0 old new D m2 ∧ Spares src User new 3 m m2 ∧ NotTable User new 3 m2 f ∧
      ∀ ρ ∈ words User 3, ρ.length = 3 → ∀ j, (ρ, j) ∈ D → frameOf (lookup m2 new ρ j) ≠ f := by
  have hkeep : ∀ g, Taken src m.pmm g → Taken src m2.pmm g := fun g hg => (hc.taken g).mpr (Or.inl hg)
  obtain ⟨tree, hlook, hspare, hwalk⟩ := inv.tree.congr hkeep fun b hb => hc.other b fun h => hc.fresh (h ▸ hb)
  obtain ⟨hz, ht, hb, hn⟩ := inv.spared hspare
  have hsame : ∀ ρ ∈ words User 3, ρ.length = 3 → ∀ j, lookup m2 new ρ j = lookup m new ρ j := by
    intro ρ hρ hρn j
    rw [lookup, lookup, hlook ρ hρ hρn j]
  refine ⟨⟨hz, ht, hb, tree, hn, ?_, ?_, ?_⟩, hspare, ?_, ?_⟩
  · intro ρ hρ hρn j hD
    obtain ⟨g, hg⟩ := inv.copied ρ hρ hρn j hD
    exact ⟨g, hg.spared hspare (hsame ρ hρ hρn j)⟩
  · intro ρ hρ hρn j hD
    rw [hlook ρ hρ hρn j, inv.absent ρ hρ hρn j hD]
  · intro ρ hρ hρn ρ' hρ' hρn' j j' h1 h2 hframe
    rw [hsame ρ hρ hρn j, hsame ρ' hρ' hρn' j'] at hframe
    exact inv.distinct ρ hρ hρn ρ' hρ' hρn' j j' h1 h2 hframe
  · intro π hπ hw
    rw [hwalk π hπ] at hw
    exact hc.fresh (inv.tree.taken π hπ f hw)
  · intro ρ hρ hρn j hD hframe
    obtain ⟨g, hg⟩ := inv.copied ρ hρ hρn j hD
    rw [hsame ρ hρ hρn j, hg.frame_eq] at hframe
    exact hc.fresh (hframe ▸ hg.taken)

/-- A page copied to a new frame is mapped in the child. -/
lemma ForkInv.map {i j k l : Fin 512} {e : BitVec 64} {f : ℕ} {b : Bool} (hv : 2 ^ 63 ≤ highVma)
    (inv : ForkInv src m0 old new D m) (hi : User i) (hlook : lookup m0 old [i, j, k] l = e) (hp : Present e)
    (hlarge : ¬ Large e) (hc : LooseCopy src m0 m new D e f)
    (hmap : vmmMapPage src.alloc m ⟨new, false⟩ (entriesToVaddr i j k l) (BitVec.ofNat 64 (f * pageSize))
      (e &&& pteFlagMask) = some (b, m')) :
    ForkInv src m0 old new (D ∪ {([i, j, k], l)}) m' ∧ Spares src User new 3 m m' := by
  have hmem : [i, j, k] ∈ words User 3 := ⟨by simp, by simpa using hi⟩
  obtain ⟨hi4, hi3, hi2, hi1⟩ := index_entriesToVaddr i j k l
  have hpath : tablePath false (entriesToVaddr i j k l) = [i, j, k] := by
    simp [tablePath, upperIndices, hi4, hi3, hi2]
  have tree : TreeInv src User m (Pagemap.mk new false).topLevel (depth (Pagemap.mk new false).hasLevel5) := inv.tree
  obtain ⟨-, tree', -, hupd, hspare⟩ := vmmMapPage_updates hv tree inv.zero (by simpa [topIndex, hi4] using hi)
    (smallPage_copy hp hlarge) hmap
  obtain ⟨hz, ht, hb, hn⟩ := inv.spared hspare
  have hat : ∀ ρ ∈ words User 3, ρ.length = 3 → ∀ j', entryAt m' new ρ j' =
      if ρ = [i, j, k] ∧ j' = l then some (BitVec.ofNat 64 (f * pageSize) ||| (e &&& pteFlagMask))
      else entryAt m new ρ j' := by
    intro ρ hρ hρn j'
    have hu := hupd ρ hρ hρn j'
    rw [hpath, hi1] at hu
    exact hu
  have hlook' : ∀ ρ ∈ words User 3, ρ.length = 3 → ∀ j', lookup m' new ρ j' =
      if ρ = [i, j, k] ∧ j' = l then BitVec.ofNat 64 (f * pageSize) ||| (e &&& pteFlagMask)
      else lookup m new ρ j' := by
    intro ρ hρ hρn j'
    rw [lookup, lookup, hat ρ hρ hρn j']
    split_ifs <;> rfl
  have hnew : CopyOf src m0 m' old new [i, j, k] l f := by
    refine ⟨hc.low, ?_, hc.fresh, hspare.taken f hc.taken, hspare.tables f hc.taken hc.notTable, ?_⟩
    · rw [hlook' _ hmem rfl, if_pos ⟨rfl, rfl⟩, hlook]
    · intro k' hk'
      have hin : (f * pageSize + k') / pageSize = f := by
        simp only [pageSize] at *
        omega
      rw [hspare.bytes f hc.taken hc.notTable _ hin, hc.bytes k' hk', hlook]
  have hD' : ∀ ρ j', ¬ (ρ = [i, j, k] ∧ j' = l) → (ρ, j') ∈ D ∪ {([i, j, k], l)} → (ρ, j') ∈ D := by
    intro ρ j' hne hD
    rcases hD with hD | hD
    · exact hD
    · exact absurd (by simpa using hD) hne
  have hold : ∀ ρ ∈ words User 3, ρ.length = 3 → ∀ j', ¬ (ρ = [i, j, k] ∧ j' = l) → (ρ, j') ∈ D →
      ∃ g, g ≠ f ∧ CopyOf src m0 m old new ρ j' g ∧ CopyOf src m0 m' old new ρ j' g := by
    intro ρ hρ hρn j' hne hD
    obtain ⟨g, hg⟩ := inv.copied ρ hρ hρn j' hD
    refine ⟨g, fun h => hc.apart ρ hρ hρn j' hD (hg.frame_eq.trans h), hg, hg.spared hspare ?_⟩
    rw [hlook' ρ hρ hρn, if_neg hne]
  refine ⟨⟨hz, ht, hb, tree', hn, ?_, ?_, ?_⟩, hspare⟩
  · intro ρ hρ hρn j' hD
    by_cases hne : ρ = [i, j, k] ∧ j' = l
    · obtain ⟨rfl, rfl⟩ := hne
      exact ⟨f, hnew⟩
    · obtain ⟨g, -, -, hg⟩ := hold ρ hρ hρn j' hne (hD' ρ j' hne hD)
      exact ⟨g, hg⟩
  · intro ρ hρ hρn j' hD
    simp only [Set.mem_union, Set.mem_singleton_iff, Prod.mk.injEq, not_or] at hD
    rw [hat ρ hρ hρn, if_neg hD.2, inv.absent ρ hρ hρn j' hD.1]
  · intro ρ hρ hρn ρ' hρ' hρn' j1 j2 h1 h2 hframe
    by_cases hne : ρ = [i, j, k] ∧ j1 = l
    · by_cases hne' : ρ' = [i, j, k] ∧ j2 = l
      · exact ⟨hne.1.trans hne'.1.symm, hne.2.trans hne'.2.symm⟩
      · obtain ⟨g, hgf, -, hg⟩ := hold ρ' hρ' hρn' j2 hne' (hD' ρ' j2 hne' h2)
        obtain ⟨rfl, rfl⟩ := hne
        rw [hnew.frame_eq, hg.frame_eq] at hframe
        exact absurd hframe.symm hgf
    · obtain ⟨g, hgf, hgo, hg⟩ := hold ρ hρ hρn j1 hne (hD' ρ j1 hne h1)
      by_cases hne' : ρ' = [i, j, k] ∧ j2 = l
      · obtain ⟨rfl, rfl⟩ := hne'
        rw [hnew.frame_eq, hg.frame_eq] at hframe
        exact absurd hframe hgf
      · obtain ⟨g', -, hgo', hg'⟩ := hold ρ' hρ' hρn' j2 hne' (hD' ρ' j2 hne' h2)
        rw [hg.frame_eq, hg'.frame_eq] at hframe
        refine inv.distinct ρ hρ hρn ρ' hρ' hρn' j1 j2 (hD' ρ j1 hne h1) (hD' ρ' j2 hne' h2) ?_
        rw [hgo.frame_eq, hgo'.frame_eq, hframe]

/-- The allocation and the copy at the start of the innermost body. -/
lemma forkPage_copy {i j k l : Fin 512} {pml2 : ℕ} {child : Pagemap} (hv : 2 ^ 63 ≤ highVma)
    (hold : UserFrames src m0 old) (htaken : ∀ g, Taken src m0.pmm g → Taken src m.pmm g)
    (hbytes : ∀ b, Taken src m0.pmm (b / pageSize) → m.mem b = m0.mem b) (hi : User i)
    (hw : walk m0.next old [i, j, k] = some pml2) (hp : Present (m0.entry pml2 l))
    (h : forkPage src.alloc child pml2 i j k l m = some m') :
    ¬ Large (m0.entry pml2 l) ∧ ∃ f m2 b, PageCopy src m m2 f (frameOf (m0.entry pml2 l)) ∧
      (∀ k' < pageSize, m2.mem (f * pageSize + k') = m0.mem (frameOf (m0.entry pml2 l) * pageSize + k')) ∧
      vmmMapPage src.alloc m2 child (entriesToVaddr i j k l) (BitVec.ofNat 64 (f * pageSize))
        (m0.entry pml2 l &&& pteFlagMask) = some (b, m') := by
  have hmem : [i, j, k] ∈ words User 3 := ⟨by simp, by simpa using hi⟩
  obtain ⟨hlarge, hpage⟩ := hold.pages _ hmem rfl pml2 hw l hp
  have htab := hold.tables _ hmem pml2 hw
  have hentry : m.entry pml2 l = m0.entry pml2 l := entry_congr (fun b hb => hbytes b (by rwa [hb])) l
  refine ⟨hlarge, ?_⟩
  unfold Vmm.forkPage at h
  cases ha : src.alloc m.pmm 1 with
  | none => simp [pmmAllocz, ha] at h
  | some x =>
    obtain ⟨a, q⟩ := x
    obtain ⟨f, rfl, -, hfresh, -⟩ := alloc_frame hv ha
    have hpf : pml2 ≠ f := fun h => hfresh (h ▸ htaken _ htab)
    have he1 : (⟨clear m.mem (f * pageSize) pageSize, q⟩ : Machine σ).entry pml2 l = m0.entry pml2 l := by
      rw [entry_clear, if_neg hpf, hentry]
    have hc := pageCopy hv ha (htaken _ hpage)
    simp only [pmmAllocz, ha, Option.map_some, Nat.mul_one, he1] at h
    have he2 := entry_congr (fun b hb => hc.other b (by rwa [hb])) l
    rw [he2, hentry] at h
    obtain ⟨⟨b, m3⟩, hmap, rfl⟩ := Option.map_eq_some_iff.mp h
    refine ⟨f, _, b, hc, fun k' hk' => ?_, hmap⟩
    have hin : (frameOf (m0.entry pml2 l) * pageSize + k') / pageSize = frameOf (m0.entry pml2 l) := by
      simp only [pageSize] at *
      omega
    rw [hc.bytes k' hk']
    refine hbytes _ ?_
    rw [hin]
    exact hpage

/-- The innermost body of the loops. -/
theorem ForkInv.forkPage {i j k l : Fin 512} {pml2 : ℕ} (hv : 2 ^ 63 ≤ highVma)
    (hold : UserFrames src m0 old) (inv : ForkInv src m0 old new D m) (hi : User i)
    (hw : walk m0.next old [i, j, k] = some pml2) (hp : Present (m0.entry pml2 l))
    (h : forkPage src.alloc ⟨new, false⟩ pml2 i j k l m = some m') :
    ForkInv src m0 old new (D ∪ {([i, j, k], l)}) m' := by
  obtain ⟨hlarge, f, m2, b, hc, hbytes, hmap⟩ := forkPage_copy hv hold inv.taken inv.bytes hi hw hp h
  obtain ⟨inv2, -, hnot, hapart⟩ := inv.newPage hc.toNewPage
  exact (inv2.map hv hi (lookup_present hw hp) hp hlarge
    ⟨hc.low, fun h => hc.fresh (inv.taken f h), (hc.taken f).mpr (Or.inr rfl), hnot, hapart, hbytes⟩ hmap).1

/-- The places that a loop over `range` copies, when its body copies `S i` for the index `i`. -/
def Visited (P : Fin 512 → Prop) (S : Fin 512 → Set (List (Fin 512) × Fin 512)) (range : List (Fin 512)) :
    Set (List (Fin 512) × Fin 512) :=
  {x | ∃ i ∈ range, P i ∧ x ∈ S i}

lemma visited_nil (P : Fin 512 → Prop) (S : Fin 512 → Set (List (Fin 512) × Fin 512)) :
    Visited P S [] = ∅ := by
  simp [Visited]

lemma visited_cons_pos {P : Fin 512 → Prop} {S : Fin 512 → Set (List (Fin 512) × Fin 512)} {i : Fin 512}
    (is : List (Fin 512)) (h : P i) : Visited P S (i :: is) = S i ∪ Visited P S is := by
  ext x
  simp [Visited, h]

lemma visited_cons_neg {P : Fin 512 → Prop} {S : Fin 512 → Set (List (Fin 512) × Fin 512)} {i : Fin 512}
    (is : List (Fin 512)) (h : ¬ P i) : Visited P S (i :: is) = Visited P S is := by
  ext x
  simp [Visited, h]

/-- A loop over the present entries of a table that the invariant keeps. -/
lemma forEachPresent_keeps {I : Set (List (Fin 512) × Fin 512) → Machine σ → Prop}
    {body : Fin 512 → Machine σ → Option (Machine σ)} {t : ℕ} {S : Fin 512 → Set (List (Fin 512) × Fin 512)}
    {range : List (Fin 512)} (hentry : ∀ D m, I D m → ∀ i, m.entry t i = m0.entry t i)
    (hbody : ∀ i ∈ range, Present (m0.entry t i) → ∀ D m m', I D m → body i m = some m' → I (D ∪ S i) m')
    (inv : I D m) (h : forEachPresent body t range m = some m') :
    I (D ∪ Visited (fun i => Present (m0.entry t i)) S range) m' := by
  induction range generalizing D m with
  | nil =>
    obtain rfl : m = m' := by simpa [Vmm.forEachPresent] using h
    rw [visited_nil, Set.union_empty]
    exact inv
  | cons i range ih =>
    rw [Vmm.forEachPresent, List.foldlM_cons] at h
    have hrest := fun j hj => hbody j (List.mem_cons_of_mem _ hj)
    rw [hentry D m inv] at h
    by_cases hp : Present (m0.entry t i)
    · rw [if_pos hp] at h
      obtain ⟨m1, hb, h⟩ := Option.bind_eq_some_iff.mp h
      have hstep := ih hrest (hbody i List.mem_cons_self hp D m m1 inv hb) h
      rwa [visited_cons_pos range hp, ← Set.union_assoc]
    · rw [if_neg hp] at h
      rw [visited_cons_neg range hp]
      exact ih hrest inv h

/-- The places of the pages that are mapped `n` tables below `t`, which is the table at `π`. -/
def below (m : Machine σ) (n : ℕ) (π : List (Fin 512)) (t : ℕ) : Set (List (Fin 512) × Fin 512) :=
  {x | ∃ τ u, x.1 = π ++ τ ∧ τ.length = n ∧ walk m.next t τ = some u ∧ Present (m.entry u x.2)}

lemma below_step (m : Machine σ) (n : ℕ) (π : List (Fin 512)) (t : ℕ) (range : List (Fin 512))
    (x : List (Fin 512) × Fin 512) :
    x ∈ Visited (fun i => Present (m.entry t i)) (fun i => below m n (π ++ [i]) (frameOf (m.entry t i)))
      range ↔
    ∃ i ∈ range, ∃ τ u, x.1 = π ++ i :: τ ∧ τ.length = n ∧ walk m.next t (i :: τ) = some u ∧
      Present (m.entry u x.2) := by
  constructor
  · rintro ⟨i, hi, hp, τ, u, hx, hn, hw, he⟩
    refine ⟨i, hi, τ, u, by simpa using hx, hn, ?_, he⟩
    rw [walk_cons, next_present hp, Option.bind_some, hw]
  · rintro ⟨i, hi, τ, u, hx, hn, hw, he⟩
    by_cases hp : Present (m.entry t i)
    · rw [walk_cons, next_present hp, Option.bind_some] at hw
      exact ⟨i, hi, hp, τ, u, by simpa using hx, hn, hw, he⟩
    · simp [walk_cons, next_absent hp] at hw

lemma visited_below (m : Machine σ) (n : ℕ) (π : List (Fin 512)) (t : ℕ) :
    Visited (fun i => Present (m.entry t i)) (fun i => below m n (π ++ [i]) (frameOf (m.entry t i)))
      (List.finRange 512) = below m (n + 1) π t := by
  apply Set.ext
  intro x
  rw [below_step]
  constructor
  · rintro ⟨i, -, τ, u, hx, hn, hw, he⟩
    exact ⟨i :: τ, u, hx, by simpa using hn, hw, he⟩
  · rintro ⟨τ, u, hx, hn, hw, he⟩
    cases τ with
    | nil => simp at hn
    | cons i τ => exact ⟨i, List.mem_finRange i, τ, u, hx, by simpa using hn, hw, he⟩

lemma visited_page (m : Machine σ) (π : List (Fin 512)) (t : ℕ) :
    Visited (fun l => Present (m.entry t l)) (fun l => {(π, l)}) (List.finRange 512) =
      below m 0 π t := by
  apply Set.ext
  rintro ⟨ρ, j⟩
  constructor
  · rintro ⟨l, -, hp, hx⟩
    obtain ⟨rfl, rfl⟩ := Prod.mk.inj hx
    exact ⟨[], t, by simp, rfl, by simp, hp⟩
  · rintro ⟨τ, u, hx, hn, hw, he⟩
    obtain rfl : τ = [] := List.length_eq_zero_iff.mp hn
    obtain rfl : t = u := by simpa using hw
    exact ⟨j, List.mem_finRange j, he, by simpa using hx⟩

section Loops
variable {I : Set (List (Fin 512) × Fin 512) → Machine σ → Prop} {child : Pagemap}

/-- The three inner loops, for the tables below one entry of the top level. -/
lemma forkLoops_keep (hold : UserFrames src m0 old)
    (hentry : ∀ t, Taken src m0.pmm t → ∀ D m, I D m → ∀ i, m.entry t i = m0.entry t i)
    (hpage : ∀ i j k l pml2, User i → walk m0.next old [i, j, k] = some pml2 → Present (m0.entry pml2 l) →
      ∀ D m m', I D m → Vmm.forkPage src.alloc child pml2 i j k l m = some m' → I (D ∪ {([i, j, k], l)}) m')
    {i : Fin 512} (hi : User i) {pml4 : ℕ} (hw4 : walk m0.next old [i] = some pml4) (inv : I D m)
    (h : Vmm.forEachPresent (fun j m =>
      let pml3 := frameOf (m.entry pml4 j)
      Vmm.forEachPresent (fun k m =>
        let pml2 := frameOf (m.entry pml3 k)
        Vmm.forEachPresent (fun l m => Vmm.forkPage src.alloc child pml2 i j k l m) pml2
          (List.finRange 512) m)
      pml3 (List.finRange 512) m) pml4 (List.finRange 512) m = some m') :
    I (D ∪ below m0 2 [i] pml4) m' := by
  have hmem : ∀ τ : List (Fin 512), τ.length ≤ 2 → i :: τ ∈ words User 3 := by
    intro τ hτ
    exact ⟨by simpa [Nat.lt_succ_iff] using hτ, by simpa using hi⟩
  have ht4 := hold.tables _ (hmem [] (by simp)) pml4 hw4
  rw [← visited_below]
  refine forEachPresent_keeps (hentry pml4 ht4) ?_ inv h
  intro j _ hj D m m' inv h
  simp only [hentry pml4 ht4 D m inv] at h
  have hw3 : walk m0.next old [i, j] = some (frameOf (m0.entry pml4 j)) := by
    rw [show [i, j] = [i] ++ [j] from rfl, walk_snoc, hw4, Option.bind_some, next_present hj]
  have ht3 := hold.tables _ (hmem [j] (by simp)) _ hw3
  rw [← visited_below]
  refine forEachPresent_keeps (hentry _ ht3) ?_ inv h
  intro k _ hk D m m' inv h
  simp only [hentry _ ht3 D m inv] at h
  have hw2 : walk m0.next old [i, j, k] =
      some (frameOf (m0.entry (frameOf (m0.entry pml4 j)) k)) := by
    rw [show [i, j, k] = [i, j] ++ [k] from rfl, walk_snoc, hw3, Option.bind_some, next_present hk]
  have ht2 := hold.tables _ (hmem [j, k] (by simp)) _ hw2
  rw [← visited_page]
  refine forEachPresent_keeps (hentry _ ht2) ?_ inv h
  intro l _ hl D m m' inv h
  exact hpage i j k l _ hi hw2 hl D m m' inv h

/-- All loops of `vmm_fork_pagemap`: exactly the mapped places of the user half are visited. -/
theorem forkTables_keep (hold : UserFrames src m0 old)
    (hentry : ∀ t, Taken src m0.pmm t → ∀ D m, I D m → ∀ i, m.entry t i = m0.entry t i)
    (hpage : ∀ i j k l pml2, User i → walk m0.next old [i, j, k] = some pml2 → Present (m0.entry pml2 l) →
      ∀ D m m', I D m → Vmm.forkPage src.alloc child pml2 i j k l m = some m' → I (D ∪ {([i, j, k], l)}) m')
    (inv : I ∅ m) (h : Vmm.forkTables src.alloc child old m = some m') :
    ∃ D, I D m' ∧ ∀ ρ ∈ words User 3, ρ.length = 3 → ∀ j, (ρ, j) ∈ D ↔ lookup m0 old ρ j ≠ noMapping := by
  have htop : Taken src m0.pmm old := hold.tables [] ⟨by simp, by simp⟩ old (by simp)
  refine ⟨_, forEachPresent_keeps (S := fun i => below m0 2 ([] ++ [i]) (frameOf (m0.entry old i))) (hentry old htop) ?_
    inv h, ?_⟩
  · intro i hi hp D m m' inv h
    simp only [hentry old htop D m inv] at h
    refine forkLoops_keep hold hentry hpage (mem_userHalf.mp hi) ?_ inv h
    rw [walk_cons, next_present hp, Option.bind_some, walk_nil]
  · intro ρ hρ hn j
    rw [Set.empty_union, below_step, hold.entry hρ hn]
    constructor
    · rintro ⟨i, -, τ, u, hx, -, hw, he⟩
      obtain rfl : ρ = i :: τ := by simpa using hx
      exact ⟨u, hw, he⟩
    · rintro ⟨u, hw, he⟩
      cases ρ with
      | nil => simp at hn
      | cons i τ =>
        have hi : User i := hρ.2 i (by simp)
        exact ⟨i, mem_userHalf.mpr hi, τ, u, by simp, by simpa using hn, hw, he⟩

end Loops

/-- All loops of `vmm_fork_pagemap`: exactly the mapped pages of the user half are copied. -/
theorem ForkInv.forkTables (hv : 2 ^ 63 ≤ highVma) (hold : UserPages src m0 old)
    (inv : ForkInv src m0 old new ∅ m)
    (h : Vmm.forkTables src.alloc ⟨new, false⟩ old m = some m') :
    ∃ D, ForkInv src m0 old new D m' ∧ ∀ ρ ∈ words User 3, ρ.length = 3 → ∀ j,
      (ρ, j) ∈ D ↔ lookup m0 old ρ j ≠ noMapping :=
  forkTables_keep (I := ForkInv src m0 old new) hold.frames (fun _ ht _ _ inv => inv.entry ht)
    (fun _ _ _ _ _ hi hw hp _ _ _ inv h => inv.forkPage hv hold.frames hi hw hp h) inv h

lemma NewTop.forkInv {kernelTop : ℕ} (hn : NewTop src m0 m kernelTop new) (h0 : Taken src m0.pmm 0) :
    ForkInv src m0 old new ∅ m := by
  refine ⟨(hn.taken 0).mpr (Or.inl h0), fun g hg => (hn.taken g).mpr (Or.inl hg), ?_,
    hn.tree (by decide), ?_, ?_, ?_, ?_⟩
  · intro b hb
    exact hn.bytes b fun h => hn.fresh (h ▸ hb)
  · intro g hg π hπ hw
    exact hn.fresh ((hn.walk_eq hπ hw).2 ▸ hg)
  · intro ρ _ _ j hD
    exact absurd hD (Set.notMem_empty _)
  · intro ρ hρ hlen j _
    exact hn.entryAt_eq hρ (by omega) j
  · intro ρ _ _ ρ' _ _ j j' hD
    exact absurd hD (Set.notMem_empty _)

/-- The parent looks as it did. -/
lemma ForkInv.parent (inv : ForkInv src m0 old new D m) (hold : UserPages src m0 old) {ρ : List (Fin 512)}
    (hρ : ρ ∈ words User 3) : walk m.next old ρ = walk m0.next old ρ := by
  induction ρ using List.reverseRecOn with
  | nil => rw [walk_nil, walk_nil]
  | append_singleton ρ j ih =>
    have hpre := words_prefixClosed User 3 ρ j hρ
    rw [walk_snoc, walk_snoc, ih hpre]
    cases hs : walk m0.next old ρ with
    | none => rw [Option.bind_none, Option.bind_none]
    | some s =>
      rw [Option.bind_some, Option.bind_some]
      exact next_congr (inv.entry (hold.tables ρ hpre s hs) j)

end Fork

section Addresses
variable {σ : Type} {highVma : ℕ} {src : PageSource σ highVma} {m0 m m' : Machine σ} {old new : ℕ}
  {D : Set (List (Fin 512) × Fin 512)} {v : BitVec 64}

lemma ForkInv.get_child (inv : ForkInv src m0 old new D m) (hu : User (topIndex false v)) :
    vmmGetPageMapping m ⟨new, false⟩ v = lookup m new (tablePath false v) (pml1Index v) := by
  exact vmmGetPageMapping_eq inv.tree hu

lemma ForkInv.get_parent (inv : ForkInv src m0 old new D m) (hold : UserPages src m0 old)
    (hu : User (topIndex false v)) :
    vmmGetPageMapping m ⟨old, false⟩ v = vmmGetPageMapping m0 ⟨old, false⟩ v := by
  have hmem := tablePath_mem hu
  have hup := words_prefixClosed User _ _ _ hmem
  rw [hold.get hu, vmmGetPageMapping_of_small]
  · rw [lookup, lookup, entryAt_congr (inv.parent hold hmem) fun s hs => inv.entry (hold.tables _ hmem s hs) _]
  · intro t ht
    rw [inv.parent hold hup] at ht
    rw [inv.entry (hold.tables _ hup t ht)]
    exact hold.small _ hup rfl t ht _

lemma ofNat_and_mask {f : ℕ} (h : f * pageSize < 2 ^ 63) :
    BitVec.ofNat 64 (f * pageSize) &&& pteFlagMask = 0#64 := by
  have hmask : pteFlagMask = BitVec.twoPow 64 63 ||| 0xfff#64 := by decide
  have hhigh : (BitVec.ofNat 64 (f * pageSize)).getLsbD 63 = false := by
    rw [BitVec.getLsbD_ofNat, Nat.testBit_lt_two_pow h, Bool.and_false]
  have hlow : BitVec.ofNat 64 (f * pageSize) &&& 0xfff#64 = 0#64 := by
    apply BitVec.eq_of_toNat_eq
    rw [BitVec.toNat_and, BitVec.toNat_ofNat, BitVec.toNat_ofNat,
      show 0xfff % 2 ^ 64 = 2 ^ 12 - 1 from rfl, Nat.and_two_pow_sub_one_eq_mod, BitVec.toNat_zero]
    simp only [pageSize] at *
    omega
  rw [hmask, BitVec.and_or_distrib_left, BitVec.and_twoPow, hhigh, hlow]
  rfl

/-- A mapped page of the parent and its copy, as `vmm_get_page_mapping` shows them. -/
lemma ForkInv.copy_of (inv : ForkInv src m0 old new D m) (hold : UserPages src m0 old)
    (hD : ∀ ρ ∈ words User 3, ρ.length = 3 → ∀ j, (ρ, j) ∈ D ↔ lookup m0 old ρ j ≠ noMapping)
    (hu : User (topIndex false v)) (hmap : vmmGetPageMapping m0 ⟨old, false⟩ v ≠ noMapping) :
    ∃ f, f = frameOf (vmmGetPageMapping m ⟨new, false⟩ v) ∧
      CopyOf src m0 m old new (tablePath false v) (pml1Index v) f := by
  have hmem := tablePath_mem hu
  have hlen := tablePath_length false v
  rw [hold.get hu, ← hD _ hmem hlen] at hmap
  obtain ⟨f, hf⟩ := inv.copied _ hmem hlen _ hmap
  refine ⟨f, ?_, hf⟩
  rw [inv.get_child hu, hf.frame_eq]

/-- Copies are mapped, with the flags of the page they copy. -/
lemma CopyOf.flags {ρ : List (Fin 512)} {j : Fin 512} {f : ℕ} (hc : CopyOf src m0 m old new ρ j f) :
    lookup m new ρ j &&& pteFlagMask = lookup m0 old ρ j &&& pteFlagMask := by
  rw [hc.entry, BitVec.and_comm, BitVec.and_or_distrib_left, BitVec.and_comm pteFlagMask,
    ofNat_and_mask hc.low, BitVec.zero_or, BitVec.and_comm pteFlagMask, BitVec.and_assoc,
    BitVec.and_self]

lemma CopyOf.mapped {ρ : List (Fin 512)} {j : Fin 512} {f : ℕ} (hold : UserFrames src m0 old)
    (hρ : ρ ∈ words User 3) (hn : ρ.length = 3) (hmap : lookup m0 old ρ j ≠ noMapping)
    (hc : CopyOf src m0 m old new ρ j f) : lookup m new ρ j ≠ noMapping := by
  intro hno
  have hflags := hc.flags
  rw [hno] at hflags
  have hbit := congrArg (fun e => e.getLsbD 7) hflags
  have hmask : pteFlagMask.getLsbD 7 = true := by decide
  simp only [BitVec.getLsbD_and, hmask, Bool.and_true] at hbit
  apply (hold.page hρ hn hmap).1
  rw [large_iff, ← hbit]
  decide

/-- `vmm_fork_pagemap` copies the user half of a pagemap of four levels: the child maps the same
pages with the same flags, to new frames that hold the same bytes, and the parent is left as it
was. -/
theorem vmmForkPagemap_copies {kernelTop : ℕ} {old : Pagemap} {r : Option Pagemap}
    (hv : 2 ^ 63 ≤ highVma) (h0 : Taken src m0.pmm 0) (hk : Taken src m0.pmm kernelTop)
    (hfour : old.hasLevel5 = false) (hold : UserPages src m0 old.topLevel)
    (h : vmmForkPagemap src.alloc false kernelTop m0 old = some (r, m')) :
    ∃ new, r = some new ∧ new.hasLevel5 = false ∧
      (∀ v, User (topIndex false v) →
        (vmmGetPageMapping m' new v ≠ noMapping ↔ vmmGetPageMapping m0 old v ≠ noMapping) ∧
        vmmGetPageMapping m' old v = vmmGetPageMapping m0 old v ∧
        (vmmGetPageMapping m0 old v ≠ noMapping →
          vmmGetPageMapping m' new v &&& pteFlagMask = vmmGetPageMapping m0 old v &&& pteFlagMask ∧
          ¬ Taken src m0.pmm (frameOf (vmmGetPageMapping m' new v)) ∧
          (∀ w, User (topIndex false w) → vmmGetPageMapping m0 old w ≠ noMapping →
            frameOf (vmmGetPageMapping m' new v) ≠ frameOf (vmmGetPageMapping m0 old w) ∧
            (pageIndices false w ≠ pageIndices false v →
              frameOf (vmmGetPageMapping m' new v) ≠ frameOf (vmmGetPageMapping m' new w))) ∧
          ∀ k < pageSize, m'.mem (frameOf (vmmGetPageMapping m' new v) * pageSize + k) =
            m0.mem (frameOf (vmmGetPageMapping m0 old v) * pageSize + k))) ∧
      ∀ b, Taken src m0.pmm (b / pageSize) → m'.mem b = m0.mem b := by
  obtain ⟨top, five⟩ := old
  obtain rfl : five = false := hfour
  unfold vmmForkPagemap at h
  cases hnew : vmmNewPagemap src.alloc false kernelTop m0 with
  | none => simp [hnew] at h
  | some x =>
    obtain ⟨r1, m1⟩ := x
    rcases vmmNewPagemap_cases hv hk hnew with ⟨-, hfree, -⟩ | ⟨f, rfl, -, htop⟩
    · exact absurd h0 hfree
    rw [hnew] at h
    obtain ⟨m2, hfork, h⟩ := Option.map_eq_some_iff.mp h
    obtain ⟨rfl, rfl⟩ := Prod.mk.inj h
    obtain ⟨D, inv, hD⟩ := htop.forkInv h0 |>.forkTables hv hold hfork
    have hcopy := fun v (hu : User (topIndex false v)) => inv.copy_of hold hD hu
    refine ⟨_, rfl, rfl, fun v hu => ⟨?_, inv.get_parent hold hu, fun hmap => ?_⟩, inv.bytes⟩
    · rw [inv.get_child hu, hold.get hu]
      have hmem := tablePath_mem hu
      have hlen := tablePath_length false v
      constructor
      · intro hmap
        rw [← hD _ hmem hlen]
        by_contra hno
        exact hmap (by rw [lookup, inv.absent _ hmem hlen _ hno, Option.getD_none])
      · intro hmap
        obtain ⟨g, -, hc⟩ := hcopy v hu (by rwa [hold.get hu])
        exact hc.mapped hold.frames hmem hlen hmap
    · obtain ⟨g, hg, hc⟩ := hcopy v hu hmap
      refine ⟨?_, ?_, ?_, ?_⟩
      · rw [inv.get_child hu, hold.get hu, hc.flags]
      · rw [← hg]
        exact hc.fresh
      · intro w hw hmapw
        constructor
        · rw [← hg]
          intro heq
          rw [hold.get hw] at hmapw heq
          exact hc.fresh (heq ▸ (hold.frames.page (tablePath_mem hw) (tablePath_length false w) hmapw).2)
        · intro hne heq
          rw [inv.get_child hu, inv.get_child hw] at heq
          rw [hold.get hu] at hmap
          rw [hold.get hw] at hmapw
          apply hne
          rw [pageIndices_eq_iff]
          exact inv.distinct _ (tablePath_mem hw) (tablePath_length false w) _ (tablePath_mem hu)
            (tablePath_length false v) _ _
            ((hD _ (tablePath_mem hw) (tablePath_length false w) _).mpr hmapw)
            ((hD _ (tablePath_mem hu) (tablePath_length false v) _).mpr hmap) heq.symm
      · intro k hk
        rw [← hg, hc.bytes k hk, hold.get hu]

end Addresses

section Serving
variable {σ : Type} {pmmAlloc : σ → ℕ → Option (ℕ × σ)} {left : σ → ℕ}

lemma Serves.forkPage (hs : Serves pmmAlloc left) {m : Machine σ} {k : ℕ} (hk : k + 5 ≤ left m.pmm)
    (new : Pagemap) (pml2 : ℕ) (i j k' l : Fin 512) :
    ∃ m', Vmm.forkPage pmmAlloc new pml2 i j k' l m = some m' ∧ k ≤ left m'.pmm := by
  obtain ⟨a, m1, ha, hk1⟩ := hs.allocz (k := k + 4) hk
  unfold Vmm.forkPage
  rw [ha]
  dsimp only
  obtain ⟨b, m3, h3, hk3⟩ := hs.mapPage (m := { m1 with
    mem := copy m1.mem a (frameOf (m1.entry pml2 l) * pageSize) pageSize }) hk1 new
      (entriesToVaddr i j k' l) (BitVec.ofNat 64 a) _
  rw [h3]
  exact ⟨m3, rfl, hk3⟩

lemma Serves.forEachPresent {body : Fin 512 → Machine σ → Option (Machine σ)} {c : ℕ}
    (hbody : ∀ i m k, k + c ≤ left m.pmm → ∃ m', body i m = some m' ∧ k ≤ left m'.pmm) (t : ℕ)
    {range : List (Fin 512)} {m : Machine σ} {k : ℕ} (hk : k + range.length * c ≤ left m.pmm) :
    ∃ m', Vmm.forEachPresent body t range m = some m' ∧ k ≤ left m'.pmm := by
  induction range generalizing m with
  | nil => exact ⟨m, rfl, by simpa using hk⟩
  | cons i range ih =>
    rw [List.length_cons, Nat.add_one_mul, ← Nat.add_assoc] at hk
    rw [Vmm.forEachPresent, List.foldlM_cons]
    split_ifs
    · obtain ⟨m1, h1, hk1⟩ := hbody i m _ hk
      rw [h1]
      exact ih hk1
    · exact ih (show k + range.length * c ≤ left m.pmm by omega)

lemma Serves.forEachPresent_all {body : Fin 512 → Machine σ → Option (Machine σ)} {c : ℕ}
    (hbody : ∀ i m k, k + c ≤ left m.pmm → ∃ m', body i m = some m' ∧ k ≤ left m'.pmm) (t : ℕ)
    {m : Machine σ} {k : ℕ} (hk : k + 512 * c ≤ left m.pmm) :
    ∃ m', Vmm.forEachPresent body t (List.finRange 512) m = some m' ∧ k ≤ left m'.pmm := by
  apply Serves.forEachPresent hbody
  rwa [List.length_finRange]

/-- Copying an address space returns when a page and five more for each page of a full user half
can be served. -/
lemma Serves.forkPagemap (hs : Serves pmmAlloc left) {m : Machine σ} {k c : ℕ} (old : Pagemap)
    (five : Bool) (kernelTop : ℕ) (hc : c = 512 * (512 * (512 * 5)))
    (hk : k + userHalf.length * c + 1 ≤ left m.pmm) :
    ∃ r m', vmmForkPagemap pmmAlloc five kernelTop m old = some (r, m') ∧ k ≤ left m'.pmm := by
  obtain ⟨r, m1, h1, hk1⟩ := hs.newPagemap hk five kernelTop
  unfold vmmForkPagemap
  rw [h1]
  cases r with
  | none => exact ⟨none, m1, rfl, by omega⟩
  | some new =>
    have hloops : ∃ m2, forkTables pmmAlloc new old.topLevel m1 = some m2 ∧ k ≤ left m2.pmm := by
      refine Serves.forEachPresent (fun i m k hk => ?_) old.topLevel hk1
      rw [hc] at hk
      refine Serves.forEachPresent_all (fun j m k hk => ?_) _ hk
      refine Serves.forEachPresent_all (fun k' m k hk => ?_) _ hk
      refine Serves.forEachPresent_all (fun l m k hk => ?_) _ hk
      exact hs.forkPage hk ..
    obtain ⟨m2, h2, hk2⟩ := hloops
    simp only [h2, Option.map_some]
    exact ⟨some new, m2, rfl, hk2⟩

end Serving

/-- Room for every page that the loops can ask for. -/
lemma forkPages_le {c n : ℕ} (hc : c = 512 * (512 * (512 * 5))) (h : 2 ^ 50 ≤ n) :
    0 + userHalf.length * c + 1 ≤ n := by
  have hhalf : userHalf.length ≤ 512 := (List.length_filter_le _ _).trans_eq List.length_finRange
  have hmul := Nat.mul_le_mul_right c hhalf
  generalize userHalf.length * c = k at *
  omega

theorem vmmForkPagemap_copies_onePage : ∃ (m0 m' : Machine Bump) (old new : Pagemap),
    vmmForkPagemap (bumpSource (2 ^ 63)).alloc false 1 m0 old = some (some new, m') ∧
    vmmGetPageMapping m0 old 0x400000 ≠ noMapping ∧
    vmmGetPageMapping m' new 0x400000 ≠ noMapping ∧
    frameOf (vmmGetPageMapping m' new 0x400000) ≠ frameOf (vmmGetPageMapping m0 old 0x400000) ∧
    m'.mem (frameOf (vmmGetPageMapping m' new 0x400000) * pageSize) = 7 := by
  obtain ⟨pm, m1, s, f, hone⟩ := exists_onePage
  have hbare := bareMachine_empty (2 ^ 63) false
  have hold := (space_of_run le_rfl hbare.zero hbare.top hone.new hone.run).userPages hone.four
  obtain ⟨c, hc⟩ : ∃ c, c = 512 * (512 * (512 * 5)) := ⟨_, rfl⟩
  obtain ⟨r, m', hfork, -⟩ := (bump_serves (2 ^ 63)).forkPagemap pm false 1 hc (forkPages_le hc hone.left)
  have hmapped := hone.mapped
  have hu : User (topIndex false 0x400000) := by
    unfold User
    decide
  obtain ⟨new, rfl, -, hall, -⟩ := vmmForkPagemap_copies le_rfl hone.zero hone.kernel hone.four hold hfork
  obtain ⟨hiff, -, hpage⟩ := hall 0x400000 hu
  obtain ⟨-, -, hframes, hbytes⟩ := hpage hmapped
  have hbyte := hbytes 0 (by decide)
  rw [hone.page, frameOf_or smallPage_user.flagsOnly, frameOf_ofNat hone.low, Nat.add_zero, Nat.add_zero,
    hone.byte] at hbyte
  exact ⟨s.machine, m', pm, new, hfork, hmapped, hiff.mpr hmapped, (hframes _ hu hmapped).1, hbyte⟩

end PiggyOs.Vmm
