import PiggyOs.TableLevels

/-! Single calls, followed level by level: what `vmm_map_page` goes through in a pagemap of four
levels, and the two outcomes of the calls on a large page. -/
namespace PiggyOs.Vmm
open ByteMemory Walk

section Execution
variable {σ : Type} {highVma : ℕ} {src : PageSource σ highVma} {m m' : Machine σ} {top t1 t2 : ℕ}
  {vaddr paddr flags : BitVec 64}

/-- One level of `vmm_map_page`, when frame 0 is in use: `u` is the table it goes on with. -/
def Ensured (src : PageSource σ highVma) (flags : BitVec 64) (m : Machine σ) (t : ℕ) (i : Fin 512)
    (u : ℕ) (m' : Machine σ) : Prop :=
  (Present (m.entry t i) ∧ u = frameOf (m.entry t i) ∧ m' = m) ∨
  (¬ Present (m.entry t i) ∧ ∃ f, u = frameOf (link f flags) ∧ Linked src m m' t i f (link f flags))

lemma Ensured.zero {t u : ℕ} {i : Fin 512} (he : Ensured src flags m t i u m') (h0 : Taken src m.pmm 0) :
    Taken src m'.pmm 0 := by
  rcases he with ⟨-, -, rfl⟩ | ⟨-, f, -, hl⟩
  · exact h0
  · exact (hl.taken 0).mpr (Or.inl h0)

lemma Ensured.linked {t u : ℕ} {i : Fin 512} (he : Ensured src flags m t i u m')
    (habs : m.entry t i = 0) : ∃ f, u = frameOf (link f flags) ∧ Linked src m m' t i f (link f flags) := by
  rcases he with ⟨hp, -⟩ | ⟨-, h⟩
  · rw [habs] at hp
    exact absurd hp (by decide)
  · exact h

lemma Ensured.followed {t u : ℕ} {i : Fin 512} (he : Ensured src flags m t i u m')
    (hp : Present (m.entry t i)) : u = frameOf (m.entry t i) ∧ m' = m := by
  rcases he with ⟨-, h⟩ | ⟨h, -⟩
  · exact h
  · exact absurd hp h

lemma ensureTable_ensured {t : ℕ} {i : Fin 512} {r : Option ℕ} (hv : 2 ^ 63 ≤ highVma)
    (h0 : Taken src m.pmm 0) (h : ensureTable src.alloc m flags t i = some (r, m')) :
    ∃ u, r = some u ∧ Ensured src flags m t i u m' := by
  rcases ensureTable_cases hv h with ⟨hp, rfl, rfl⟩ | ⟨-, -, hl⟩ | ⟨habs, f, -, rfl, hl⟩
  · exact ⟨_, rfl, Or.inl ⟨hp, rfl, rfl⟩⟩
  · exact absurd h0 hl.fresh
  · exact ⟨_, rfl, Or.inr ⟨habs, f, rfl, hl⟩⟩

/-- `vmm_map_page` in a pagemap of four levels, level by level. -/
lemma vmmMapPage_levels {b : Bool} (hv : 2 ^ 63 ≤ highVma) (h0 : Taken src m.pmm 0)
    (h : vmmMapPage src.alloc m ⟨top, false⟩ vaddr paddr flags = some (b, m')) :
    ∃ u1 m1 u2 m2, Ensured src flags m top (pml4Index vaddr) u1 m1 ∧
      Ensured src flags m1 u1 (pml3Index vaddr) u2 m2 ∧
      ((Large flags ∧ m' = m2.setEntry u2 (pml2Index vaddr) (paddr ||| flags)) ∨
        (¬ Large flags ∧ ∃ u3 m3, Ensured src flags m2 u2 (pml2Index vaddr) u3 m3 ∧
          m' = m3.setEntry u3 (pml1Index vaddr) (paddr ||| flags))) := by
  unfold vmmMapPage at h
  simp only [upperIndices, Bool.false_eq_true, if_false, ensureTables] at h
  cases h1 : ensureTable src.alloc m flags top (pml4Index vaddr) with
  | none => simp [h1] at h
  | some x =>
    obtain ⟨r1, m1⟩ := x
    obtain ⟨u1, rfl, he1⟩ := ensureTable_ensured hv h0 h1
    simp only [h1] at h
    cases h2 : ensureTable src.alloc m1 flags u1 (pml3Index vaddr) with
    | none => simp [h2] at h
    | some y =>
      obtain ⟨r2, m2⟩ := y
      obtain ⟨u2, rfl, he2⟩ := ensureTable_ensured hv (he1.zero h0) h2
      simp only [h2] at h
      refine ⟨u1, m1, u2, m2, he1, he2, ?_⟩
      by_cases hL : flags &&& pteSize ≠ 0
      · simp only [if_pos hL, Option.some.injEq, Prod.mk.injEq] at h
        exact Or.inl ⟨hL, h.2.symm⟩
      · simp only [if_neg hL] at h
        cases h3 : ensureTable src.alloc m2 flags u2 (pml2Index vaddr) with
        | none => simp [h3] at h
        | some z =>
          obtain ⟨r3, m3⟩ := z
          obtain ⟨u3, rfl, he3⟩ := ensureTable_ensured hv (he2.zero (he1.zero h0)) h3
          simp only [h3, Option.some.injEq, Prod.mk.injEq] at h
          exact Or.inr ⟨hL, u3, m3, he3, h.2.symm⟩

lemma walk_upper (h4 : m.next top (pml4Index vaddr) = some t1) :
    walk m.next top (upperIndices false vaddr) = m.next t1 (pml3Index vaddr) := by
  rw [upperIndices, if_neg Bool.false_ne_true, show [pml4Index vaddr, pml3Index vaddr] =
      [pml4Index vaddr] ++ [pml3Index vaddr] from rfl, walk_snoc, walk_cons, h4, Option.bind_some,
      walk_nil, Option.bind_some]

lemma vmmGetPageMapping_large (h4 : m.next top (pml4Index vaddr) = some t1)
    (h3 : m.next t1 (pml3Index vaddr) = some t2) (hl : Large (m.entry t2 (pml2Index vaddr))) :
    vmmGetPageMapping m ⟨top, false⟩ vaddr = m.entry t2 (pml2Index vaddr) := by
  have hw := (walk_upper h4).trans h3
  simp only [vmmGetPageMapping, hw, if_pos hl]

/-- A large page in an empty part of a pagemap: it hangs below the new table `t`. -/
structure LargePlaced (src : PageSource σ highVma) (m m' : Machine σ) (top : ℕ) (vaddr e : BitVec 64)
    (m1 : Machine σ) (t : ℕ) : Prop where
  eq : m' = m1.setEntry t (pml2Index vaddr) e
  walk : ∀ e, walk (m1.setEntry t (pml2Index vaddr) e).next top (upperIndices false vaddr) = some t
  fresh : ¬ Taken src m.pmm t
  other : ∀ g, Taken src m.pmm g → g ≠ top → ∀ j, m1.entry g j = m.entry g j

lemma vmmMapPage_largePlaced {b : Bool} (hv : 2 ^ 63 ≤ highVma) (h0 : Taken src m.pmm 0)
    (htop : Taken src m.pmm top) (habs : m.entry top (pml4Index vaddr) = 0) (hf : FlagsOnly flags)
    (hP : Present flags) (hL : Large flags)
    (h : vmmMapPage src.alloc m ⟨top, false⟩ vaddr paddr flags = some (b, m')) :
    ∃ m1 t, LargePlaced src m m' top vaddr (paddr ||| flags) m1 t := by
  obtain ⟨u1, ma, u2, mb, he1, he2, ⟨-, hm'⟩ | ⟨hno, -⟩⟩ := vmmMapPage_levels hv h0 h
  · obtain ⟨f1, rfl, hl1⟩ := he1.linked habs
    rw [frameOf_link hl1.low hf] at he2
    have hp1 : top ≠ f1 := fun h => hl1.fresh (h ▸ htop)
    have habs1 : ma.entry f1 (pml3Index vaddr) = 0 := by
      rw [hl1.entry, if_neg fun h => hp1 h.1.symm, if_pos rfl]
    obtain ⟨f2, rfl, hl2⟩ := he2.linked habs1
    rw [frameOf_link hl2.low hf] at hm'
    have hfresh : ∀ g, Taken src m.pmm g → g ≠ f1 ∧ g ≠ f2 := fun g hg =>
      ⟨fun h => hl1.fresh (h ▸ hg), fun h => hl2.fresh (h ▸ (hl1.taken g).mpr (Or.inl hg))⟩
    have h12 : f1 ≠ f2 := fun h => hl2.fresh (h ▸ (hl1.taken f1).mpr (Or.inr rfl))
    refine ⟨mb, f2, hm', fun e => ?_, fun h => (hfresh f2 h).2 rfl, fun g hg hgt j => ?_⟩
    · have hlink1 : (mb.setEntry f2 (pml2Index vaddr) e).next top (pml4Index vaddr) = some f1 := by
        have he : (mb.setEntry f2 (pml2Index vaddr) e).entry top (pml4Index vaddr) = link f1 flags := by
          rw [entry_setEntry, if_neg fun h => (hfresh top htop).2 h.1, hl2.entry, if_neg fun h => hp1 h.1,
            if_neg (hfresh top htop).2, hl1.entry, if_pos ⟨rfl, rfl⟩]
        rw [next_present (by rw [he]; exact present_link.mpr hP), he, frameOf_link hl1.low hf]
      have hlink2 : (mb.setEntry f2 (pml2Index vaddr) e).entry f1 (pml3Index vaddr) = link f2 flags := by
        rw [entry_setEntry, if_neg fun h => h12 h.1, hl2.entry, if_pos ⟨rfl, rfl⟩]
      rw [walk_upper hlink1, next_present (by rw [hlink2]; exact present_link.mpr hP), hlink2,
        frameOf_link hl2.low hf]
    · obtain ⟨hg1, hg2⟩ := hfresh g hg
      rw [hl2.entry, if_neg fun h => hg1 h.1, if_neg hg2, hl1.entry, if_neg fun h => hgt h.1, if_neg hg1]
  · exact absurd hL hno

lemma vmmUpdateFlags_large {t : ℕ} {e : BitVec 64}
    (hw : walk (m.setEntry t (pml2Index vaddr) e).next top (upperIndices false vaddr) = some t)
    (hL : Large e) : (vmmUpdateFlags (m.setEntry t (pml2Index vaddr) e) ⟨top, false⟩ vaddr flags).2 =
      m.setEntry t (pml2Index vaddr) ((e &&& ~~~pteFlagMask) ||| flags) := by
  have hentry : (m.setEntry t (pml2Index vaddr) e).entry t (pml2Index vaddr) = e := by simp
  simp only [vmmUpdateFlags, hw, hentry, if_pos hL, setEntry_setEntry]

lemma vmmUnmapPage_small {t : ℕ}
    (hw : walk m.next top (upperIndices false vaddr) = some t)
    (hP : Present (m.entry t (pml2Index vaddr))) (hL : ¬ Large (m.entry t (pml2Index vaddr))) :
    (vmmUnmapPage m ⟨top, false⟩ vaddr).2 =
      m.setEntry (frameOf (m.entry t (pml2Index vaddr))) (pml1Index vaddr) 0 := by
  simp only [vmmUnmapPage, hw, if_neg hL, hP, not_true, if_false]

lemma vmmGetPageMapping_none (hw : walk m.next top (upperIndices false vaddr) = none) :
    vmmGetPageMapping m ⟨top, false⟩ vaddr = noMapping := by
  simp only [vmmGetPageMapping, hw]

end Execution

lemma frameOf_and_not_mask (e : BitVec 64) : frameOf (e &&& ~~~pteFlagMask) = frameOf e := by
  rw [frameOf, frameOf, BitVec.and_assoc, BitVec.and_self]

lemma Serves.fill {σ : Type} {pmmAlloc : σ → ℕ → Option (ℕ × σ)} {left : σ → ℕ}
    (hs : Serves pmmAlloc left) (kernelTop : ℕ) {is : List (Fin 512)} {m : Machine σ} {k : ℕ}
    (hk : k + is.length ≤ left m.pmm) :
    ∃ m', is.foldlM (fun m i => (pmmAllocz pmmAlloc m 1).map fun r =>
      r.2.setEntry kernelTop i (BitVec.ofNat 64 r.1 ||| ptePresent ||| pteWritable)) m = some m' ∧
      k ≤ left m'.pmm := by
  induction is generalizing m with
  | nil => exact ⟨m, rfl, by simpa using hk⟩
  | cons i is ih =>
    rw [List.length_cons, ← Nat.add_assoc] at hk
    obtain ⟨a, m1, ha, hk1⟩ := hs.allocz hk
    obtain ⟨m2, h2, hk2⟩ := ih (m := m1.setEntry kernelTop i (BitVec.ofNat 64 a ||| ptePresent ||| pteWritable)) hk1
    refine ⟨m2, ?_, hk2⟩
    rw [List.foldlM_cons, ha, Option.map_some]
    exact h2

end PiggyOs.Vmm
