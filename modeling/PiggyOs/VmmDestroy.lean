import PiggyOs.AddressSpace

/-! Tearing an address space down. The recursion of `vmm_destroy_pagemap` frees every table of the
user half once, the top level among them; then the top level is freed again, and no page is. -/
namespace PiggyOs.Vmm
open Walk Transition

section Levels
variable {σ : Type} {m : Machine σ} {d t : ℕ} {range : List (Fin 512)}

/-- Below `t` there are no large pages among the entries that end `d` levels down. -/
def NoLarge (m : Machine σ) (range : List (Fin 512)) (d t : ℕ) : Prop :=
  ∀ τ ∈ words (· ∈ range) d, τ.length + 1 = d → ∀ u, walk m.next t τ = some u → ∀ i, ¬ Large (m.entry u i)

lemma cons_mem_words {U : Fin 512 → Prop} {n : ℕ} {i : Fin 512} {τ : List (Fin 512)} :
    i :: τ ∈ words U (n + 1) ↔ U i ∧ τ.length ≤ n := by
  simp [words, and_comm]

lemma mem_words_all {n : ℕ} {τ : List (Fin 512)} :
    τ ∈ words (· ∈ List.finRange 512) n ↔ τ.length ≤ n := by
  simp [words, List.mem_finRange]

lemma walk_cons_present {i : Fin 512} (hp : Present (m.entry t i)) (τ : List (Fin 512)) :
    walk m.next t (i :: τ) = walk m.next (frameOf (m.entry t i)) τ := by
  rw [walk_cons, next_present hp, Option.bind_some]

lemma NoLarge.child {i : Fin 512} (hsmall : NoLarge m range (d + 1) t) (hi : i ∈ range)
    (hp : Present (m.entry t i)) : NoLarge m (List.finRange 512) d (frameOf (m.entry t i)) := by
  intro τ hτ hlen u hu
  apply hsmall (i :: τ) (cons_mem_words.mpr ⟨hi, mem_words_all.mp hτ⟩) (by simpa using hlen)
  rwa [walk_cons_present hp]

lemma destroyLevels_succ (hsmall : NoLarge m range (d + 1) t) :
    destroyLevelsRecursive m (d + 2) t range =
      (range.flatMap fun i => if Present (m.entry t i) then
        destroyLevelsRecursive m (d + 1) (frameOf (m.entry t i)) (List.finRange 512) else []) ++
      [(t * pageSize, 1)] := by
  rw [destroyLevelsRecursive]
  congr 1
  apply List.flatMap_congr
  intro i _
  have hno : ¬ (Large (m.entry t i) ∧ d = 0) := by
    rintro ⟨hl, rfl⟩
    exact hsmall [] (nil_mem_words _ _) rfl t walk_nil i hl
  rw [if_neg hno, List.nil_append]

/-- The recursion frees the tables behind the words and nothing else. -/
theorem mem_destroyLevels (hsmall : NoLarge m range d t) (x : ℕ × ℕ) :
    x ∈ destroyLevelsRecursive m (d + 1) t range ↔
      ∃ τ ∈ words (· ∈ range) d, ∃ u, walk m.next t τ = some u ∧ x = (u * pageSize, 1) := by
  induction d generalizing t range with
  | zero =>
    rw [destroyLevelsRecursive, List.mem_singleton]
    constructor
    · rintro rfl
      exact ⟨[], nil_mem_words _ _, t, walk_nil, rfl⟩
    · rintro ⟨τ, hτ, u, hu, rfl⟩
      obtain rfl : τ = [] := List.length_eq_zero_iff.mp (Nat.le_zero.mp hτ.1)
      rw [Option.some.inj hu]
  | succ d ih =>
    rw [destroyLevels_succ hsmall, List.mem_append, List.mem_flatMap, List.mem_singleton]
    constructor
    · rintro (⟨i, hi, hx⟩ | rfl)
      · split_ifs at hx with hp
        · obtain ⟨τ, hτ, u, hu, rfl⟩ := (ih (hsmall.child hi hp)).mp hx
          exact ⟨i :: τ, cons_mem_words.mpr ⟨hi, hτ.1⟩, u, by rwa [walk_cons_present hp], rfl⟩
        · simp at hx
      · exact ⟨[], nil_mem_words _ _, t, walk_nil, rfl⟩
    · rintro ⟨τ, hτ, u, hu, rfl⟩
      cases τ with
      | nil => exact Or.inr (by rw [Option.some.inj hu])
      | cons i τ =>
        obtain ⟨hi, hlen⟩ := cons_mem_words.mp hτ
        by_cases hp : Present (m.entry t i)
        · rw [walk_cons_present hp] at hu
          refine Or.inl ⟨i, hi, ?_⟩
          rw [if_pos hp, ih (hsmall.child hi hp)]
          exact ⟨τ, mem_words_all.mpr hlen, u, hu, rfl⟩
        · simp [walk_cons, next_absent hp] at hu

lemma isTree_child {i : Fin 512} (htree : IsTree m.next t (words (· ∈ range) (d + 1))) (hi : i ∈ range)
    (hp : Present (m.entry t i)) :
    IsTree m.next (frameOf (m.entry t i)) (words (· ∈ List.finRange 512) d) := by
  intro τ hτ τ' hτ' u h1 h2
  rw [← walk_cons_present hp] at h1 h2
  exact (List.cons.inj (htree _ (cons_mem_words.mpr ⟨hi, hτ.1⟩) _ (cons_mem_words.mpr ⟨hi, hτ'.1⟩) u h1 h2)).2

lemma frame_inj {u u' : ℕ} (h : ((u * pageSize, 1) : ℕ × ℕ) = (u' * pageSize, 1)) : u = u' := by
  have := (Prod.mk.inj h).1
  simp only [pageSize] at this
  omega

/-- In a tree no table is freed twice by the recursion. -/
theorem nodup_destroyLevels (hsmall : NoLarge m range d t) (hrange : range.Nodup)
    (htree : IsTree m.next t (words (· ∈ range) d)) :
    (destroyLevelsRecursive m (d + 1) t range).Nodup := by
  induction d generalizing t range with
  | zero => simp [destroyLevelsRecursive]
  | succ d ih =>
    have hmem : ∀ i ∈ range, ∀ x, x ∈ (if Present (m.entry t i) then
        destroyLevelsRecursive m (d + 1) (frameOf (m.entry t i)) (List.finRange 512) else []) →
        ∃ τ u, i :: τ ∈ words (· ∈ range) (d + 1) ∧ walk m.next t (i :: τ) = some u ∧
          x = (u * pageSize, 1) := by
      intro i hi x hx
      split_ifs at hx with hp
      · obtain ⟨τ, hτ, u, hu, rfl⟩ := (mem_destroyLevels (hsmall.child hi hp) x).mp hx
        exact ⟨τ, u, cons_mem_words.mpr ⟨hi, hτ.1⟩, by rwa [walk_cons_present hp], rfl⟩
      · simp at hx
    rw [destroyLevels_succ hsmall, List.nodup_append]
    refine ⟨?_, List.nodup_singleton _, ?_⟩
    · rw [List.nodup_flatMap]
      constructor
      · intro i hi
        split_ifs with hp
        · exact ih (hsmall.child hi hp) (List.nodup_finRange 512) (isTree_child htree hi hp)
        · exact List.nodup_nil
      · refine hrange.imp_of_mem fun {i j} hi hj hne x hx hx' => hne ?_
        obtain ⟨τ, u, hτ, hu, rfl⟩ := hmem i hi x hx
        obtain ⟨τ', u', hτ', hu', hx⟩ := hmem j hj _ hx'
        obtain rfl := frame_inj hx
        exact (List.cons.inj (htree _ hτ _ hτ' u hu hu')).1
    · intro x hx y hy hxy
      obtain ⟨i, hi, hx⟩ := List.mem_flatMap.mp hx
      obtain ⟨τ, u, hτ, hu, rfl⟩ := hmem i hi x hx
      obtain rfl := List.mem_singleton.mp hy
      obtain rfl := frame_inj hxy
      exact List.cons_ne_nil i τ (htree _ hτ _ (nil_mem_words _ _) u hu walk_nil)

end Levels

section Teardown
variable {σ : Type} {highVma : ℕ} {src : PageSource σ highVma} {m : Machine σ} {pm : Pagemap}
  {s : Space σ}

/-- A table of the user half below the top level. -/
def LowerTable (m : Machine σ) (pm : Pagemap) (f : ℕ) : Prop :=
  ∃ π ∈ words User (depth pm.hasLevel5), π ≠ [] ∧ walk m.next pm.topLevel π = some f

/-- A frame that is mapped in the user half. -/
def MappedFrame (m : Machine σ) (pm : Pagemap) (f : ℕ) : Prop :=
  ∃ ρ ∈ words User (depth pm.hasLevel5), ρ.length = depth pm.hasLevel5 ∧
    ∃ j, ∃ e ∈ entryAt m pm.topLevel ρ j, frameOf e = f

/-- The top level, the tables below it and the mapped frames are freed once each, and nothing else
is. -/
def ExactTeardown (m : Machine σ) (pm : Pagemap) : Prop :=
  (vmmDestroyPagemap m pm).Nodup ∧ ∀ x, x ∈ vmmDestroyPagemap m pm ↔
    ∃ f, x = (f * pageSize, 1) ∧ (f = pm.topLevel ∨ LowerTable m pm f ∨ MappedFrame m pm f)

lemma words_userHalf (n : ℕ) : words (· ∈ userHalf) n = words User n := by
  simp only [mem_userHalf]
  rfl

lemma vmmDestroyPagemap_eq (m : Machine σ) (pm : Pagemap) : vmmDestroyPagemap m pm =
    destroyLevelsRecursive m (depth pm.hasLevel5 + 1) pm.topLevel userHalf ++ [(pm.topLevel * pageSize, 1)] := by
  unfold vmmDestroyPagemap depth
  cases pm.hasLevel5 <;> rfl

lemma userHalf_nodup : userHalf.Nodup := (List.nodup_finRange 512).filter _

section Built
variable (inv : SpaceInv src pm s)
include inv

lemma SpaceInv.noLarge : NoLarge s.machine userHalf (depth pm.hasLevel5) pm.topLevel := by
  intro τ hτ hlen u hu i
  rw [words_userHalf] at hτ
  exact inv.tree.small τ hτ hlen u hu i

/-- The recursion frees every table once, the top level included. -/
lemma SpaceInv.count_levels {π : List (Fin 512)} (hπ : π ∈ words User (depth pm.hasLevel5)) {t : ℕ}
    (hw : walk s.machine.next pm.topLevel π = some t) :
    (destroyLevelsRecursive s.machine (depth pm.hasLevel5 + 1) pm.topLevel userHalf).count
      (t * pageSize, 1) = 1 := by
  apply List.count_eq_one_of_mem
  · apply nodup_destroyLevels inv.noLarge userHalf_nodup
    rw [words_userHalf]
    exact inv.tree.tree
  · rw [mem_destroyLevels inv.noLarge, words_userHalf]
    exact ⟨π, hπ, t, hw, rfl⟩

lemma SpaceInv.mem_frees (x : ℕ × ℕ) : x ∈ vmmDestroyPagemap s.machine pm ↔
    ∃ π ∈ words User (depth pm.hasLevel5), ∃ t, walk s.machine.next pm.topLevel π = some t ∧
      x = (t * pageSize, 1) := by
  rw [vmmDestroyPagemap_eq, List.mem_append, mem_destroyLevels inv.noLarge, words_userHalf,
    List.mem_singleton, or_iff_left_of_imp]
  rintro rfl
  exact ⟨[], nil_mem_words _ _, pm.topLevel, walk_nil, rfl⟩

lemma SpaceInv.count_top :
    (vmmDestroyPagemap s.machine pm).count (pm.topLevel * pageSize, 1) = 2 := by
  rw [vmmDestroyPagemap_eq, List.count_append, inv.count_levels (nil_mem_words _ _) walk_nil,
    List.count_singleton_self]

lemma SpaceInv.count_lower {f : ℕ} (hf : LowerTable s.machine pm f) :
    (vmmDestroyPagemap s.machine pm).count (f * pageSize, 1) = 1 := by
  obtain ⟨π, hπ, hne, hw⟩ := hf
  have htop : f ≠ pm.topLevel := fun h =>
    hne (inv.tree.tree π hπ [] (nil_mem_words _ _) f hw (by rw [h, walk_nil]))
  have hzero : [(pm.topLevel * pageSize, 1)].count (f * pageSize, 1) = 0 := by
    apply List.count_eq_zero_of_not_mem
    rw [List.mem_singleton]
    exact fun h => htop (frame_inj h)
  rw [vmmDestroyPagemap_eq, List.count_append, inv.count_levels hπ hw, hzero]

/-- Mapped frames belong to the address space and are not freed. -/
lemma SpaceInv.mapped_leaks {f : ℕ} (hf : MappedFrame s.machine pm f) :
    f ∈ s.owned ∧ ∀ k, (f * pageSize, k) ∉ vmmDestroyPagemap s.machine pm := by
  obtain ⟨ρ, hρ, hlen, j, e, he, rfl⟩ := hf
  have howned := (inv.page hρ hlen he).2
  refine ⟨howned, fun k hk => ?_⟩
  obtain ⟨π, hπ, t, hw, hx⟩ := (inv.mem_frees _).mp hk
  have hft : frameOf e = t := by
    have := (Prod.mk.inj hx).1
    simp only [pageSize] at this
    omega
  exact (inv.owned _ howned).notTable π hπ (by rw [hw, hft])

lemma SpaceInv.not_exactTeardown : ¬ ExactTeardown s.machine pm := by
  intro h
  have hone := List.count_eq_one_of_mem h.1 ((inv.mem_frees (pm.topLevel * pageSize, 1)).mpr
    ⟨[], nil_mem_words _ _, pm.topLevel, walk_nil, rfl⟩)
  rw [inv.count_top] at hone
  omega

end Built

/-- No address space is torn down exactly: the top level is freed twice and the mapped frames are
not freed, while each table between is freed once. -/
theorem vmmDestroyPagemap_not_exact {m1 : Machine σ} {kernelTop : ℕ} {five : Bool}
    {calls : List SpaceCall} (hv : 2 ^ 63 ≤ highVma) (h0 : Taken src m.pmm 0)
    (hk : Taken src m.pmm kernelTop)
    (hnew : vmmNewPagemap src.alloc five kernelTop m = some (some pm, m1))
    (hrun : Run (SpaceStep src pm) ⟨m1, []⟩ calls s) :
    ¬ ExactTeardown s.machine pm ∧
      (vmmDestroyPagemap s.machine pm).count (pm.topLevel * pageSize, 1) = 2 ∧
      (∀ f, LowerTable s.machine pm f → (vmmDestroyPagemap s.machine pm).count (f * pageSize, 1) = 1) ∧
      (∀ f, MappedFrame s.machine pm f → ∀ k, (f * pageSize, k) ∉ vmmDestroyPagemap s.machine pm) ∧
      ∀ x ∈ vmmDestroyPagemap s.machine pm, ∃ f, x = (f * pageSize, 1) ∧
        (f = pm.topLevel ∨ LowerTable s.machine pm f) := by
  have inv := space_of_run hv h0 hk hnew hrun
  refine ⟨inv.not_exactTeardown, inv.count_top, fun f hf => inv.count_lower hf,
    fun f hf => (inv.mapped_leaks hf).2, fun x hx => ?_⟩
  obtain ⟨π, hπ, t, hw, rfl⟩ := (inv.mem_frees x).mp hx
  refine ⟨t, rfl, ?_⟩
  cases π with
  | nil => exact Or.inl (Option.some.inj hw).symm
  | cons i π => exact Or.inr ⟨i :: π, hπ, List.cons_ne_nil i π, hw⟩

end Teardown

lemma OnePage.space {pm : Pagemap} {m1 : Machine Bump} {s : Space Bump} {f : ℕ} (h : OnePage pm m1 s f) :
    SpaceInv (bumpSource (2 ^ 63)) pm s ∧ MappedFrame s.machine pm f := by
  have hbare := bareMachine_empty (2 ^ 63) false
  have inv := space_of_run le_rfl hbare.zero hbare.top h.new h.run
  have hu : User (topIndex pm.hasLevel5 0x400000) := by
    rw [h.four]
    unfold User
    decide
  have hpage := h.page
  have hmapped := h.mapped
  rw [vmmGetPageMapping_eq inv.tree hu, lookup] at hpage hmapped
  refine ⟨inv, _, tablePath_mem hu, tablePath_length _ _, pml1Index 0x400000, ?_⟩
  cases he : entryAt s.machine pm.topLevel (tablePath pm.hasLevel5 0x400000) (pml1Index 0x400000) with
  | none =>
    rw [he] at hmapped
    exact absurd rfl hmapped
  | some e =>
    rw [he, Option.getD_some] at hpage
    refine ⟨e, rfl, ?_⟩
    rw [hpage, frameOf_or smallPage_user.flagsOnly, frameOf_ofNat h.low]

theorem vmmDestroyPagemap_not_exact_onePage : ∃ pm m1 s f, OnePage pm m1 s f ∧
    ¬ ExactTeardown s.machine pm ∧
    (vmmDestroyPagemap s.machine pm).count (pm.topLevel * pageSize, 1) = 2 ∧
    (f * pageSize, 1) ∉ vmmDestroyPagemap s.machine pm := by
  obtain ⟨pm, m1, s, f, hone⟩ := exists_onePage
  have hbare := bareMachine_empty (2 ^ 63) false
  obtain ⟨hnot, htop, -, hmapped, -⟩ := vmmDestroyPagemap_not_exact le_rfl hbare.zero hbare.top hone.new
    hone.run
  exact ⟨pm, m1, s, f, hone, hnot, htop, hmapped f hone.space.2 1⟩

/-- A process with one page: after its teardown the top level is free twice over and the page is
lost. -/
theorem vmmDestroyPagemap_onePage : ∃ pm m1 s f,
    vmmNewPagemap (bumpSource (2 ^ 63)).alloc false 1 bareMachine = some (some pm, m1) ∧
    Run (SpaceStep (bumpSource (2 ^ 63)) pm) ⟨m1, []⟩
      [.alloc 1, .store (f * pageSize) 7, .map 0x400000 f (ptePresent ||| pteUser)] s ∧
    (vmmDestroyPagemap s.machine pm).count (pm.topLevel * pageSize, 1) = 2 ∧
    MappedFrame s.machine pm f ∧ (f * pageSize, 1) ∉ vmmDestroyPagemap s.machine pm ∧
    ¬ ExactTeardown s.machine pm := by
  obtain ⟨pm, m1, s, f, hone⟩ := exists_onePage
  obtain ⟨inv, hmapped⟩ := hone.space
  exact ⟨pm, m1, s, f, hone.new, hone.run, inv.count_top, hmapped, (inv.mapped_leaks hmapped).2 1,
    inv.not_exactTeardown⟩

end PiggyOs.Vmm
