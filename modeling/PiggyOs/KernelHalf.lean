import PiggyOs.VmmExecution
import PiggyOs.VmmFork

/-! The kernel half of the address space. Its tables hang below top-level entries that
`vmm_new_pagemap` copies, so all pagemaps show the same kernel as long as no call writes such an
entry again. -/
namespace PiggyOs.Vmm
open ByteMemory Walk Transition

section Typed
variable {σ : Type} {highVma : ℕ} {src : PageSource σ highVma} {n kernelTop : ℕ} {g : Typing}
  {m m' : Machine σ}

/-- A new top level has level 0 and the kernel half of all others. -/
lemma Typed.newTop {f : ℕ} (ty : Typed src n kernelTop g m) (hnone : g.own = ∅)
    (ht : NewTop src m m' kernelTop f) : Typed src n kernelTop (g.add f 0 True) m' := by
  have hle := Typing.le_add (ℓ := 0) (b := True) (ty.untyped ht.fresh)
  have hold : ∀ f' ℓ, g.level f' = some ℓ → ∀ i, m'.entry f' i = m.entry f' i := by
    intro f' ℓ hf' i
    rw [ht.entry, if_neg fun h : f' = f => ht.fresh (h ▸ ty.taken f' ℓ hf')]
  have hself : ∀ i, m'.entry f i = if 256 ≤ i.val then m.entry kernelTop i else 0 := by
    intro i
    rw [ht.entry, if_pos rfl]
  refine ⟨(ht.taken 0).mpr (Or.inl ty.zero), hle.level _ _ ty.kernelLevel, ?_, ?_, ?_, ?_⟩
  · intro f' ℓ hf'
    rw [ht.taken]
    rcases Typing.add_cases hf' with h | ⟨rfl, -⟩
    · exact Or.inl (ty.taken f' ℓ h)
    · exact Or.inr rfl
  · intro f' hf' i hi
    rw [hold kernelTop 0 ty.kernelLevel]
    rcases Typing.add_cases hf' with h | ⟨rfl, -⟩
    · rw [hold f' 0 h]
      exact ty.kernel f' h i hi
    · rw [hself, if_pos hi]
      exact ty.kernel kernelTop ty.kernelLevel i hi
  · intro f' ℓ hf' hℓ i
    rcases Typing.add_cases hf' with h | ⟨rfl, rfl⟩
    · rw [hold f' ℓ h]
      exact (ty.leads f' ℓ h hℓ i).mono hle
    · rw [hself]
      split_ifs with hi
      · exact (ty.leads kernelTop 0 ty.kernelLevel hℓ i).mono hle
      · exact leads_zero _ n 0
  · intro f' hf' ℓ hlev hℓ i hi
    rcases hf' with hf' | ⟨rfl, -⟩
    · rw [hnone] at hf'
      exact absurd hf' (Set.notMem_empty f')
    · obtain rfl : ℓ = 0 := by
        rw [Typing.add_self] at hlev
        exact (Option.some.inj hlev).symm
      rw [hself, if_neg (Nat.not_le.mpr (hi rfl))]
      exact leadsOwn_zero _ 0

end Typed

section Fork
variable {σ : Type} {highVma : ℕ} {src : PageSource σ highVma} {kernelTop new : ℕ} {five : Bool}
  {tops : Set ℕ} {m m' : Machine σ}

/-- A fork that builds the child `new`, while `tops` are the other top levels. -/
def Forking (src : PageSource σ highVma) (five : Bool) (kernelTop : ℕ) (tops : Set ℕ) (new : ℕ)
    (m : Machine σ) : Prop :=
  ∃ g, Typed src (depth five) kernelTop g m ∧ (∀ p ∈ tops, g.level p = some 0) ∧ new ∈ g.own ∧
    g.level new = some 0

lemma forEachPresent_invariant {I : Machine σ → Prop} {body : Fin 512 → Machine σ → Option (Machine σ)}
    {t : ℕ} {range : List (Fin 512)} (hbody : ∀ i ∈ range, ∀ m m', I m → body i m = some m' → I m')
    (h0 : I m) (h : forEachPresent body t range m = some m') : I m' := by
  induction range generalizing m with
  | nil =>
    obtain rfl : m = m' := by simpa [forEachPresent] using h
    exact h0
  | cons i range ih =>
    rw [forEachPresent, List.foldlM_cons] at h
    have hrest := fun j hj => hbody j (List.mem_cons_of_mem _ hj)
    split_ifs at h with hp
    · obtain ⟨m1, hb, h⟩ := Option.bind_eq_some_iff.mp h
      exact ih hrest (hbody i List.mem_cons_self m m1 h0 hb) h
    · exact ih hrest h0 h

/-- The addresses that `vmm_fork_pagemap` rebuilds lie in the user half. -/
lemma topIndex_entriesToVaddr (five : Bool) {i : Fin 512} (hi : User i) (j k l : Fin 512) :
    (topIndex five (entriesToVaddr i j k l)).val < 256 := by
  cases five with
  | false =>
    rw [topIndex, if_neg Bool.false_ne_true, (index_entriesToVaddr i j k l).1]
    exact hi
  | true =>
    have h4 := i.isLt
    have h3 := j.isLt
    have h2 := k.isLt
    have h1 := l.isLt
    rw [topIndex, if_pos rfl, pml5Index, index_val _ (by omega), entriesToVaddr_toNat]
    omega

lemma forkPage_cases {pm : Pagemap} {i j k l : Fin 512} {pml2 : ℕ} (hv : 2 ^ 63 ≤ highVma)
    (h : forkPage src.alloc pm pml2 i j k l m = some m') :
    ∃ f m2 e b, NewPage src m m2 f ∧ vmmMapPage src.alloc m2 pm (entriesToVaddr i j k l)
      (BitVec.ofNat 64 (f * pageSize)) (e &&& pteFlagMask) = some (b, m') := by
  unfold forkPage at h
  cases ha : src.alloc m.pmm 1 with
  | none => simp [pmmAllocz, ha] at h
  | some x =>
    obtain ⟨a, q⟩ := x
    obtain ⟨f, rfl, -⟩ := alloc_frame hv ha
    simp only [pmmAllocz, ha, Option.map_some, Nat.mul_one] at h
    obtain ⟨⟨b, m3⟩, hmap, rfl⟩ := Option.map_eq_some_iff.mp h
    exact ⟨f, _, _, b, newPage hv ha _, hmap⟩

lemma Forking.forkPage {i j k l : Fin 512} {pml2 : ℕ} (hv : 2 ^ 63 ≤ highVma) (hi : User i)
    (hf : Forking src five kernelTop tops new m)
    (h : Vmm.forkPage src.alloc ⟨new, five⟩ pml2 i j k l m = some m') :
    Forking src five kernelTop tops new m' := by
  obtain ⟨g, ty, htops, hown, htop⟩ := hf
  obtain ⟨f, m2, e, b, hpage, hmap⟩ := forkPage_cases hv h
  obtain ⟨hle1, ty1⟩ := ty.page (depth_pos five).ne' hpage.fresh hpage.taken hpage.other
  have hmay : MayMap (g.add f (depth five) True) m2 ⟨new, five⟩ (entriesToVaddr i j k l)
      (BitVec.ofNat 64 (f * pageSize)) (e &&& pteFlagMask) := by
    refine Or.inl ⟨hle1.own hown, topIndex_entriesToVaddr five hi j k l, ?_⟩
    rw [frameOf_copy hpage.low]
    exact ⟨g.add_self .., Or.inr ⟨rfl, trivial⟩⟩
  obtain ⟨g2, ty2, hle2⟩ := Typed.vmmMapPage ⟨new, five⟩ hv ty1 (hle1.level _ _ htop) hmay
    (flagsOnly_and_mask e) hmap
  have hle := hle1.trans hle2
  exact ⟨g2, ty2, fun p hp => hle.level _ _ (htops p hp), hle.own hown, hle.level _ _ htop⟩

lemma Forking.forkTables {old : ℕ} (hv : 2 ^ 63 ≤ highVma) (hf : Forking src five kernelTop tops new m)
    (h : Vmm.forkTables src.alloc ⟨new, five⟩ old m = some m') :
    Forking src five kernelTop tops new m' := by
  refine forEachPresent_invariant (fun i hi m m' hf h => ?_) hf h
  refine forEachPresent_invariant (fun j _ m m' hf h => ?_) hf h
  refine forEachPresent_invariant (fun k _ m m' hf h => ?_) hf h
  refine forEachPresent_invariant (fun l _ m m' hf h => ?_) hf h
  exact hf.forkPage hv (mem_userHalf.mp hi) h

end Fork

/-- The machine and the pagemaps that were created on it. -/
structure System (σ : Type) where
  machine : Machine σ
  created : List Pagemap

inductive KernelCall
  | newPagemap
  | forkPagemap (old : Pagemap)
  | mapPage (pagemap : Pagemap) (vaddr paddr flags : BitVec 64)
  | unmapPage (pagemap : Pagemap) (vaddr : BitVec 64)
  | updateFlags (pagemap : Pagemap) (vaddr flags : BitVec 64)
  deriving DecidableEq, Repr

section Calls
variable {σ : Type} {highVma : ℕ} {src : PageSource σ highVma} {kernelTop : ℕ} {five : Bool}
  {s s' : System σ}

/-- The calls on the pagemaps of the system. No page of 4 KiB is mapped inside a large page. -/
inductive Answered (src : PageSource σ highVma) (five : Bool) (kernelTop : ℕ) :
    System σ → KernelCall → System σ → Prop
  | newPagemap {s : System σ} {r : Option Pagemap} {m' : Machine σ} :
      vmmNewPagemap src.alloc five kernelTop s.machine = some (r, m') →
      Answered src five kernelTop s .newPagemap ⟨m', r.toList ++ s.created⟩
  | forkPagemap {s : System σ} {old : Pagemap} {r : Option Pagemap} {m' : Machine σ} :
      old ∈ ⟨kernelTop, five⟩ :: s.created →
      vmmForkPagemap src.alloc five kernelTop s.machine old = some (r, m') →
      Answered src five kernelTop s (.forkPagemap old) ⟨m', r.toList ++ s.created⟩
  | mapPage {s : System σ} {pm : Pagemap} {vaddr paddr flags : BitVec 64} {b : Bool} {m' : Machine σ} :
      pm ∈ ⟨kernelTop, five⟩ :: s.created → (¬ Large flags → ¬ InLargePage s.machine pm vaddr) →
      vmmMapPage src.alloc s.machine pm vaddr paddr flags = some (b, m') →
      Answered src five kernelTop s (.mapPage pm vaddr paddr flags) ⟨m', s.created⟩
  | unmapPage {s : System σ} {pm : Pagemap} {vaddr : BitVec 64} :
      pm ∈ ⟨kernelTop, five⟩ :: s.created →
      Answered src five kernelTop s (.unmapPage pm vaddr) ⟨(vmmUnmapPage s.machine pm vaddr).2, s.created⟩
  | updateFlags {s : System σ} {pm : Pagemap} {vaddr flags : BitVec 64} :
      pm ∈ ⟨kernelTop, five⟩ :: s.created →
      Answered src five kernelTop s (.updateFlags pm vaddr flags)
        ⟨(vmmUpdateFlags s.machine pm vaddr flags).2, s.created⟩

/-- Flags are flags: no address bits for `vmm_map_page`, and `vmm_update_flags` does not turn a
large page into a table. -/
def Disciplined (s : System σ) : KernelCall → Prop
  | .mapPage _ _ _ flags => FlagsOnly flags
  | .updateFlags pm vaddr flags =>
      ∀ t, walk s.machine.next pm.topLevel (upperIndices pm.hasLevel5 vaddr) = some t →
        Large (s.machine.entry t (pml2Index vaddr)) → Large flags ∨ ¬ Present flags
  | _ => True

/-- All top levels have level 0. -/
def Shared (src : PageSource σ highVma) (five : Bool) (kernelTop : ℕ) (s : System σ) : Prop :=
  ∃ g, Typed src (depth five) kernelTop g s.machine ∧ g.own = ∅ ∧
    ∀ pm ∈ s.created, pm.hasLevel5 = five ∧ g.level pm.topLevel = some 0

/-- What `Shared` says of a pagemap that a call is made on. -/
lemma shared_member {g : Typing} {pm : Pagemap} (ty : Typed src (depth five) kernelTop g s.machine)
    (hall : ∀ pm ∈ s.created, pm.hasLevel5 = five ∧ g.level pm.topLevel = some 0)
    (hpm : pm ∈ ⟨kernelTop, five⟩ :: s.created) : pm.hasLevel5 = five ∧ g.level pm.topLevel = some 0 := by
  rcases List.mem_cons.mp hpm with rfl | hpm
  · exact ⟨rfl, ty.kernelLevel⟩
  · exact hall pm hpm

/-- A new pagemap, as the start of a fork. -/
lemma Shared.forking {r : Option Pagemap} {m' : Machine σ} (hv : 2 ^ 63 ≤ highVma)
    (hs : Shared src five kernelTop s)
    (h : vmmNewPagemap src.alloc five kernelTop s.machine = some (r, m')) :
    ∃ f, r = some ⟨f, five⟩ ∧
      Forking src five kernelTop {p | ∃ pm ∈ s.created, pm.topLevel = p} f m' := by
  obtain ⟨g, ty, hnone, hall⟩ := hs
  rcases vmmNewPagemap_cases hv (ty.taken _ _ ty.kernelLevel) h with ⟨-, hfree, -⟩ | ⟨f, rfl, -, ht⟩
  · exact absurd ty.zero hfree
  · have hle := Typing.le_add (ℓ := 0) (b := True) (ty.untyped ht.fresh)
    refine ⟨f, rfl, g.add f 0 True, ty.newTop hnone ht, ?_, Or.inr ⟨rfl, trivial⟩, g.add_self ..⟩
    rintro p ⟨pm, hpm, rfl⟩
    exact hle.level _ _ (hall pm hpm).2

/-- The end of a fork. -/
lemma Forking.shared {new : ℕ} {m' : Machine σ} (hfive : ∀ pm ∈ s.created, pm.hasLevel5 = five)
    (hf : Forking src five kernelTop {p | ∃ pm ∈ s.created, pm.topLevel = p} new m') :
    Shared src five kernelTop ⟨m', (some (⟨new, five⟩ : Pagemap)).toList ++ s.created⟩ := by
  obtain ⟨g, ty, htops, -, hnew⟩ := hf
  refine ⟨⟨g.level, ∅⟩, ty.forget, rfl, fun pm hpm => ?_⟩
  rcases List.mem_cons.mp hpm with rfl | hpm
  · exact ⟨rfl, hnew⟩
  · exact ⟨hfive pm hpm, htops _ ⟨pm, hpm, rfl⟩⟩

/-- Every disciplined call keeps the levels. -/
theorem Shared.step {c : KernelCall} (hv : 2 ^ 63 ≤ highVma) (hs : Shared src five kernelTop s)
    (h : Answered src five kernelTop s c s') (hd : Disciplined s c) : Shared src five kernelTop s' := by
  have hfive : ∀ pm ∈ s.created, pm.hasLevel5 = five := by
    obtain ⟨g, -, -, hall⟩ := hs
    exact fun pm hpm => (hall pm hpm).1
  cases h with
  | newPagemap h =>
    obtain ⟨f, rfl, hf⟩ := hs.forking hv h
    exact hf.shared hfive
  | forkPagemap _ h =>
    unfold vmmForkPagemap at h
    cases hnew : vmmNewPagemap src.alloc five kernelTop s.machine with
    | none => simp [hnew] at h
    | some x =>
      obtain ⟨r, m1⟩ := x
      obtain ⟨f, rfl, hf⟩ := hs.forking hv hnew
      rw [hnew] at h
      obtain ⟨m2, hfork, h⟩ := Option.map_eq_some_iff.mp h
      obtain ⟨rfl, rfl⟩ := Prod.mk.inj h
      exact (hf.forkTables hv hfork).shared hfive
  | mapPage hpm hcov h =>
    obtain ⟨g, ty, hnone, hall⟩ := hs
    obtain ⟨rfl, htop⟩ := shared_member ty hall hpm
    obtain ⟨g', ty', hle⟩ := ty.vmmMapPage _ hv htop (Or.inr ⟨hnone, hcov⟩) hd h
    exact ⟨⟨g'.level, ∅⟩, ty'.forget, rfl, fun pm hpm => ⟨(hall pm hpm).1, hle.level _ _ (hall pm hpm).2⟩⟩
  | unmapPage hpm =>
    obtain ⟨g, ty, hnone, hall⟩ := hs
    obtain ⟨rfl, htop⟩ := shared_member ty hall hpm
    exact ⟨g, ty.vmmUnmapPage _ htop, hnone, hall⟩
  | updateFlags hpm =>
    obtain ⟨g, ty, hnone, hall⟩ := hs
    obtain ⟨rfl, htop⟩ := shared_member ty hall hpm
    exact ⟨g, ty.vmmUpdateFlags _ hnone htop hd, hnone, hall⟩

/-- Pagemaps with the same top-level entry show the same pages below it. -/
lemma vmmGetPageMapping_congr_top {m : Machine σ} {top top' : ℕ} {vaddr : BitVec 64}
    (he : m.entry top (topIndex five vaddr) = m.entry top' (topIndex five vaddr)) :
    vmmGetPageMapping m ⟨top, five⟩ vaddr = vmmGetPageMapping m ⟨top', five⟩ vaddr := by
  have hnext : m.next top (topIndex five vaddr) = m.next top' (topIndex five vaddr) := by
    simp only [Machine.next, he]
  have hwalk : walk m.next top (upperIndices five vaddr) = walk m.next top' (upperIndices five vaddr) := by
    rw [upperIndices_cons, walk_cons, walk_cons, hnext]
  simp only [vmmGetPageMapping, hwalk]

lemma Shared.get {pm : Pagemap} {vaddr : BitVec 64} (hs : Shared src five kernelTop s)
    (hpm : pm ∈ s.created) (hkernel : 256 ≤ (topIndex five vaddr).val) :
    vmmGetPageMapping s.machine pm vaddr = vmmGetPageMapping s.machine ⟨kernelTop, five⟩ vaddr := by
  obtain ⟨g, ty, -, hall⟩ := hs
  obtain ⟨rfl, htop⟩ := hall pm hpm
  exact vmmGetPageMapping_congr_top (ty.kernel _ htop _ hkernel).1

end Calls

section Filling
variable {σ : Type} {highVma : ℕ} {src : PageSource σ highVma} {kernelTop : ℕ} {m m' : Machine σ}
  {D : Set (Fin 512)}

/-- The top level of the kernel, with empty tables behind the entries in `D`. -/
structure Filled (src : PageSource σ highVma) (kernelTop : ℕ) (D : Set (Fin 512)) (m : Machine σ) :
    Prop where
  zero : Taken src m.pmm 0
  top : Taken src m.pmm kernelTop
  present : ∀ i ∈ D, Present (m.entry kernelTop i)
  fresh : ∀ i ∈ D, frameOf (m.entry kernelTop i) ≠ kernelTop
  taken : ∀ i ∈ D, Taken src m.pmm (frameOf (m.entry kernelTop i))
  empty : ∀ i ∈ D, ∀ j, m.entry (frameOf (m.entry kernelTop i)) j = 0
  absent : ∀ i ∉ D, m.entry kernelTop i = 0

/-- The value that `vmm_init` writes for a kernel table in frame `f`. -/
lemma kernelLink {f : ℕ} (h : f * pageSize < 2 ^ 63) :
    frameOf (BitVec.ofNat 64 (f * pageSize) ||| ptePresent ||| pteWritable) = f ∧
      Present (BitVec.ofNat 64 (f * pageSize) ||| ptePresent ||| pteWritable) := by
  have hp : FlagsOnly ptePresent := by
    unfold FlagsOnly
    decide
  have hw : FlagsOnly pteWritable := by
    unfold FlagsOnly
    decide
  have hbit : ptePresent.getLsbD 0 = true := by decide
  constructor
  · rw [frameOf_or hw, frameOf_or hp, frameOf_ofNat h]
  · rw [present_iff, BitVec.getLsbD_or, BitVec.getLsbD_or, hbit, Bool.or_true, Bool.true_or]

lemma Filled.linked {i : Fin 512} {f : ℕ} {e : BitVec 64} (hf : Filled src kernelTop D m)
    (hframe : frameOf e = f) (hpres : Present e) (hl : Linked src m m' kernelTop i f e) :
    Filled src kernelTop (insert i D) m' := by
  have hkf : kernelTop ≠ f := fun h => hl.fresh (h ▸ hf.top)
  have hself : m'.entry kernelTop i = e := by rw [hl.entry, if_pos ⟨rfl, rfl⟩]
  have hother : ∀ j, j ≠ i → m'.entry kernelTop j = m.entry kernelTop j := by
    intro j hj
    rw [hl.entry, if_neg fun h => hj h.2, if_neg hkf]
  have hcases : ∀ j ∈ insert i D, m'.entry kernelTop j = e ∨
      (j ∈ D ∧ m'.entry kernelTop j = m.entry kernelTop j) := by
    intro j hj
    by_cases hji : j = i
    · rw [hji]
      exact Or.inl hself
    · exact Or.inr ⟨hj.resolve_left hji, hother j hji⟩
  refine ⟨(hl.taken 0).mpr (Or.inl hf.zero), (hl.taken _).mpr (Or.inl hf.top), ?_, ?_, ?_, ?_, ?_⟩
  · intro j hj
    rcases hcases j hj with h | ⟨hD, h⟩
    · rwa [h]
    · rw [h]
      exact hf.present j hD
  · intro j hj
    rcases hcases j hj with h | ⟨hD, h⟩
    · rw [h, hframe]
      exact hkf.symm
    · rw [h]
      exact hf.fresh j hD
  · intro j hj
    rw [hl.taken]
    rcases hcases j hj with h | ⟨hD, h⟩
    · rw [h, hframe]
      exact Or.inr rfl
    · rw [h]
      exact Or.inl (hf.taken j hD)
  · intro j hj k
    rcases hcases j hj with h | ⟨hD, h⟩
    · rw [h, hframe, hl.entry, if_neg fun h => hkf h.1.symm, if_pos rfl]
    · have hnf : frameOf (m.entry kernelTop j) ≠ f := fun h => hl.fresh (h ▸ hf.taken j hD)
      rw [h, hl.entry, if_neg fun h => hf.fresh j hD h.1, if_neg hnf]
      exact hf.empty j hD k
  · intro j hj
    rw [hother j fun h => hj (h ▸ Set.mem_insert ..)]
    exact hf.absent j fun h => hj (Set.mem_insert_of_mem _ h)

/-- The loop of `vmm_init` that makes the kernel tables. -/
lemma Filled.fill {is : List (Fin 512)} (hv : 2 ^ 63 ≤ highVma) (hf : Filled src kernelTop D m)
    (h : is.foldlM (fun m i => (pmmAllocz src.alloc m 1).map fun r =>
      r.2.setEntry kernelTop i (BitVec.ofNat 64 r.1 ||| ptePresent ||| pteWritable)) m = some m') :
    Filled src kernelTop (D ∪ {i | i ∈ is}) m' := by
  induction is generalizing m D with
  | nil =>
    obtain rfl : m = m' := by simpa using h
    simpa using hf
  | cons i is ih =>
    rw [List.foldlM_cons] at h
    obtain ⟨m1, h1, h⟩ := Option.bind_eq_some_iff.mp h
    obtain ⟨⟨a, m0⟩, ha, rfl⟩ := Option.map_eq_some_iff.mp h1
    obtain ⟨f, rfl, hl⟩ := linked_of_allocz hv ha
    obtain ⟨hframe, hpres⟩ := kernelLink (hl kernelTop i 0).low
    have hstep := ih (hf.linked hframe hpres (hl kernelTop i _)) h
    have hset : insert i D ∪ {j | j ∈ is} = D ∪ {j | j ∈ i :: is} := by
      ext j
      simp only [Set.mem_union, Set.mem_insert_iff, Set.mem_ofPred_eq, List.mem_cons]
      rw [or_assoc, or_left_comm]
    rwa [hset] at hstep

lemma filled_empty (h0 : Taken src m.pmm 0) (htop : Taken src m.pmm kernelTop)
    (hempty : ∀ i, m.entry kernelTop i = 0) : Filled src kernelTop ∅ m := by
  refine ⟨h0, htop, ?_, ?_, ?_, ?_, fun i _ => hempty i⟩ <;> simp

lemma fillKernelHalf_filled (hv : 2 ^ 63 ≤ highVma) (h0 : Taken src m.pmm 0)
    (htop : Taken src m.pmm kernelTop) (hempty : ∀ i, m.entry kernelTop i = 0)
    (h : fillKernelHalf src.alloc kernelTop m = some m') :
    Filled src kernelTop {i | 256 ≤ i.val} m' := by
  have hend := (filled_empty h0 htop hempty).fill hv h
  rwa [show ∅ ∪ {i | i ∈ kernelHalf} = {i : Fin 512 | 256 ≤ i.val} by simp [mem_kernelHalf]] at hend

open Classical in
/-- After `vmm_init` the tables have levels. -/
lemma Filled.shared {five : Bool} (hf : Filled src kernelTop {i | 256 ≤ i.val} m) :
    Shared src five kernelTop ⟨m, []⟩ := by
  have hn : 2 < depth five := by cases five <;> decide
  set level : ℕ → Option ℕ := fun f => if f = kernelTop then some 0
    else if ∃ i : Fin 512, 256 ≤ i.val ∧ frameOf (m.entry kernelTop i) = f then some 1 else none with hlevel
  have htop : level kernelTop = some 0 := if_pos rfl
  have hcases : ∀ f ℓ, level f = some ℓ → (f = kernelTop ∧ ℓ = 0) ∨
      ∃ i : Fin 512, 256 ≤ i.val ∧ frameOf (m.entry kernelTop i) = f ∧ ℓ = 1 := by
    intro f ℓ h
    simp only [hlevel] at h
    split_ifs at h with h1 h2
    · exact Or.inl ⟨h1, (Option.some.inj h).symm⟩
    · obtain ⟨i, hi, hfi⟩ := h2
      exact Or.inr ⟨i, hi, hfi, (Option.some.inj h).symm⟩
  refine ⟨⟨level, ∅⟩, ⟨hf.zero, htop, ?_, ?_, ?_, fun f hfo => absurd hfo (Set.notMem_empty f)⟩, rfl, by simp⟩
  · intro f ℓ h
    rcases hcases f ℓ h with ⟨rfl, -⟩ | ⟨i, hi, rfl, -⟩
    · exact hf.top
    · exact hf.taken i hi
  · intro f h i hi
    rcases hcases f 0 h with ⟨rfl, -⟩ | ⟨j, -, -, h0⟩
    · exact ⟨rfl, hf.present i hi⟩
    · simp at h0
  · intro f ℓ h _ i hp _
    rcases hcases f ℓ h with ⟨rfl, rfl⟩ | ⟨j, hj, rfl, rfl⟩
    · by_cases hi : 256 ≤ i.val
      · simp only [hlevel]
        rw [if_neg (hf.fresh i hi), if_pos ⟨i, hi, rfl⟩]
      · rw [hf.absent i hi] at hp
        exact absurd hp (by decide)
    · rw [hf.empty j hj] at hp
      exact absurd hp (by decide)

end Filling

section Runs
variable {σ : Type} {highVma : ℕ} {src : PageSource σ highVma} {kernelTop : ℕ} {five : Bool}

/-- All pagemaps show the same kernel half after every sequence of calls that follows the filling
of the kernel's top level, if flags carry no address bits and `vmm_update_flags` keeps large pages
large. -/
theorem kernelHalf_shared {m0 m1 : Machine σ} {s : System σ} {calls : List KernelCall}
    (hv : 2 ^ 63 ≤ highVma) (h0 : Taken src m0.pmm 0) (htop : Taken src m0.pmm kernelTop)
    (hempty : ∀ i, m0.entry kernelTop i = 0) (hfill : fillKernelHalf src.alloc kernelTop m0 = some m1)
    (hrun : Run (fun s c s' => Answered src five kernelTop s c s' ∧ Disciplined s c) ⟨m1, []⟩ calls s) :
    ∀ pm ∈ s.created, ∀ vaddr, 256 ≤ (topIndex five vaddr).val →
      vmmGetPageMapping s.machine pm vaddr = vmmGetPageMapping s.machine ⟨kernelTop, five⟩ vaddr := by
  intro pm hpm vaddr hkernel
  have hstart : Shared src five kernelTop ⟨m1, []⟩ := (fillKernelHalf_filled hv h0 htop hempty hfill).shared
  have keep : ∀ s c s', Shared src five kernelTop s →
      Answered src five kernelTop s c s' ∧ Disciplined s c → Shared src five kernelTop s' :=
    fun s c s' hs h => hs.step hv h.1 h.2
  exact (hrun.invariant keep hstart).get hpm hkernel

end Runs

/-- One mebibyte and the frame `0xfff` are in use. -/
def bootPages : Bump where
  next := 0x100000
  limit := 0xfff000
  given := [(0, 0x100000), (0xfff000, 0x1000)]
  aligned := rfl
  outside := by simp

def bootMachine : Machine Bump := ⟨fun _ => 0, bootPages⟩

/-- The direct map ends where the frame `0xfff` does. -/
def bootVma : ℕ := 2 ^ 64 - 0x1000000

/-- The address of a large page of the kernel. -/
def kernelAddr : BitVec 64 := 0xffff800040000000
def kernelPage : BitVec 64 := 0x200083

abbrev bootSource : PageSource Bump bootVma := bumpSource bootVma

/-- After the large page is mapped for the kernel and a pagemap is made. -/
structure Booted (m1 : Machine Bump) (s : System Bump) (p t1 t2 : ℕ) (e1 : BitVec 64) : Prop where
  fill : fillKernelHalf bootSource.alloc 0xfff bootMachine = some m1
  created : s.created = [⟨p, false⟩]
  run : Run (fun s c s' => Answered bootSource false 0xfff s c s' ∧ Disciplined s c) ⟨m1, []⟩
    [.mapPage ⟨0xfff, false⟩ kernelAddr 0x200000 0x83, .newPagemap] s
  zero : Taken bootSource s.machine.pmm 0
  left : 8 ≤ Bump.left bootVma s.machine.pmm
  kernel : s.machine.entry 0xfff 256 = e1
  copy : s.machine.entry p 256 = e1
  link1 : Present e1 ∧ frameOf e1 = t1
  link2 : Present (s.machine.entry t1 1) ∧ frameOf (s.machine.entry t1 1) = t2
  page : s.machine.entry t2 0 = kernelPage
  empty : ∀ i : Fin 512, i.val < 256 → s.machine.entry p i = 0 ∧ s.machine.entry 0xfff i = 0
  taken : Taken bootSource s.machine.pmm 0xfff ∧ Taken bootSource s.machine.pmm p ∧
    Taken bootSource s.machine.pmm t1 ∧ Taken bootSource s.machine.pmm t2
  distinct : [0xfff, p, t1, t2].Nodup
  low : p * pageSize < 2 ^ 63

lemma bootMachine_entry (t : ℕ) (i : Fin 512) : bootMachine.entry t i = 0 := read64_zero _

lemma bootMachine_zero : Taken bootSource bootMachine.pmm 0 :=
  ⟨(0, 0x100000), List.mem_cons_self, by norm_num [pageSize]⟩

lemma bootMachine_top : Taken bootSource bootMachine.pmm 0xfff :=
  ⟨(0xfff000, 0x1000), List.mem_cons_of_mem _ List.mem_cons_self, by norm_num [pageSize]⟩

lemma kernelFlags : FlagsOnly 0x83 ∧ Present 0x83 ∧ Large 0x83 := by
  unfold FlagsOnly
  decide

lemma exists_booted : ∃ m1 s p t1 t2 e1, Booted m1 s p t1 t2 e1 := by
  have hv : 2 ^ 63 ≤ bootVma := by norm_num [bootVma]
  have hs := bump_serves bootVma
  have hz := bootMachine_zero
  have hk := bootMachine_top
  have hhalf : kernelHalf.length ≤ 512 := (List.length_filter_le _ _).trans_eq List.length_finRange
  have hleft : 8 + 1 + 4 + kernelHalf.length ≤ Bump.left bootVma bootMachine.pmm := by
    have : Bump.left bootVma bootMachine.pmm = 0xeff := by
      norm_num [Bump.left, bootVma, bootMachine, bootPages, pageSize]
    omega
  obtain ⟨m1, hfill, hk1⟩ := hs.fill 0xfff hleft
  have hF := fillKernelHalf_filled hv hz hk (bootMachine_entry 0xfff) hfill
  obtain ⟨b, m2, hmap, hk2⟩ := hs.mapPage hk1 ⟨0xfff, false⟩ kernelAddr 0x200000 0x83
  obtain ⟨r, m3, hnew, hk3⟩ := hs.newPagemap hk2 false 0xfff
  have hi4 : pml4Index kernelAddr = 256 := by decide
  have hi3 : pml3Index kernelAddr = 1 := by decide
  have hi2 : pml2Index kernelAddr = 0 := by decide
  have h256 : (256 : Fin 512) ∈ {i : Fin 512 | 256 ≤ i.val} := by decide
  obtain ⟨u1, m1', u2, m2', he1, he2, hend⟩ := vmmMapPage_levels hv hF.zero hmap
  rw [hi4] at he1
  rw [hi3] at he2
  rw [hi2] at hend
  obtain ⟨rfl, hsame⟩ := he1.followed (hF.present 256 h256)
  obtain rfl := hsame.symm
  obtain ⟨f, rfl, hl⟩ := he2.linked (hF.empty 256 h256 1)
  rcases hend with ⟨-, rfl⟩ | ⟨hno, -⟩
  · rw [frameOf_link hl.low kernelFlags.1] at *
    set m2 := m2'.setEntry f 0 (0x200000 ||| 0x83) with hm2
    have htaken2 : ∀ g, Taken bootSource m2.pmm g ↔ Taken bootSource m1.pmm g ∨ g = f := hl.taken
    have hz2 := (htaken2 0).mpr (Or.inl hF.zero)
    have hk2' := (htaken2 0xfff).mpr (Or.inl hF.top)
    have ht1 := (htaken2 _).mpr (Or.inl (hF.taken 256 h256))
    rcases vmmNewPagemap_cases hv hk2' hnew with ⟨-, hfree, -⟩ | ⟨p, rfl, -, ht⟩
    · exact absurd hz2 hfree
    have hkf : 0xfff ≠ f := fun h => hl.fresh (h ▸ hF.top)
    have htf : frameOf (m1.entry 0xfff 256) ≠ f := fun h => hl.fresh (h ▸ hF.taken 256 h256)
    have htk := hF.fresh 256 h256
    have hp : ∀ g, Taken bootSource m2.pmm g → g ≠ p := fun g hg h => ht.fresh (h ▸ hg)
    have hentry2 : ∀ s j, m2.entry s j = if s = f ∧ j = 0 then kernelPage else
        if s = frameOf (m1.entry 0xfff 256) ∧ j = 1 then link f 0x83 else if s = f then 0 else m1.entry s j := by
      intro s j
      rw [hm2, entry_setEntry, hl.entry]
      rfl
    have hold : ∀ s j, s ≠ p → m3.entry s j = m2.entry s j := fun s j hs => by rw [ht.entry, if_neg hs]
    have hk256 : m2.entry 0xfff 256 = m1.entry 0xfff 256 := by
      rw [hentry2, if_neg fun h => hkf h.1, if_neg fun h => htk h.1.symm, if_neg hkf]
    have ht3 : ∀ g, Taken bootSource m2.pmm g → Taken bootSource m3.pmm g := fun g hg =>
      (ht.taken g).mpr (Or.inl hg)
    have hlink2 : m3.entry (frameOf (m1.entry 0xfff 256)) 1 = link f 0x83 := by
      rw [hold _ _ (hp _ ht1), hentry2, if_neg fun h => htf h.1, if_pos ⟨rfl, rfl⟩]
    refine ⟨m1, ⟨m3, [⟨p, false⟩]⟩, p, frameOf (m1.entry 0xfff 256), f, m1.entry 0xfff 256, hfill, rfl, ?_,
      ht3 0 hz2, hk3, ?_, ?_, ⟨hF.present 256 h256, rfl⟩, ?_, ?_, ?_, ?_, ?_, ht.low⟩
    · have hstep : Answered bootSource false 0xfff ⟨m2, []⟩ .newPagemap
          ⟨m3, (some (⟨p, false⟩ : Pagemap)).toList ++ []⟩ := .newPagemap hnew
      exact .cons ⟨.mapPage List.mem_cons_self (fun h => absurd kernelFlags.2.2 h) hmap, kernelFlags.1⟩
        (.single ⟨hstep, trivial⟩)
    · rw [hold _ _ (hp _ hk2'), hk256]
    · rw [ht.entry, if_pos rfl, if_pos (by decide), hk256]
    · rw [hlink2]
      exact ⟨present_link.mpr kernelFlags.2.1, frameOf_link hl.low kernelFlags.1⟩
    · rw [hold _ _ (hp _ ((htaken2 f).mpr (Or.inr rfl))), hentry2, if_pos ⟨rfl, rfl⟩]
    · intro i hi
      constructor
      · rw [ht.entry, if_pos rfl, if_neg (Nat.not_le.mpr hi)]
      · rw [hold _ _ (hp _ hk2'), hentry2, if_neg fun h => hkf h.1, if_neg fun h => htk h.1.symm, if_neg hkf]
        exact hF.absent i (Nat.not_le.mpr hi)
    · exact ⟨ht3 _ hk2', (ht.taken p).mpr (Or.inr rfl), ht3 _ ht1, ht3 _ ((htaken2 f).mpr (Or.inr rfl))⟩
    · have h1 := hp _ hk2'
      have h2 := hp _ ht1
      have h3 := hp _ ((htaken2 f).mpr (Or.inr rfl))
      simp only [List.nodup_cons, List.mem_cons, List.not_mem_nil, or_false, not_or, not_false_iff,
        List.nodup_nil, and_true]
      exact ⟨⟨h1, fun h => htk h.symm, hkf⟩, ⟨fun h => h2 h.symm, fun h => h3 h.symm⟩, htf⟩
  · exact absurd kernelFlags.2.2 hno

/-- What stays of a booted system: the kernel page is seen below the entry `e1` of a top level. -/
lemma Booted.get {m1 m' : Machine Bump} {s : System Bump} {p t1 t2 top : ℕ} {e1 : BitVec 64}
    (hb : Booted m1 s p t1 t2 e1) (htop : m'.entry top 256 = e1)
    (hlink : m'.entry t1 1 = s.machine.entry t1 1) (hpage : m'.entry t2 0 = s.machine.entry t2 0) :
    vmmGetPageMapping m' ⟨top, false⟩ kernelAddr = kernelPage := by
  have hi4 : pml4Index kernelAddr = 256 := by decide
  have hi3 : pml3Index kernelAddr = 1 := by decide
  have hi2 : pml2Index kernelAddr = 0 := by decide
  have h4 : m'.next top (pml4Index kernelAddr) = some t1 := by
    rw [hi4, ← hb.link1.2, ← htop]
    apply next_present
    rw [htop]
    exact hb.link1.1
  have h3 : m'.next t1 (pml3Index kernelAddr) = some t2 := by
    rw [hi3, ← hb.link2.2, ← hlink]
    apply next_present
    rw [hlink]
    exact hb.link2.1
  have h2 : m'.entry t2 (pml2Index kernelAddr) = kernelPage := by rw [hi2, hpage, hb.page]
  rw [vmmGetPageMapping_large h4 h3, h2]
  rw [h2]
  decide

theorem kernelHalf_shared_booted : ∃ m1 s p, fillKernelHalf bootSource.alloc 0xfff bootMachine = some m1 ∧
    Run (fun s c s' => Answered bootSource false 0xfff s c s' ∧ Disciplined s c) ⟨m1, []⟩
      [.mapPage ⟨0xfff, false⟩ kernelAddr 0x200000 0x83, .newPagemap] s ∧
    p ∈ s.created ∧ vmmGetPageMapping s.machine p kernelAddr = kernelPage ∧
    vmmGetPageMapping s.machine p kernelAddr = vmmGetPageMapping s.machine ⟨0xfff, false⟩ kernelAddr := by
  obtain ⟨m1, s, p, t1, t2, e1, hb⟩ := exists_booted
  have hmem : (⟨p, false⟩ : Pagemap) ∈ s.created := by simp [hb.created]
  refine ⟨m1, s, ⟨p, false⟩, hb.fill, hb.run, hmem, hb.get hb.copy rfl rfl, ?_⟩
  exact kernelHalf_shared (by norm_num [bootVma]) bootMachine_zero bootMachine_top (bootMachine_entry 0xfff)
    hb.fill hb.run _ hmem _ (by decide)


lemma Booted.runs {m1 : Machine Bump} {s : System Bump} {p t1 t2 : ℕ} {e1 : BitVec 64}
    (hb : Booted m1 s p t1 t2 e1) : Run (Answered bootSource false 0xfff) ⟨m1, []⟩
      [.mapPage ⟨0xfff, false⟩ kernelAddr 0x200000 0x83, .newPagemap] s :=
  hb.run.mono fun _ _ _ h => h.1

lemma answered_unmapPage {src : PageSource Bump bootVma} {m m' : Machine Bump} {created : List Pagemap}
    {pm : Pagemap} {vaddr : BitVec 64} (hpm : pm ∈ ⟨0xfff, false⟩ :: created)
    (h : (vmmUnmapPage m pm vaddr).2 = m') :
    Answered src false 0xfff ⟨m, created⟩ (.unmapPage pm vaddr) ⟨m', created⟩ :=
  h ▸ .unmapPage hpm

lemma answered_updateFlags {src : PageSource Bump bootVma} {m m' : Machine Bump} {created : List Pagemap}
    {pm : Pagemap} {vaddr flags : BitVec 64} (hpm : pm ∈ ⟨0xfff, false⟩ :: created)
    (h : (vmmUpdateFlags m pm vaddr flags).2 = m') :
    Answered src false 0xfff ⟨m, created⟩ (.updateFlags pm vaddr flags) ⟨m', created⟩ :=
  h ▸ .updateFlags hpm

/-- The entry of a large page in frame `p` after an update with the flags `PTE_PRESENT`. -/
lemma largeToTable {p : ℕ} (hp : p * pageSize < 2 ^ 63) {e : BitVec 64}
    (he : e = ((BitVec.ofNat 64 (p * pageSize) ||| 0x81) &&& ~~~pteFlagMask) ||| 0x1) :
    frameOf e = p ∧ Present e ∧ ¬ Large e := by
  have h1 : FlagsOnly 0x1 ∧ FlagsOnly 0x81 := by
    unfold FlagsOnly
    decide
  have hm : (~~~pteFlagMask).getLsbD 7 = false := by decide
  have hbit : (0x1 : BitVec 64).getLsbD 7 = false := by decide
  subst he
  refine ⟨?_, present_and_not_mask_or.mpr (by decide), ?_⟩
  · rw [frameOf_or h1.1, frameOf_and_not_mask, frameOf_or h1.2, frameOf_ofNat hp]
  · rw [large_iff, BitVec.getLsbD_or, BitVec.getLsbD_and, hm, hbit, Bool.and_false]
    decide

/-- The frames of a booted system that the kernel page needs. -/
lemma Booted.frames {m1 : Machine Bump} {s : System Bump} {p t1 t2 : ℕ} {e1 : BitVec 64}
    (hb : Booted m1 s p t1 t2 e1) : 0xfff ≠ p ∧ t1 ≠ p ∧ t2 ≠ p ∧ t1 ≠ 0xfff ∧ t2 ≠ 0xfff := by
  have hnodup := hb.distinct
  simp only [List.nodup_cons, List.mem_cons, List.not_mem_nil, or_false, not_or] at hnodup
  obtain ⟨⟨hkp, hk1, hk2⟩, ⟨h1, h2⟩, -⟩ := hnodup
  exact ⟨hkp, fun h => h1 h.symm, fun h => h2 h.symm, fun h => hk1 h.symm, fun h => hk2 h.symm⟩

/-- Flags without `PTE_SIZE` turn a large page into a table of the last level, here the top level
itself. -/
lemma updateFlags_breaks : ∃ m1 s p, fillKernelHalf bootSource.alloc 0xfff bootMachine = some m1 ∧
    Run (Answered bootSource false 0xfff) ⟨m1, []⟩
      [.mapPage ⟨0xfff, false⟩ kernelAddr 0x200000 0x83, .newPagemap,
        .mapPage ⟨p, false⟩ 0x400000 (BitVec.ofNat 64 (p * pageSize)) 0x81,
        .updateFlags ⟨p, false⟩ 0x400000 0x1, .unmapPage ⟨p, false⟩ 0x500000] s ∧
    ⟨p, false⟩ ∈ s.created ∧ vmmGetPageMapping s.machine ⟨p, false⟩ kernelAddr = noMapping ∧
    vmmGetPageMapping s.machine ⟨0xfff, false⟩ kernelAddr = kernelPage := by
  obtain ⟨m1, s, p, t1, t2, e1, hb⟩ := exists_booted
  have hv : 2 ^ 63 ≤ bootVma := by norm_num [bootVma]
  have hflags : FlagsOnly 0x81 ∧ Present 0x81 ∧ Large 0x81 := by
    unfold FlagsOnly
    decide
  have hmem : (⟨p, false⟩ : Pagemap) ∈ ⟨0xfff, false⟩ :: s.created := by simp [hb.created]
  have hsame : upperIndices false 0x500000 = upperIndices false 0x400000 ∧
      pml2Index 0x500000 = pml2Index 0x400000 ∧ pml1Index 0x500000 = 256 := by decide
  obtain ⟨b, m4, hmap, -⟩ := (bump_serves bootVma).mapPage (show 4 + 4 ≤ _ from hb.left) ⟨p, false⟩ 0x400000
    (BitVec.ofNat 64 (p * pageSize)) 0x81
  obtain ⟨mb, t, hput⟩ := vmmMapPage_largePlaced hv hb.zero hb.taken.2.1 (hb.empty _ (by decide)).1 hflags.1
    hflags.2.1 hflags.2.2 hmap
  obtain ⟨e, he⟩ : ∃ e, e = ((BitVec.ofNat 64 (p * pageSize) ||| 0x81) &&& ~~~pteFlagMask) ||| 0x1 := ⟨_, rfl⟩
  obtain ⟨hframe, hpres, hsmall⟩ := largeToTable hb.low he
  have hm5 : (vmmUpdateFlags m4 ⟨p, false⟩ 0x400000 0x1).2 = mb.setEntry t (pml2Index 0x400000) e := by
    rw [hput.eq, vmmUpdateFlags_large (hput.walk _) (large_or_right hflags.2.2), he]
  have hentry : (mb.setEntry t (pml2Index 0x400000) e).entry t (pml2Index 0x500000) = e := by
    rw [hsame.2.1]
    simp
  have hm6 : (vmmUnmapPage (mb.setEntry t (pml2Index 0x400000) e) ⟨p, false⟩ 0x500000).2 =
      (mb.setEntry t (pml2Index 0x400000) e).setEntry p 256 0 := by
    have hw := hput.walk e
    rw [← hsame.1] at hw
    rw [vmmUnmapPage_small hw (by rwa [hentry]) (by rwa [hentry]), hentry, hframe, hsame.2.2]
  have hkeep : ∀ g, Taken bootSource s.machine.pmm g → g ≠ p → ∀ j,
      ((mb.setEntry t (pml2Index 0x400000) e).setEntry p 256 0).entry g j = s.machine.entry g j := by
    intro g hg hgp j
    have hgt : g ≠ t := fun h => hput.fresh (h ▸ hg)
    rw [entry_setEntry, if_neg fun h => hgp h.1, entry_setEntry, if_neg fun h => hgt h.1,
      hput.other g hg hgp]
  obtain ⟨hkp, h1p, h2p, -, -⟩ := hb.frames
  refine ⟨m1, ⟨_, s.created⟩, p, hb.fill, hb.runs.append (.cons
    (.mapPage hmem (fun h => absurd hflags.2.2 h) hmap) (.cons (answered_updateFlags hmem hm5)
      (.single (answered_unmapPage hmem hm6)))), by simp [hb.created], ?_, ?_⟩
  · apply vmmGetPageMapping_none
    rw [upperIndices_cons, walk_cons, show topIndex false kernelAddr = 256 by decide, next_absent,
      Option.bind_none]
    rw [entry_setEntry, if_pos ⟨rfl, rfl⟩]
    decide
  · apply hb.get
    · rw [hkeep _ hb.taken.1 hkp, hb.kernel]
    · exact hkeep _ hb.taken.2.2.1 h1p _
    · exact hkeep _ hb.taken.2.2.2 h2p _

/-- Any link made with the frame number `0xfff` among the flags leads to the frame `0xfff`. -/
lemma frameOf_badLink {f : ℕ} (h : f * pageSize + pageSize + bootVma ≤ 2 ^ 64) :
    frameOf (link f 0xfff001) = 0xfff ∧ Present (link f 0xfff001) := by
  refine ⟨?_, present_link.mpr (by decide)⟩
  have hf : f < 2 ^ 12 := by
    simp only [bootVma, pageSize] at h
    omega
  have hflags : (0xfff001 &&& maskedFlags) ||| pteWritable = 0xfff003#64 := by decide
  have hnat : (link f 0xfff001).toNat = f * pageSize ||| 0xfff003 := by
    rw [link, hflags, BitVec.toNat_or, BitVec.toNat_ofNat, BitVec.toNat_ofNat, Nat.mod_eq_of_lt,
      Nat.mod_eq_of_lt (by norm_num)]
    simp only [pageSize]
    omega
  have hdiv : (f * pageSize ||| 0xfff003) / pageSize = f ||| 0xfff := by
    have hpage : pageSize = 2 ^ 12 := rfl
    rw [hpage, ← Nat.shiftRight_eq_div_pow, Nat.shiftRight_or_distrib, Nat.shiftRight_eq_div_pow,
      Nat.mul_div_cancel _ (by norm_num), show 0xfff003 >>> 12 = 0xfff from rfl]
  have hor : f ||| 0xfff = 0xfff := by
    have h1 : 0xfff ≤ f ||| 0xfff := Nat.right_le_or
    have h2 : f ||| 0xfff < 2 ^ 12 := Nat.or_lt_two_pow hf (by norm_num)
    omega
  rw [frameOf_eq, hnat, hdiv, hor]
  norm_num

/-- Flags with address bits make `vmm_map_page` take the kernel's top level for a table of the
pagemap. -/
lemma mapPage_breaks : ∃ m1 s p, fillKernelHalf bootSource.alloc 0xfff bootMachine = some m1 ∧
    Run (Answered bootSource false 0xfff) ⟨m1, []⟩
      [.mapPage ⟨0xfff, false⟩ kernelAddr 0x200000 0x83, .newPagemap,
        .mapPage ⟨p, false⟩ 0x100000 0 0xfff001] s ∧
    ⟨p, false⟩ ∈ s.created ∧ vmmGetPageMapping s.machine ⟨p, false⟩ kernelAddr = kernelPage ∧
    vmmGetPageMapping s.machine ⟨0xfff, false⟩ kernelAddr = noMapping := by
  obtain ⟨m1, s, p, t1, t2, e1, hb⟩ := exists_booted
  have hv : 2 ^ 63 ≤ bootVma := by norm_num [bootVma]
  have hmem : (⟨p, false⟩ : Pagemap) ∈ ⟨0xfff, false⟩ :: s.created := by simp [hb.created]
  obtain ⟨hkp, h1p, h2p, h1k, h2k⟩ := hb.frames
  obtain ⟨b, m4, hmap, -⟩ := (bump_serves bootVma).mapPage (show 4 + 4 ≤ _ from hb.left) ⟨p, false⟩ 0x100000
    0 0xfff001
  have hi : pml4Index 0x100000 = 0 ∧ pml3Index 0x100000 = 0 ∧ pml2Index 0x100000 = 0 ∧
      pml1Index 0x100000 = 256 := by decide
  obtain ⟨u1, ma, u2, mb, he1, he2, ⟨hno, -⟩ | ⟨-, u3, mc, he3, hm4⟩⟩ := vmmMapPage_levels hv hb.zero hmap
  · exact absurd hno (by decide)
  rw [hi.1] at he1
  rw [hi.2.1] at he2
  rw [hi.2.2.1] at he3
  rw [hi.2.2.2] at hm4
  obtain ⟨f, rfl, hl1⟩ := he1.linked (hb.empty 0 (by decide)).1
  rw [(frameOf_badLink hl1.mapped).1] at he2
  have hfresh1 : ∀ g, Taken bootSource s.machine.pmm g → g ≠ f := fun g hg h => hl1.fresh (h ▸ hg)
  have habs : ma.entry 0xfff 0 = 0 := by
    rw [hl1.entry, if_neg fun h => hkp h.1, if_neg (hfresh1 _ hb.taken.1), (hb.empty 0 (by decide)).2]
  obtain ⟨f', rfl, hl2⟩ := he2.linked habs
  obtain ⟨hframe, hpres⟩ := frameOf_badLink hl2.mapped
  rw [hframe] at he3
  have hself : mb.entry 0xfff 0 = link f' 0xfff001 := by rw [hl2.entry, if_pos ⟨rfl, rfl⟩]
  obtain ⟨rfl, rfl⟩ := he3.followed (by rwa [hself])
  rw [hself, hframe] at hm4
  have hfresh2 : ∀ g, Taken bootSource s.machine.pmm g → g ≠ f' := fun g hg h =>
    hl2.fresh (h ▸ (hl1.taken g).mpr (Or.inl hg))
  have hkeep : ∀ g, Taken bootSource s.machine.pmm g → ∀ j, ¬ (g = p ∧ j = 0) →
      ¬ (g = 0xfff ∧ (j = 0 ∨ j = 256)) → m4.entry g j = s.machine.entry g j := by
    intro g hg j h1 h2
    rw [hm4, entry_setEntry, if_neg fun h => h2 ⟨h.1, Or.inr h.2⟩, hl2.entry,
      if_neg fun h => h2 ⟨h.1, Or.inl h.2⟩, if_neg (hfresh2 g hg), hl1.entry, if_neg h1, if_neg (hfresh1 g hg)]
  have hcov : ¬ InLargePage s.machine ⟨p, false⟩ 0x100000 := by
    rintro ⟨t, hw, -⟩
    have habs : ¬ Present (s.machine.entry p (topIndex false 0x100000)) := by
      rw [show topIndex false 0x100000 = 0 by decide, (hb.empty 0 (by decide)).1]
      decide
    rw [upperIndices_cons, walk_cons, next_absent habs, Option.bind_none] at hw
    simp at hw
  refine ⟨m1, ⟨m4, s.created⟩, p, hb.fill, hb.runs.append (.single (.mapPage hmem (fun _ => hcov) hmap)),
    by simp [hb.created], ?_, ?_⟩
  · apply hb.get
    · rw [hkeep _ hb.taken.2.1 _ (by simp) fun h => hkp h.1.symm, hb.copy]
    · exact hkeep _ hb.taken.2.2.1 _ (fun h => h1p h.1) fun h => h1k h.1
    · exact hkeep _ hb.taken.2.2.2 _ (fun h => h2p h.1) fun h => h2k h.1
  · have htop : m4.entry 0xfff 256 = 0xfff001 := by
      rw [hm4, entry_setEntry, if_pos ⟨rfl, rfl⟩]
      rfl
    have hnext : m4.next 0xfff (pml4Index kernelAddr) = some 0xfff := by
      rw [show pml4Index kernelAddr = 256 by decide, next_present (by rw [htop]; decide), htop]
      decide
    have hone : m4.entry 0xfff (pml3Index kernelAddr) = 0 := by
      rw [show pml3Index kernelAddr = 1 by decide, hkeep _ hb.taken.1 _ (by simp) (by simp),
        (hb.empty 1 (by decide)).2]
    apply vmmGetPageMapping_none
    rw [walk_upper hnext, next_absent]
    rw [hone]
    decide

/-- Neither restriction can be dropped. -/
theorem kernelHalf_not_shared :
    (∃ m1 s p, fillKernelHalf bootSource.alloc 0xfff bootMachine = some m1 ∧
      Run (Answered bootSource false 0xfff) ⟨m1, []⟩
        [.mapPage ⟨0xfff, false⟩ kernelAddr 0x200000 0x83, .newPagemap,
          .mapPage ⟨p, false⟩ 0x400000 (BitVec.ofNat 64 (p * pageSize)) 0x81,
          .updateFlags ⟨p, false⟩ 0x400000 0x1, .unmapPage ⟨p, false⟩ 0x500000] s ∧
      ⟨p, false⟩ ∈ s.created ∧ 256 ≤ (topIndex false kernelAddr).val ∧
      vmmGetPageMapping s.machine ⟨p, false⟩ kernelAddr ≠
        vmmGetPageMapping s.machine ⟨0xfff, false⟩ kernelAddr) ∧
    ∃ m1 s p, fillKernelHalf bootSource.alloc 0xfff bootMachine = some m1 ∧
      Run (Answered bootSource false 0xfff) ⟨m1, []⟩
        [.mapPage ⟨0xfff, false⟩ kernelAddr 0x200000 0x83, .newPagemap,
          .mapPage ⟨p, false⟩ 0x100000 0 0xfff001] s ∧
      ⟨p, false⟩ ∈ s.created ∧ 256 ≤ (topIndex false kernelAddr).val ∧
      vmmGetPageMapping s.machine ⟨p, false⟩ kernelAddr ≠
        vmmGetPageMapping s.machine ⟨0xfff, false⟩ kernelAddr := by
  constructor
  · obtain ⟨m1, s, p, hfill, hrun, hmem, hp, hk⟩ := updateFlags_breaks
    refine ⟨m1, s, p, hfill, hrun, hmem, by decide, ?_⟩
    rw [hp, hk]
    decide
  · obtain ⟨m1, s, p, hfill, hrun, hmem, hp, hk⟩ := mapPage_breaks
    refine ⟨m1, s, p, hfill, hrun, hmem, by decide, ?_⟩
    rw [hp, hk]
    decide

end PiggyOs.Vmm
