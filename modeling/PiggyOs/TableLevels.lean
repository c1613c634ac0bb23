import PiggyOs.AddressSpace

/-! All pagemaps share the tables of the kernel half, so the tables of the machine are no trees.
What every call keeps is that each table has one level: the top levels have level 0, and a link
leads from a level to the next one. -/
namespace PiggyOs.Vmm
open ByteMemory Walk

/-- A typing of frames: `level` of a table, and the tables and pages `own` of a child that
`vmm_fork_pagemap` is building. -/
structure Typing where
  level : ℕ → Option ℕ
  own : Set ℕ

/-- Where an entry of a table of level `ℓ` may lead. Entries that map large pages are not followed. -/
def Typing.Leads (g : Typing) (n ℓ : ℕ) (e : BitVec 64) : Prop :=
  Present e → (ℓ + 1 = n → ¬ Large e) → g.level (frameOf e) = some (ℓ + 1)

/-- Where an entry of a table of the child may lead. -/
def Typing.LeadsOwn (g : Typing) (ℓ : ℕ) (e : BitVec 64) : Prop :=
  Present e → g.level (frameOf e) = some (ℓ + 1) ∧ frameOf e ∈ g.own

structure Typing.Le (g g' : Typing) : Prop where
  level : ∀ f ℓ, g.level f = some ℓ → g'.level f = some ℓ
  own : g.own ⊆ g'.own

lemma Typing.Le.refl (g : Typing) : g.Le g := ⟨fun _ _ h => h, Set.Subset.rfl⟩

lemma Typing.Le.trans {g g' g'' : Typing} (h : g.Le g') (h' : g'.Le g'') : g.Le g'' :=
  ⟨fun f ℓ hf => h'.level f ℓ (h.level f ℓ hf), h.own.trans h'.own⟩

lemma Typing.Leads.mono {g g' : Typing} {n ℓ : ℕ} {e : BitVec 64} (h : g.Leads n ℓ e) (hle : g.Le g') :
    g'.Leads n ℓ e := fun hp hl => hle.level _ _ (h hp hl)

lemma Typing.LeadsOwn.mono {g g' : Typing} {ℓ : ℕ} {e : BitVec 64} (h : g.LeadsOwn ℓ e) (hle : g.Le g') :
    g'.LeadsOwn ℓ e := fun hp => ⟨hle.level _ _ (h hp).1, hle.own (h hp).2⟩

lemma leads_zero (g : Typing) (n ℓ : ℕ) : g.Leads n ℓ 0 := fun hp => absurd hp (by decide)

lemma leadsOwn_zero (g : Typing) (ℓ : ℕ) : g.LeadsOwn ℓ 0 := fun hp => absurd hp (by decide)

section Typed
variable {σ : Type} {highVma : ℕ} {src : PageSource σ highVma} {n kernelTop : ℕ} {g g' : Typing}
  {m m' : Machine σ} {t j : ℕ} {i : Fin 512} {flags : BitVec 64}

/-- The tables that map pages have level `n`. The entries 256 to 511 of every top level are those
of `kernelTop`. -/
structure Typed (src : PageSource σ highVma) (n kernelTop : ℕ) (g : Typing) (m : Machine σ) : Prop where
  zero : Taken src m.pmm 0
  kernelLevel : g.level kernelTop = some 0
  taken : ∀ f ℓ, g.level f = some ℓ → Taken src m.pmm f
  kernel : ∀ f, g.level f = some 0 → ∀ i : Fin 512, 256 ≤ i.val →
    m.entry f i = m.entry kernelTop i ∧ Present (m.entry f i)
  leads : ∀ f ℓ, g.level f = some ℓ → ℓ < n → ∀ i, g.Leads n ℓ (m.entry f i)
  ours : ∀ f ∈ g.own, ∀ ℓ, g.level f = some ℓ → ℓ < n → ∀ i : Fin 512, (ℓ = 0 → i.val < 256) →
    g.LeadsOwn ℓ (m.entry f i)

/-- What a change has to respect: new tables are empty and not top levels, and entries of old
tables stay or lead where they may. -/
theorem Typed.change (ty : Typed src n kernelTop g m) (hle : g.Le g')
    (htaken : ∀ f, Taken src m.pmm f → Taken src m'.pmm f)
    (hnew : ∀ f ℓ, g'.level f = some ℓ → g.level f = some ℓ ∨
      (Taken src m'.pmm f ∧ ℓ ≠ 0 ∧ (ℓ < n → ∀ i, m'.entry f i = 0)))
    (hown : ∀ f ∈ g'.own, f ∈ g.own ∨ g.level f = none)
    (hold : ∀ f ℓ, g.level f = some ℓ → ∀ i : Fin 512, m'.entry f i = m.entry f i ∨
      ((ℓ = 0 → i.val < 256) ∧ (ℓ < n → g'.Leads n ℓ (m'.entry f i)) ∧
        (f ∈ g.own → ℓ < n → g'.LeadsOwn ℓ (m'.entry f i)))) :
    Typed src n kernelTop g' m' := by
  have hkernel : ∀ f, g.level f = some 0 → ∀ i : Fin 512, 256 ≤ i.val → m'.entry f i = m.entry f i := by
    intro f hf i hi
    rcases hold f 0 hf i with h | ⟨h, -⟩
    · exact h
    · exact absurd (h rfl) (Nat.not_lt.mpr hi)
  have htop : ∀ f, g'.level f = some 0 → g.level f = some 0 := by
    intro f hf
    rcases hnew f 0 hf with h | ⟨-, h, -⟩
    · exact h
    · exact absurd rfl h
  refine ⟨htaken 0 ty.zero, hle.level _ _ ty.kernelLevel, ?_, ?_, ?_, ?_⟩
  · intro f ℓ hf
    rcases hnew f ℓ hf with h | ⟨h, -⟩
    · exact htaken f (ty.taken f ℓ h)
    · exact h
  · intro f hf i hi
    rw [hkernel f (htop f hf) i hi, hkernel kernelTop ty.kernelLevel i hi]
    exact ty.kernel f (htop f hf) i hi
  · intro f ℓ hf hℓ i
    rcases hnew f ℓ hf with h | ⟨-, -, h⟩
    · rcases hold f ℓ h i with he | ⟨-, he, -⟩
      · rw [he]
        exact (ty.leads f ℓ h hℓ i).mono hle
      · exact he hℓ
    · rw [h hℓ]
      exact leads_zero g' n ℓ
  · intro f hfown ℓ hf hℓ i hi
    rcases hnew f ℓ hf with h | ⟨-, -, h⟩
    · have hfg : f ∈ g.own := by
        rcases hown f hfown with hin | hnone
        · exact hin
        · rw [h] at hnone
          exact absurd hnone (Option.some_ne_none ℓ)
      rcases hold f ℓ h i with he | ⟨-, -, he⟩
      · rw [he]
        exact (ty.ours f hfg ℓ h hℓ i hi).mono hle
      · exact he hfg hℓ
    · rw [h hℓ]
      exact leadsOwn_zero g' ℓ

/-- Writing one entry of a table. -/
lemma Typed.setEntry {e : BitVec 64} (ty : Typed src n kernelTop g m) (ht : g.level t = some j)
    (hhalf : j = 0 → i.val < 256) (he : j < n → g.Leads n j e)
    (ho : t ∈ g.own → j < n → g.LeadsOwn j e) : Typed src n kernelTop g (m.setEntry t i e) := by
  refine ty.change (.refl g) (fun _ h => h) (fun f ℓ hf => Or.inl hf) (fun f hf => Or.inl hf) ?_
  intro f ℓ hf k
  rw [entry_setEntry]
  by_cases hk : f = t ∧ k = i
  · obtain ⟨rfl, rfl⟩ := hk
    obtain rfl : j = ℓ := Option.some.inj (ht.symm.trans hf)
    rw [if_pos ⟨rfl, rfl⟩]
    exact Or.inr ⟨hhalf, he, ho⟩
  · exact Or.inl (if_neg hk)

/-- The typing with a new frame in it, which belongs to the child if `b` holds. -/
def Typing.add (g : Typing) (f ℓ : ℕ) (b : Prop) : Typing where
  level := Function.update g.level f (some ℓ)
  own := {x | x ∈ g.own ∨ (x = f ∧ b)}

lemma Typing.add_self (g : Typing) (f ℓ : ℕ) (b : Prop) : (g.add f ℓ b).level f = some ℓ :=
  Function.update_self ..

lemma Typing.add_other {f f' ℓ : ℕ} {b : Prop} (h : f' ≠ f) : (g.add f ℓ b).level f' = g.level f' :=
  Function.update_of_ne h ..

lemma Typing.le_add {f ℓ : ℕ} {b : Prop} (h : g.level f = none) : g.Le (g.add f ℓ b) := by
  refine ⟨fun f' ℓ' hf' => ?_, fun x hx => Or.inl hx⟩
  have hne : f' ≠ f := by
    rintro rfl
    simp [h] at hf'
  rw [Typing.add_other hne, hf']

lemma Typing.add_cases {f ℓ f' ℓ' : ℕ} {b : Prop} (h : (g.add f ℓ b).level f' = some ℓ') :
    g.level f' = some ℓ' ∨ (f' = f ∧ ℓ' = ℓ) := by
  by_cases hf : f' = f
  · subst hf
    rw [Typing.add_self] at h
    exact Or.inr ⟨rfl, (Option.some.inj h).symm⟩
  · rw [Typing.add_other hf] at h
    exact Or.inl h

lemma Typed.untyped (ty : Typed src n kernelTop g m) {f : ℕ} (hf : ¬ Taken src m.pmm f) :
    g.level f = none := by
  cases h : g.level f with
  | none => rfl
  | some ℓ => exact absurd (ty.taken f ℓ h) hf

/-- A new frame for a page, with any bytes in it. -/
lemma Typed.page {f : ℕ} (hn : n ≠ 0) (ty : Typed src n kernelTop g m) (hfresh : ¬ Taken src m.pmm f)
    (htaken : ∀ h, Taken src m'.pmm h ↔ Taken src m.pmm h ∨ h = f)
    (hbytes : ∀ b, b / pageSize ≠ f → m'.mem b = m.mem b) :
    g.Le (g.add f n True) ∧ Typed src n kernelTop (g.add f n True) m' := by
  have hle := Typing.le_add (ℓ := n) (b := True) (ty.untyped hfresh)
  refine ⟨hle, ty.change hle (fun h hh => (htaken h).mpr (Or.inl hh)) ?_ ?_ ?_⟩
  · intro f' ℓ hf'
    rcases Typing.add_cases hf' with h | ⟨rfl, rfl⟩
    · exact Or.inl h
    · exact Or.inr ⟨(htaken f').mpr (Or.inr rfl), hn, fun h => absurd h (Nat.lt_irrefl _)⟩
  · rintro f' (h | ⟨rfl, -⟩)
    · exact Or.inl h
    · exact Or.inr (ty.untyped hfresh)
  · intro f' ℓ hf' k
    refine Or.inl (entry_congr (fun b hb => hbytes b ?_) k)
    rintro rfl
    exact hfresh (hb ▸ ty.taken f' ℓ hf')

/-- A new table behind an absent entry. -/
lemma Typed.linked {f : ℕ} (ty : Typed src n kernelTop g m) (ht : g.level t = some j)
    (hhalf : j = 0 → i.val < 256) (hflags : FlagsOnly flags) (hl : Linked src m m' t i f (link f flags)) :
    g.Le (g.add f (j + 1) (t ∈ g.own)) ∧ Typed src n kernelTop (g.add f (j + 1) (t ∈ g.own)) m' := by
  have hle := Typing.le_add (ℓ := j + 1) (b := t ∈ g.own) (ty.untyped hl.fresh)
  have hself := g.add_self f (j + 1) (t ∈ g.own)
  have htf : t ≠ f := fun h => hl.fresh (h ▸ ty.taken t j ht)
  refine ⟨hle, ty.change hle (fun h hh => (hl.taken h).mpr (Or.inl hh)) ?_ ?_ ?_⟩
  · intro f' ℓ hf'
    rcases Typing.add_cases hf' with h | ⟨rfl, rfl⟩
    · exact Or.inl h
    · refine Or.inr ⟨(hl.taken f').mpr (Or.inr rfl), Nat.succ_ne_zero j, fun _ k => ?_⟩
      rw [hl.entry, if_neg fun h => htf h.1.symm, if_pos rfl]
  · rintro f' (h | ⟨rfl, -⟩)
    · exact Or.inl h
    · exact Or.inr (ty.untyped hl.fresh)
  · intro f' ℓ hf' k
    rw [hl.entry]
    by_cases hk : f' = t ∧ k = i
    · obtain ⟨rfl, rfl⟩ := hk
      obtain rfl : j = ℓ := Option.some.inj (ht.symm.trans hf')
      rw [if_pos ⟨rfl, rfl⟩]
      refine Or.inr ⟨hhalf, fun _ _ _ => ?_, fun ho _ _ => ?_⟩
      · rwa [frameOf_link hl.low hflags]
      · rw [frameOf_link hl.low hflags]
        exact ⟨hself, Or.inr ⟨rfl, ho⟩⟩
    · rw [if_neg hk, if_neg fun h : f' = f => hl.fresh (h ▸ ty.taken f' ℓ hf')]
      exact Or.inl rfl

/-- `u` is the table behind entry `i` of `t`, or a new one without entries. -/
def Found (m m' : Machine σ) (t : ℕ) (is : List (Fin 512)) (u : ℕ) : Prop :=
  (m' = m ∧ walk m.next t is = some u) ∨ ∀ k, m'.entry u k = 0

/-- What one level of `vmm_map_page` keeps and finds. -/
lemma Typed.ensureTable {r : Option ℕ} (hv : 2 ^ 63 ≤ highVma) (ty : Typed src n kernelTop g m)
    (ht : g.level t = some j)
    (hnext : Present (m.entry t i) → g.level (frameOf (m.entry t i)) = some (j + 1))
    (hown : t ∈ g.own → j < n ∧ (j = 0 → i.val < 256)) (hflags : FlagsOnly flags)
    (h : Vmm.ensureTable src.alloc m flags t i = some (r, m')) :
    ∃ u g', r = some u ∧ Typed src n kernelTop g' m' ∧ g.Le g' ∧ g'.level u = some (j + 1) ∧
      (t ∈ g.own → u ∈ g'.own) ∧ (g.own = ∅ → g'.own = ∅) ∧ Found m m' t [i] u := by
  rcases ensureTable_cases hv h with ⟨hpres, rfl, rfl⟩ | ⟨-, -, hl⟩ | ⟨habs, f, -, rfl, hl⟩
  · refine ⟨_, g, rfl, ty, .refl g, hnext hpres, fun ho => ?_, fun h => h, Or.inl ⟨rfl, ?_⟩⟩
    · exact (ty.ours t ho j ht (hown ho).1 i (hown ho).2 hpres).2
    · rw [walk_cons, next_present hpres, Option.bind_some, walk_nil]
  · exact absurd ty.zero hl.fresh
  · have hhalf : j = 0 → i.val < 256 := by
      rintro rfl
      by_contra hi
      exact habs (ty.kernel t ht i (Nat.not_lt.mp hi)).2
    obtain ⟨hle, ty'⟩ := ty.linked ht hhalf hflags hl
    have htf : t ≠ f := fun h => hl.fresh (h ▸ ty.taken t j ht)
    rw [frameOf_link hl.low hflags]
    refine ⟨f, _, rfl, ty', hle, g.add_self .., fun ho => Or.inr ⟨rfl, ho⟩, fun hnone => ?_,
      Or.inr fun k => ?_⟩
    · simp [Typing.add, hnone]
    · rw [hl.entry, if_neg fun h => htf h.1.symm, if_pos rfl]

/-- The tables that lead to the table called `pml2`. -/
lemma Typed.ensureTables {r : Option ℕ} {is : List (Fin 512)} (hv : 2 ^ 63 ≤ highVma)
    (ty : Typed src n kernelTop g m) (ht : g.level t = some j) (hlen : j + is.length < n)
    (hown : t ∈ g.own → j = 0 → ∀ i ∈ is.head?, i.val < 256) (hflags : FlagsOnly flags)
    (h : Vmm.ensureTables src.alloc flags m t is = some (r, m')) :
    ∃ u g', r = some u ∧ Typed src n kernelTop g' m' ∧ g.Le g' ∧ g'.level u = some (j + is.length) ∧
      (t ∈ g.own → u ∈ g'.own) ∧ (g.own = ∅ → g'.own = ∅) ∧ Found m m' t is u := by
  induction is generalizing m t j g with
  | nil =>
    simp only [Vmm.ensureTables, Option.some.injEq, Prod.mk.injEq] at h
    obtain ⟨rfl, rfl⟩ := h
    exact ⟨t, g, rfl, ty, .refl g, ht, fun ho => ho, fun h => h, Or.inl ⟨rfl, walk_nil⟩⟩
  | cons i is ih =>
    rw [List.length_cons] at hlen
    rw [Vmm.ensureTables] at h
    cases he : Vmm.ensureTable src.alloc m flags t i with
    | none => simp [he] at h
    | some x =>
      obtain ⟨r1, m1⟩ := x
      have hnext : Present (m.entry t i) → g.level (frameOf (m.entry t i)) = some (j + 1) :=
        fun hp => ty.leads t j ht (by omega) i hp fun hn => absurd hn (by omega)
      obtain ⟨u1, g1, rfl, ty1, hle1, hu1, hown1, hnone1, hfound1⟩ := ty.ensureTable hv ht hnext
        (fun ho => ⟨by omega, fun hj => hown ho hj i (by simp)⟩) hflags he
      rw [he] at h
      obtain ⟨u, g2, hr, ty2, hle2, hu, hown2, hnone2, hfound2⟩ := ih ty1 hu1 (by omega)
        (fun _ hj => absurd hj (Nat.succ_ne_zero j)) h
      refine ⟨u, g2, hr, ty2, hle1.trans hle2, ?_, fun ho => hown2 (hown1 ho),
        fun h => hnone2 (hnone1 h), ?_⟩
      · rw [hu, List.length_cons, Nat.add_right_comm, Nat.add_assoc]
      · rcases hfound2 with ⟨rfl, hw2⟩ | hempty
        · rcases hfound1 with ⟨rfl, hw1⟩ | hempty1
          · refine Or.inl ⟨rfl, ?_⟩
            rw [show i :: is = [i] ++ is from rfl, walk_append, hw1, Option.bind_some, hw2]
          · cases is with
            | nil =>
              obtain rfl : u1 = u := by simpa using hw2
              exact Or.inr hempty1
            | cons k is =>
              have habs : ¬ Present (m'.entry u1 k) := by
                rw [hempty1]
                decide
              simp [walk_cons, next_absent habs] at hw2
        · exact Or.inr hempty

/-- Between calls there is no child in the making. -/
lemma Typed.forget (ty : Typed src n kernelTop g m) : Typed src n kernelTop ⟨g.level, ∅⟩ m :=
  ⟨ty.zero, ty.kernelLevel, ty.taken, ty.kernel, ty.leads, fun f hf => absurd hf (Set.notMem_empty f)⟩

/-- A walk goes down one level with each index. -/
lemma Typed.walk_level (ty : Typed src n kernelTop g m) {is : List (Fin 512)} {u : ℕ}
    (ht : g.level t = some j) (hlen : j + is.length < n) (hw : walk m.next t is = some u) :
    g.level u = some (j + is.length) := by
  induction is generalizing t j with
  | nil =>
    obtain rfl : t = u := by simpa using hw
    exact ht
  | cons i is ih =>
    rw [List.length_cons] at hlen
    by_cases hp : Present (m.entry t i)
    · rw [walk_cons, next_present hp, Option.bind_some] at hw
      have hnext := ty.leads t j ht (by omega) i hp fun hn => absurd hn (by omega)
      rw [ih hnext (by omega) hw, List.length_cons, Nat.add_right_comm, Nat.add_assoc]
    · simp [walk_cons, next_absent hp] at hw

end Typed

section Calls
variable {σ : Type} {highVma : ℕ} {src : PageSource σ highVma} {kernelTop : ℕ} {g : Typing}
  {m m' : Machine σ} {pm : Pagemap} {vaddr paddr flags : BitVec 64}

lemma upperIndices_length (five : Bool) (vaddr : BitVec 64) :
    (upperIndices five vaddr).length + 1 = depth five := by
  cases five <;> rfl

lemma upperIndices_cons (five : Bool) (vaddr : BitVec 64) :
    upperIndices five vaddr = topIndex five vaddr :: (upperIndices five vaddr).tail := by
  cases five <;> rfl

lemma upperIndices_head (five : Bool) (vaddr : BitVec 64) :
    ∀ i ∈ (upperIndices five vaddr).head?, i = topIndex five vaddr := by
  rw [upperIndices_cons]
  simp

/-- The address lies in a large page. -/
def InLargePage (m : Machine σ) (pm : Pagemap) (vaddr : BitVec 64) : Prop :=
  ∃ t, walk m.next pm.topLevel (upperIndices pm.hasLevel5 vaddr) = some t ∧
    Present (m.entry t (pml2Index vaddr)) ∧ Large (m.entry t (pml2Index vaddr))

lemma large_or_right {a b : BitVec 64} (h : Large b) : Large (a ||| b) := by
  rw [large_iff] at *
  rw [BitVec.getLsbD_or, h, Bool.or_true]

/-- The pagemap is the child of a fork, mapped in its user half and with pages of its own, or there
is no fork, and no page of 4 KiB is put into a large page. -/
def MayMap (g : Typing) (m : Machine σ) (pm : Pagemap) (vaddr paddr flags : BitVec 64) : Prop :=
  (pm.topLevel ∈ g.own ∧ (topIndex pm.hasLevel5 vaddr).val < 256 ∧
    g.level (frameOf (paddr ||| flags)) = some (depth pm.hasLevel5) ∧ frameOf (paddr ||| flags) ∈ g.own) ∨
  (g.own = ∅ ∧ (¬ Large flags → ¬ InLargePage m pm vaddr))

lemma MayMap.user (hmay : MayMap g m pm vaddr paddr flags) (ho : pm.topLevel ∈ g.own) :
    (topIndex pm.hasLevel5 vaddr).val < 256 := by
  rcases hmay with ⟨-, hu, -⟩ | ⟨hnone, -⟩
  · exact hu
  · rw [hnone] at ho
    exact absurd ho (Set.notMem_empty _)

variable (pm) in
/-- `vmm_map_page` keeps the levels. -/
theorem Typed.vmmMapPage {b : Bool} (hv : 2 ^ 63 ≤ highVma)
    (ty : Typed src (depth pm.hasLevel5) kernelTop g m) (htop : g.level pm.topLevel = some 0)
    (hmay : MayMap g m pm vaddr paddr flags) (hflags : FlagsOnly flags)
    (h : Vmm.vmmMapPage src.alloc m pm vaddr paddr flags = some (b, m')) :
    ∃ g', Typed src (depth pm.hasLevel5) kernelTop g' m' ∧ g.Le g' := by
  have hlen := upperIndices_length pm.hasLevel5 vaddr
  have hpos : (upperIndices pm.hasLevel5 vaddr).length ≠ 0 := by
    cases pm.hasLevel5 <;> simp [upperIndices]
  unfold Vmm.vmmMapPage at h
  cases he : Vmm.ensureTables src.alloc flags m pm.topLevel (upperIndices pm.hasLevel5 vaddr) with
  | none => simp [he] at h
  | some x =>
    obtain ⟨r, m1⟩ := x
    obtain ⟨pml2, g1, rfl, ty1, hle1, hu, hown1, hnone1, hfound⟩ := ty.ensureTables hv htop (by omega)
      (fun ho _ i hi => by rw [upperIndices_head _ _ i hi]; exact hmay.user ho) hflags he
    rw [Nat.zero_add] at hu
    by_cases hL : flags &&& pteSize ≠ 0
    · simp only [he, if_pos hL, Option.some.injEq, Prod.mk.injEq] at h
      obtain ⟨-, rfl⟩ := h
      refine ⟨g1, ty1.setEntry hu (fun h0 => absurd h0 hpos) ?_ ?_, hle1⟩
      · intro _ _ hno
        exact absurd (large_or_right hL) (hno hlen)
      · intro ho _ _
        rcases hmay with ⟨-, -, hlev, hin⟩ | ⟨hnone, -⟩
        · exact ⟨by rw [hle1.level _ _ hlev, hlen], hle1.own hin⟩
        · rw [hnone1 hnone] at ho
          exact absurd ho (Set.notMem_empty _)
    · simp only [he, if_neg hL] at h
      cases he2 : Vmm.ensureTable src.alloc m1 flags pml2 (pml2Index vaddr) with
      | none => simp [he2] at h
      | some y =>
        obtain ⟨r2, m2⟩ := y
        have hnext : Present (m1.entry pml2 (pml2Index vaddr)) →
            g1.level (frameOf (m1.entry pml2 (pml2Index vaddr))) =
              some ((upperIndices pm.hasLevel5 vaddr).length + 1) := by
          intro hp
          rcases hmay with ⟨ho, -⟩ | ⟨-, hno⟩
          · exact (ty1.ours pml2 (hown1 ho) _ hu (by omega) _ (fun h0 => absurd h0 hpos) hp).1
          · rcases hfound with ⟨rfl, hw⟩ | hempty
            · exact ty1.leads pml2 _ hu (by omega) _ hp fun _ hl => hno hL ⟨pml2, hw, hp, hl⟩
            · rw [hempty] at hp
              exact absurd hp (by decide)
        obtain ⟨pml1, g2, rfl, ty2, hle2, hu2, -, -, -⟩ := ty1.ensureTable hv hu hnext
          (fun _ => ⟨by omega, fun h0 => absurd h0 hpos⟩) hflags he2
        simp only [he2, Option.some.injEq, Prod.mk.injEq] at h
        obtain ⟨-, rfl⟩ := h
        refine ⟨g2, ty2.setEntry hu2 (fun h0 => absurd h0 (Nat.succ_ne_zero _)) ?_ ?_, hle1.trans hle2⟩
        · exact fun hlt => absurd hlt (by omega)
        · exact fun _ hlt => absurd hlt (by omega)

variable (pm) in
/-- `vmm_unmap_page` keeps the levels. -/
theorem Typed.vmmUnmapPage (ty : Typed src (depth pm.hasLevel5) kernelTop g m)
    (htop : g.level pm.topLevel = some 0) :
    Typed src (depth pm.hasLevel5) kernelTop g (Vmm.vmmUnmapPage m pm vaddr).2 := by
  have hlen := upperIndices_length pm.hasLevel5 vaddr
  have hpos : (upperIndices pm.hasLevel5 vaddr).length ≠ 0 := by
    cases pm.hasLevel5 <;> simp [upperIndices]
  unfold Vmm.vmmUnmapPage
  cases hw : walk m.next pm.topLevel (upperIndices pm.hasLevel5 vaddr) with
  | none => exact ty
  | some pml2 =>
    have hu := ty.walk_level htop (by omega) hw
    rw [Nat.zero_add] at hu
    simp only
    split_ifs with hl hp
    · exact ty.setEntry hu (fun h0 => absurd h0 hpos) (fun _ => leads_zero g _ _) fun _ _ =>
        leadsOwn_zero g _
    · have hleaf := ty.leads pml2 _ hu (by omega) _ hp fun _ => hl
      exact ty.setEntry hleaf (fun h0 => absurd h0 (Nat.succ_ne_zero _)) (fun _ => leads_zero g _ _)
        fun _ _ => leadsOwn_zero g _
    · exact ty

lemma present_and_not_mask_or {e : BitVec 64} : Present ((e &&& ~~~pteFlagMask) ||| flags) ↔ Present flags := by
  have hm : (~~~pteFlagMask).getLsbD 0 = false := by decide
  rw [present_iff, present_iff, BitVec.getLsbD_or, BitVec.getLsbD_and, hm, Bool.and_false, Bool.false_or]

variable (pm) in
/-- `vmm_update_flags` keeps the levels if a large page stays large or is no longer present. -/
theorem Typed.vmmUpdateFlags (ty : Typed src (depth pm.hasLevel5) kernelTop g m)
    (hnone : g.own = ∅) (htop : g.level pm.topLevel = some 0)
    (hlarge : ∀ t, walk m.next pm.topLevel (upperIndices pm.hasLevel5 vaddr) = some t →
      Large (m.entry t (pml2Index vaddr)) → Large flags ∨ ¬ Present flags) :
    Typed src (depth pm.hasLevel5) kernelTop g (Vmm.vmmUpdateFlags m pm vaddr flags).2 := by
  have hlen := upperIndices_length pm.hasLevel5 vaddr
  have hpos : (upperIndices pm.hasLevel5 vaddr).length ≠ 0 := by
    cases pm.hasLevel5 <;> simp [upperIndices]
  have hown : ∀ f, f ∉ g.own := by simp [hnone]
  unfold Vmm.vmmUpdateFlags
  cases hw : walk m.next pm.topLevel (upperIndices pm.hasLevel5 vaddr) with
  | none => exact ty
  | some pml2 =>
    have hu := ty.walk_level htop (by omega) hw
    rw [Nat.zero_add] at hu
    simp only
    split_ifs with hl hp
    · refine ty.setEntry hu (fun h0 => absurd h0 hpos) (fun _ hpres hno => ?_) fun ho => absurd ho (hown _)
      rcases hlarge pml2 hw hl with hL | hP
      · exact absurd (large_or_right hL) (hno hlen)
      · exact absurd (present_and_not_mask_or.mp hpres) hP
    · have hleaf := ty.leads pml2 _ hu (by omega) _ hp fun _ => hl
      refine ty.setEntry hleaf (fun h0 => absurd h0 (Nat.succ_ne_zero _)) ?_ fun ho => absurd ho (hown _)
      exact fun hlt => absurd hlt (by omega)
    · exact ty

end Calls

end PiggyOs.Vmm
