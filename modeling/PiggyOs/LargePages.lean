import PiggyOs.AddressSpace

/-! Pages of 2 MiB among pages of 4 KiB. The tables down to `pml2` form a tree; an entry of `pml2`
either maps a large page or leads to a table of its own. -/
namespace PiggyOs.Vmm
open ByteMemory Walk Transition

/-- How many links lead from the top level to the tables called `pml2`. -/
def upperDepth (hasLevel5 : Bool) : ℕ := if hasLevel5 then 3 else 2

lemma upperDepth_pos (five : Bool) : 0 < upperDepth five := by cases five <;> decide

lemma upperIndices_upperDepth (five : Bool) (vaddr : BitVec 64) :
    (upperIndices five vaddr).length = upperDepth five := by
  cases five <;> rfl

lemma upperIndices_mem {U : Fin 512 → Prop} (five : Bool) (vaddr : BitVec 64) (h : U (topIndex five vaddr)) :
    upperIndices five vaddr ∈ words U (upperDepth five) := by
  refine ⟨(upperIndices_upperDepth five vaddr).le, ?_⟩
  cases five <;> simpa [upperIndices, topIndex] using h

section Tables
variable {σ : Type} {highVma : ℕ} {src : PageSource σ highVma} {U : Fin 512 → Prop} {m m' m'' : Machine σ}
  {top n t f : ℕ} {i : Fin 512} {π : List (Fin 512)}

/-- The tables that the words lead to. -/
def Table (U : Fin 512 → Prop) (top n : ℕ) (m : Machine σ) (g : ℕ) : Prop :=
  ∃ π ∈ words U n, walk m.next top π = some g

/-- The tables of a pagemap whose tables `pml2` are `n` links down. -/
def IsTable (U : Fin 512 → Prop) (top n : ℕ) (m : Machine σ) (g : ℕ) : Prop :=
  Table U top n m g ∨ ∃ ρ ∈ words U n, ρ.length = n ∧ ∃ j e, entryAt m top ρ j = some e ∧ ¬ Large e ∧ frameOf e = g

/-- Tables stay tables, and only tables are written. -/
structure Extends (U : Fin 512 → Prop) (top n : ℕ) (m m' : Machine σ) : Prop where
  kept : ∀ g, Table U top n m g → Table U top n m' g
  written : ∀ b, m'.mem b ≠ m.mem b → Table U top n m' (b / pageSize)

lemma Extends.refl (U : Fin 512 → Prop) (top n : ℕ) (m : Machine σ) : Extends U top n m m :=
  ⟨fun _ h => h, fun _ h => absurd rfl h⟩

lemma Extends.trans (h : Extends U top n m m') (h' : Extends U top n m' m'') : Extends U top n m m'' := by
  refine ⟨fun g hg => h'.kept g (h.kept g hg), fun b hb => ?_⟩
  by_cases hsame : m''.mem b = m'.mem b
  · rw [hsame] at hb
    exact h'.kept _ (h.written b hb)
  · exact h'.written b hsame

lemma TreeInv.ensureTable_extends {flags : BitVec 64} {r : Option ℕ} (hv : 2 ^ 63 ≤ highVma)
    (inv : TreeInv src U m top n) (h0 : Taken src m.pmm 0) (hπ : walk m.next top π = some t)
    (hπi : π ++ [i] ∈ words U n) (hf : FlagsOnly flags) (hp : Present flags)
    (h : Vmm.ensureTable src.alloc m flags t i = some (r, m')) : Extends U top n m m' := by
  have hW := words_prefixClosed U n
  have hπW := hW π i hπi
  rcases ensureTable_cases hv h with ⟨-, -, rfl⟩ | ⟨-, -, hl⟩ | ⟨habs, f, -, -, hl⟩
  · exact .refl ..
  · exact absurd h0 hl.fresh
  obtain ⟨htf, hnew, hleaf, hsame, hoff, hcases⟩ := inv.grown hπ hπi hf hp hl
  have hself := walk_self hW hoff inv.tree hπ hπW
  refine ⟨?_, fun b hb => ?_⟩
  · rintro g ⟨ρ, hρ, hw⟩
    refine ⟨ρ, hρ, ?_⟩
    rw [walk_of_avoids hoff inv.tree hπ hπW (hW.strict hρ) ?_, hw]
    rintro ⟨τ, rfl⟩
    rw [walk_append, walk_snoc, hπ, Option.bind_some, next_absent habs, Option.bind_none] at hw
    exact absurd hw (Option.some_ne_none g).symm
  · by_cases hbf : b / pageSize = f
    · refine ⟨π ++ [i], hπi, ?_⟩
      rw [walk_snoc, hself, Option.bind_some, hnew, hbf]
    · by_cases hbt : b / pageSize = t
      · exact ⟨π, hπW, by rw [hself, hbt]⟩
      · exact absurd (hl.bytes b hbf hbt) hb

lemma TreeInv.ensureTables_extends {flags : BitVec 64} {r : Option ℕ} {is : List (Fin 512)}
    (hv : 2 ^ 63 ≤ highVma) (inv : TreeInv src U m top n) (h0 : Taken src m.pmm 0)
    (hπ : walk m.next top π = some t) (hπi : π ++ is ∈ words U n) (hf : FlagsOnly flags) (hp : Present flags)
    (h : Vmm.ensureTables src.alloc flags m t is = some (r, m')) : Extends U top n m m' := by
  induction is generalizing m t π with
  | nil =>
    simp only [Vmm.ensureTables, Option.some.injEq, Prod.mk.injEq] at h
    obtain ⟨-, rfl⟩ := h
    exact .refl ..
  | cons i is ih =>
    have hsplit : π ++ i :: is = (π ++ [i]) ++ is := by simp
    rw [hsplit] at hπi
    have hpre : π ++ [i] ∈ words U n := (words_prefixClosed U n).prefix_mem (List.prefix_append _ _) hπi
    rw [Vmm.ensureTables] at h
    cases he : Vmm.ensureTable src.alloc m flags t i with
    | none => simp [he] at h
    | some x =>
      obtain ⟨r1, m1⟩ := x
      obtain ⟨u, rfl, inv1, h01, hw, -, -⟩ := inv.ensureTable hv h0 hπ hpre hf hp he
      rw [he] at h
      exact (inv.ensureTable_extends hv h0 hπ hpre hf hp he).trans (ih inv1 h01 hw hπi h)

lemma TreeInv.setEntry_extends {e : BitVec 64} (inv : TreeInv src U m top n) (hπ : walk m.next top π = some t)
    (hπW : π ∈ words U n) (hn : π.length = n) : Extends U top n m (m.setEntry t i e) := by
  refine ⟨?_, fun b hb => ⟨π, hπW, ?_⟩⟩
  · rintro g ⟨ρ, hρ, hw⟩
    exact ⟨ρ, hρ, (inv.walk_setEntry hπ hπW hn hρ).trans hw⟩
  · rw [inv.walk_setEntry hπ hπW hn hπW, hπ]
    by_contra hne
    exact hb (setEntry_bytes m t i e fun h => hne (congrArg some h).symm)

end Tables

section Slots
variable {σ : Type} {highVma : ℕ} {src : PageSource σ highVma} {U : Fin 512 → Prop} {m m' m'' : Machine σ}
  {top n t f : ℕ} {i : Fin 512} {π : List (Fin 512)}

/-- The entries of `pml2` that map no large page lead to tables of their own. -/
structure SlotInv (src : PageSource σ highVma) (U : Fin 512 → Prop) (m : Machine σ) (top n : ℕ) : Prop where
  zero : Taken src m.pmm 0
  tree : TreeInv src U m top n
  tables : ∀ ρ ∈ words U n, ρ.length = n → ∀ j e, entryAt m top ρ j = some e → ¬ Large e →
    Taken src m.pmm (frameOf e) ∧ NotTable U top n m (frameOf e)
  distinct : ∀ ρ ∈ words U n, ρ.length = n → ∀ j e, entryAt m top ρ j = some e → ¬ Large e →
    ∀ ρ' ∈ words U n, ρ'.length = n → ∀ j' e', entryAt m top ρ' j' = some e' → ¬ Large e' →
    frameOf e = frameOf e' → ρ = ρ' ∧ j = j'

/-- What a call keeps when it changes no entry of `pml2`. -/
lemma SlotInv.spared (inv : SlotInv src U m top n) (tree : TreeInv src U m' top n)
    (hsame : SameLookups U top n m m') (hs : Spares src U top n m m') : SlotInv src U m' top n := by
  refine ⟨hs.taken 0 inv.zero, tree, fun ρ hρ hn j e he hl => ?_, fun ρ hρ hn j e he hl ρ' hρ' hn' j' e' he' hl' => ?_⟩
  · rw [hsame ρ hρ hn] at he
    obtain ⟨ht, hnot⟩ := inv.tables ρ hρ hn j e he hl
    exact ⟨hs.taken _ ht, hs.tables _ ht hnot⟩
  · rw [hsame ρ hρ hn] at he
    rw [hsame ρ' hρ' hn'] at he'
    exact inv.distinct ρ hρ hn j e he hl ρ' hρ' hn' j' e' he' hl'

/-- A large page in an entry of `pml2`. -/
lemma SlotInv.setLarge {e : BitVec 64} (inv : SlotInv src U m top n) (hpos : 0 < n)
    (hπ : walk m.next top π = some t) (hπW : π ∈ words U n) (hn : π.length = n) (hp : Present e) (hl : Large e) :
    SlotInv src U (m.setEntry t i e) top n ∧ ∀ ρ ∈ words U n, ρ.length = n → ∀ j,
      entryAt (m.setEntry t i e) top ρ j = if ρ = π ∧ j = i then some e else entryAt m top ρ j := by
  obtain ⟨tree, hspare, hset⟩ := inv.tree.setEntry (i := i) (e := e) hpos hπ hπW hn
  simp only [if_pos hp] at hset
  have hold : ∀ ρ ∈ words U n, ρ.length = n → ∀ j e', entryAt (m.setEntry t i e) top ρ j = some e' → ¬ Large e' →
      entryAt m top ρ j = some e' := by
    intro ρ hρ hρn j e' he' hl'
    rw [hset ρ hρ hρn] at he'
    split_ifs at he' with hat
    · obtain rfl := Option.some.inj he'
      exact absurd hl hl'
    · exact he'
  refine ⟨⟨inv.zero, tree, fun ρ hρ hρn j e' he' hl' => ?_,
    fun ρ hρ hρn j e1 he1 hl1 ρ' hρ' hρn' j' e2 he2 hl2 => ?_⟩, hset⟩
  · obtain ⟨ht, hnot⟩ := inv.tables ρ hρ hρn j e' (hold ρ hρ hρn j e' he' hl') hl'
    exact ⟨hspare.taken _ ht, hspare.tables _ ht hnot⟩
  · exact inv.distinct ρ hρ hρn j e1 (hold ρ hρ hρn j e1 he1 hl1) hl1 ρ' hρ' hρn' j' e2
      (hold ρ' hρ' hρn' j' e2 he2 hl2) hl2

/-- A new table in an entry of `pml2` that was absent. -/
lemma SlotInv.setTable {flags : BitVec 64} {m1 : Machine σ} (hv : 2 ^ 63 ≤ highVma) (inv : SlotInv src U m top n)
    (hpos : 0 < n) (hπ : walk m.next top π = some t) (hπW : π ∈ words U n) (hn : π.length = n)
    (habs : ¬ Present (m.entry t i)) (hf : FlagsOnly flags) (hp : Present flags) (hlow : f * pageSize < 2 ^ 63)
    (ha : pmmAllocz src.alloc m 1 = some (f * pageSize, m1)) :
    SlotInv src U (m1.setEntry t i (link f flags)) top n ∧ (∀ ρ ∈ words U n, ρ.length = n → ∀ j,
      entryAt (m1.setEntry t i (link f flags)) top ρ j =
        if ρ = π ∧ j = i then some (link f flags) else entryAt m top ρ j) ∧
    walk (m1.setEntry t i (link f flags)).next top π = some t ∧
    ∀ g, IsTable U top n m g → IsTable U top n (m1.setEntry t i (link f flags)) g := by
  have hpl : Present (link f flags) := present_link.mpr hp
  have hll := not_large_link f flags
  obtain ⟨hkeep, hnew, hbytes⟩ := (pmmAllocz_cases hv ha).2
  rw [Nat.mul_div_cancel _ (show 0 < pageSize by decide)] at hnew
  obtain ⟨-, hfresh, hself⟩ := hnew f le_rfl (Nat.lt_succ_self f)
  obtain ⟨tree1, hlook1, hspare1, hwalk1⟩ := inv.tree.congr hkeep hbytes
  have inv1 := inv.spared tree1 hlook1 hspare1
  have hπ1 : walk m1.next top π = some t := (hwalk1 π hπW).trans hπ
  obtain ⟨tree, hspare, hset⟩ := tree1.setEntry (i := i) (e := link f flags) hpos hπ1 hπW hn
  simp only [if_pos hpl] at hset
  have hset' : ∀ ρ ∈ words U n, ρ.length = n → ∀ j, entryAt (m1.setEntry t i (link f flags)) top ρ j =
      if ρ = π ∧ j = i then some (link f flags) else entryAt m top ρ j := by
    intro ρ hρ hρn j
    rw [hset ρ hρ hρn, hlook1 ρ hρ hρn]
  have hnot : NotTable U top n m1 f := by
    intro ρ hρ hw
    rw [hwalk1 ρ hρ] at hw
    exact hfresh (inv.tree.taken ρ hρ f hw)
  have hother : ∀ ρ ∈ words U n, ρ.length = n → ∀ j e, entryAt m top ρ j = some e → ¬ Large e → frameOf e ≠ f :=
    fun ρ hρ hρn j e he hl h => hfresh (h ▸ (inv.tables ρ hρ hρn j e he hl).1)
  have hnone : entryAt m top π i = none := by
    rw [entryAt, hπ, Option.bind_some, if_neg habs]
  refine ⟨⟨hspare.taken 0 inv1.zero, tree, fun ρ hρ hρn j e he hl => ?_,
    fun ρ hρ hρn j e he hl ρ' hρ' hρn' j' e' he' hl' hframe => ?_⟩, hset', ?_, ?_⟩
  · rw [hset' ρ hρ hρn] at he
    split_ifs at he with hat
    · obtain rfl := Option.some.inj he
      rw [frameOf_link hlow hf]
      exact ⟨hspare.taken f hself, hspare.tables f hself hnot⟩
    · rw [← hlook1 ρ hρ hρn] at he
      obtain ⟨ht, hnt⟩ := inv1.tables ρ hρ hρn j e he hl
      exact ⟨hspare.taken _ ht, hspare.tables _ ht hnt⟩
  · rw [hset' ρ hρ hρn] at he
    rw [hset' ρ' hρ' hρn'] at he'
    split_ifs at he with hat
    · split_ifs at he' with hat'
      · exact ⟨hat.1.trans hat'.1.symm, hat.2.trans hat'.2.symm⟩
      · obtain rfl := Option.some.inj he
        rw [frameOf_link hlow hf] at hframe
        exact absurd hframe.symm (hother ρ' hρ' hρn' j' e' he' hl')
    · split_ifs at he' with hat'
      · obtain rfl := Option.some.inj he'
        rw [frameOf_link hlow hf] at hframe
        exact absurd hframe (hother ρ hρ hρn j e he hl)
      · exact inv.distinct ρ hρ hρn j e he hl ρ' hρ' hρn' j' e' he' hl' hframe
  · rw [tree1.walk_setEntry hπ1 hπW hn hπW, hπ1]
  · rintro g (⟨ρ, hρ, hw⟩ | ⟨ρ, hρ, hρn, j, e, he, hl, hg⟩)
    · exact Or.inl ⟨ρ, hρ, by rw [tree1.walk_setEntry hπ1 hπW hn hρ, hwalk1 ρ hρ, hw]⟩
    · refine Or.inr ⟨ρ, hρ, hρn, j, e, ?_, hl, hg⟩
      rw [hset' ρ hρ hρn, if_neg, he]
      rintro ⟨rfl, rfl⟩
      rw [hnone] at he
      exact absurd he (Option.some_ne_none e).symm

/-- Writing to a table behind an entry of `pml2`. -/
lemma SlotInv.setLeaf {e x : BitVec 64} {k : Fin 512} (inv : SlotInv src U m top n) (hπW : π ∈ words U n)
    (hn : π.length = n) (he : entryAt m top π i = some e) (hl : ¬ Large e) :
    SlotInv src U (m.setEntry (frameOf e) k x) top n ∧ SameLookups U top n m (m.setEntry (frameOf e) k x) ∧
      ∀ ρ ∈ words U n, walk (m.setEntry (frameOf e) k x).next top ρ = walk m.next top ρ := by
  obtain ⟨-, hnot⟩ := inv.tables π hπW hn i e he hl
  have hb : ∀ ρ ∈ words U n, ∀ s, walk m.next top ρ = some s → ∀ b, b / pageSize = s →
      (m.setEntry (frameOf e) k x).mem b = m.mem b := by
    intro ρ hρ s hw b hbs
    refine setEntry_bytes m _ k x fun h => hnot ρ hρ ?_
    rw [hw, ← hbs, h]
  have htaken : ∀ f, Taken src m.pmm f → Taken src (m.setEntry (frameOf e) k x).pmm f := fun _ h => h
  obtain ⟨tree, hlook, hwalk⟩ := inv.tree.congr_tables htaken hb
  refine ⟨⟨inv.zero, tree, fun ρ hρ hρn j e' he' hl' => ?_, fun ρ hρ hρn j e1 he1 hl1 ρ' hρ' hρn' j' e2 he2 hl2 => ?_⟩,
    hlook, hwalk⟩
  · rw [hlook ρ hρ hρn] at he'
    obtain ⟨ht, hnt⟩ := inv.tables ρ hρ hρn j e' he' hl'
    exact ⟨ht, fun ρ' hρ' hw => hnt ρ' hρ' (by rwa [← hwalk ρ' hρ'])⟩
  · rw [hlook ρ hρ hρn] at he1
    rw [hlook ρ' hρ' hρn'] at he2
    exact inv.distinct ρ hρ hρn j e1 he1 hl1 ρ' hρ' hρn' j' e2 he2 hl2

/-- The last step to a table, when frame 0 is not available. -/
lemma ensureTable_allocz {flags : BitVec 64} {r : Option ℕ} (hv : 2 ^ 63 ≤ highVma) (h0 : Taken src m.pmm 0)
    (hf : FlagsOnly flags) (h : Vmm.ensureTable src.alloc m flags t i = some (r, m')) :
    (Present (m.entry t i) ∧ r = some (frameOf (m.entry t i)) ∧ m' = m) ∨
    (¬ Present (m.entry t i) ∧ ∃ f m1, f * pageSize < 2 ^ 63 ∧ pmmAllocz src.alloc m 1 = some (f * pageSize, m1) ∧
      r = some f ∧ m' = m1.setEntry t i (link f flags)) := by
  unfold Vmm.ensureTable at h
  split_ifs at h with hp
  · simp only [Option.some.injEq, Prod.mk.injEq] at h
    exact Or.inl ⟨hp, h.1.symm, h.2.symm⟩
  refine Or.inr ⟨hp, ?_⟩
  cases ha : pmmAllocz src.alloc m 1 with
  | none => simp [ha] at h
  | some x =>
    obtain ⟨a, m1⟩ := x
    obtain ⟨f, rfl, hlinked⟩ := linked_of_allocz hv ha
    have hlow := (hlinked t i 0).low
    have hne : f ≠ 0 := fun hz => (hlinked t i 0).fresh (hz ▸ h0)
    have hzero : ¬ BitVec.ofNat 64 (f * pageSize) = 0 := by
      intro hz
      have hnat := congrArg BitVec.toNat hz
      rw [BitVec.toNat_ofNat] at hnat
      change _ = 0 at hnat
      simp only [pageSize] at *
      omega
    simp only [ha, Option.map_some, entry_setEntry, and_self, if_true, setEntry_setEntry, Option.some.injEq] at h
    rw [if_neg hzero] at h
    obtain ⟨rfl, rfl⟩ := Prod.mk.inj h
    exact ⟨f, m1, hlow, rfl, congrArg some (frameOf_link hlow hf), rfl⟩

end Slots

section Calls
variable {σ : Type} {highVma : ℕ} {src : PageSource σ highVma} {U : Fin 512 → Prop} {m m' : Machine σ}
  {pm : Pagemap} {vaddr paddr flags : BitVec 64}

/-- The flags of a mapping. -/
structure PageFlags (flags : BitVec 64) : Prop where
  flagsOnly : FlagsOnly flags
  present : Present flags

lemma PageFlags.present_or (h : PageFlags flags) (paddr : BitVec 64) : Present (paddr ||| flags) := by
  have := h.present
  rw [present_iff] at *
  simp [this]

lemma large_or (paddr : BitVec 64) (h : Large flags) : Large (paddr ||| flags) := by
  rw [large_iff] at *
  simp [h]

/-- What a call does: the entries of `pml2` and the writes to memory. -/
structure MapResult (src : PageSource σ highVma) (U : Fin 512 → Prop) (pm : Pagemap) (m m' : Machine σ)
    (vaddr : BitVec 64) : Prop where
  inv : SlotInv src U m' pm.topLevel (upperDepth pm.hasLevel5)
  written : ∀ b, m'.mem b ≠ m.mem b → IsTable U pm.topLevel (upperDepth pm.hasLevel5) m' (b / pageSize)
  others : ∀ ρ ∈ words U (upperDepth pm.hasLevel5), ρ.length = upperDepth pm.hasLevel5 → ∀ j,
    ¬ (ρ = upperIndices pm.hasLevel5 vaddr ∧ j = pml2Index vaddr) →
    entryAt m' pm.topLevel ρ j = entryAt m pm.topLevel ρ j

/-- What `vmm_get_page_mapping` finds in a table behind an entry of `pml2`. -/
lemma vmmGetPageMapping_leaf {e : BitVec 64}
    (he : entryAt m pm.topLevel (upperIndices pm.hasLevel5 vaddr) (pml2Index vaddr) = some e) (hl : ¬ Large e)
    (hp : Present (m.entry (frameOf e) (pml1Index vaddr))) :
    vmmGetPageMapping m pm vaddr = m.entry (frameOf e) (pml1Index vaddr) := by
  obtain ⟨t, hw, hpe, rfl⟩ := entryAt_eq_some.mp he
  simp only [vmmGetPageMapping, hw, if_neg hl, if_neg (not_not.mpr hpe), if_pos hp]

/-- What it finds where a large page is mapped. -/
lemma vmmGetPageMapping_entryAt {e : BitVec 64}
    (he : entryAt m pm.topLevel (upperIndices pm.hasLevel5 vaddr) (pml2Index vaddr) = some e) (hl : Large e) :
    vmmGetPageMapping m pm vaddr = e := by
  obtain ⟨t, hw, -, rfl⟩ := entryAt_eq_some.mp he
  simp only [vmmGetPageMapping, hw, if_pos hl]

/-- A call for a large page. -/
theorem vmmMapPage_large {b : Bool} (hv : 2 ^ 63 ≤ highVma)
    (inv : SlotInv src U m pm.topLevel (upperDepth pm.hasLevel5)) (hU : U (topIndex pm.hasLevel5 vaddr))
    (hf : PageFlags flags) (hl : Large flags)
    (h : vmmMapPage src.alloc m pm vaddr paddr flags = some (b, m')) :
    b = true ∧ MapResult src U pm m m' vaddr ∧
      entryAt m' pm.topLevel (upperIndices pm.hasLevel5 vaddr) (pml2Index vaddr) = some (paddr ||| flags) := by
  have hmem := upperIndices_mem pm.hasLevel5 vaddr hU
  have hlen := upperIndices_upperDepth pm.hasLevel5 vaddr
  unfold vmmMapPage at h
  cases he : ensureTables src.alloc flags m pm.topLevel (upperIndices pm.hasLevel5 vaddr) with
  | none => simp [he] at h
  | some x =>
    obtain ⟨r, m1⟩ := x
    obtain ⟨pml2, rfl, tree1, -, hw1, hsame1, hspare1⟩ := inv.tree.ensureTables hv inv.zero (π := []) rfl
      (by simpa using hmem) hf.flagsOnly hf.present he
    have hext1 := inv.tree.ensureTables_extends hv inv.zero (π := []) rfl (by simpa using hmem) hf.flagsOnly
      hf.present he
    rw [List.nil_append] at hw1
    have hlarge : flags &&& pteSize ≠ 0 := hl
    simp only [he, if_pos hlarge, Option.some.injEq, Prod.mk.injEq] at h
    obtain ⟨rfl, rfl⟩ := h
    obtain ⟨inv2, hset⟩ := (inv.spared tree1 hsame1 hspare1).setLarge (i := pml2Index vaddr) (upperDepth_pos _) hw1
      hmem hlen (hf.present_or paddr) (large_or paddr hl)
    have hext := hext1.trans (tree1.setEntry_extends (i := pml2Index vaddr) (e := paddr ||| flags) hw1 hmem hlen)
    refine ⟨rfl, ⟨inv2, fun b hb => Or.inl (hext.written b hb), fun ρ hρ hρn j hne => ?_⟩, ?_⟩
    · rw [hset ρ hρ hρn, if_neg hne, hsame1 ρ hρ hρn]
    · rw [hset _ hmem hlen, if_pos ⟨rfl, rfl⟩]

/-- A call for a page of 4 KiB, where no large page is mapped. -/
theorem vmmMapPage_small {b : Bool} (hv : 2 ^ 63 ≤ highVma)
    (inv : SlotInv src U m pm.topLevel (upperDepth pm.hasLevel5)) (hU : U (topIndex pm.hasLevel5 vaddr))
    (hs : SmallPage flags)
    (hfree : ∀ e, entryAt m pm.topLevel (upperIndices pm.hasLevel5 vaddr) (pml2Index vaddr) = some e → ¬ Large e)
    (h : vmmMapPage src.alloc m pm vaddr paddr flags = some (b, m')) :
    b = true ∧ MapResult src U pm m m' vaddr ∧ vmmGetPageMapping m' pm vaddr = paddr ||| flags ∧
      ∃ e, entryAt m' pm.topLevel (upperIndices pm.hasLevel5 vaddr) (pml2Index vaddr) = some e ∧ ¬ Large e := by
  have hmem := upperIndices_mem pm.hasLevel5 vaddr hU
  have hlen := upperIndices_upperDepth pm.hasLevel5 vaddr
  have hpos := upperDepth_pos pm.hasLevel5
  unfold vmmMapPage at h
  cases he : ensureTables src.alloc flags m pm.topLevel (upperIndices pm.hasLevel5 vaddr) with
  | none => simp [he] at h
  | some x =>
    obtain ⟨r, m1⟩ := x
    obtain ⟨pml2, rfl, tree1, h01, hw1, hsame1, hspare1⟩ := inv.tree.ensureTables hv inv.zero (π := []) rfl
      (by simpa using hmem) hs.flagsOnly hs.present he
    have hext1 := inv.tree.ensureTables_extends hv inv.zero (π := []) rfl (by simpa using hmem) hs.flagsOnly
      hs.present he
    rw [List.nil_append] at hw1
    have inv1 := inv.spared tree1 hsame1 hspare1
    have hsmall : ¬ flags &&& pteSize ≠ 0 := hs.small
    simp only [he, if_neg hsmall] at h
    cases he2 : ensureTable src.alloc m1 flags pml2 (pml2Index vaddr) with
    | none => simp [he2] at h
    | some y =>
      obtain ⟨r2, m2⟩ := y
      obtain ⟨pml1, e, rfl, hframe, inv2, hw2, hat, hl, hothers, hext2⟩ : ∃ pml1 e, r2 = some pml1 ∧ frameOf e = pml1 ∧
          SlotInv src U m2 pm.topLevel (upperDepth pm.hasLevel5) ∧
          walk m2.next pm.topLevel (upperIndices pm.hasLevel5 vaddr) = some pml2 ∧
          entryAt m2 pm.topLevel (upperIndices pm.hasLevel5 vaddr) (pml2Index vaddr) = some e ∧ ¬ Large e ∧
          (∀ ρ ∈ words U (upperDepth pm.hasLevel5), ρ.length = upperDepth pm.hasLevel5 → ∀ j,
            ¬ (ρ = upperIndices pm.hasLevel5 vaddr ∧ j = pml2Index vaddr) →
            entryAt m2 pm.topLevel ρ j = entryAt m1 pm.topLevel ρ j) ∧
          (∀ g, IsTable U pm.topLevel (upperDepth pm.hasLevel5) m1 g →
            IsTable U pm.topLevel (upperDepth pm.hasLevel5) m2 g) ∧
          ∀ b, m2.mem b ≠ m1.mem b → b / pageSize = pml1 ∨ b / pageSize = pml2 := by
        rcases ensureTable_allocz hv h01 hs.flagsOnly he2 with ⟨hp, rfl, rfl⟩ | ⟨habs, f, m1', hlow, ha, rfl, rfl⟩
        · have hat : entryAt m2 pm.topLevel (upperIndices pm.hasLevel5 vaddr) (pml2Index vaddr) =
              some (m2.entry pml2 (pml2Index vaddr)) := entryAt_eq_some.mpr ⟨pml2, hw1, hp, rfl⟩
          exact ⟨_, _, rfl, rfl, inv1, hw1, hat, hfree _ (by rwa [← hsame1 _ hmem hlen]), fun _ _ _ _ _ => rfl,
            fun _ hg => hg, fun _ hb => absurd rfl hb⟩
        · obtain ⟨inv2, hset, hw2, hkept⟩ := inv1.setTable hv hpos hw1 hmem hlen habs hs.flagsOnly hs.present hlow ha
          refine ⟨f, _, rfl, frameOf_link hlow hs.flagsOnly, inv2, hw2, ?_, not_large_link f flags,
            fun ρ hρ hρn j hne => ?_, hkept, fun b hb => ?_⟩
          · rw [hset _ hmem hlen, if_pos ⟨rfl, rfl⟩]
          · rw [hset ρ hρ hρn, if_neg hne]
          · by_contra hno
            rw [not_or] at hno
            rw [setEntry_bytes _ _ _ _ hno.2] at hb
            apply hb
            obtain ⟨⟨a, q⟩, -, hx⟩ := Option.map_eq_some_iff.mp ha
            obtain ⟨rfl, rfl⟩ := Prod.mk.inj hx
            apply clear_outside
            simp only [pageSize] at *
            omega
      subst hframe
      simp only [he2, Option.some.injEq, Prod.mk.injEq] at h
      obtain ⟨rfl, rfl⟩ := h
      obtain ⟨inv3, hsame3, hwalk3⟩ := inv2.setLeaf (k := pml1Index vaddr) (x := paddr ||| flags) hmem hlen hat hl
      have hat3 := (hsame3 _ hmem hlen (pml2Index vaddr)).trans hat
      have hkept3 : ∀ g, IsTable U pm.topLevel (upperDepth pm.hasLevel5) m2 g →
          IsTable U pm.topLevel (upperDepth pm.hasLevel5)
            (m2.setEntry (frameOf e) (pml1Index vaddr) (paddr ||| flags)) g := by
        rintro g (⟨ρ, hρ, hw⟩ | ⟨ρ, hρ, hρn, j, e', he', hg⟩)
        · exact Or.inl ⟨ρ, hρ, (hwalk3 ρ hρ).trans hw⟩
        · exact Or.inr ⟨ρ, hρ, hρn, j, e', (hsame3 ρ hρ hρn j).trans he', hg⟩
      have htable : IsTable U pm.topLevel (upperDepth pm.hasLevel5)
          (m2.setEntry (frameOf e) (pml1Index vaddr) (paddr ||| flags)) (frameOf e) :=
        Or.inr ⟨_, hmem, hlen, _, e, hat3, hl, rfl⟩
      refine ⟨rfl, ⟨inv3, fun b hb => ?_, fun ρ hρ hρn j hne => ?_⟩, ?_, e, hat3, hl⟩
      · by_cases hb3 : b / pageSize = frameOf e
        · rwa [hb3]
        rw [setEntry_bytes _ _ _ _ hb3] at hb
        by_cases hb2 : m2.mem b = m1.mem b
        · rw [hb2] at hb
          exact hkept3 _ (hext2.1 _ (Or.inl (hext1.written b hb)))
        · obtain h1 | h2 := hext2.2 b hb2
          · exact absurd h1 hb3
          · rw [h2]
            exact hkept3 _ (Or.inl ⟨_, hmem, hw2⟩)
      · rw [hsame3 ρ hρ hρn, hothers ρ hρ hρn j hne, hsame1 ρ hρ hρn]
      · have hleaf : (m2.setEntry (frameOf e) (pml1Index vaddr) (paddr ||| flags)).entry (frameOf e)
            (pml1Index vaddr) = paddr ||| flags := by
          rw [entry_setEntry, if_pos ⟨rfl, rfl⟩]
        rw [vmmGetPageMapping_leaf hat3 hl (by rw [hleaf]; exact hs.present_or paddr), hleaf]

lemma ensureTables_of_walk {is : List (Fin 512)} {t u : ℕ} (hw : walk m.next t is = some u) :
    ensureTables src.alloc flags m t is = some (some u, m) := by
  induction is generalizing t with
  | nil =>
    obtain rfl := Option.some.inj hw
    rfl
  | cons i is ih =>
    rw [walk_cons] at hw
    obtain ⟨s, hs, hw⟩ := Option.bind_eq_some_iff.mp hw
    rw [ensureTables, ensureTable_of_next hs]
    exact ih hw

/-- Where a large page is mapped, its frame is taken for a table. -/
theorem vmmMapPage_inLarge {e : BitVec 64}
    (he : entryAt m pm.topLevel (upperIndices pm.hasLevel5 vaddr) (pml2Index vaddr) = some e)
    (hs : ¬ Large flags) : vmmMapPage src.alloc m pm vaddr paddr flags =
      some (true, m.setEntry (frameOf e) (pml1Index vaddr) (paddr ||| flags)) := by
  obtain ⟨t, hw, hp, rfl⟩ := entryAt_eq_some.mp he
  have hsmall : ¬ flags &&& pteSize ≠ 0 := hs
  simp only [vmmMapPage, ensureTables_of_walk hw, if_neg hsmall, ensureTable, if_pos hp]

end Calls

structure MapCall where
  vaddr : BitVec 64
  paddr : BitVec 64
  flags : BitVec 64
  deriving DecidableEq, Repr

/-- No page of 4 KiB lies in a large page that an earlier call mapped. -/
def OutsideLarge (hasLevel5 : Bool) (calls : List MapCall) : Prop :=
  calls.Pairwise fun c d => Large c.flags → ¬ Large d.flags → tablePath hasLevel5 c.vaddr ≠ tablePath hasLevel5 d.vaddr

section Runs
variable {σ : Type} {highVma : ℕ} {src : PageSource σ highVma} {pm : Pagemap} {m0 m m' : Machine σ}

inductive MapStep (src : PageSource σ highVma) (pm : Pagemap) : Machine σ → MapCall → Machine σ → Prop
  | map {m m' : Machine σ} {c : MapCall} {b : Bool} : PageFlags c.flags →
      vmmMapPage src.alloc m pm c.vaddr c.paddr c.flags = some (b, m') → MapStep src pm m c m'

/-- A pagemap in which nothing is mapped. -/
structure NothingMapped (src : PageSource σ highVma) (m : Machine σ) (pm : Pagemap) : Prop where
  zero : Taken src m.pmm 0
  tree : TreeInv src (fun _ => True) m pm.topLevel (upperDepth pm.hasLevel5)
  none : ∀ ρ ∈ words (fun _ => True) (upperDepth pm.hasLevel5), ρ.length = upperDepth pm.hasLevel5 → ∀ j,
    entryAt m pm.topLevel ρ j = none

/-- What holds between calls: every large page was mapped by one of them. -/
structure CallsInv (src : PageSource σ highVma) (pm : Pagemap) (calls : List MapCall) (m : Machine σ) : Prop where
  slots : SlotInv src (fun _ => True) m pm.topLevel (upperDepth pm.hasLevel5)
  large : ∀ ρ ∈ words (fun _ => True) (upperDepth pm.hasLevel5), ρ.length = upperDepth pm.hasLevel5 → ∀ j e,
    entryAt m pm.topLevel ρ j = some e → Large e →
      ∃ c ∈ calls, Large c.flags ∧ tablePath pm.hasLevel5 c.vaddr = ρ ++ [j]

lemma NothingMapped.callsInv (h : NothingMapped src m pm) : CallsInv src pm [] m := by
  have hno : ∀ ρ ∈ words (fun _ => True) (upperDepth pm.hasLevel5), ρ.length = upperDepth pm.hasLevel5 → ∀ j e,
      entryAt m pm.topLevel ρ j ≠ some e := by
    intro ρ hρ hn j e he
    rw [h.none ρ hρ hn] at he
    exact absurd he (Option.some_ne_none e).symm
  exact ⟨⟨h.zero, h.tree, fun ρ hρ hn j e he => absurd he (hno ρ hρ hn j e),
    fun ρ hρ hn j e he => absurd he (hno ρ hρ hn j e)⟩, fun ρ hρ hn j e he => absurd he (hno ρ hρ hn j e)⟩

lemma Empty.nothingMapped (h : Empty src m pm) : NothingMapped src m pm := by
  refine ⟨h.zero, ?_, fun ρ _ hn j => ?_⟩
  · refine ⟨?_, ?_, ?_⟩
    · intro π _ ρ _ t h1 h2
      rw [(h.walk_eq h1).1, (h.walk_eq h2).1]
    · intro π _ t hw
      rw [(h.walk_eq hw).2]
      exact h.top
    · intro π _ _ t hw i
      rw [(h.walk_eq hw).2, h.entries]
      decide
  · cases hw : walk m.next pm.topLevel ρ with
    | none => exact entryAt_of_walk_none hw j
    | some t =>
      rw [(h.walk_eq hw).1, List.length_nil] at hn
      exact absurd hn (upperDepth_pos _).ne

/-- One call after those in `calls`. -/
theorem CallsInv.call {calls : List MapCall} {c : MapCall} {b : Bool} (hv : 2 ^ 63 ≤ highVma)
    (inv : CallsInv src pm calls m) (hout : OutsideLarge pm.hasLevel5 (calls ++ [c])) (hf : PageFlags c.flags)
    (h : vmmMapPage src.alloc m pm c.vaddr c.paddr c.flags = some (b, m')) :
    CallsInv src pm (calls ++ [c]) m' ∧
      (∀ x, m'.mem x ≠ m.mem x → IsTable (fun _ => True) pm.topLevel (upperDepth pm.hasLevel5) m' (x / pageSize)) ∧
      (¬ Large c.flags → vmmGetPageMapping m' pm c.vaddr = c.paddr ||| c.flags) := by
  have hmem := upperIndices_mem (U := fun _ => True) pm.hasLevel5 c.vaddr trivial
  have hlen := upperIndices_upperDepth pm.hasLevel5 c.vaddr
  have hold : MapResult src (fun _ => True) pm m m' c.vaddr →
      ∀ ρ ∈ words (fun _ => True) (upperDepth pm.hasLevel5), ρ.length = upperDepth pm.hasLevel5 → ∀ j e,
      ¬ (ρ = upperIndices pm.hasLevel5 c.vaddr ∧ j = pml2Index c.vaddr) →
      entryAt m' pm.topLevel ρ j = some e → Large e →
      ∃ d ∈ calls ++ [c], Large d.flags ∧ tablePath pm.hasLevel5 d.vaddr = ρ ++ [j] := by
    intro hr ρ hρ hn j e hne he hl
    rw [hr.others ρ hρ hn j hne] at he
    obtain ⟨d, hd, hdl, hpath⟩ := inv.large ρ hρ hn j e he hl
    exact ⟨d, List.mem_append_left _ hd, hdl, hpath⟩
  by_cases hl : Large c.flags
  · obtain ⟨-, hr, hat⟩ := vmmMapPage_large hv inv.slots trivial hf hl h
    refine ⟨⟨hr.inv, fun ρ hρ hn j e he hle => ?_⟩, hr.written, fun hs => absurd hl hs⟩
    by_cases hne : ρ = upperIndices pm.hasLevel5 c.vaddr ∧ j = pml2Index c.vaddr
    · obtain ⟨rfl, rfl⟩ := hne
      exact ⟨c, List.mem_append_right _ List.mem_cons_self, hl, rfl⟩
    · exact hold hr ρ hρ hn j e hne he hle
  · have hfree : ∀ e, entryAt m pm.topLevel (upperIndices pm.hasLevel5 c.vaddr) (pml2Index c.vaddr) = some e →
        ¬ Large e := by
      intro e he hle
      obtain ⟨d, hd, hdl, hpath⟩ := inv.large _ hmem hlen _ e he hle
      have hpair := (List.pairwise_append.mp hout).2.2 d hd c List.mem_cons_self
      exact hpair hdl hl hpath
    obtain ⟨-, hr, hget, e', hat, hle'⟩ := vmmMapPage_small hv inv.slots trivial ⟨hf.flagsOnly, hf.present, hl⟩ hfree h
    refine ⟨⟨hr.inv, fun ρ hρ hn j e he hle => ?_⟩, hr.written, fun _ => hget⟩
    by_cases hne : ρ = upperIndices pm.hasLevel5 c.vaddr ∧ j = pml2Index c.vaddr
    · obtain ⟨rfl, rfl⟩ := hne
      rw [hat] at he
      obtain rfl := Option.some.inj he
      exact absurd hle hle'
    · exact hold hr ρ hρ hn j e hne he hle

lemma CallsInv.run {before calls : List MapCall} (hv : 2 ^ 63 ≤ highVma) (inv : CallsInv src pm before m)
    (hout : OutsideLarge pm.hasLevel5 (before ++ calls)) (hrun : Run (MapStep src pm) m calls m') :
    CallsInv src pm (before ++ calls) m' := by
  induction hrun generalizing before with
  | nil m => rwa [List.append_nil]
  | @cons m m1 m2 c calls hstep _ ih =>
    cases hstep with
    | map hf h =>
      rw [List.append_cons] at hout ⊢
      exact ih (inv.call hv (hout.sublist (List.sublist_append_left _ _)) hf h).1 hout

/-- After any calls with and without `PTE_SIZE` the next call writes to tables of the pagemap only, and a page of 4 KiB
that it maps is found again. -/
theorem largePages_kept {calls : List MapCall} {c : MapCall} {b : Bool} (hv : 2 ^ 63 ≤ highVma)
    (hstart : NothingMapped src m0 pm) (hrun : Run (MapStep src pm) m0 calls m)
    (hout : OutsideLarge pm.hasLevel5 (calls ++ [c])) (hf : PageFlags c.flags)
    (h : vmmMapPage src.alloc m pm c.vaddr c.paddr c.flags = some (b, m')) :
    (∀ x, m'.mem x ≠ m.mem x → IsTable (fun _ => True) pm.topLevel (upperDepth pm.hasLevel5) m' (x / pageSize)) ∧
      (¬ Large c.flags → vmmGetPageMapping m' pm c.vaddr = c.paddr ||| c.flags) := by
  have hcalls : OutsideLarge pm.hasLevel5 ([] ++ calls) := hout.sublist (List.sublist_append_left _ _)
  exact ((hstart.callsInv.run hv hcalls hrun).call hv hout hf h).2

end Runs

def pteCacheDisable : BitVec 64 := 0x10

/-- The call by which `vmm_init` maps the 2 MiB of the direct map around `0xfec00000`. -/
def directCall : MapCall :=
  ⟨0xffff8000fec00000, 0xfec00000, ptePresent ||| pteWritable ||| pteSize ||| pteGlobal ||| pteNx⟩

/-- The call of `hpet_init` for a timer at `0xfed00000`. -/
def hpetCall : MapCall :=
  ⟨0xffff8000fed00000, 0xfed00000, ptePresent ||| pteWritable ||| pteCacheDisable ||| pteGlobal ||| pteNx⟩

lemma directCall_flags : PageFlags directCall.flags := by
  constructor
  · unfold FlagsOnly
    decide
  · decide

lemma hpetCall_flags : PageFlags hpetCall.flags := by
  constructor
  · unfold FlagsOnly
    decide
  · decide

/-- The direct map around `0xfee00000`. -/
def nextDirectCall : MapCall := { directCall with vaddr := 0xffff8000fee00000, paddr := 0xfee00000 }

theorem largePages_kept_apart : ∃ m m' : Machine Bump,
    Run (MapStep (bumpSource Pmm.directMap) ⟨1, false⟩) bareMachine [nextDirectCall] m ∧
    vmmGetPageMapping m' ⟨1, false⟩ hpetCall.vaddr = hpetCall.paddr ||| hpetCall.flags := by
  have hs := bump_serves Pmm.directMap
  obtain ⟨b, m, hm, hleft⟩ := hs.mapPage (m := bareMachine) (k := 4) (by decide) ⟨1, false⟩ nextDirectCall.vaddr
    nextDirectCall.paddr nextDirectCall.flags
  obtain ⟨b', m', hm', -⟩ := hs.mapPage (m := m) (k := 0) hleft ⟨1, false⟩ hpetCall.vaddr hpetCall.paddr hpetCall.flags
  have hrun : Run (MapStep (bumpSource Pmm.directMap) ⟨1, false⟩) bareMachine [nextDirectCall] m :=
    .single (.map directCall_flags hm)
  have hout : OutsideLarge false ([nextDirectCall] ++ [hpetCall]) := by
    refine List.pairwise_pair.mpr fun _ _ => ?_
    decide
  exact ⟨m, m', hrun, (largePages_kept (by decide) (bareMachine_empty _ false).nothingMapped hrun hout hpetCall_flags hm').2
    (by decide)⟩

/-- The register page of the timer is never mapped; instead the I/O APIC's page is written. -/
theorem largePages_overwritten : ∃ m0 m m' : Machine Bump, NothingMapped (bumpSource Pmm.directMap) m0 ⟨1, false⟩ ∧
    Run (MapStep (bumpSource Pmm.directMap) ⟨1, false⟩) m0 [directCall] m ∧ PageFlags hpetCall.flags ∧ ¬ Large hpetCall.flags ∧
    vmmMapPage (bumpSource Pmm.directMap).alloc m ⟨1, false⟩ hpetCall.vaddr hpetCall.paddr hpetCall.flags =
      some (true, m') ∧
    (∃ x, m'.mem x ≠ m.mem x ∧ ¬ IsTable (fun _ => True) 1 (upperDepth false) m' (x / pageSize)) ∧
    vmmGetPageMapping m' ⟨1, false⟩ hpetCall.vaddr ≠ hpetCall.paddr ||| hpetCall.flags := by
  have hbare := bareMachine_empty Pmm.directMap false
  have hgiven : (vmmMapPage (bumpAlloc Pmm.directMap) bareMachine ⟨1, false⟩ directCall.vaddr directCall.paddr
      directCall.flags).map (fun r => r.2.pmm.given) = some [(0x3000, 0x1000), (0x2000, 0x1000), (0, 0x2000)] := by
    decide
  obtain ⟨⟨b, m⟩, hm, hgiven⟩ := Option.map_eq_some_iff.mp hgiven
  have hlarge : Large directCall.flags := by decide
  have hsmall : ¬ Large hpetCall.flags := by decide
  have inv0 := hbare.nothingMapped.callsInv.slots
  obtain ⟨-, hr, hat⟩ := vmmMapPage_large (by decide) inv0 trivial directCall_flags hlarge hm
  have hfree : ¬ Taken (bumpSource Pmm.directMap) m.pmm 0xfec00 := by
    rintro ⟨x, hx, h1, h2⟩
    have hmem : x ∈ m.pmm.given := hx
    rw [hgiven] at hmem
    simp only [List.mem_cons, List.not_mem_nil, or_false] at hmem
    simp only [pageSize] at h1 h2
    obtain rfl | rfl | rfl := hmem <;> simp at h1 h2
  have hat' : entryAt m 1 (upperIndices false hpetCall.vaddr) (pml2Index hpetCall.vaddr) =
      some (directCall.paddr ||| directCall.flags) := hat
  have hframe : frameOf (directCall.paddr ||| directCall.flags) = 0xfec00 := by decide
  have hcall : vmmMapPage (bumpSource Pmm.directMap).alloc m ⟨1, false⟩ hpetCall.vaddr hpetCall.paddr hpetCall.flags =
      some (true, m.setEntry 0xfec00 (pml1Index hpetCall.vaddr) (hpetCall.paddr ||| hpetCall.flags)) :=
    hframe ▸ vmmMapPage_inLarge hat' hsmall
  have hnot : ∀ ρ ∈ words (fun _ => True) (upperDepth false), walk m.next 1 ρ ≠ some 0xfec00 :=
    fun ρ hρ hw => hfree (hr.inv.tree.taken ρ hρ _ hw)
  obtain ⟨m2, hm2⟩ : ∃ m2, m2 = m.setEntry 0xfec00 (pml1Index hpetCall.vaddr) (hpetCall.paddr ||| hpetCall.flags) :=
    ⟨_, rfl⟩
  have htaken : ∀ f, Taken (bumpSource Pmm.directMap) m.pmm f → Taken (bumpSource Pmm.directMap) m2.pmm f := by
    rw [hm2]
    exact fun _ h => h
  have hbytes : ∀ ρ ∈ words (fun _ => True) (upperDepth false), ∀ s, walk m.next 1 ρ = some s → ∀ b,
      b / pageSize = s → m2.mem b = m.mem b := by
    rw [hm2]
    exact fun ρ hρ s hw b hbs => setEntry_bytes m _ _ _ fun h => hnot ρ hρ (by rw [hw, ← hbs, h])
  obtain ⟨-, hsame, hwalk⟩ := hr.inv.tree.congr_tables htaken hbytes
  have hno : ¬ IsTable (fun _ => True) 1 (upperDepth false) m 0xfec00 := by
    rintro (⟨ρ, hρ, hw⟩ | ⟨ρ, hρ, hρn, j, e, he, hl, -⟩)
    · exact hnot ρ hρ hw
    · by_cases hne : ρ = upperIndices false directCall.vaddr ∧ j = pml2Index directCall.vaddr
      · obtain ⟨rfl, rfl⟩ := hne
        rw [hat] at he
        obtain rfl := Option.some.inj he
        exact hl (large_or _ hlarge)
      · rw [hr.others ρ hρ hρn j hne, hbare.nothingMapped.none ρ hρ hρn j] at he
        exact absurd he (Option.some_ne_none e).symm
  have hmem := upperIndices_mem (U := fun _ => True) false hpetCall.vaddr trivial
  have hlen := upperIndices_upperDepth false hpetCall.vaddr
  rw [← hm2] at hcall
  refine ⟨bareMachine, m, m2, hbare.nothingMapped, .single (.map directCall_flags hm), hpetCall_flags, hsmall, hcall,
    ⟨entryAddr 0xfec00 (pml1Index hpetCall.vaddr), ?_, ?_⟩, ?_⟩
  · have hbefore : m.mem (entryAddr 0xfec00 (pml1Index hpetCall.vaddr)) = 0 := by
      by_contra hne
      exact hno (hr.written _ hne)
    have hafter := write64_inside m.mem (entryAddr 0xfec00 (pml1Index hpetCall.vaddr))
      (hpetCall.paddr ||| hpetCall.flags) (k := 0) (by decide)
    rw [Nat.add_zero] at hafter
    rw [hbefore, hm2, Machine.setEntry]
    dsimp only
    rw [hafter]
    decide
  · rintro (⟨ρ, hρ, hw⟩ | ⟨ρ, hρ, hρn, j, e, he, hl, hg⟩)
    · exact hno (Or.inl ⟨ρ, hρ, (hwalk ρ hρ).symm.trans hw⟩)
    · exact hno (Or.inr ⟨ρ, hρ, hρn, j, e, (hsame ρ hρ hρn j).symm.trans he, hl, hg⟩)
  · rw [vmmGetPageMapping_entryAt ((hsame _ hmem hlen _).trans hat') (large_or _ hlarge)]
    decide

end PiggyOs.Vmm
