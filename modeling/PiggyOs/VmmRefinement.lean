import PiggyOs.VmmTables
import PiggyOs.Transition

/-! The tables of a pagemap, followed from those top-level indices that are its own, form a tree
of frames that the allocator will not give out again. On such a tree mapping and unmapping one
page is the update of a finite map at the indices of its address. -/
namespace PiggyOs.Vmm
open ByteMemory Walk Transition

/-- Index words of at most `n` levels that begin at a top-level index in `U`. -/
def words (U : Fin 512 → Prop) (n : ℕ) : Set (List (Fin 512)) :=
  {π | π.length ≤ n ∧ ∀ i ∈ π.head?, U i}

lemma words_prefixClosed (U : Fin 512 → Prop) (n : ℕ) : PrefixClosed (words U n) := by
  rintro π j ⟨hlen, hhead⟩
  simp only [List.length_append, List.length_singleton] at hlen
  refine ⟨by omega, ?_⟩
  cases π with
  | nil => simp
  | cons i π => simpa using hhead

lemma nil_mem_words (U : Fin 512 → Prop) (n : ℕ) : [] ∈ words U n := ⟨Nat.zero_le _, by simp⟩

/-- How many links lead from the top level to the tables that map pages. -/
def depth (hasLevel5 : Bool) : ℕ := if hasLevel5 then 4 else 3

lemma depth_pos (five : Bool) : 0 < depth five := by cases five <;> decide

/-- The indices that lead to the table called `pml1`. -/
def tablePath (hasLevel5 : Bool) (vaddr : BitVec 64) : List (Fin 512) :=
  upperIndices hasLevel5 vaddr ++ [pml2Index vaddr]

def topIndex (hasLevel5 : Bool) (vaddr : BitVec 64) : Fin 512 :=
  if hasLevel5 then pml5Index vaddr else pml4Index vaddr

lemma tablePath_length (five : Bool) (vaddr : BitVec 64) : (tablePath five vaddr).length = depth five := by
  cases five <;> rfl

lemma tablePath_mem {U : Fin 512 → Prop} {five : Bool} {vaddr : BitVec 64}
    (h : U (topIndex five vaddr)) : tablePath five vaddr ∈ words U (depth five) := by
  refine ⟨(tablePath_length five vaddr).le, ?_⟩
  cases five <;> simpa [tablePath, upperIndices, topIndex] using h

section Tree
variable {σ : Type} {highVma : ℕ} {src : PageSource σ highVma} {U : Fin 512 → Prop}
  {m m' : Machine σ} {top n t f : ℕ} {i : Fin 512} {π : List (Fin 512)}

structure TreeInv (src : PageSource σ highVma) (U : Fin 512 → Prop) (m : Machine σ) (top n : ℕ) :
    Prop where
  tree : IsTree m.next top (words U n)
  taken : ∀ π ∈ words U n, ∀ t, walk m.next top π = some t → Taken src m.pmm t
  small : ∀ π ∈ words U n, π.length + 1 = n → ∀ t, walk m.next top π = some t →
    ∀ i, ¬ Large (m.entry t i)

/-- The entry for index `j` of the table behind the word `π`, if there is one and it is present. -/
def entryAt (m : Machine σ) (top : ℕ) (π : List (Fin 512)) (j : Fin 512) : Option (BitVec 64) :=
  (walk m.next top π).bind fun t => if Present (m.entry t j) then some (m.entry t j) else none

/-- The same, in the terms of `vmm_get_page_mapping`. -/
def lookup (m : Machine σ) (top : ℕ) (π : List (Fin 512)) (j : Fin 512) : BitVec 64 :=
  (entryAt m top π j).getD noMapping

lemma entryAt_eq_some {ρ : List (Fin 512)} {j : Fin 512} {e : BitVec 64} :
    entryAt m top ρ j = some e ↔
      ∃ t, walk m.next top ρ = some t ∧ Present (m.entry t j) ∧ m.entry t j = e := by
  unfold entryAt
  cases hw : walk m.next top ρ with
  | none => simp
  | some t => simp

lemma lookup_present {ρ : List (Fin 512)} {j : Fin 512} (hw : walk m.next top ρ = some t)
    (hp : Present (m.entry t j)) : lookup m top ρ j = m.entry t j := by
  rw [lookup, entryAt_eq_some.mpr ⟨t, hw, hp, rfl⟩, Option.getD_some]

lemma entryAt_of_walk_none {ρ : List (Fin 512)} (hw : walk m.next top ρ = none) (j : Fin 512) :
    entryAt m top ρ j = none := by
  rw [entryAt, hw, Option.bind_none]

lemma entryAt_congr {ρ : List (Fin 512)} {j : Fin 512}
    (hw : walk m'.next top ρ = walk m.next top ρ)
    (he : ∀ s, walk m.next top ρ = some s → m'.entry s j = m.entry s j) :
    entryAt m' top ρ j = entryAt m top ρ j := by
  unfold entryAt
  rw [hw]
  cases h : walk m.next top ρ with
  | none => rw [Option.bind_none, Option.bind_none]
  | some s => simp only [Option.bind_some, he s h]

lemma next_present (h : Present (m.entry t i)) : m.next t i = some (frameOf (m.entry t i)) := if_pos h

lemma next_absent (h : ¬ Present (m.entry t i)) : m.next t i = none := if_neg h

lemma next_congr {s : ℕ} {j : Fin 512} (h : m'.entry s j = m.entry s j) : m'.next s j = m.next s j := by
  simp only [Machine.next, h]

/-- A table that is there is not made. -/
lemma ensureTable_of_next {flags : BitVec 64} {u : ℕ} (h : m.next t i = some u) :
    Vmm.ensureTable src.alloc m flags t i = some (some u, m) := by
  unfold Machine.next at h
  split_ifs at h with hp
  obtain rfl := Option.some.inj h
  exact if_pos hp

/-- No lookup differs. -/
def SameLookups (U : Fin 512 → Prop) (top n : ℕ) (m m' : Machine σ) : Prop :=
  ∀ ρ ∈ words U n, ρ.length = n → ∀ j, entryAt m' top ρ j = entryAt m top ρ j

/-- The frame is not a table of the tree. -/
def NotTable (U : Fin 512 → Prop) (top n : ℕ) (m : Machine σ) (g : ℕ) : Prop :=
  ∀ π ∈ words U n, walk m.next top π ≠ some g

/-- Frames in use that are no tables keep their bytes and do not become tables, and the top level
keeps the entries that do not belong to the tree. -/
structure Spares (src : PageSource σ highVma) (U : Fin 512 → Prop) (top n : ℕ) (m m' : Machine σ) :
    Prop where
  taken : ∀ g, Taken src m.pmm g → Taken src m'.pmm g
  bytes : ∀ g, Taken src m.pmm g → NotTable U top n m g → ∀ b, b / pageSize = g → m'.mem b = m.mem b
  tables : ∀ g, Taken src m.pmm g → NotTable U top n m g → NotTable U top n m' g
  others : ∀ i, ¬ U i → m'.entry top i = m.entry top i

lemma Spares.refl (src : PageSource σ highVma) (U : Fin 512 → Prop) (top n : ℕ) (m : Machine σ) :
    Spares src U top n m m := ⟨fun _ h => h, fun _ _ _ _ _ => rfl, fun _ _ h => h, fun _ _ => rfl⟩

lemma Spares.trans {m'' : Machine σ} (h : Spares src U top n m m') (h' : Spares src U top n m' m'') :
    Spares src U top n m m'' where
  taken g hg := h'.taken g (h.taken g hg)
  bytes g hg hn b hb := (h'.bytes g (h.taken g hg) (h.tables g hg hn) b hb).trans (h.bytes g hg hn b hb)
  tables g hg hn := h'.tables g (h.taken g hg) (h.tables g hg hn)
  others i hi := (h'.others i hi).trans (h.others i hi)

/-- `m'` is `m` with an empty table in frame `f`, hung into the tree at index `i` of the table `t`
behind `π`. -/
structure Grown (U : Fin 512 → Prop) (m m' : Machine σ) (top n t f : ℕ) (i : Fin 512)
    (π : List (Fin 512)) : Prop where
  apart : t ≠ f
  new : m'.next t i = some f
  leaf : ∀ j, m'.next f j = none
  same : ∀ ρ ∈ words U n, ∀ s, walk m.next top ρ = some s → ∀ j, ¬ (s = t ∧ j = i) →
    m'.entry s j = m.entry s j
  off : AgreeOff m.next m'.next top (words U n) t i
  cases : ∀ ρ ∈ words U n, ∀ s, walk m'.next top ρ = some s →
    (ρ = π ++ [i] ∧ s = f) ∨ (¬ π ++ [i] <+: ρ ∧ walk m.next top ρ = some s)

lemma TreeInv.grown {flags : BitVec 64} (inv : TreeInv src U m top n)
    (hπ : walk m.next top π = some t) (hπi : π ++ [i] ∈ words U n) (hf : FlagsOnly flags)
    (hp : Present flags) (hl : Linked src m m' t i f (link f flags)) : Grown U m m' top n t f i π := by
  have hW := words_prefixClosed U n
  have hπW := hW π i hπi
  have htf : t ≠ f := fun h => hl.fresh (h ▸ inv.taken π hπW t hπ)
  have hnew : m'.next t i = some f := by
    have he : m'.entry t i = link f flags := by simp [hl.entry]
    rw [next_present (by rw [he]; exact present_link.mpr hp), he, frameOf_link hl.low hf]
  have hleaf : ∀ j, m'.next f j = none := by
    intro j
    refine next_absent ?_
    rw [hl.entry, if_neg (fun h => htf h.1.symm), if_pos rfl]
    decide
  have hsame : ∀ ρ ∈ words U n, ∀ s, walk m.next top ρ = some s → ∀ j, ¬ (s = t ∧ j = i) →
      m'.entry s j = m.entry s j := by
    intro ρ hρ s hs j hj
    rw [hl.entry, if_neg hj, if_neg fun h : s = f => hl.fresh (h ▸ inv.taken ρ hρ s hs)]
  have hoff : AgreeOff m.next m'.next top (words U n) t i := fun ρ hρ s hs j hj =>
    next_congr (hsame ρ hρ s hs j hj)
  exact ⟨htf, hnew, hleaf, hsame, hoff, fun ρ hρ s hs =>
    walk_grow_cases hW inv.tree hoff hπ hπW hnew hleaf hρ hs⟩

/-- A new table hung into the tree changes no lookup. -/
theorem TreeInv.linked {flags : BitVec 64} (inv : TreeInv src U m top n)
    (hπ : walk m.next top π = some t) (hπi : π ++ [i] ∈ words U n)
    (habs : ¬ Present (m.entry t i)) (hf : FlagsOnly flags) (hp : Present flags)
    (hl : Linked src m m' t i f (link f flags)) :
    TreeInv src U m' top n ∧ walk m'.next top (π ++ [i]) = some f ∧
      SameLookups U top n m m' ∧ Spares src U top n m m' := by
  have hW := words_prefixClosed U n
  have hπW := hW π i hπi
  obtain ⟨htf, hnew, hleaf, hsame, hoff, hcases⟩ := inv.grown hπ hπi hf hp hl
  have hto : walk m'.next top (π ++ [i]) = some f := by
    rw [walk_snoc, walk_self hW hoff inv.tree hπ hπW, Option.bind_some, hnew]
  have hlen : π.length + 1 ≤ n := by simpa using hπi.1
  refine ⟨⟨?_, ?_, ?_⟩, hto, ?_, fun g hg => (hl.taken g).mpr (Or.inl hg), ?_, ?_, ?_⟩
  · exact inv.tree.grow hW hoff hπ hπW hnew hleaf fun ρ hρ h => hl.fresh (inv.taken ρ hρ f h)
  · intro ρ hρ s hs
    rw [hl.taken]
    rcases hcases ρ hρ s hs with ⟨-, rfl⟩ | ⟨-, hs⟩
    · exact Or.inr rfl
    · exact Or.inl (inv.taken ρ hρ s hs)
  · intro ρ hρ hρn s hs j
    rcases hcases ρ hρ s hs with ⟨rfl, rfl⟩ | ⟨-, hs⟩
    · rw [hl.entry, if_neg fun h => htf h.1.symm, if_pos rfl]
      decide
    · by_cases hj : s = t ∧ j = i
      · rw [hl.entry, if_pos hj]
        exact not_large_link f flags
      · rw [hsame ρ hρ s hs j hj]
        exact inv.small ρ hρ hρn s hs j
  · intro ρ hρ hρn j
    by_cases hpre : π ++ [i] <+: ρ
    · have hnone : walk m.next top ρ = none := by
        obtain ⟨τ, rfl⟩ := hpre
        rw [walk_append, walk_snoc, hπ, Option.bind_some, next_absent habs, Option.bind_none]
      rw [entryAt_of_walk_none hnone]
      cases hs : walk m'.next top ρ with
      | none => exact entryAt_of_walk_none hs j
      | some s =>
        rcases hcases ρ hρ s hs with ⟨-, rfl⟩ | ⟨hno, -⟩
        · have hz : m'.entry s j = 0 := by
            rw [hl.entry, if_neg fun h => htf h.1.symm, if_pos rfl]
          rw [entryAt, hs, Option.bind_some, hz, if_neg (by decide)]
        · exact absurd hpre hno
    · refine entryAt_congr (walk_of_avoids hoff inv.tree hπ hπW (hW.strict hρ) hpre) fun s hs => ?_
      refine hsame ρ hρ s hs j ?_
      rintro ⟨rfl, rfl⟩
      have := inv.tree π hπW ρ hρ s hπ hs
      subst this
      omega
  · intro g hg hn b hb
    refine hl.bytes b (fun h => ?_) fun h => hn π hπW (by rw [hπ, ← h, hb])
    exact hl.fresh (h ▸ hb ▸ hg)
  · intro g hg hn ρ hρ hs
    rcases hcases ρ hρ g hs with ⟨-, rfl⟩ | ⟨-, hs⟩
    · exact hl.fresh hg
    · exact hn ρ hρ hs
  · intro k hk
    have hnil := nil_mem_words U n
    have htop : top ≠ f := fun h => hl.fresh (h ▸ inv.taken [] hnil top walk_nil)
    rw [hl.entry, if_neg ?_, if_neg htop]
    rintro ⟨rfl, rfl⟩
    obtain rfl := inv.tree π hπW [] hnil top hπ walk_nil
    exact hk (hπi.2 k (by simp))

/-- Walks are kept when a table at the end of the words is written. -/
lemma TreeInv.walk_setEntry {e : BitVec 64} (inv : TreeInv src U m top n) (hπ : walk m.next top π = some t)
    (hπW : π ∈ words U n) (hn : π.length = n) {ρ : List (Fin 512)} (hρ : ρ ∈ words U n) :
    walk (m.setEntry t i e).next top ρ = walk m.next top ρ := by
  have hW := words_prefixClosed U n
  have hoff : AgreeOff m.next (m.setEntry t i e).next top (words U n) t i := by
    intro ρ _ s _ j hj
    refine next_congr ?_
    rw [entry_setEntry, if_neg hj]
  refine walk_of_avoids hoff inv.tree hπ hπW (hW.strict hρ) fun h => ?_
  have h1 := h.length_le
  have h2 := hρ.1
  simp only [List.length_append, List.length_singleton] at h1
  omega

/-- Writing one entry of a table that maps pages changes one lookup. -/
theorem TreeInv.setEntry {e : BitVec 64} (inv : TreeInv src U m top n) (hpos : 0 < n)
    (hπ : walk m.next top π = some t) (hπW : π ∈ words U n) (hn : π.length = n) :
    TreeInv src U (m.setEntry t i e) top n ∧ Spares src U top n m (m.setEntry t i e) ∧
      ∀ ρ ∈ words U n, ρ.length = n → ∀ j, entryAt (m.setEntry t i e) top ρ j =
        if ρ = π ∧ j = i then (if Present e then some e else none) else entryAt m top ρ j := by
  have hwalk : ∀ ρ ∈ words U n, walk (m.setEntry t i e).next top ρ = walk m.next top ρ :=
    fun ρ hρ => inv.walk_setEntry hπ hπW hn hρ
  refine ⟨⟨inv.tree.congr hwalk, ?_, ?_⟩, ⟨fun _ h => h, ?_, ?_, ?_⟩, ?_⟩
  · intro ρ hρ s hs
    exact inv.taken ρ hρ s (by rwa [← hwalk ρ hρ])
  · intro ρ hρ hρn s hs j
    rw [hwalk ρ hρ] at hs
    rw [entry_setEntry, if_neg ?_]
    · exact inv.small ρ hρ hρn s hs j
    · rintro ⟨rfl, -⟩
      have := inv.tree π hπW ρ hρ s hπ hs
      subst this
      omega
  · intro g _ hn b hb
    exact setEntry_bytes m t i e fun h => hn π hπW (by rw [hπ, ← h, hb])
  · intro g _ hn ρ hρ hs
    exact hn ρ hρ (by rwa [← hwalk ρ hρ])
  · intro k _
    rw [entry_setEntry, if_neg ?_]
    rintro ⟨rfl, -⟩
    have := inv.tree π hπW [] (nil_mem_words U n) top hπ walk_nil
    rw [this, List.length_nil] at hn
    omega
  · intro ρ hρ hρn j
    by_cases hj : ρ = π ∧ j = i
    · obtain ⟨rfl, rfl⟩ := hj
      rw [if_pos ⟨rfl, rfl⟩, entryAt, hwalk ρ hρ, hπ]
      simp only [Option.bind_some, entry_setEntry, and_self, if_true]
    · rw [if_neg hj]
      refine entryAt_congr (hwalk ρ hρ) fun s hs => ?_
      rw [entry_setEntry, if_neg ?_]
      rintro ⟨rfl, rfl⟩
      exact hj ⟨inv.tree ρ hρ π hπW s hs hπ, rfl⟩

/-- The tree and its lookups depend only on the bytes of its tables. -/
lemma TreeInv.congr_tables (inv : TreeInv src U m top n)
    (ht : ∀ g, Taken src m.pmm g → Taken src m'.pmm g)
    (hb : ∀ π ∈ words U n, ∀ t, walk m.next top π = some t → ∀ b, b / pageSize = t → m'.mem b = m.mem b) :
    TreeInv src U m' top n ∧ SameLookups U top n m m' ∧
      ∀ ρ ∈ words U n, walk m'.next top ρ = walk m.next top ρ := by
  have hW := words_prefixClosed U n
  have hentry : ∀ ρ ∈ words U n, ∀ s, walk m.next top ρ = some s → ∀ j, m'.entry s j = m.entry s j :=
    fun ρ hρ s hs j => entry_congr (hb ρ hρ s hs) j
  have hwalk : ∀ ρ ∈ words U n, walk m'.next top ρ = walk m.next top ρ := by
    intro ρ
    induction ρ using List.reverseRecOn with
    | nil =>
      intro _
      rw [walk_nil, walk_nil]
    | append_singleton ρ j ih =>
      intro hρ
      have hpre := hW ρ j hρ
      rw [walk_snoc, walk_snoc, ih hpre]
      cases hs : walk m.next top ρ with
      | none => rw [Option.bind_none, Option.bind_none]
      | some s =>
        rw [Option.bind_some, Option.bind_some]
        exact next_congr (hentry ρ hpre s hs j)
  refine ⟨⟨inv.tree.congr hwalk, ?_, ?_⟩, ?_, hwalk⟩
  · intro ρ hρ s hs
    exact ht s (inv.taken ρ hρ s (by rwa [← hwalk ρ hρ]))
  · intro ρ hρ hn s hs j
    rw [hwalk ρ hρ] at hs
    rw [hentry ρ hρ s hs]
    exact inv.small ρ hρ hn s hs j
  · intro ρ hρ _ j
    exact entryAt_congr (hwalk ρ hρ) fun s hs => hentry ρ hρ s hs j

/-- The tree and its lookups do not depend on frames that are not in use. -/
lemma TreeInv.congr (inv : TreeInv src U m top n)
    (ht : ∀ g, Taken src m.pmm g → Taken src m'.pmm g)
    (hb : ∀ b, Taken src m.pmm (b / pageSize) → m'.mem b = m.mem b) :
    TreeInv src U m' top n ∧ SameLookups U top n m m' ∧ Spares src U top n m m' ∧
      ∀ ρ ∈ words U n, walk m'.next top ρ = walk m.next top ρ := by
  obtain ⟨tree, hlook, hwalk⟩ := inv.congr_tables ht fun π hπ t hw b hbt => by
    apply hb
    rw [hbt]
    exact inv.taken π hπ t hw
  refine ⟨tree, hlook, ⟨ht, ?_, ?_, ?_⟩, hwalk⟩
  · intro g hg _ b hbg
    apply hb
    rwa [hbg]
  · intro g _ hn ρ hρ hs
    exact hn ρ hρ (by rwa [← hwalk ρ hρ])
  · intro i _
    refine entry_congr (fun b hbt => hb b ?_) i
    rw [hbt]
    exact inv.taken [] (nil_mem_words U n) top walk_nil

/-- One level of `vmm_map_page`: afterwards there is a table behind the index. -/
lemma TreeInv.ensureTable {flags : BitVec 64} {r : Option ℕ} (hv : 2 ^ 63 ≤ highVma)
    (inv : TreeInv src U m top n) (h0 : Taken src m.pmm 0) (hπ : walk m.next top π = some t)
    (hπi : π ++ [i] ∈ words U n) (hf : FlagsOnly flags) (hp : Present flags)
    (h : Vmm.ensureTable src.alloc m flags t i = some (r, m')) :
    ∃ u, r = some u ∧ TreeInv src U m' top n ∧ Taken src m'.pmm 0 ∧
      walk m'.next top (π ++ [i]) = some u ∧ SameLookups U top n m m' ∧ Spares src U top n m m' := by
  rcases ensureTable_cases hv h with ⟨hpres, rfl, rfl⟩ | ⟨-, -, hl⟩ | ⟨habs, f, -, rfl, hl⟩
  · refine ⟨_, rfl, inv, h0, ?_, fun _ _ _ _ => rfl, .refl ..⟩
    rw [walk_snoc, hπ, Option.bind_some, next_present hpres]
  · exact absurd h0 hl.fresh
  · obtain ⟨inv', hto, hsame, hspare⟩ := inv.linked hπ hπi habs hf hp hl
    rw [frameOf_link hl.low hf]
    exact ⟨f, rfl, inv', (hl.taken 0).mpr (Or.inl h0), hto, hsame, hspare⟩

lemma TreeInv.ensureTables {flags : BitVec 64} {r : Option ℕ} {is : List (Fin 512)}
    (hv : 2 ^ 63 ≤ highVma) (inv : TreeInv src U m top n) (h0 : Taken src m.pmm 0)
    (hπ : walk m.next top π = some t) (hπi : π ++ is ∈ words U n) (hf : FlagsOnly flags)
    (hp : Present flags) (h : Vmm.ensureTables src.alloc flags m t is = some (r, m')) :
    ∃ u, r = some u ∧ TreeInv src U m' top n ∧ Taken src m'.pmm 0 ∧
      walk m'.next top (π ++ is) = some u ∧ SameLookups U top n m m' ∧ Spares src U top n m m' := by
  induction is generalizing m t π with
  | nil =>
    simp only [Vmm.ensureTables, Option.some.injEq, Prod.mk.injEq] at h
    obtain ⟨rfl, rfl⟩ := h
    exact ⟨t, rfl, inv, h0, by simpa using hπ, fun _ _ _ _ => rfl, .refl ..⟩
  | cons i is ih =>
    have hsplit : π ++ i :: is = (π ++ [i]) ++ is := by simp
    rw [hsplit] at hπi ⊢
    have hpre : π ++ [i] ∈ words U n :=
      (words_prefixClosed U n).prefix_mem (List.prefix_append _ _) hπi
    rw [Vmm.ensureTables] at h
    cases he : Vmm.ensureTable src.alloc m flags t i with
    | none => simp [he] at h
    | some x =>
      obtain ⟨r1, m1⟩ := x
      obtain ⟨u, rfl, inv1, h01, hw, hsame, hspare⟩ := inv.ensureTable hv h0 hπ hpre hf hp he
      rw [he] at h
      obtain ⟨u', hr, inv2, h02, hw2, hsame2, hspare2⟩ := ih inv1 h01 hw hπi h
      exact ⟨u', hr, inv2, h02, hw2, fun ρ hρ hn j =>
        (hsame2 ρ hρ hn j).trans (hsame ρ hρ hn j), hspare.trans hspare2⟩

end Tree

section Pages
variable {σ : Type} {highVma : ℕ} {src : PageSource σ highVma} {U : Fin 512 → Prop}
  {m m' : Machine σ} {pm : Pagemap} {vaddr paddr flags : BitVec 64}

/-- The lookup behind `vmm_get_page_mapping`, where no large page is in the way. -/
lemma vmmGetPageMapping_of_small
    (hsmall : ∀ t, walk m.next pm.topLevel (upperIndices pm.hasLevel5 vaddr) = some t →
      ¬ Large (m.entry t (pml2Index vaddr))) :
    vmmGetPageMapping m pm vaddr =
      lookup m pm.topLevel (tablePath pm.hasLevel5 vaddr) (pml1Index vaddr) := by
  unfold vmmGetPageMapping lookup entryAt
  rw [tablePath, walk_snoc]
  cases hw : walk m.next pm.topLevel (upperIndices pm.hasLevel5 vaddr) with
  | none => simp
  | some pml2 =>
    simp only [if_neg (hsmall pml2 hw), Option.bind_some]
    by_cases hp : Present (m.entry pml2 (pml2Index vaddr))
    · simp only [hp, not_true, if_false, next_present hp, Option.bind_some]
      split_ifs <;> rfl
    · simp only [hp, not_false_iff, if_true, next_absent hp, Option.bind_none, Option.getD_none]

lemma vmmGetPageMapping_eq (inv : TreeInv src U m pm.topLevel (depth pm.hasLevel5))
    (hU : U (topIndex pm.hasLevel5 vaddr)) :
    vmmGetPageMapping m pm vaddr =
      lookup m pm.topLevel (tablePath pm.hasLevel5 vaddr) (pml1Index vaddr) := by
  have hup := words_prefixClosed U _ _ _ (tablePath_mem hU)
  have hlen := tablePath_length pm.hasLevel5 vaddr
  simp only [tablePath, List.length_append, List.length_singleton] at hlen
  exact vmmGetPageMapping_of_small fun t ht => inv.small _ hup hlen t ht _

/-- What one call changes: the entry at one word and index. -/
def Updates (U : Fin 512 → Prop) (pm : Pagemap) (m m' : Machine σ) (vaddr : BitVec 64)
    (e : Option (BitVec 64)) : Prop :=
  ∀ ρ ∈ words U (depth pm.hasLevel5), ρ.length = depth pm.hasLevel5 → ∀ j,
    entryAt m' pm.topLevel ρ j =
      if ρ = tablePath pm.hasLevel5 vaddr ∧ j = pml1Index vaddr then e
      else entryAt m pm.topLevel ρ j

/-- Requests for pages of 4 KiB. -/
structure SmallPage (flags : BitVec 64) : Prop where
  flagsOnly : FlagsOnly flags
  present : Present flags
  small : ¬ Large flags

lemma SmallPage.present_or (h : SmallPage flags) (paddr : BitVec 64) : Present (paddr ||| flags) := by
  have := h.present
  rw [present_iff] at *
  simp [this]

/-- `vmm_map_page` succeeds and updates the lookup of its address. -/
theorem vmmMapPage_updates {b : Bool} (hv : 2 ^ 63 ≤ highVma)
    (inv : TreeInv src U m pm.topLevel (depth pm.hasLevel5)) (h0 : Taken src m.pmm 0)
    (hU : U (topIndex pm.hasLevel5 vaddr)) (hs : SmallPage flags)
    (h : vmmMapPage src.alloc m pm vaddr paddr flags = some (b, m')) :
    b = true ∧ TreeInv src U m' pm.topLevel (depth pm.hasLevel5) ∧ Taken src m'.pmm 0 ∧
      Updates U pm m m' vaddr (some (paddr ||| flags)) ∧
      Spares src U pm.topLevel (depth pm.hasLevel5) m m' := by
  have hmem := tablePath_mem hU
  have hup := words_prefixClosed U _ _ _ hmem
  unfold vmmMapPage at h
  cases he : ensureTables src.alloc flags m pm.topLevel (upperIndices pm.hasLevel5 vaddr) with
  | none => simp [he] at h
  | some x =>
    obtain ⟨r, m1⟩ := x
    obtain ⟨pml2, rfl, inv1, h01, hw1, hsame1, hspare1⟩ := inv.ensureTables hv h0 (π := []) rfl
      (by simpa using hup) hs.flagsOnly hs.present he
    rw [List.nil_append] at hw1
    have hsmall : ¬ flags &&& pteSize ≠ 0 := hs.small
    simp only [he, if_neg hsmall] at h
    cases he2 : ensureTable src.alloc m1 flags pml2 (pml2Index vaddr) with
    | none => simp [he2] at h
    | some y =>
      obtain ⟨r2, m2⟩ := y
      obtain ⟨pml1, rfl, inv2, h02, hw2, hsame2, hspare2⟩ := inv1.ensureTable hv h01 hw1 hmem hs.flagsOnly
        hs.present he2
      simp only [he2, Option.some.injEq, Prod.mk.injEq] at h
      obtain ⟨rfl, rfl⟩ := h
      obtain ⟨inv3, hspare3, hset⟩ := inv2.setEntry (i := pml1Index vaddr) (e := paddr ||| flags) (depth_pos _) hw2
        hmem (tablePath_length _ _)
      refine ⟨rfl, inv3, h02, fun ρ hρ hn j => ?_, (hspare1.trans hspare2).trans hspare3⟩
      rw [hset ρ hρ hn j, if_pos (hs.present_or paddr), hsame2 ρ hρ hn j, hsame1 ρ hρ hn j]
      rfl

/-- `vmm_unmap_page` clears the lookup of its address. -/
theorem vmmUnmapPage_updates (inv : TreeInv src U m pm.topLevel (depth pm.hasLevel5))
    (hU : U (topIndex pm.hasLevel5 vaddr)) :
    TreeInv src U (vmmUnmapPage m pm vaddr).2 pm.topLevel (depth pm.hasLevel5) ∧
      (vmmUnmapPage m pm vaddr).2.pmm = m.pmm ∧
      Updates U pm m (vmmUnmapPage m pm vaddr).2 vaddr none ∧
      Spares src U pm.topLevel (depth pm.hasLevel5) m (vmmUnmapPage m pm vaddr).2 := by
  have hmem := tablePath_mem hU
  have hup := words_prefixClosed U _ _ _ hmem
  have hlen := tablePath_length pm.hasLevel5 vaddr
  have hnone : walk m.next pm.topLevel (tablePath pm.hasLevel5 vaddr) = none →
      Updates U pm m m vaddr none := by
    intro hw ρ hρ hn j
    by_cases hj : ρ = tablePath pm.hasLevel5 vaddr ∧ j = pml1Index vaddr
    · rw [if_pos hj, hj.1, entryAt_of_walk_none hw]
    · rw [if_neg hj]
  unfold vmmUnmapPage
  rw [tablePath, walk_snoc] at hnone
  cases hw : walk m.next pm.topLevel (upperIndices pm.hasLevel5 vaddr) with
  | none => exact ⟨inv, rfl, hnone (by rw [hw]; rfl), .refl ..⟩
  | some pml2 =>
    have hsmall := inv.small _ hup (by simpa [tablePath] using hlen) pml2 hw (pml2Index vaddr)
    simp only [if_neg hsmall]
    by_cases hp : Present (m.entry pml2 (pml2Index vaddr))
    · simp only [hp, not_true, if_false]
      have hw2 : walk m.next pm.topLevel (tablePath pm.hasLevel5 vaddr) =
          some (frameOf (m.entry pml2 (pml2Index vaddr))) := by
        rw [tablePath, walk_snoc, hw, Option.bind_some, next_present hp]
      obtain ⟨inv', hspare, hset⟩ := inv.setEntry (i := pml1Index vaddr) (e := 0) (depth_pos _) hw2 hmem hlen
      refine ⟨inv', rfl, fun ρ hρ hn j => ?_, hspare⟩
      rw [hset ρ hρ hn j, if_neg (show ¬ Present 0 by decide)]
    · simp only [hp, not_false_iff, if_true]
      refine ⟨inv, trivial, hnone ?_, .refl ..⟩
      rw [hw, Option.bind_some, next_absent hp]

end Pages

/-- All indices that translate an address. -/
def pageIndices (hasLevel5 : Bool) (vaddr : BitVec 64) : List (Fin 512) :=
  tablePath hasLevel5 vaddr ++ [pml1Index vaddr]

lemma pageIndices_eq_iff {five : Bool} {v w : BitVec 64} :
    pageIndices five v = pageIndices five w ↔
      tablePath five v = tablePath five w ∧ pml1Index v = pml1Index w := by
  simp [pageIndices]

inductive Call
  | map (vaddr paddr flags : BitVec 64)
  | unmap (vaddr : BitVec 64)
  deriving DecidableEq, Repr

/-- The finite map that a pagemap stands for: what is mapped at which indices. -/
abbrev PageMapping := List (Fin 512) → BitVec 64

def Call.apply (hasLevel5 : Bool) (M : PageMapping) : Call → PageMapping
  | .map vaddr paddr flags => Function.update M (pageIndices hasLevel5 vaddr) (paddr ||| flags)
  | .unmap vaddr => Function.update M (pageIndices hasLevel5 vaddr) noMapping

section Histories
variable {σ : Type} {highVma : ℕ} {src : PageSource σ highVma} {pm : Pagemap}

inductive Served (src : PageSource σ highVma) (pm : Pagemap) : Machine σ → Call → Machine σ → Prop
  | map {m m' : Machine σ} {vaddr paddr flags : BitVec 64} {b : Bool} :
      SmallPage flags → vmmMapPage src.alloc m pm vaddr paddr flags = some (b, m') →
      Served src pm m (.map vaddr paddr flags) m'
  | unmap {m : Machine σ} {vaddr : BitVec 64} :
      Served src pm m (.unmap vaddr) (vmmUnmapPage m pm vaddr).2

/-- A pagemap with an empty top level. Frame 0, which the code takes for a failure, and the top
level are not available to the allocator. -/
structure Empty (src : PageSource σ highVma) (m : Machine σ) (pm : Pagemap) : Prop where
  zero : Taken src m.pmm 0
  top : Taken src m.pmm pm.topLevel
  entries : ∀ i, m.entry pm.topLevel i = 0

/-- What holds between calls. -/
def Sound (src : PageSource σ highVma) (pm : Pagemap) (m : Machine σ) : Prop :=
  TreeInv src (fun _ => True) m pm.topLevel (depth pm.hasLevel5) ∧ Taken src m.pmm 0

lemma Empty.walk_eq {m : Machine σ} (h : Empty src m pm) {π : List (Fin 512)} {t : ℕ}
    (hw : walk m.next pm.topLevel π = some t) : π = [] ∧ t = pm.topLevel := by
  cases π with
  | nil => exact ⟨rfl, by simpa using hw.symm⟩
  | cons i π =>
    have habs : ¬ Present (m.entry pm.topLevel i) := by
      rw [h.entries]
      decide
    simp [walk_cons, next_absent habs] at hw

lemma Empty.treeInv {m : Machine σ} (h : Empty src m pm) (U : Fin 512 → Prop) :
    TreeInv src U m pm.topLevel (depth pm.hasLevel5) := by
  refine ⟨?_, ?_, ?_⟩
  · intro π _ ρ _ t h1 h2
    rw [(h.walk_eq h1).1, (h.walk_eq h2).1]
  · intro π _ t hw
    rw [(h.walk_eq hw).2]
    exact h.top
  · intro π _ _ t hw i
    rw [(h.walk_eq hw).2, h.entries]
    decide

lemma Empty.sound {m : Machine σ} (h : Empty src m pm) : Sound src pm m := ⟨h.treeInv _, h.zero⟩

lemma Empty.get {m : Machine σ} (h : Empty src m pm) (vaddr : BitVec 64) :
    vmmGetPageMapping m pm vaddr = noMapping := by
  rw [vmmGetPageMapping_eq h.sound.1 trivial, lookup]
  cases hw : walk m.next pm.topLevel (tablePath pm.hasLevel5 vaddr) with
  | none => rw [entryAt_of_walk_none hw, Option.getD_none]
  | some t =>
    have hnil := (h.walk_eq hw).1
    simp [tablePath] at hnil

/-- The change of one lookup, seen through `vmm_get_page_mapping`. -/
lemma Updates.get {U : Fin 512 → Prop} {m m' : Machine σ} {vaddr w : BitVec 64} {e : Option (BitVec 64)}
    (inv : TreeInv src U m pm.topLevel (depth pm.hasLevel5)) (inv' : TreeInv src U m' pm.topLevel (depth pm.hasLevel5))
    (hu : Updates U pm m m' vaddr e) (hw : U (topIndex pm.hasLevel5 w)) :
    vmmGetPageMapping m' pm w =
      if pageIndices pm.hasLevel5 w = pageIndices pm.hasLevel5 vaddr then e.getD noMapping
      else vmmGetPageMapping m pm w := by
  rw [vmmGetPageMapping_eq inv hw, vmmGetPageMapping_eq inv' hw, lookup, lookup,
    hu _ (tablePath_mem hw) (tablePath_length _ _) _]
  simp only [pageIndices_eq_iff]
  split_ifs <;> rfl

lemma Sound.map {m m' : Machine σ} {vaddr paddr flags : BitVec 64} {b : Bool}
    (hv : 2 ^ 63 ≤ highVma) (hs : Sound src pm m) (hp : SmallPage flags)
    (h : vmmMapPage src.alloc m pm vaddr paddr flags = some (b, m')) :
    b = true ∧ Sound src pm m' ∧ ∀ w, vmmGetPageMapping m' pm w =
      if pageIndices pm.hasLevel5 w = pageIndices pm.hasLevel5 vaddr then paddr ||| flags
      else vmmGetPageMapping m pm w := by
  obtain ⟨hb, inv, h0, hu, -⟩ := vmmMapPage_updates hv hs.1 hs.2 trivial hp h
  exact ⟨hb, ⟨inv, h0⟩, fun w => hu.get hs.1 inv trivial⟩

lemma Sound.unmap {m : Machine σ} (hs : Sound src pm m) (vaddr : BitVec 64) :
    Sound src pm (vmmUnmapPage m pm vaddr).2 ∧
      ∀ w, vmmGetPageMapping (vmmUnmapPage m pm vaddr).2 pm w =
        if pageIndices pm.hasLevel5 w = pageIndices pm.hasLevel5 vaddr then noMapping
        else vmmGetPageMapping m pm w := by
  obtain ⟨inv, hpmm, hu, -⟩ := vmmUnmapPage_updates hs.1 (show (fun _ => True) (topIndex pm.hasLevel5 vaddr) from trivial)
  have hs' : Sound src pm (vmmUnmapPage m pm vaddr).2 := ⟨inv, hpmm ▸ hs.2⟩
  exact ⟨hs', fun w => hu.get hs.1 inv trivial⟩

/-- One call on the tables is one update of the finite map. -/
lemma Sound.step {m m' : Machine σ} {c : Call} {M : PageMapping} (hv : 2 ^ 63 ≤ highVma)
    (hs : Sound src pm m) (hM : ∀ w, vmmGetPageMapping m pm w = M (pageIndices pm.hasLevel5 w))
    (h : Served src pm m c m') :
    Sound src pm m' ∧
      ∀ w, vmmGetPageMapping m' pm w = c.apply pm.hasLevel5 M (pageIndices pm.hasLevel5 w) := by
  cases h with
  | map hp hm =>
    obtain ⟨-, hs', hget⟩ := hs.map hv hp hm
    refine ⟨hs', fun w => ?_⟩
    rw [hget, Call.apply, Function.update_apply, hM]
  | unmap =>
    obtain ⟨hs', hget⟩ := hs.unmap _
    refine ⟨hs', fun w => ?_⟩
    rw [hget, Call.apply, Function.update_apply, hM]

lemma Sound.run {m m' : Machine σ} {calls : List Call} {M : PageMapping} (hv : 2 ^ 63 ≤ highVma)
    (hs : Sound src pm m) (hM : ∀ w, vmmGetPageMapping m pm w = M (pageIndices pm.hasLevel5 w))
    (h : Run (Served src pm) m calls m') :
    Sound src pm m' ∧ ∀ w, vmmGetPageMapping m' pm w =
      calls.foldl (Call.apply pm.hasLevel5) M (pageIndices pm.hasLevel5 w) := by
  induction h generalizing M with
  | nil m => exact ⟨hs, hM⟩
  | cons hstep _ ih =>
    obtain ⟨hs1, hM1⟩ := hs.step hv hM hstep
    exact ih hs1 hM1

/-- Page tables refine a finite map: after every history of an empty pagemap each address reads
what the finite map holds at its indices, and the next call updates it at one place. -/
theorem pageTables_refine_map {m0 m : Machine σ} {calls : List Call} (hv : 2 ^ 63 ≤ highVma)
    (hempty : Empty src m0 pm) (hrun : Run (Served src pm) m0 calls m) :
    (∀ w, vmmGetPageMapping m pm w =
      calls.foldl (Call.apply pm.hasLevel5) (fun _ => noMapping) (pageIndices pm.hasLevel5 w)) ∧
    (∀ vaddr paddr flags b m', SmallPage flags →
      vmmMapPage src.alloc m pm vaddr paddr flags = some (b, m') →
      b = true ∧ vmmGetPageMapping m' pm vaddr = paddr ||| flags ∧
      ∀ w, pageIndices pm.hasLevel5 w ≠ pageIndices pm.hasLevel5 vaddr →
        vmmGetPageMapping m' pm w = vmmGetPageMapping m pm w) ∧
    ∀ vaddr, vmmGetPageMapping (vmmUnmapPage m pm vaddr).2 pm vaddr = noMapping ∧
      ∀ w, pageIndices pm.hasLevel5 w ≠ pageIndices pm.hasLevel5 vaddr →
        vmmGetPageMapping (vmmUnmapPage m pm vaddr).2 pm w = vmmGetPageMapping m pm w := by
  obtain ⟨hs, hM⟩ := hempty.sound.run hv (M := fun _ => noMapping) hempty.get hrun
  refine ⟨hM, ?_, ?_⟩
  · intro vaddr paddr flags b m' hp h
    obtain ⟨hb, -, hget⟩ := hs.map hv hp h
    exact ⟨hb, by rw [hget, if_pos rfl], fun w hw => by rw [hget, if_neg hw]⟩
  · intro vaddr
    obtain ⟨-, hget⟩ := hs.unmap vaddr
    exact ⟨by rw [hget, if_pos rfl], fun w hw => by rw [hget, if_neg hw]⟩

end Histories

/-- Two frames are in use, the rest of memory is free. -/
def firstPages : Bump where
  next := 0x2000
  limit := 2 ^ 63
  given := [(0, 0x2000)]
  aligned := rfl
  outside := by simp

def bareMachine : Machine Bump := ⟨fun _ => 0, firstPages⟩

lemma bareMachine_empty (highVma : ℕ) (five : Bool) :
    Empty (bumpSource highVma) bareMachine ⟨1, five⟩ where
  zero := ⟨(0, 0x2000), List.mem_singleton.mpr rfl, by decide⟩
  top := ⟨(0, 0x2000), List.mem_singleton.mpr rfl, by simp [pageSize]⟩
  entries _ := read64_zero _

theorem pageTables_refine_map_firstPages : ∃ m,
    Run (Served (bumpSource Pmm.directMap) ⟨1, true⟩) bareMachine
      [.map 0x400000 0x9000 (ptePresent ||| pteUser)] m ∧
    vmmGetPageMapping m ⟨1, true⟩ 0x400123 = 0x9005 ∧
    vmmGetPageMapping (vmmUnmapPage m ⟨1, true⟩ 0x400000).2 ⟨1, true⟩ 0x400000 = noMapping := by
  have hsome : (vmmMapPage (bumpAlloc Pmm.directMap) bareMachine ⟨1, true⟩ 0x400000 0x9000
      (ptePresent ||| pteUser)).isSome := by decide
  obtain ⟨⟨b, m⟩, hm⟩ := Option.isSome_iff_exists.mp hsome
  have hpage : SmallPage (ptePresent ||| pteUser) := by
    constructor
    · unfold FlagsOnly
      decide
    · decide
    · decide
  have hrun : Run (Served (bumpSource Pmm.directMap) ⟨1, true⟩) bareMachine
      [.map 0x400000 0x9000 (ptePresent ||| pteUser)] m := .single (.map hpage hm)
  obtain ⟨hget, -, hunmap⟩ := pageTables_refine_map (by decide) (bareMachine_empty _ true) hrun
  exact ⟨m, hrun, by rw [hget]; decide, (hunmap 0x400000).1⟩

end PiggyOs.Vmm
