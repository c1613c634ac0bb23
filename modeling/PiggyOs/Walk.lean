import Mathlib.Tactic

/-! Walks in a labelled structure whose edges are a partial function `next : α → ι → Option α`.
The structure is a tree on a set of words when no two of these words lead from the root to one
node; changing one edge of such a tree is felt only by the words that use it. -/
namespace PiggyOs.Walk

variable {α ι : Type*} {next next' : α → ι → Option α} {root t u : α} {i : ι} {W : Set (List ι)}
  {π ρ : List ι}

def walk (next : α → ι → Option α) (root : α) (π : List ι) : Option α := π.foldlM next root

@[simp] lemma walk_nil : walk next root [] = some root := rfl

lemma walk_cons : walk next root (i :: π) = (next root i).bind fun t => walk next t π := by
  simp [walk]

lemma walk_append : walk next root (π ++ ρ) = (walk next root π).bind fun t => walk next t ρ := by
  simp [walk]

lemma walk_snoc : walk next root (π ++ [i]) = (walk next root π).bind fun t => next t i := by
  rw [walk_append]
  refine congrArg _ (funext fun t => ?_)
  simp [walk_cons]

/-- The node at the end of a word that goes on is reached by every prefix of it. -/
lemma walk_prefix (h : walk next root (π ++ ρ) = some u) : ∃ t, walk next root π = some t := by
  rw [walk_append] at h
  obtain ⟨t, ht, -⟩ := Option.bind_eq_some_iff.mp h
  exact ⟨t, ht⟩

def IsTree (next : α → ι → Option α) (root : α) (W : Set (List ι)) : Prop :=
  ∀ π ∈ W, ∀ ρ ∈ W, ∀ t, walk next root π = some t → walk next root ρ = some t → π = ρ

/-- The words are closed under taking prefixes. -/
def PrefixClosed (W : Set (List ι)) : Prop := ∀ π j, π ++ [j] ∈ W → π ∈ W

lemma PrefixClosed.prefix_mem (hW : PrefixClosed W) (h : π <+: ρ) (hρ : ρ ∈ W) : π ∈ W := by
  obtain ⟨σ, rfl⟩ := h
  induction σ using List.reverseRecOn with
  | nil => simpa using hρ
  | append_singleton σ j ih =>
    rw [← List.append_assoc] at hρ
    exact ih (hW _ j hρ)

/-- On the nodes that the words reach, the structures agree on every edge except `i` at `t`. -/
def AgreeOff (next next' : α → ι → Option α) (root : α) (W : Set (List ι)) (t : α) (i : ι) : Prop :=
  ∀ ρ ∈ W, ∀ s, walk next root ρ = some s → ∀ j, ¬ (s = t ∧ j = i) → next' s j = next s j

/-- Words that do not use the edge lead where they led. The last step of the word may leave the
set of words on which the structure is a tree. -/
theorem walk_of_avoids (hoff : AgreeOff next next' root W t i) (htree : IsTree next root W)
    (hπ : walk next root π = some t) (hπW : π ∈ W) (hρ : ∀ σ j, σ ++ [j] <+: ρ → σ ∈ W)
    (hno : ¬ π ++ [i] <+: ρ) : walk next' root ρ = walk next root ρ := by
  induction ρ using List.reverseRecOn with
  | nil => rfl
  | append_singleton ρ j ih =>
    have hlast : π ++ [i] ≠ ρ ++ [j] := fun h => hno (h ▸ List.prefix_rfl)
    have hshort : ¬ π ++ [i] <+: ρ := fun h => hno (h.trans (List.prefix_append _ _))
    have hρW := hρ ρ j List.prefix_rfl
    rw [walk_snoc, walk_snoc, ih (fun σ k h => hρ σ k (h.trans (List.prefix_append _ _))) hshort]
    cases hw : walk next root ρ with
    | none => rfl
    | some s =>
      refine hoff ρ hρW s hw j ?_
      rintro ⟨rfl, rfl⟩
      exact hlast (by rw [htree π hπW ρ hρW s hπ hw])

lemma PrefixClosed.strict (hW : PrefixClosed W) (hρ : ρ ∈ W) (σ : List ι) (j : ι)
    (h : σ ++ [j] <+: ρ) : σ ∈ W := hW σ j (hW.prefix_mem h hρ)

/-- The word up to the edge leads where it led. -/
lemma walk_self (hW : PrefixClosed W) (hoff : AgreeOff next next' root W t i) (htree : IsTree next root W)
    (hπ : walk next root π = some t) (hπW : π ∈ W) : walk next' root π = some t := by
  rw [walk_of_avoids hoff htree hπ hπW (hW.strict hπW) fun h => ?_, hπ]
  have := h.length_le
  simp at this

/-- The words of the new structure when the edge leads to a node without edges. -/
lemma walk_grow_cases (hW : PrefixClosed W) (htree : IsTree next root W)
    (hoff : AgreeOff next next' root W t i) (hπ : walk next root π = some t) (hπW : π ∈ W)
    (hnew : next' t i = some u) (hleaf : ∀ j, next' u j = none) (hρ : ρ ∈ W) {s : α}
    (hs : walk next' root ρ = some s) :
    (ρ = π ++ [i] ∧ s = u) ∨ (¬ π ++ [i] <+: ρ ∧ walk next root ρ = some s) := by
  by_cases hpre : π ++ [i] <+: ρ
  · obtain ⟨σ, rfl⟩ := hpre
    have hto : walk next' root (π ++ [i]) = some u := by
      rw [walk_snoc, walk_self hW hoff htree hπ hπW, Option.bind_some, hnew]
    rw [walk_append, hto, Option.bind_some] at hs
    cases σ with
    | nil => exact Or.inl ⟨by simp, by simpa using hs.symm⟩
    | cons j σ => simp [walk_cons, hleaf] at hs
  · rw [walk_of_avoids hoff htree hπ hπW (hW.strict hρ) hpre] at hs
    exact Or.inr ⟨hpre, hs⟩

/-- Hanging a new node into a tree keeps a tree. -/
theorem IsTree.grow (hW : PrefixClosed W) (htree : IsTree next root W)
    (hoff : AgreeOff next next' root W t i) (hπ : walk next root π = some t) (hπW : π ∈ W)
    (hnew : next' t i = some u) (hleaf : ∀ j, next' u j = none)
    (hfresh : ∀ ρ ∈ W, walk next root ρ ≠ some u) : IsTree next' root W := by
  intro ρ hρ σ hσ s h1 h2
  rcases walk_grow_cases hW htree hoff hπ hπW hnew hleaf hρ h1 with ⟨rfl, rfl⟩ | ⟨-, h1⟩ <;>
    rcases walk_grow_cases hW htree hoff hπ hπW hnew hleaf hσ h2 with ⟨rfl, hs⟩ | ⟨-, h2⟩
  · rfl
  · exact absurd h2 (hfresh σ hσ)
  · exact absurd (hs ▸ h1) (hfresh ρ hρ)
  · exact htree ρ hρ σ hσ s h1 h2

/-- A structure whose walks on the words are the same is a tree too. -/
lemma IsTree.congr (htree : IsTree next root W)
    (h : ∀ ρ ∈ W, walk next' root ρ = walk next root ρ) : IsTree next' root W := by
  intro ρ hρ σ hσ s h1 h2
  rw [h ρ hρ] at h1
  rw [h σ hσ] at h2
  exact htree ρ hρ σ hσ s h1 h2

end PiggyOs.Walk
