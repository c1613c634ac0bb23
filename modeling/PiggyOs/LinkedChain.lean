import Mathlib.Tactic

/-! Doubly linked lists laid out in a store of nodes: `Chain next prev before head l` says that
following `next` from `head` visits exactly `l`, and that each node's `prev` names the node
before it. -/
namespace PiggyOs.LinkedChain

variable {α : Type*} {next prev next' prev' : α → Option α}

def Chain (next prev : α → Option α) : Option α → Option α → List α → Prop
  | _, head, [] => head = none
  | before, head, a :: l => head = some a ∧ prev a = before ∧ Chain next prev (some a) (next a) l

@[simp] lemma chain_nil {before head : Option α} :
    Chain next prev before head [] ↔ head = none := Iff.rfl

@[simp] lemma chain_cons {before head : Option α} {a : α} {l : List α} :
    Chain next prev before head (a :: l) ↔
      head = some a ∧ prev a = before ∧ Chain next prev (some a) (next a) l := Iff.rfl

lemma Chain.head_eq {before head : Option α} {l : List α} (h : Chain next prev before head l) :
    head = l.head? := by
  cases l with
  | nil => simpa using h
  | cons a l => exact h.1

/-- A chain depends on the links of its own nodes only. -/
lemma Chain.congr {before head : Option α} {l : List α} (h : Chain next prev before head l)
    (hn : ∀ a ∈ l, next' a = next a) (hp : ∀ a ∈ l, prev' a = prev a) :
    Chain next' prev' before head l := by
  induction l generalizing before head with
  | nil => exact h
  | cons a l ih =>
    obtain ⟨h1, h2, h3⟩ := h
    refine ⟨h1, by rw [hp a (by simp), h2], ?_⟩
    rw [hn a (by simp)]
    exact ih h3 (fun b hb => hn b (by simp [hb])) fun b hb => hp b (by simp [hb])

/-- Only the first node knows what stands before the chain. -/
lemma Chain.reroot {before before' head : Option α} {l : List α}
    (h : Chain next prev before head l) (hd : l.Nodup) (hn : ∀ a ∈ l, next' a = next a)
    (hf : ∀ a ∈ l.head?, prev' a = before') (ht : ∀ a ∈ l.tail, prev' a = prev a) :
    Chain next' prev' before' head l := by
  cases l with
  | nil => exact h
  | cons a l =>
    obtain ⟨h1, -, h3⟩ := h
    refine ⟨h1, hf a (by simp), ?_⟩
    rw [hn a (by simp)]
    exact h3.congr (fun b hb => hn b (by simp [hb])) ht

end PiggyOs.LinkedChain
