import Mathlib.Data.Finite.Prod
import Mathlib.Logic.Relation
import Mathlib.Order.WellFounded
import Mathlib.Tactic

/-! Traversals that follow references from the items of a node to other nodes, without marking the nodes that have been
visited. They end and list every item once exactly if no node with items is entered twice. -/
namespace PiggyOs.Traversal
open Relation

variable {β ι α κ : Type*}

/-- The lists of all items one after the other; `none` as soon as one of them is. -/
def gather (f : ι → Option (List α)) : List ι → Option (List α)
  | [] => some []
  | i :: l => (f i).bind fun a => (gather f l).map fun r => a ++ r

section Gathering
variable {f g : ι → Option (List α)} {l l' : List ι} {r a b : List α} {i j : ι} {key : α → κ} {x : α}

lemma gather_cons : gather f (i :: l) = some r ↔ ∃ a b, f i = some a ∧ gather f l = some b ∧ r = a ++ b := by
  simp only [gather, Option.bind_eq_some_iff, Option.map_eq_some_iff]
  constructor
  · rintro ⟨a, ha, b, hb, rfl⟩
    exact ⟨a, b, ha, hb, rfl⟩
  · rintro ⟨a, b, ha, hb, rfl⟩
    exact ⟨a, ha, b, hb, rfl⟩

lemma gather_append : gather f (l ++ l') = some r ↔
    ∃ a b, gather f l = some a ∧ gather f l' = some b ∧ r = a ++ b := by
  induction l generalizing r with
  | nil => simp [gather]
  | cons i l ih =>
    rw [List.cons_append, gather_cons]
    constructor
    · rintro ⟨a, s, ha, hs, rfl⟩
      obtain ⟨b, c, hb, hc, rfl⟩ := ih.mp hs
      exact ⟨a ++ b, c, gather_cons.mpr ⟨a, b, ha, hb, rfl⟩, hc, (List.append_assoc ..).symm⟩
    · rintro ⟨s, c, hs, hc, rfl⟩
      obtain ⟨a, b, ha, hb, rfl⟩ := gather_cons.mp hs
      exact ⟨a, b ++ c, ha, ih.mpr ⟨b, c, hb, hc, rfl⟩, List.append_assoc ..⟩

lemma gather_mono (h : ∀ i ∈ l, ∀ a, f i = some a → g i = some a) (hr : gather f l = some r) :
    gather g l = some r := by
  induction l generalizing r with
  | nil => exact hr
  | cons i l ih =>
    obtain ⟨a, b, ha, hb, rfl⟩ := gather_cons.mp hr
    rw [List.forall_mem_cons] at h
    exact gather_cons.mpr ⟨a, b, h.1 a ha, ih h.2 hb, rfl⟩

lemma gather_mem (hr : gather f l = some r) (hx : x ∈ r) : ∃ i ∈ l, ∃ a, f i = some a ∧ x ∈ a := by
  induction l generalizing r with
  | nil =>
    cases hr
    cases hx
  | cons i l ih =>
    obtain ⟨a, b, ha, hb, rfl⟩ := gather_cons.mp hr
    obtain hx | hx := List.mem_append.mp hx
    · exact ⟨i, List.mem_cons_self .., a, ha, hx⟩
    · obtain ⟨j, hj, c, hc, hxc⟩ := ih hb hx
      exact ⟨j, List.mem_cons_of_mem i hj, c, hc, hxc⟩

lemma gather_part (hr : gather f l = some r) (hi : i ∈ l) : ∃ a, f i = some a ∧ a <:+: r := by
  induction l generalizing r with
  | nil => cases hi
  | cons j l ih =>
    obtain ⟨a, b, ha, hb, rfl⟩ := gather_cons.mp hr
    obtain rfl | hi := List.mem_cons.mp hi
    · exact ⟨a, ha, List.prefix_append a b |>.isInfix⟩
    · obtain ⟨c, hc, hcb⟩ := ih hb hi
      exact ⟨c, hc, hcb.trans (List.suffix_append a b).isInfix⟩

/-- Where each item needs some amount of fuel, one amount is enough for all of them. -/
lemma exists_gather {f : ℕ → ι → Option (List α)} (mono : ∀ n i a, f n i = some a → f (n + 1) i = some a)
    (h : ∀ i ∈ l, ∃ n a, f n i = some a) : ∃ n r, gather (f n) l = some r := by
  have hle : ∀ m n i a, m ≤ n → f m i = some a → f n i = some a := by
    intro m n i a hmn hm
    induction hmn with
    | refl => exact hm
    | step _ ih => exact mono _ i a ih
  induction l with
  | nil => exact ⟨0, [], rfl⟩
  | cons i l ih =>
    rw [List.forall_mem_cons] at h
    obtain ⟨n, a, ha⟩ := h.1
    obtain ⟨m, b, hb⟩ := ih h.2
    exact ⟨max n m, a ++ b, gather_cons.mpr ⟨a, b, hle n _ i a (le_max_left n m) ha,
      gather_mono (fun j _ c hc => hle m _ j c (le_max_right n m) hc) hb, rfl⟩⟩

lemma gather_nodup (hr : gather f l = some r) (hone : ∀ i ∈ l, ∀ a, f i = some a → (a.map key).Nodup)
    (hapart : l.Pairwise fun i j => ∀ a b, f i = some a → f j = some b → (a.map key).Disjoint (b.map key)) :
    (r.map key).Nodup := by
  induction l generalizing r with
  | nil =>
    cases hr
    exact List.nodup_nil
  | cons i l ih =>
    obtain ⟨a, b, ha, hb, rfl⟩ := gather_cons.mp hr
    rw [List.forall_mem_cons] at hone
    rw [List.pairwise_cons] at hapart
    rw [List.map_append, List.nodup_append']
    refine ⟨hone.1 a ha, ih hb hone.2 hapart.2, fun k hka hkb => ?_⟩
    obtain ⟨x, hx, rfl⟩ := List.mem_map.mp hkb
    obtain ⟨j, hj, c, hc, hxc⟩ := gather_mem hb hx
    exact hapart.1 j hj a c ha hc hka (List.mem_map_of_mem hxc)

/-- In a list without repetition the parts of two items have nothing in common. -/
lemma gather_disjoint (hr : gather f l = some r) (hnodup : (r.map key).Nodup) (hi : i ∈ l) (hj : j ∈ l) (hij : i ≠ j)
    (ha : f i = some a) (hb : f j = some b) : (a.map key).Disjoint (b.map key) := by
  induction l generalizing r with
  | nil => cases hi
  | cons k l ih =>
    obtain ⟨s, t, hs, ht, rfl⟩ := gather_cons.mp hr
    rw [List.map_append, List.nodup_append'] at hnodup
    obtain ⟨-, htail, hapart⟩ := hnodup
    have hsub : ∀ i ∈ l, ∀ c, f i = some c → c.map key ⊆ t.map key := by
      intro i hi c hc
      obtain ⟨c', hc', hpart⟩ := gather_part ht hi
      cases hc.symm.trans hc'
      exact List.map_subset key hpart.subset
    obtain rfl | hi' := List.mem_cons.mp hi
    · obtain rfl | hj' := List.mem_cons.mp hj
      · exact absurd rfl hij
      · cases hs.symm.trans ha
        exact fun x hx hx' => hapart hx (hsub j hj' b hb hx')
    · obtain rfl | hj' := List.mem_cons.mp hj
      · cases hs.symm.trans hb
        exact fun x hx hx' => hapart hx' (hsub i hi' a ha hx)
      · exact ih ht htail hi' hj'

lemma infix_index {l : List κ} {e x : κ} (h : [e, x] <:+: l) : ∃ n, l[n]? = some e ∧ l[n + 1]? = some x := by
  obtain ⟨s, t, rfl⟩ := h
  exact ⟨s.length, by simp, by simp⟩

/-- What follows an element of a list without repetition is determined by it. -/
lemma follower_unique {l : List κ} (h : l.Nodup) {e x y : κ} (hx : [e, x] <:+: l) (hy : [e, y] <:+: l) : x = y := by
  obtain ⟨m, hm, hx⟩ := infix_index hx
  obtain ⟨n, hn, hy⟩ := infix_index hy
  have hlt : m < l.length := (List.getElem?_eq_some_iff.mp hm).1
  obtain rfl := (List.getElem?_inj hlt h).mp (hm.trans hn.symm)
  exact Option.some.inj (hx.symm.trans hy)

/-- Nothing follows the last element. -/
lemma last_unfollowed {l : List κ} {e x : κ} (h : (l ++ [e]).Nodup) : ¬ [e, x] <:+: l ++ [e] := by
  intro hx
  obtain ⟨n, hn, hnext⟩ := infix_index hx
  have hlast : (l ++ [e])[l.length]? = some e := by simp
  have hlt : n < (l ++ [e]).length := (List.getElem?_eq_some_iff.mp hn).1
  obtain rfl := (List.getElem?_inj hlt h).mp (hn.trans hlast.symm)
  simp at hnext

end Gathering

/-- Nodes with items, some of which refer to a node. What an item adds to the list itself may need fuel, and shows which
item it is. -/
structure Levels (β ι α : Type*) where
  items : β → List ι
  place : ι → β
  child : ι → Option β
  own : ℕ → ι → Option α
  key : α → ι
  items_nodup : ∀ b, (items b).Nodup
  place_eq : ∀ b, ∀ i ∈ items b, place i = b
  own_mono : ∀ n i a, own n i = some a → own (n + 1) i = some a
  key_own : ∀ n i a, own n i = some a → key a = i

namespace Levels
variable (L : Levels β ι α)

/-- What comes before an item: the list of the node that it refers to. -/
def below (visit : β → Option (List α)) (i : ι) : Option (List α) := (L.child i).elim (some []) visit

def visit : ℕ → β → Option (List α)
  | 0, _ => none
  | n + 1, b => gather (fun i => (L.below (visit n) i).bind fun r => (L.own n i).map fun a => r ++ [a]) (L.items b)

def Leads (b c : β) : Prop := ∃ i ∈ L.items b, L.child i = some c

def Reached (roots : List β) (b : β) : Prop := ∃ r ∈ roots, ReflTransGen L.Leads r b

/-- The ways into a node: as a root, or from an item that is reached. -/
def Enters (roots : List β) : Option ι → β → Prop
  | none, b => b ∈ roots
  | some i, b => L.child i = some b ∧ L.Reached roots (L.place i) ∧ i ∈ L.items (L.place i)

def EnteredOnce (roots : List β) : Prop :=
  ∀ b, L.items b ≠ [] → ∀ w w', L.Enters roots w b → L.Enters roots w' b → w = w'

def Ends (roots : List β) : Prop := ∀ b, L.Reached roots b → ∀ i ∈ L.items b, ∃ n a, L.own n i = some a

section Visits
variable {L} {roots : List β} {b c d : β} {i j : ι} {l r : List α} {m n : ℕ} {w w' : Option ι}

lemma visitItem_eq : ((L.below (L.visit n) i).bind fun r => (L.own n i).map fun a => r ++ [a]) = some l ↔
    ∃ r a, L.below (L.visit n) i = some r ∧ L.own n i = some a ∧ l = r ++ [a] := by
  simp only [Option.bind_eq_some_iff, Option.map_eq_some_iff]
  constructor
  · rintro ⟨r, hr, a, ha, rfl⟩
    exact ⟨r, a, hr, ha, rfl⟩
  · rintro ⟨r, a, hr, ha, rfl⟩
    exact ⟨r, hr, a, ha, rfl⟩

lemma below_mono (h : ∀ c l, L.visit m c = some l → L.visit n c = some l) (hr : L.below (L.visit m) i = some r) :
    L.below (L.visit n) i = some r := by
  unfold below at hr ⊢
  cases hc : L.child i with
  | none => rwa [hc] at hr
  | some c =>
    rw [hc] at hr
    exact h c r hr

lemma visit_succ (h : L.visit n b = some l) : L.visit (n + 1) b = some l := by
  induction n generalizing b l with
  | zero => cases h
  | succ n ih =>
    refine gather_mono (fun i _ a ha => ?_) h
    obtain ⟨r, x, hr, hx, rfl⟩ := visitItem_eq.mp ha
    exact visitItem_eq.mpr ⟨r, x, below_mono (fun c l hc => ih hc) hr, L.own_mono n i x hx, rfl⟩

lemma visitItem_succ (h : ((L.below (L.visit n) i).bind fun r => (L.own n i).map fun a => r ++ [a]) = some l) :
    ((L.below (L.visit (n + 1)) i).bind fun r => (L.own (n + 1) i).map fun a => r ++ [a]) = some l := by
  obtain ⟨r, a, hr, ha, rfl⟩ := visitItem_eq.mp h
  exact visitItem_eq.mpr ⟨r, a, below_mono (fun c l hc => visit_succ hc) hr, L.own_mono n i a ha, rfl⟩

lemma visit_le (hmn : m ≤ n) (h : L.visit m b = some l) : L.visit n b = some l := by
  induction hmn with
  | refl => exact h
  | step _ ih => exact visit_succ ih

lemma own_le {a : α} (hmn : m ≤ n) (h : L.own m i = some a) : L.own n i = some a := by
  induction hmn with
  | refl => exact h
  | step _ ih => exact L.own_mono _ i a ih

lemma visit_unique (h : L.visit m b = some l) (h' : L.visit n b = some r) : l = r :=
  Option.some.inj ((visit_le (le_max_left m n) h).symm.trans (visit_le (le_max_right m n) h'))

/-- The part of an item in the list of its node. -/
lemma visit_item (h : L.visit (n + 1) b = some l) (hi : i ∈ L.items b) :
    ∃ r a, L.below (L.visit n) i = some r ∧ L.own n i = some a ∧ r ++ [a] <:+: l := by
  obtain ⟨s, hs, hpart⟩ := gather_part h hi
  obtain ⟨r, a, hr, ha, rfl⟩ := visitItem_eq.mp hs
  exact ⟨r, a, hr, ha, hpart⟩

lemma visit_child (h : L.visit (n + 1) b = some l) (hi : i ∈ L.items b) (hc : L.child i = some c) :
    ∃ r a, L.visit n c = some r ∧ L.own n i = some a ∧ r ++ [a] <:+: l := by
  obtain ⟨r, a, hr, ha, hpart⟩ := visit_item h hi
  rw [below, hc] at hr
  exact ⟨r, a, hr, ha, hpart⟩

lemma visit_reach (h : L.visit n b = some l) (hc : ReflTransGen L.Leads b c) :
    ∃ m r, L.visit m c = some r ∧ r <:+: l := by
  induction hc with
  | refl => exact ⟨n, l, h, List.infix_rfl⟩
  | tail _ hstep ih =>
    obtain ⟨m, r, hr, hpart⟩ := ih
    obtain ⟨i, hi, hc⟩ := hstep
    cases m with
    | zero => cases hr
    | succ m =>
      obtain ⟨s, a, hs, -, hsub⟩ := visit_child hr hi hc
      exact ⟨m, s, hs, (List.prefix_append s [a]).isInfix.trans (hsub.trans hpart)⟩

/-- Everything in a list is an item of a node below. -/
lemma visit_keys (h : L.visit n b = some l) {x : α} (hx : x ∈ l) :
    ∃ c, ReflTransGen L.Leads b c ∧ L.key x ∈ L.items c := by
  induction n generalizing b l with
  | zero => cases h
  | succ n ih =>
    obtain ⟨i, hi, s, hs, hxs⟩ := gather_mem h hx
    obtain ⟨r, a, hr, ha, rfl⟩ := visitItem_eq.mp hs
    obtain hxr | hxa := List.mem_append.mp hxs
    · unfold below at hr
      cases hc : L.child i with
      | none =>
        rw [hc] at hr
        cases hr
        cases hxr
      | some c =>
        rw [hc] at hr
        obtain ⟨d, hcd, hd⟩ := ih hr hxr
        exact ⟨d, .head ⟨i, hi, hc⟩ hcd, hd⟩
    · obtain rfl := List.mem_singleton.mp hxa
      rw [L.key_own n i x ha]
      exact ⟨b, .refl, hi⟩

/-- The list of a node ends with its last item. -/
lemma visit_last (h : L.visit n b = some l) (hne : L.items b ≠ []) :
    ∃ r a, l = r ++ [a] ∧ L.key a = (L.items b).getLast hne := by
  cases n with
  | zero => cases h
  | succ n =>
    rw [visit, ← List.dropLast_append_getLast hne, gather_append] at h
    obtain ⟨s, t, -, ht, rfl⟩ := h
    obtain ⟨u, v, hu, hv, rfl⟩ := gather_cons.mp ht
    obtain ⟨r, a, -, ha, rfl⟩ := visitItem_eq.mp hu
    cases hv
    exact ⟨s ++ r, a, by simp, L.key_own n _ a ha⟩

/-- A visit that ends follows no cycle. -/
lemma acyclic_of_visit (h : L.visit n b = some l) : ¬ TransGen L.Leads b b := by
  induction n generalizing b l with
  | zero => cases h
  | succ n ih =>
    intro hcycle
    obtain ⟨c, ⟨i, hi, hc⟩, hcb⟩ := TransGen.head'_iff.mp hcycle
    obtain ⟨r, a, hr, -, -⟩ := visit_child h hi hc
    exact ih hr (TransGen.tail' hcb ⟨i, hi, hc⟩)

lemma items_ne_nil (h : ReflTransGen L.Leads b c) (hc : L.items c ≠ []) : L.items b ≠ [] := by
  obtain rfl | ⟨d, ⟨i, hi, -⟩, -⟩ := ReflTransGen.cases_head h
  · exact hc
  · exact List.ne_nil_of_mem hi

lemma Reached.trans (h : L.Reached roots b) (hc : ReflTransGen L.Leads b c) : L.Reached roots c := by
  obtain ⟨r, hr, hb⟩ := h
  exact ⟨r, hr, hb.trans hc⟩

lemma enters_of_leads (h : L.Reached roots b) (hi : i ∈ L.items b) (hc : L.child i = some c) :
    L.Enters roots (some i) c := by
  have hplace := L.place_eq b i hi
  exact ⟨hc, hplace ▸ h, hplace ▸ hi⟩

lemma reached_of_enters (h : L.Enters roots w b) : L.Reached roots b := by
  cases w with
  | none => exact ⟨b, h, .refl⟩
  | some i => exact h.2.1.trans (.single ⟨i, h.2.2, h.1⟩)

/-- A node that is entered twice, as itself and below another one, is entered the second time from below that one. -/
lemma entered_below (hunique : L.EnteredOnce roots) (hb : L.Enters roots w b) (hc : L.Enters roots w' c)
    (hdiff : b = c → w ≠ w') (hbc : ReflTransGen L.Leads b c) (hne : L.items c ≠ []) :
    ∃ i, w' = some i ∧ ReflTransGen L.Leads b (L.place i) := by
  obtain rfl | ⟨d, hbd, i, hi, hchild⟩ := ReflTransGen.cases_tail hbc
  · exact absurd (hunique _ hne w w' hb hc) (hdiff rfl)
  · have hreached := (reached_of_enters hb).trans hbd
    have hplace := L.place_eq d i hi
    exact ⟨i, hunique c hne w' (some i) hc (enters_of_leads hreached hi hchild), hplace ▸ hbd⟩

/-- Where no node is entered twice, there is no cycle. -/
lemma acyclic_of_once (hunique : L.EnteredOnce roots) (h : L.Reached roots b) : ¬ TransGen L.Leads b b := by
  obtain ⟨r, hr, hrb⟩ := h
  have hlast : ∀ {b w}, L.Enters roots w b → TransGen L.Leads b b →
      ∃ i, w = some i ∧ ReflTransGen L.Leads b (L.place i) := by
    intro b w hw hcycle
    obtain ⟨d, hbd, i, hi, hchild⟩ := TransGen.tail'_iff.mp hcycle
    have hne : L.items b ≠ [] := items_ne_nil hbd (List.ne_nil_of_mem hi)
    have hplace := L.place_eq d i hi
    exact ⟨i, hunique b hne w (some i) hw (enters_of_leads ((reached_of_enters hw).trans hbd) hi hchild), hplace ▸ hbd⟩
  induction hrb with
  | refl =>
    intro hcycle
    obtain ⟨i, hi, -⟩ := hlast (w := none) hr hcycle
    cases hi
  | @tail b c hrb hstep ih =>
    intro hcycle
    obtain ⟨i, hi, hchild⟩ := hstep
    obtain ⟨j, hj, hcj⟩ := hlast (enters_of_leads ⟨r, hr, hrb⟩ hi hchild) hcycle
    cases hj
    rw [L.place_eq b i hi] at hcj
    exact ih (TransGen.head' ⟨i, hi, hchild⟩ hcj)

/-- Without cycles a visit ends at every node that is reached. -/
lemma exists_visit [Finite β] (hends : L.Ends roots) (hacyclic : ∀ b, L.Reached roots b → ¬ TransGen L.Leads b b)
    (h : L.Reached roots b) : ∃ n l, L.visit n b = some l := by
  have hsub : ∀ c d, TransGen (fun c b => L.Reached roots b ∧ L.Leads b c) c d →
      L.Reached roots d ∧ TransGen L.Leads d c := by
    intro c d hcd
    induction hcd with
    | single hstep => exact ⟨hstep.1, .single hstep.2⟩
    | tail _ hstep ih => exact ⟨hstep.1, .head hstep.2 ih.2⟩
  have hirrefl : Std.Irrefl (TransGen fun c b => L.Reached roots b ∧ L.Leads b c) :=
    ⟨fun b hb => hacyclic b (hsub b b hb).1 (hsub b b hb).2⟩
  have hwf : WellFounded (TransGen fun c b => L.Reached roots b ∧ L.Leads b c) :=
    Finite.wellFounded_of_trans_of_irrefl _
  induction b using hwf.induction with
  | _ b ih =>
    have hitems : ∀ i ∈ L.items b, ∃ n l,
        ((L.below (L.visit n) i).bind fun r => (L.own n i).map fun a => r ++ [a]) = some l := by
      intro i hi
      obtain ⟨n, a, ha⟩ := hends b h i hi
      cases hc : L.child i with
      | none => exact ⟨n, [] ++ [a], visitItem_eq.mpr ⟨[], a, by rw [below, hc]; rfl, ha, rfl⟩⟩
      | some c =>
        obtain ⟨m, l, hl⟩ := ih c (.single ⟨h, i, hi, hc⟩) (h.trans (.single ⟨i, hi, hc⟩))
        refine ⟨max m n, l ++ [a], visitItem_eq.mpr ⟨l, a, ?_, own_le (le_max_right m n) ha, rfl⟩⟩
        rw [below, hc]
        exact visit_le (le_max_left m n) hl
    have hmono : ∀ n i l, ((L.below (L.visit n) i).bind fun r => (L.own n i).map fun a => r ++ [a]) = some l →
        ((L.below (L.visit (n + 1)) i).bind fun r => (L.own (n + 1) i).map fun a => r ++ [a]) = some l :=
      fun n i l => visitItem_succ
    obtain ⟨n, l, hl⟩ := exists_gather hmono hitems
    exact ⟨n + 1, l, hl⟩

/-- The lists below two ways have nothing in common, unless one way leads to the other. -/
lemma below_apart (hunique : L.EnteredOnce roots) (hb : L.Enters roots w b) (hc : L.Enters roots w' c)
    (hdiff : b = c → w ≠ w') (hbelow : (∀ i, w' = some i → ¬ ReflTransGen L.Leads b (L.place i)) ∧
      ∀ i, w = some i → ¬ ReflTransGen L.Leads c (L.place i))
    (hl : L.visit m b = some l) (hr : L.visit n c = some r) : (l.map L.key).Disjoint (r.map L.key) := by
  have hjoin : ∀ {d}, ReflTransGen L.Leads b d → ReflTransGen L.Leads c d → L.items d ≠ [] → False := by
    intro d hbd hcd hne
    induction hbd with
    | refl =>
      obtain ⟨i, hi, hcb⟩ := entered_below hunique hc hb (fun heq => (hdiff heq.symm).symm) hcd hne
      exact hbelow.2 i hi hcb
    | @tail e d hbe hstep ih =>
      obtain ⟨i, hi, hchild⟩ := hstep
      obtain rfl | ⟨f, hcf, j, hj, hchild'⟩ := ReflTransGen.cases_tail hcd
      · obtain ⟨k, hk, hbk⟩ := entered_below hunique hb hc hdiff (hbe.tail ⟨i, hi, hchild⟩) hne
        exact hbelow.1 k hk hbk
      · have hway := hunique d hne _ _ (enters_of_leads ((reached_of_enters hb).trans hbe) hi hchild)
          (enters_of_leads ((reached_of_enters hc).trans hcf) hj hchild')
        cases hway
        obtain rfl := (L.place_eq e i hi).symm.trans (L.place_eq f i hj)
        exact ih hcf (List.ne_nil_of_mem hi)
  intro k hkl hkr
  obtain ⟨x, hx, rfl⟩ := List.mem_map.mp hkl
  obtain ⟨y, hy, hxy⟩ := List.mem_map.mp hkr
  obtain ⟨d, hbd, hd⟩ := visit_keys hl hx
  obtain ⟨f, hcf, hf⟩ := visit_keys hr hy
  rw [hxy] at hf
  obtain rfl := (L.place_eq d _ hd).symm.trans (L.place_eq f _ hf)
  exact hjoin hbd hcf (List.ne_nil_of_mem hd)

/-- Where no node is entered twice, no item is listed twice. -/
lemma visit_nodup (hunique : L.EnteredOnce roots) (h : L.Reached roots b) (hl : L.visit n b = some l) :
    (l.map L.key).Nodup := by
  induction n generalizing b l with
  | zero => cases hl
  | succ n ih =>
    have hacyclic := acyclic_of_once hunique h
    have hback : ∀ {i c}, i ∈ L.items b → L.child i = some c → ¬ ReflTransGen L.Leads c b :=
      fun hi hc hcb => hacyclic (TransGen.head' ⟨_, hi, hc⟩ hcb)
    -- an item of the node itself is not below another item of it
    have hself : ∀ {i j r}, i ∈ L.items b → j ∈ L.items b → L.below (L.visit n) i = some r → j ∉ r.map L.key := by
      intro i j r hi hj hr hmem
      obtain ⟨x, hx, rfl⟩ := List.mem_map.mp hmem
      unfold below at hr
      cases hc : L.child i with
      | none =>
        rw [hc] at hr
        cases hr
        cases hx
      | some c =>
        rw [hc] at hr
        obtain ⟨d, hcd, hd⟩ := visit_keys hr hx
        obtain rfl := (L.place_eq d _ hd).symm.trans (L.place_eq b _ hj)
        exact hback hi hc hcd
    refine gather_nodup hl (fun i hi s hs => ?_) ((L.items_nodup b).imp_of_mem fun {i j} hi hj hij s t hs ht => ?_)
    · obtain ⟨r, a, hr, ha, rfl⟩ := visitItem_eq.mp hs
      have hr' : (r.map L.key).Nodup := by
        unfold below at hr
        cases hc : L.child i with
        | none =>
          rw [hc] at hr
          cases hr
          exact List.nodup_nil
        | some c =>
          rw [hc] at hr
          exact ih (h.trans (.single ⟨i, hi, hc⟩)) hr
      rw [List.map_append, List.map_singleton, L.key_own n i a ha]
      exact hr'.append (List.nodup_singleton i) (List.disjoint_singleton.mpr (hself hi hi hr))
    · obtain ⟨r, a, hr, ha, rfl⟩ := visitItem_eq.mp hs
      obtain ⟨r', a', hr', ha', rfl⟩ := visitItem_eq.mp ht
      rw [List.map_append, List.map_append, List.map_singleton, List.map_singleton, L.key_own n i a ha,
        L.key_own n j a' ha', List.disjoint_append_left, List.disjoint_append_right, List.disjoint_append_right]
      refine ⟨⟨?_, List.disjoint_singleton.mpr (hself hi hj hr)⟩, List.singleton_disjoint.mpr (hself hj hi hr'),
        List.disjoint_singleton.mpr (by simpa using fun h => hij h.symm)⟩
      unfold below at hr hr'
      cases hc : L.child i with
      | none =>
        rw [hc] at hr
        cases hr
        exact List.disjoint_nil_left _
      | some c =>
        cases hc' : L.child j with
        | none =>
          rw [hc'] at hr'
          cases hr'
          exact List.disjoint_nil_right _
        | some c' =>
          rw [hc] at hr
          rw [hc'] at hr'
          refine below_apart hunique (enters_of_leads h hi hc) (enters_of_leads h hj hc')
            (fun _ heq => hij (Option.some.inj heq)) ⟨fun k hk => ?_, fun k hk => ?_⟩ hr hr'
          · cases hk
            rw [L.place_eq b j hj]
            exact hback hi hc
          · cases hk
            rw [L.place_eq b i hi]
            exact hback hj hc'

/-- The last item of a node that is entered from an item is followed by that one. -/
lemma followed_of_enters (h : ∀ c, L.Reached roots c → ∃ m r, L.visit m c = some r ∧ r <:+: l)
    (hb : L.Enters roots (some i) b) (hne : L.items b ≠ []) :
    [(L.items b).getLast hne, i] <:+: l.map L.key := by
  obtain ⟨hchild, hreached, hi⟩ := hb
  obtain ⟨m, r, hr, hpart⟩ := h _ hreached
  cases m with
  | zero => cases hr
  | succ m =>
    obtain ⟨s, a, hs, ha, hsub⟩ := visit_child hr hi hchild
    obtain ⟨t, x, rfl, hx⟩ := visit_last hs hne
    have hmap := (hsub.trans hpart).map L.key
    rw [List.map_append, List.map_append, List.map_singleton, List.map_singleton, hx, L.key_own m i a ha,
      List.append_assoc] at hmap
    exact (List.suffix_append _ _).isInfix.trans hmap

/-- The traversal from the roots ends and lists every item once, exactly if what the items add themselves can be
computed and no node with items is entered twice. -/
theorem traversal_iff [Finite β] (L : Levels β ι α) {roots : List β} (hroots : roots.Nodup) :
    (∃ n l, gather (L.visit n) roots = some l ∧ (l.map L.key).Nodup) ↔ L.Ends roots ∧ L.EnteredOnce roots := by
  constructor
  · rintro ⟨n, l, hl, hnodup⟩
    have hvisit : ∀ c, L.Reached roots c → ∃ m r, L.visit m c = some r ∧ r <:+: l := by
      rintro c ⟨r, hr, hc⟩
      obtain ⟨s, hs, hpart⟩ := gather_part hl hr
      obtain ⟨m, t, ht, hsub⟩ := visit_reach hs hc
      exact ⟨m, t, ht, hsub.trans hpart⟩
    -- a root has no item behind its last one
    have hroot : ∀ {b i}, L.items b ≠ [] → b ∈ roots → ¬ L.Enters roots (some i) b := by
      intro b i hne hb henters
      obtain ⟨s, hs, hpart⟩ := gather_part hl hb
      obtain ⟨t, x, rfl, hx⟩ := visit_last hs hne
      obtain ⟨r, hr, hreached⟩ := henters.2.1
      obtain ⟨u, hu, hpart'⟩ := gather_part hl hr
      have hlocal : L.Enters [r] (some i) b :=
        ⟨henters.1, ⟨r, List.mem_singleton_self r, hreached⟩, henters.2.2⟩
      have hfollowed := followed_of_enters (l := u) (fun c hc => by
        obtain ⟨r', hr', hc⟩ := hc
        obtain rfl := List.mem_singleton.mp hr'
        exact visit_reach hu hc) hlocal hne
      by_cases hrb : r = b
      · subst hrb
        cases hs.symm.trans hu
        rw [List.map_append, List.map_singleton, hx] at hfollowed
        refine last_unfollowed ?_ hfollowed
        have hsub := (hpart.map L.key).sublist.nodup hnodup
        rwa [List.map_append, List.map_singleton, hx] at hsub
      · refine gather_disjoint hl hnodup hr hb hrb hu hs (hfollowed.subset (List.mem_cons_self ..)) ?_
        rw [List.map_append, List.map_singleton, hx]
        simp
    refine ⟨fun b hb i hi => ?_, fun b hne w w' hw hw' => ?_⟩
    · obtain ⟨m, r, hr, -⟩ := hvisit b hb
      cases m with
      | zero => cases hr
      | succ m =>
        obtain ⟨-, a, -, ha, -⟩ := visit_item hr hi
        exact ⟨m, a, ha⟩
    · cases w with
      | none =>
        cases w' with
        | none => rfl
        | some i => exact absurd hw' (hroot hne hw)
      | some i =>
        cases w' with
        | none => exact absurd hw (hroot hne hw')
        | some j =>
          exact congrArg some (follower_unique hnodup (followed_of_enters hvisit hw hne)
            (followed_of_enters hvisit hw' hne))
  · rintro ⟨hends, hunique⟩
    have hreached : ∀ r ∈ roots, L.Reached roots r := fun r hr => ⟨r, hr, .refl⟩
    obtain ⟨n, l, hl⟩ := exists_gather (fun n b s hs => visit_succ hs) fun r hr =>
      exists_visit hends (fun b hb => acyclic_of_once hunique hb) (hreached r hr)
    refine ⟨n, l, hl, gather_nodup hl (fun r hr s hs => visit_nodup hunique (hreached r hr) hs)
      (hroots.imp_of_mem fun {r r'} hr hr' hrr s t hs ht => ?_)⟩
    have henters : L.Enters roots none r ∧ L.Enters roots none r' := ⟨hr, hr'⟩
    refine below_apart hunique henters.1 henters.2 (fun heq => absurd heq hrr) ⟨fun i hi => ?_, fun i hi => ?_⟩ hs ht
    · cases hi
    · cases hi

end Visits

end Levels

end PiggyOs.Traversal
