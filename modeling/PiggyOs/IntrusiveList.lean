import PiggyOs.Fuel

/-! Singly linked lists laid out in a store of nodes, with the link inside the node. The loops that
follow links take fuel, because the links of an arbitrary store may form a cycle. -/
namespace PiggyOs.IntrusiveList
open Filter Fuel

variable {α : Type*} {next next' : α → Option α} {a b c : Option α} {l l' : List α} {t x z : α}

/-- Following the links from `a` visits `l` and arrives at `b`. -/
def Seg (next : α → Option α) : Option α → List α → Option α → Prop
  | a, [], b => a = b
  | a, x :: l, b => a = some x ∧ Seg next (next x) l b

@[simp] lemma seg_nil : Seg next a [] b ↔ a = b := Iff.rfl

@[simp] lemma seg_cons : Seg next a (x :: l) b ↔ a = some x ∧ Seg next (next x) l b := Iff.rfl

lemma seg_append : Seg next a (l ++ l') c ↔ ∃ b, Seg next a l b ∧ Seg next b l' c := by
  induction l generalizing a with
  | nil => simp
  | cons x l ih => simp [ih, and_assoc]

lemma Seg.congr (h : Seg next a l b) (hl : ∀ x ∈ l, next' x = next x) : Seg next' a l b := by
  induction l generalizing a with
  | nil => exact h
  | cons x l ih =>
    refine ⟨h.1, ?_⟩
    rw [hl x List.mem_cons_self]
    exact ih h.2 fun y hy => hl y (List.mem_cons_of_mem _ hy)

/-- A list that starts at a node of a list is the rest of it. -/
lemma Seg.suffix (h : Seg next a l none) (hx : x ∈ l) : ∃ l₂ ⊆ l, Seg next (next x) l₂ none := by
  obtain ⟨l₁, l₂, rfl⟩ := List.append_of_mem hx
  obtain ⟨b, -, -, h₂⟩ := seg_append.mp h
  exact ⟨l₂, fun y hy => by simp [hy], h₂⟩

section Loops
variable [DecidableEq α]

/-- The last node that is reached. -/
def lastFrom (next : α → Option α) : ℕ → α → Option α
  | 0, _ => none
  | fuel + 1, x => match next x with
      | none => some x
      | some y => lastFrom next fuel y

/-- Add a node behind the last one. Its own link is left as it is. -/
def pushBack (next : α → Option α) (fuel : ℕ) (head : Option α) (t : α) :
    Option ((α → Option α) × Option α) :=
  match head with
  | none => some (next, some t)
  | some x => (lastFrom next fuel x).map fun z => (Function.update next z (some t), head)

/-- Look for the node whose link is `t` and take `t` out behind it. -/
def unlinkAfter (next : α → Option α) (t : α) : ℕ → Option α → Option (α → Option α)
  | 0, _ => none
  | _ + 1, none => some next
  | fuel + 1, some x =>
      if next x = some t then some (Function.update (Function.update next x (next t)) t none)
      else unlinkAfter next t fuel (next x)

/-- Take a node out and clear its link. -/
def remove (next : α → Option α) (fuel : ℕ) (head : Option α) (t : α) :
    Option ((α → Option α) × Option α) :=
  if head = some t then some (Function.update next t none, next t)
  else (unlinkAfter next t fuel head).map fun next' => (next', head)

omit [DecidableEq α] in
lemma lastFrom_seg {fuel : ℕ} (h : Seg next (some x) (l ++ [z]) none) (hf : l.length < fuel) :
    lastFrom next fuel x = some z := by
  induction l generalizing x fuel with
  | nil =>
    obtain ⟨hx, hz⟩ := h
    obtain rfl := Option.some.inj hx
    obtain ⟨fuel, rfl⟩ := Nat.exists_eq_succ_of_ne_zero hf.ne'
    rw [seg_nil] at hz
    simp [lastFrom, hz]
  | cons y l ih =>
    obtain ⟨hx, h⟩ := h
    obtain rfl := Option.some.inj hx
    obtain ⟨fuel, rfl⟩ : ∃ f, fuel = f + 1 := ⟨fuel - 1, by omega⟩
    rw [lastFrom]
    cases hy : next x with
    | none =>
      rw [hy] at h
      cases l <;> simp at h
    | some w =>
      rw [hy] at h
      exact ih h (by simpa using hf)

/-- Adding a node that is on no list. -/
theorem pushBack_seg (h : Seg next a l none) (hd : l.Nodup) (ht : t ∉ l) (hn : next t = none) :
    ∃ next' a', (∀ᶠ fuel in atTop, pushBack next fuel a t = some (next', a')) ∧
      Seg next' a' (l ++ [t]) none ∧ ∀ x ∉ l, next' x = next x := by
  rcases List.eq_nil_or_concat l with rfl | ⟨l, z, rfl⟩
  · obtain rfl : a = none := h
    exact ⟨next, some t, .of_forall fun _ => rfl, ⟨rfl, hn⟩, fun _ _ => rfl⟩
  · rw [List.concat_eq_append] at *
    obtain ⟨x, rfl⟩ : ∃ x, a = some x := by
      cases l with
      | nil => exact ⟨z, h.1⟩
      | cons y l => exact ⟨y, h.1⟩
    refine ⟨Function.update next z (some t), some x, ?_, ?_, fun y hy => ?_⟩
    · filter_upwards [eventually_gt_atTop l.length] with fuel hf
      simp [pushBack, lastFrom_seg h hf]
    · obtain ⟨b, h₁, rfl, -⟩ := seg_append.mp h
      have hz : z ∉ l := by
        rw [List.nodup_append] at hd
        exact fun hz => hd.2.2 z hz z (List.mem_singleton_self z) rfl
      have htz : t ≠ z := by
        rintro rfl
        simp at ht
      rw [List.append_assoc, seg_append]
      refine ⟨some z, h₁.congr fun y hy => Function.update_of_ne (ne_of_mem_of_not_mem hy hz) _ _, rfl, ?_, ?_⟩
      · rw [Function.update_self]
      · rw [Function.update_of_ne htz]
        exact hn
    · exact Function.update_of_ne (fun he => hy (by simp [he])) _ _

lemma unlinkAfter_seg {fuel : ℕ} (h : Seg next a (l ++ z :: t :: l') none) (hd : (l ++ z :: t :: l').Nodup)
    (hf : l.length < fuel) :
    unlinkAfter next t fuel a = some (Function.update (Function.update next z (next t)) t none) := by
  induction l generalizing a fuel with
  | nil =>
    obtain ⟨rfl, hz, -⟩ := h
    obtain ⟨fuel, rfl⟩ : ∃ f, fuel = f + 1 := ⟨fuel - 1, by simp at hf; omega⟩
    rw [unlinkAfter, if_pos hz]
  | cons y l ih =>
    obtain ⟨rfl, h⟩ := h
    obtain ⟨fuel, rfl⟩ : ∃ f, fuel = f + 1 := ⟨fuel - 1, by omega⟩
    rw [List.cons_append, List.nodup_cons] at hd
    have hne : next y ≠ some t := by
      intro he
      rw [he] at h
      cases l with
      | nil =>
        obtain rfl := Option.some.inj h.1
        simp at hd
      | cons w l =>
        obtain rfl := Option.some.inj h.1
        simp at hd
    rw [unlinkAfter, if_neg hne]
    exact ih h hd.2 (by simpa using hf)

lemma unlinkAfter_notMem {fuel : ℕ} (h : Seg next a l none) (ht : t ∉ l) (hf : l.length < fuel) :
    unlinkAfter next t fuel a = some next := by
  induction l generalizing a fuel with
  | nil =>
    obtain rfl : a = none := h
    obtain ⟨fuel, rfl⟩ : ∃ f, fuel = f + 1 := ⟨fuel - 1, by simp at hf; omega⟩
    rfl
  | cons y l ih =>
    obtain ⟨rfl, h⟩ := h
    obtain ⟨fuel, rfl⟩ : ∃ f, fuel = f + 1 := ⟨fuel - 1, by omega⟩
    rw [List.mem_cons, not_or] at ht
    have hne : next y ≠ some t := by
      intro he
      rw [he] at h
      cases l with
      | nil => simp at h
      | cons w l => exact ht.2 (by simp [Option.some.inj h.1])
    rw [unlinkAfter, if_neg hne]
    exact ih h ht.2 (by simpa using hf)

/-- Removing a node of the list. -/
theorem remove_seg (h : Seg next a l none) (hd : l.Nodup) (ht : t ∈ l) :
    ∃ next' a', (∀ᶠ fuel in atTop, remove next fuel a t = some (next', a')) ∧ Seg next' a' (l.erase t) none ∧
      next' t = none ∧ ∀ x ∉ l, next' x = next x := by
  obtain ⟨l₁, l₂, rfl⟩ := List.append_of_mem ht
  have hd' := List.nodup_append.mp hd
  have ht₂ : t ∉ l₂ := (List.nodup_cons.mp hd'.2.1).1
  have ht₁ : t ∉ l₁ := fun hin => hd'.2.2 t hin t List.mem_cons_self rfl
  rw [List.erase_append_right _ ht₁, List.erase_cons_head]
  rcases List.eq_nil_or_concat l₁ with rfl | ⟨l₀, z, rfl⟩
  · obtain ⟨rfl, h⟩ := h
    refine ⟨_, _, .of_forall fun _ => if_pos rfl, h.congr fun y hy => ?_, Function.update_self .., fun y hy => ?_⟩
    · exact Function.update_of_ne (ne_of_mem_of_not_mem hy ht₂) _ _
    · exact Function.update_of_ne (fun he => hy (by simp [he])) _ _
  · rw [List.concat_eq_append] at *
    rw [List.append_assoc, List.singleton_append] at h hd
    have hz : z ∉ l₀ ∧ z ∉ l₂ ∧ z ≠ t := by
      rw [List.nodup_append] at hd
      refine ⟨fun hz => hd.2.2 z hz z List.mem_cons_self rfl, fun hz => ?_, fun he => ?_⟩
      · exact (List.nodup_cons.mp hd.2.1).1 (List.mem_cons_of_mem _ hz)
      · exact (List.nodup_cons.mp hd.2.1).1 (by simp [he])
    have hhead : a ≠ some t := by
      rintro rfl
      cases l₀ with
      | nil => exact hz.2.2 (Option.some.inj h.1).symm
      | cons y l₀ => exact ht₁ (by simp [Option.some.inj h.1])
    have hsplit := seg_append.mp h
    obtain ⟨b, h₁, rfl, hzt, h₂⟩ := hsplit
    refine ⟨Function.update (Function.update next z (next t)) t none, a, ?_, ?_,
      Function.update_self .., fun y hy => ?_⟩
    · filter_upwards [eventually_gt_atTop l₀.length] with fuel hf
      simp [remove, hhead, unlinkAfter_seg h hd hf]
    · rw [List.append_assoc, seg_append]
      refine ⟨some z, h₁.congr fun y hy => ?_, rfl, ?_⟩
      · rw [Function.update_of_ne (fun he => ht₁ (by simp [← he, hy])),
          Function.update_of_ne (ne_of_mem_of_not_mem hy hz.1)]
      · rw [Function.update_of_ne hz.2.2, Function.update_self]
        refine h₂.congr fun y hy => ?_
        rw [Function.update_of_ne (ne_of_mem_of_not_mem hy ht₂),
          Function.update_of_ne (ne_of_mem_of_not_mem hy hz.2.1)]
    · rw [Function.update_of_ne (fun he => hy (by simp [he])), Function.update_of_ne (fun he => hy (by simp [he]))]

/-- Removing a node of another list changes nothing. -/
theorem remove_notMem (h : Seg next a l none) (ht : t ∉ l) :
    ∀ᶠ fuel in atTop, remove next fuel a t = some (next, a) := by
  have hhead : a ≠ some t := by
    rintro rfl
    cases l with
    | nil => simp at h
    | cons y l => exact ht (by simp [Option.some.inj h.1])
  filter_upwards [eventually_gt_atTop l.length] with fuel hf
  simp [remove, hhead, unlinkAfter_notMem h ht hf]

end Loops

section Endings

lemma lastFrom_succ {fuel : ℕ} (h : lastFrom next fuel x = some z) : lastFrom next (fuel + 1) x = some z := by
  induction fuel generalizing x with
  | zero => simp [lastFrom] at h
  | succ fuel ih =>
    rw [lastFrom] at h ⊢
    cases hx : next x with
    | none => simpa [hx] using h
    | some y =>
      rw [hx] at h
      exact ih h

/-- Where the links lead in the end, or `none` if they never end. -/
noncomputable def ending (next : α → Option α) (x : α) : Option α := limit fun fuel => lastFrom next fuel x

lemma settles_ending (next : α → Option α) (x : α) : Settles (fun fuel => lastFrom next fuel x) (ending next x) :=
  settles_limit fun _ _ => lastFrom_succ

lemma ending_eq (next : α → Option α) (x : α) :
    ending next x = match next x with
      | none => some x
      | some y => ending next y := by
  refine (settles_ending next x).unique (Settles.of_succ rfl ?_)
  simp only [lastFrom]
  cases next x with
  | none => exact settles_const _
  | some y => exact settles_ending next y

lemma ending_of_none (h : next x = none) : ending next x = some x := by rw [ending_eq, h]

lemma ending_of_some (h : next x = some z) : ending next x = ending next z := by rw [ending_eq, h]

lemma exists_lastFrom (h : ending next x = some z) : ∃ fuel, lastFrom next fuel x = some z :=
  h ▸ (settles_ending next x).eventually.exists

lemma next_of_ending (h : ending next x = some z) : next z = none := by
  obtain ⟨fuel, hf⟩ := exists_lastFrom h
  clear h
  induction fuel generalizing x with
  | zero => simp [lastFrom] at hf
  | succ fuel ih =>
    rw [lastFrom] at hf
    cases hx : next x with
    | none =>
      rw [hx] at hf
      exact Option.some.inj hf ▸ hx
    | some y =>
      rw [hx] at hf
      exact ih hf

/-- New links behind the ends of the old chains. -/
lemma ending_extend (h : ending next x = some z) (hn : ∀ y w, next y = some w → next' y = some w) :
    ending next' x = ending next' z := by
  obtain ⟨fuel, hf⟩ := exists_lastFrom h
  clear h
  induction fuel generalizing x with
  | zero => simp [lastFrom] at hf
  | succ fuel ih =>
    rw [lastFrom] at hf
    cases hx : next x with
    | none =>
      rw [hx] at hf
      rw [Option.some.inj hf]
    | some y =>
      rw [hx] at hf
      rw [ending_of_some (hn x y hx)]
      exact ih hf

/-- Where the links lead from a set that they do not leave. -/
lemma ending_mem {P : Set α} (closed : ∀ y ∈ P, ∀ w, next y = some w → w ∈ P) (hx : x ∈ P) (h : ending next x = some z) :
    z ∈ P := by
  obtain ⟨fuel, hf⟩ := exists_lastFrom h
  clear h
  induction fuel generalizing x with
  | zero => simp [lastFrom] at hf
  | succ fuel ih =>
    rw [lastFrom] at hf
    cases hnext : next x with
    | none =>
      rw [hnext] at hf
      exact Option.some.inj hf ▸ hx
    | some y =>
      rw [hnext] at hf
      exact ih (closed x hx y hnext) hf

/-- Links without a cycle all end. -/
lemma wellFounded_iff_ending : (WellFounded fun y x => next x = some y) ↔ ∀ x, ∃ z, ending next x = some z := by
  constructor
  · intro h x
    induction x using h.induction with
    | _ x ih =>
      cases hx : next x with
      | none => exact ⟨x, ending_of_none hx⟩
      | some y =>
        rw [ending_of_some hx]
        exact ih y hx
  · intro h
    refine ⟨fun x => ?_⟩
    obtain ⟨z, hz⟩ := h x
    obtain ⟨fuel, hf⟩ := exists_lastFrom hz
    clear hz
    induction fuel generalizing x with
    | zero => simp [lastFrom] at hf
    | succ fuel ih =>
      refine ⟨x, fun y hy => ih y ?_⟩
      rwa [lastFrom, hy] at hf

variable [DecidableEq α] {a b : α}

/-- A new link closes a cycle exactly if its end already leads to its beginning. -/
lemma wellFounded_update_iff (h : WellFounded fun y x => next x = some y) (ha : next a = none) :
    (WellFounded fun y x => Function.update next a (some b) x = some y) ↔ ending next b ≠ some a := by
  have hkeep : ∀ y w, next y = some w → Function.update next a (some b) y = some w := by
    intro y w hy
    rw [Function.update_of_ne, hy]
    rintro rfl
    simp [ha] at hy
  have hlast : ∀ z, next z = none → z ≠ a → ending (Function.update next a (some b)) z = some z := by
    intro z hz hza
    exact ending_of_none (by rw [Function.update_of_ne hza, hz])
  rw [wellFounded_iff_ending] at h ⊢
  constructor
  · intro h' hb
    obtain ⟨z, hz⟩ := h' b
    have hclosed : ∀ y ∈ {y | ending next y = some a}, ∀ w, Function.update next a (some b) y = some w →
        w ∈ {y | ending next y = some a} := by
      intro y hy w hw
      by_cases hya : y = a
      · rw [hya, Function.update_self] at hw
        exact Option.some.inj hw ▸ hb
      · rw [Function.update_of_ne hya] at hw
        exact (ending_of_some hw).symm.trans hy
    have hza : z ∈ {y | ending next y = some a} := ending_mem hclosed hb hz
    have hnone := next_of_ending hz
    by_cases hzeq : z = a
    · rw [hzeq, Function.update_self] at hnone
      simp at hnone
    · rw [Function.update_of_ne hzeq] at hnone
      exact hzeq (Option.some.inj ((ending_of_none hnone).symm.trans hza))
  · intro hb x
    obtain ⟨c, hc⟩ := h b
    have hca : c ≠ a := fun hca => hb (hca ▸ hc)
    obtain ⟨z, hz⟩ := h x
    rw [ending_extend hz hkeep]
    by_cases hza : z = a
    · rw [hza, ending_of_some (Function.update_self ..), ending_extend hc hkeep]
      exact ⟨c, hlast c (next_of_ending hc) hca⟩
    · exact ⟨z, hlast z (next_of_ending hz) hza⟩

end Endings

end PiggyOs.IntrusiveList
