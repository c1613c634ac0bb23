import PiggyOs.CString

/-! The hash map of directories: chains of entries, compared with `strncmp` up to the length of the
key that is looked for. Allocations succeed. -/
namespace PiggyOs.Hash
open CString

variable {V : Type}

def hashFunction (key : CString) : BitVec 32 :=
  key.1.foldl (fun hash c => c.setWidth 32 + (hash <<< 6) + (hash <<< 16) - hash) 0

/-- `hashmap_create` clears the array of the chains. -/
structure HashMap (V : Type) where
  size : ℕ
  positive : 1 ≤ size
  entries : ℕ → List (CString × V)

def hashmapCreate (V : Type) (size : ℕ) (h : 1 ≤ size) : HashMap V := ⟨size, h, fun _ => []⟩

def bucket (size : ℕ) (key : CString) : ℕ := (hashFunction key).toNat % size

/-- The value of the first entry that passes the test changes, or there is a new entry at the end. -/
def chainSet (test : CString → Bool) (key : CString) (value : V) : List (CString × V) → List (CString × V)
  | [] => [(key, value)]
  | x :: xs => if test x.1 then (x.1, value) :: xs else x :: chainSet test key value xs

def chainGet (test : CString → Bool) : List (CString × V) → Option V
  | [] => none
  | x :: xs => if test x.1 then some x.2 else chainGet test xs

def hashmapSet (map : HashMap V) (key : CString) (keySize : ℕ) (value : V) : HashMap V :=
  let hash := bucket map.size key
  { map with
    entries := Function.update map.entries hash
      (chainSet (fun k => strncmp k key keySize = 0) key value (map.entries hash)) }

def hashmapGet (map : HashMap V) (key : CString) (keySize : ℕ) : Option V :=
  chainGet (fun k => strncmp k key keySize = 0) (map.entries (bucket map.size key))

/-- The calls of `hashmap_set` as the kernel makes them, one after the other. -/
def setAll (map : HashMap V) (sets : List (CString × V)) : HashMap V :=
  sets.foldl (fun map s => hashmapSet map s.1 s.1.strlen s.2) map

/-- The finite map that the calls describe. -/
def finiteMap (sets : List (CString × V)) : CString → Option V :=
  sets.foldl (fun M s => Function.update M s.1 (some s.2)) fun _ => none

/-- Among the earlier keys in the same chain, each one that extends `k` comes after `k`. -/
def NotShadowed (size : ℕ) (earlier : List CString) (k : CString) : Prop :=
  ∀ pre k' post, earlier = pre ++ k' :: post → bucket size k' = bucket size k → k.1 <+: k'.1 →
    k' = k ∨ k ∈ pre

section Chains
variable {test test' : CString → Bool} {key : CString} {value : V} {chain : List (CString × V)}

/-- Two tests find the same entry if a wrong hit always comes after a right one. -/
def SameHit (test test' : CString → Bool) (chain : List (CString × V)) : Prop :=
  ∀ p x q, chain = p ++ x :: q → test x.1 = true → test' x.1 = true ∨ ∃ y ∈ p, test' y.1 = true

lemma SameHit.cases {x : CString × V} (hsub : ∀ k, test' k = true → test k = true)
    (h : SameHit test test' (x :: chain)) :
    (test x.1 = true ∧ test' x.1 = true) ∨ (test x.1 = false ∧ test' x.1 = false ∧ SameHit test test' chain) := by
  cases ht : test x.1 with
  | true =>
    rcases h [] x chain rfl ht with h' | ⟨y, hy, -⟩
    · exact Or.inl ⟨rfl, h'⟩
    · simp at hy
  | false =>
    have ht' : test' x.1 = false := by
      by_contra hne
      rw [hsub x.1 (by simpa using hne)] at ht
      exact Bool.noConfusion ht
    refine Or.inr ⟨rfl, ht', fun p y q hp hy => ?_⟩
    rcases h (x :: p) y q (by rw [hp, List.cons_append]) hy with h' | ⟨z, hz, hz'⟩
    · exact Or.inl h'
    · rcases List.mem_cons.mp hz with rfl | hz
      · rw [ht'] at hz'
        exact Bool.noConfusion hz'
      · exact Or.inr ⟨z, hz, hz'⟩

variable (key value) in
lemma chainSet_sameHit (hsub : ∀ k, test' k = true → test k = true) (h : SameHit test test' chain) :
    chainSet test key value chain = chainSet test' key value chain := by
  induction chain with
  | nil => rfl
  | cons x chain ih =>
    rw [chainSet, chainSet]
    rcases h.cases hsub with ⟨h1, h2⟩ | ⟨h1, h2, hrest⟩
    · rw [if_pos h1, if_pos h2]
    · rw [if_neg (by simp [h1]), if_neg (by simp [h2]), ih hrest]

lemma chainGet_sameHit (hsub : ∀ k, test' k = true → test k = true) (h : SameHit test test' chain) :
    chainGet test chain = chainGet test' chain := by
  induction chain with
  | nil => rfl
  | cons x chain ih =>
    rw [chainGet, chainGet]
    rcases h.cases hsub with ⟨h1, h2⟩ | ⟨h1, h2, hrest⟩
    · rw [if_pos h1, if_pos h2]
    · rw [if_neg (by simp [h1]), if_neg (by simp [h2]), ih hrest]

/-- With the exact test a key is added at the end, once. -/
lemma map_fst_chainSet (key : CString) (value : V) (chain : List (CString × V)) :
    (chainSet (fun k => k = key) key value chain).map Prod.fst =
      if key ∈ chain.map Prod.fst then chain.map Prod.fst else chain.map Prod.fst ++ [key] := by
  induction chain with
  | nil => simp [chainSet]
  | cons x chain ih =>
    rw [chainSet]
    by_cases hx : x.1 = key
    · simp [hx]
    · have hx' : key ≠ x.1 := fun h => hx h.symm
      rw [if_neg (by simpa using hx), List.map_cons, ih]
      simp only [List.map_cons, List.mem_cons, hx', false_or]
      split_ifs <;> rfl

lemma chainGet_chainSet (key k : CString) (value : V) (chain : List (CString × V)) :
    chainGet (fun x => x = k) (chainSet (fun x => x = key) key value chain) =
      if k = key then some value else chainGet (fun x => x = k) chain := by
  induction chain with
  | nil =>
    by_cases h : key = k
    · simp [chainSet, chainGet, h]
    · simp [chainSet, chainGet, h, Ne.symm h]
  | cons x chain ih =>
    rw [chainSet]
    by_cases hx : x.1 = key
    · rw [if_pos (by simpa using hx)]
      by_cases hk : key = k
      · simp [chainGet, hx, hk]
      · simp [chainGet, hx, hk, Ne.symm hk]
    · rw [if_neg (by simpa using hx), chainGet, chainGet, ih]
      by_cases hxk : x.1 = k
      · have hk : k ≠ key := fun h => hx (hxk.trans h)
        simp [hxk, hk]
      · simp [hxk]

lemma chainSet_of_chainGet_none (h : chainGet test chain = none) :
    chainSet test key value chain = chain ++ [(key, value)] := by
  induction chain with
  | nil => rfl
  | cons x chain ih =>
    rw [chainGet] at h
    split_ifs at h with hx
    rw [chainSet, if_neg hx, ih h, List.cons_append]

lemma chainGet_append (h : chainGet test chain = some value) (chain' : List (CString × V)) :
    chainGet test (chain ++ chain') = some value := by
  induction chain with
  | nil => simp [chainGet] at h
  | cons x chain ih =>
    rw [List.cons_append, chainGet]
    rw [chainGet] at h
    split_ifs at h ⊢ with hx
    · exact h
    · exact ih h

/-- The new value is at the end, or in the place of another one. -/
lemma chainSet_cases (test : CString → Bool) (key : CString) (value : V) (chain : List (CString × V)) :
    chainSet test key value chain = chain ++ [(key, value)] ∨
      ∃ p k v q, chain = p ++ (k, v) :: q ∧ chainSet test key value chain = p ++ (k, value) :: q := by
  induction chain with
  | nil => exact Or.inl rfl
  | cons x chain ih =>
    rw [chainSet]
    by_cases hx : test x.1 = true
    · rw [if_pos hx]
      exact Or.inr ⟨[], x.1, x.2, chain, rfl, rfl⟩
    · rw [if_neg hx]
      rcases ih with ih | ⟨p, k, v, q, hchain, hset⟩
      · exact Or.inl (by rw [ih, List.cons_append])
      · exact Or.inr ⟨x :: p, k, v, q, by rw [hchain, List.cons_append], by rw [hset, List.cons_append]⟩

lemma mem_of_chainGet (h : chainGet test chain = some value) : ∃ k, (k, value) ∈ chain := by
  induction chain with
  | nil => simp [chainGet] at h
  | cons x chain ih =>
    rw [chainGet] at h
    split_ifs at h
    · exact ⟨x.1, Option.some.inj h ▸ List.mem_cons_self⟩
    · obtain ⟨k, hk⟩ := ih h
      exact ⟨k, List.mem_cons_of_mem _ hk⟩

/-- Where a test finds another value, it has found the one that was replaced. -/
lemma chainGet_replaced {p q : List (CString × V)} {k : CString} {v x : V}
    (hold : chainGet test (p ++ (k, v) :: q) = some x) (hnew : chainGet test (p ++ (k, value) :: q) = some value)
    (hne : x ≠ value) : v = x := by
  induction p with
  | nil =>
    rw [List.nil_append, chainGet] at hold hnew
    split_ifs at hold hnew
    · exact Option.some.inj hold
    · exact absurd (Option.some.inj (hold.symm.trans hnew)) hne
  | cons y p ih =>
    rw [List.cons_append, chainGet] at hold hnew
    split_ifs at hold hnew
    · exact absurd (Option.some.inj (hold.symm.trans hnew)) hne
    · exact ih hold hnew

/-- A new value hides at most what it replaces. -/
lemma chainGet_chainSet_cases (test test' : CString → Bool) (key : CString) (value : V) (chain : List (CString × V)) :
    chainGet test (chainSet test' key value chain) = chainGet test chain ∨
      chainGet test (chainSet test' key value chain) = some value := by
  induction chain with
  | nil =>
    simp only [chainSet, chainGet]
    split_ifs <;> simp
  | cons x chain ih =>
    rw [chainSet]
    split_ifs with hx'
    · simp only [chainGet]
      split_ifs <;> simp
    · simp only [chainGet]
      split_ifs with hx
      · simp
      · exact ih

lemma chainGet_chainSet_self (htest : test key = true) : chainGet test (chainSet test key value chain) = some value := by
  induction chain with
  | nil => simp [chainSet, chainGet, htest]
  | cons x chain ih =>
    rw [chainSet]
    split_ifs with hx
    · simp [chainGet, hx]
    · rw [chainGet, if_neg hx]
      exact ih

lemma chainGet_eq_none (h : ∀ x ∈ chain, test x.1 = false) : chainGet test chain = none := by
  induction chain with
  | nil => rfl
  | cons x chain ih =>
    rw [chainGet, if_neg (by simp [h x List.mem_cons_self])]
    exact ih fun y hy => h y (List.mem_cons_of_mem _ hy)

lemma mem_chainSet {x : CString × V} (hx : x ∈ chainSet test key value chain) :
    x.1 = key ∨ ∃ y ∈ chain, y.1 = x.1 := by
  induction chain with
  | nil =>
    obtain rfl := List.mem_singleton.mp hx
    exact Or.inl rfl
  | cons y chain ih =>
    rw [chainSet] at hx
    split_ifs at hx
    · rcases List.mem_cons.mp hx with rfl | hx
      · exact Or.inr ⟨y, List.mem_cons_self, rfl⟩
      · exact Or.inr ⟨x, List.mem_cons_of_mem _ hx, rfl⟩
    · rcases List.mem_cons.mp hx with rfl | hx
      · exact Or.inr ⟨x, List.mem_cons_self, rfl⟩
      · exact (ih hx).imp_right fun ⟨z, hz, hzx⟩ => ⟨z, List.mem_cons_of_mem _ hz, hzx⟩

end Chains

section Lookups
variable {map : HashMap V} {key k : CString} {n : ℕ} {value v : V}

lemma hashmapGet_hashmapSet (map : HashMap V) (key k : CString) (n n' : ℕ) (value : V) :
    hashmapGet (hashmapSet map key n' value) k n =
      if bucket map.size k = bucket map.size key then
        chainGet (fun x => strncmp x k n = 0)
          (chainSet (fun x => strncmp x key n' = 0) key value (map.entries (bucket map.size key)))
      else hashmapGet map k n := by
  simp only [hashmapGet, hashmapSet, Function.update_apply]
  split_ifs <;> rfl

/-- A key that was not found is added without hiding any other. -/
lemma hashmapGet_hashmapSet_of_none (h : hashmapGet map key key.strlen = none) (hk : hashmapGet map k n = some v) :
    hashmapGet (hashmapSet map key key.strlen value) k n = some v := by
  rw [hashmapGet_hashmapSet]
  split_ifs with hb
  · rw [chainSet_of_chainGet_none h]
    rw [hashmapGet, hb] at hk
    exact chainGet_append hk _
  · exact hk

lemma hashmapGet_hashmapSet_self (map : HashMap V) (key : CString) (value : V) :
    hashmapGet (hashmapSet map key key.strlen value) key key.strlen = some value := by
  rw [hashmapGet_hashmapSet, if_pos rfl]
  exact chainGet_chainSet_self (by simpa using (strncmp_strlen_iff key key).mpr List.prefix_rfl)

/-- A key that no key of the map extends is found only if it begins the one that was set. -/
lemma hashmapGet_hashmapSet_of_not_isPrefix (hk : ¬k.1 <+: key.1)
    (hmap : ∀ b, ∀ x ∈ map.entries b, ¬k.1 <+: x.1.1) :
    hashmapGet (hashmapSet map key n value) k k.strlen = none := by
  have htest : ∀ x : CString, ¬k.1 <+: x.1 → decide (strncmp x k k.strlen = 0) = false := by
    intro x hx
    simpa [strncmp_strlen_iff] using hx
  rw [hashmapGet_hashmapSet]
  split_ifs
  · refine chainGet_eq_none fun x hx => htest x.1 ?_
    rcases mem_chainSet hx with hxk | ⟨y, hy, hyx⟩
    · rwa [hxk]
    · exact hyx ▸ hmap _ y hy
  · exact chainGet_eq_none fun x hx => htest x.1 (hmap _ x hx)

lemma hashmapGet_hashmapSet_cases (map : HashMap V) (key k : CString) (n n' : ℕ) (value : V) :
    hashmapGet (hashmapSet map key n' value) k n = hashmapGet map k n ∨
      hashmapGet (hashmapSet map key n' value) k n = some value := by
  rw [hashmapGet_hashmapSet]
  split_ifs with hb
  · rw [hashmapGet, hb]
    exact chainGet_chainSet_cases _ _ _ _ _
  · exact Or.inl rfl

end Lookups

section Runs
variable {size b : ℕ} {sets : List (CString × V)} {chain : List (CString × V)} {key : CString} {value : V}

lemma finiteMap_concat (sets : List (CString × V)) (key : CString) (value : V) :
    finiteMap (sets ++ [(key, value)]) = Function.update (finiteMap sets) key (some value) := by
  rw [finiteMap, List.foldl_append]
  rfl

/-- The chain of bucket `b` after `sets`: its keys, in the order in which they were set first, with
the values that the finite map has. -/
structure Chained (size : ℕ) (sets : List (CString × V)) (b : ℕ) (chain : List (CString × V)) : Prop where
  own : ∀ k ∈ chain.map Prod.fst, bucket size k = b
  complete : ∀ k ∈ sets.map Prod.fst, bucket size k = b → k ∈ chain.map Prod.fst
  order : ∀ p k q, chain.map Prod.fst = p ++ k :: q → ∃ pre post, sets.map Prod.fst = pre ++ k :: post ∧
    ∀ k' ∈ pre, bucket size k' = b → k' ∈ p
  get : ∀ k, bucket size k = b → chainGet (fun x => x = k) chain = finiteMap sets k

lemma chained_nil (size b : ℕ) : Chained (V := V) size [] b [] := by
  refine ⟨by simp, by simp, fun p k q h => ?_, fun _ _ => rfl⟩
  simp at h

/-- A call for another bucket. -/
lemma Chained.other (h : Chained size sets b chain) (hb : bucket size key ≠ b) :
    Chained size (sets ++ [(key, value)]) b chain := by
  refine ⟨h.own, fun k hk hkb => ?_, fun p k q hp => ?_, fun k hk => ?_⟩
  · rw [List.map_append, List.mem_append] at hk
    rcases hk with hk | hk
    · exact h.complete k hk hkb
    · obtain rfl : k = key := by simpa using hk
      exact absurd hkb hb
  · obtain ⟨pre, post, hsets, hpre⟩ := h.order p k q hp
    refine ⟨pre, post ++ [key], ?_, hpre⟩
    rw [List.map_append, hsets, List.append_assoc, List.cons_append]
    rfl
  · have hne : k ≠ key := by
      rintro rfl
      exact hb hk
    rw [finiteMap_concat, Function.update_of_ne hne]
    exact h.get k hk

/-- A call for this bucket, with the exact test. -/
lemma Chained.set (h : Chained size sets b chain) (hb : bucket size key = b) :
    Chained size (sets ++ [(key, value)]) b (chainSet (fun k => k = key) key value chain) := by
  have hkeys := map_fst_chainSet key value chain
  have hmem : ∀ k, k ∈ (chainSet (fun k => k = key) key value chain).map Prod.fst ↔
      k ∈ chain.map Prod.fst ∨ k = key := by
    intro k
    rw [hkeys]
    split_ifs with hin
    · exact ⟨Or.inl, fun h => h.elim id fun h => h ▸ hin⟩
    · rw [List.mem_append, List.mem_singleton]
  refine ⟨fun k hk => ?_, fun k hk hkb => ?_, fun p k q hp => ?_, fun k hk => ?_⟩
  · rcases (hmem k).mp hk with hk | rfl
    · exact h.own k hk
    · exact hb
  · rw [List.map_append, List.mem_append] at hk
    refine (hmem k).mpr (hk.imp (fun hk => h.complete k hk hkb) fun hk => ?_)
    simpa using hk
  · rw [hkeys] at hp
    have hold : ∀ q', chain.map Prod.fst = p ++ k :: q' → ∃ pre post,
        (sets ++ [(key, value)]).map Prod.fst = pre ++ k :: post ∧ ∀ k' ∈ pre, bucket size k' = b → k' ∈ p := by
      intro q' hq'
      obtain ⟨pre, post, hsets, hpre⟩ := h.order p k q' hq'
      refine ⟨pre, post ++ [key], ?_, hpre⟩
      rw [List.map_append, hsets, List.append_assoc, List.cons_append]
      rfl
    split_ifs at hp with hin
    · exact hold q hp
    · rcases List.eq_nil_or_concat q with rfl | ⟨q', z, rfl⟩
      · obtain ⟨rfl, hk⟩ := List.append_inj' hp rfl
        obtain rfl : key = k := by simpa using hk
        refine ⟨sets.map Prod.fst, [], by simp, h.complete⟩
      · rw [List.concat_eq_append, ← List.cons_append, ← List.append_assoc] at hp
        exact hold q' (List.append_inj' hp rfl).1
  · rw [chainGet_chainSet, finiteMap_concat, Function.update_apply]
    split_ifs with hkk
    · rfl
    · exact h.get k hk

/-- A key that is not shadowed is found by the test up to its length where it stands. -/
lemma Chained.sameHit (h : Chained size sets b chain) (hb : bucket size key = b)
    (hk : NotShadowed size (sets.map Prod.fst) key) :
    SameHit (fun k => strncmp k key key.strlen = 0) (fun k => k = key) chain := by
  intro p x q hp hx
  have hpre := (strncmp_strlen_iff x.1 key).mp (by simpa using hx)
  have hkeys : chain.map Prod.fst = p.map Prod.fst ++ x.1 :: q.map Prod.fst := by rw [hp, List.map_append, List.map_cons]
  have hxb : bucket size x.1 = bucket size key := by
    rw [hb]
    exact h.own x.1 (by rw [hkeys]; simp)
  obtain ⟨pre, post, hsets, hold⟩ := h.order _ _ _ hkeys
  rcases hk pre x.1 post hsets hxb hpre with hxk | hin
  · exact Or.inl (by simpa using hxk)
  · obtain ⟨y, hy, hyk⟩ := List.mem_map.mp (hold key hin hb)
    exact Or.inr ⟨y, hy, by simpa using hyk⟩

lemma exact_imp_strncmp (key k : CString) (h : decide (k = key) = true) :
    decide (strncmp k key key.strlen = 0) = true := by
  obtain rfl : k = key := by simpa using h
  simpa using (strncmp_strlen_iff k k).mpr List.prefix_rfl

/-- All chains are as the exact test makes them. -/
def Exact (sets : List (CString × V)) (map : HashMap V) : Prop :=
  ∀ b, Chained map.size sets b (map.entries b)

lemma Exact.set {map : HashMap V} (h : Exact sets map)
    (hk : NotShadowed map.size (sets.map Prod.fst) key) :
    Exact (sets ++ [(key, value)]) (hashmapSet map key key.strlen value) := by
  intro b
  by_cases hb : bucket map.size key = b
  · subst hb
    have hhit := (h _).sameHit rfl hk
    have hchain := chainSet_sameHit key value (exact_imp_strncmp key) hhit
    simp only [hashmapSet, Function.update_self, hchain]
    exact (h _).set rfl
  · simp only [hashmapSet, Function.update_of_ne (Ne.symm hb)]
    exact (h b).other hb

lemma Exact.get {map : HashMap V} (h : Exact sets map) (hk : NotShadowed map.size (sets.map Prod.fst) key) :
    hashmapGet map key key.strlen = finiteMap sets key := by
  rw [hashmapGet, chainGet_sameHit (exact_imp_strncmp key) ((h _).sameHit rfl hk)]
  exact (h _).get key rfl

lemma setAll_size (map : HashMap V) (sets : List (CString × V)) : (setAll map sets).size = map.size := by
  induction sets generalizing map with
  | nil => rfl
  | cons s sets ih => exact ih (hashmapSet map s.1 s.1.strlen s.2)

lemma setAll_exact (hsize : 1 ≤ size) (sets : List (CString × V))
    (hsets : ∀ pre k v post, sets = pre ++ (k, v) :: post → NotShadowed size (pre.map Prod.fst) k) :
    Exact sets (setAll (hashmapCreate V size hsize) sets) := by
  induction sets using List.reverseRecOn with
  | nil => exact fun b => chained_nil size b
  | append_singleton sets s ih =>
    have hrest := ih fun pre k v post h => hsets pre k v (post ++ [s]) (by rw [h, List.append_assoc]; rfl)
    rw [setAll, List.foldl_append]
    refine hrest.set ?_
    rw [setAll_size]
    exact hsets sets s.1 s.2 [] rfl

end Runs

lemma notShadowed_of_exact {size : ℕ} {earlier : List CString} {k : CString}
    (h : ∀ k' ∈ earlier, k.1 <+: k'.1 → k' = k) : NotShadowed size earlier k := by
  rintro pre k' post rfl _ hpre
  exact Or.inl (h k' (by simp) hpre)

lemma notShadowed_of_first (size : ℕ) (earlier : List CString) (k : CString) :
    NotShadowed size (k :: earlier) k := by
  intro pre k' post h _ _
  cases pre with
  | nil => exact Or.inl (List.cons.inj h).1.symm
  | cons x pre =>
    rw [(List.cons.inj h).1]
    exact Or.inr List.mem_cons_self

def keyA : CString := ⟨[0x61], by decide⟩
def keyAbb : CString := ⟨[0x61, 0x62, 0x62], by decide⟩

end PiggyOs.Hash
