import PiggyOs.EnvironMap

/-! The environment while the program assigns `environ` as well. -/
namespace PiggyOs.Environ
open Function CString TerminatedArray Filter

section Lookup
variable {s n v m : CString} {strings : List CString}

lemma nameOf_eq_iff (s n : CString) : nameOf s = n ↔ n.strlen = strcspn s equals ∧ s.1.take n.strlen = n.1 := by
  have htake : (nameOf s).1 = s.1.take (strcspn s equals) := by
    rw [nameOf_val]
    exact List.prefix_iff_eq_take.mp (List.takeWhile_prefix _)
  have hlen : (nameOf s).strlen = strcspn s equals := congrArg List.length (nameOf_val s)
  constructor
  · rintro rfl
    exact ⟨hlen, by rw [hlen, htake]⟩
  · rintro ⟨hn, hname⟩
    exact Subtype.ext (by rw [htake, ← hn, hname])

lemma isEntry_iff_nameOf (e : Env) (n : CString) (p : Ptr) : e.isEntry n p = true ↔ nameOf (e.str p) = n := by
  rw [Env.isEntry, decide_eq_true_eq, strncmp, compareBytes_eq_zero (e.str p).2 n.2, take_strlen, nameOf_eq_iff]

lemma nameOf_joined (h : 61 ∉ n.1) (v : CString) : nameOf (joined n v) = n :=
  (nameOf_eq_iff _ _).mpr ⟨(strcspn_joined h v).symm, take_joined n v⟩

lemma valueOf_joined (h : 61 ∉ n.1) (v : CString) : valueOf (joined n v) = v := by
  refine Subtype.ext ?_
  rw [valueOf_val, nameOf_joined h, joined_val, ← List.append_assoc]
  exact List.drop_left' (by simp [strlen, equals])

lemma lookup_nil (n : CString) : lookup [] n = none := rfl

lemma lookup_cons (s : CString) (strings : List CString) (n : CString) :
    lookup (s :: strings) n = if nameOf s = n then some (valueOf s) else lookup strings n := by
  rw [lookup, lookup, List.find?_cons]
  by_cases h : nameOf s = n <;> simp [h]

/-- The place of a name, or the end. -/
def placeOf (strings : List CString) (n : CString) : ℕ := strings.findIdx fun s => nameOf s = n

lemma placeOf_cons (s : CString) (strings : List CString) (n : CString) :
    placeOf (s :: strings) n = if nameOf s = n then 0 else placeOf strings n + 1 := by
  rw [placeOf, List.findIdx_cons]
  by_cases h : nameOf s = n <;> simp [h, placeOf]

/-- The first string with a name is replaced. -/
lemma lookup_set (h : 61 ∉ n.1) (v m : CString) (hplace : placeOf strings n < strings.length) :
    lookup (strings.set (placeOf strings n) (joined n v)) m = if m = n then some v else lookup strings m := by
  induction strings with
  | nil => exact absurd hplace (Nat.not_lt_zero _)
  | cons s strings ih =>
    rw [placeOf_cons] at hplace ⊢
    by_cases hname : nameOf s = n
    · rw [if_pos hname, List.set_cons_zero, lookup_cons, lookup_cons, nameOf_joined h, valueOf_joined h, hname]
      by_cases hm : m = n
      · rw [if_pos hm.symm, if_pos hm]
      · rw [if_neg (Ne.symm hm), if_neg hm, if_neg (Ne.symm hm)]
    · rw [if_neg hname] at hplace ⊢
      rw [List.set_cons_succ, lookup_cons, lookup_cons, ih (Nat.lt_of_succ_lt_succ hplace)]
      split_ifs with hs hm
      · exact absurd (hs.trans hm) hname
      · rfl
      · rfl
      · rfl

/-- A new name behind the others. -/
lemma lookup_append (h : 61 ∉ n.1) (v m : CString) (hplace : placeOf strings n = strings.length) :
    lookup (strings ++ [joined n v]) m = if m = n then some v else lookup strings m := by
  induction strings with
  | nil =>
    rw [List.nil_append, lookup_cons, nameOf_joined h, valueOf_joined h, lookup_nil]
    split_ifs with hn hm hm
    · rfl
    · exact absurd hn.symm hm
    · exact absurd hm.symm hn
    · rfl
  | cons s strings ih =>
    rw [placeOf_cons] at hplace
    by_cases hname : nameOf s = n
    · rw [if_pos hname] at hplace
      exact absurd hplace.symm (Nat.succ_ne_zero _)
    · rw [if_neg hname] at hplace
      rw [List.cons_append, lookup_cons, lookup_cons, ih (Nat.succ_injective hplace)]
      split_ifs with hs hm
      · exact absurd (hs.trans hm) hname
      · rfl
      · rfl
      · rfl

end Lookup

section Pointers
variable {e : Env} {base : Ptr} {ptrs : List Ptr}

/-- The loop of `setenv` stops at the first string with the name, or at the end. -/
lemma findEntry_place (h : Holds (e.arr base) ptrs) (n : CString) {i fuel : ℕ} (hi : i ≤ ptrs.length)
    (hf : ptrs.length < fuel + i) :
    findEntry e base n fuel i = some (placeOf ((ptrs.drop i).map e.str) n + i) := by
  induction fuel generalizing i with
  | zero => omega
  | succ fuel ih =>
    rw [findEntry]
    obtain rfl | hlt := Nat.eq_or_lt_of_le hi
    · rw [h.terminated, List.drop_length, List.map_nil, placeOf, List.findIdx_nil, Nat.zero_add]
    · have hrest := ih (i := i + 1) hlt (by omega)
      rw [h.entry hlt, List.drop_eq_getElem_cons hlt, List.map_cons, placeOf_cons]
      dsimp only
      by_cases hname : nameOf (e.str ptrs[i]) = n
      · rw [if_pos ((isEntry_iff_nameOf e n _).mpr hname), if_pos hname, Nat.zero_add]
      · rw [if_neg (mt (isEntry_iff_nameOf e n _).mp hname), if_neg hname, hrest, Nat.add_assoc, Nat.add_comm 1 i]

/-- `getenv` finds the first string with the name. -/
lemma getenvLoop_lookup (h : Holds (e.arr base) ptrs) (n : CString) {i fuel : ℕ} (hi : i ≤ ptrs.length)
    (hf : ptrs.length < fuel + i) : getenvLoop e base n fuel i = some (lookup ((ptrs.drop i).map e.str) n) := by
  induction fuel generalizing i with
  | zero => omega
  | succ fuel ih =>
    rw [getenvLoop]
    obtain rfl | hlt := Nat.eq_or_lt_of_le hi
    · rw [h.terminated, List.drop_length]
      rfl
    · have hmatch : strcspn (e.str ptrs[i]) equals = n.strlen ∧
          strncmp n (e.str ptrs[i]) (strcspn (e.str ptrs[i]) equals) = 0 ↔ nameOf (e.str ptrs[i]) = n := by
        rw [nameOf_eq_iff, strncmp, compareBytes_eq_zero n.2 (e.str ptrs[i]).2]
        constructor
        · rintro ⟨hlen, htake⟩
          rw [hlen, take_strlen] at htake
          exact ⟨hlen.symm, htake.symm⟩
        · rintro ⟨hlen, htake⟩
          rw [← hlen, take_strlen]
          exact ⟨rfl, htake.symm⟩
      have hrest := ih (i := i + 1) hlt (by omega)
      rw [h.entry hlt, List.drop_eq_getElem_cons hlt, List.map_cons, lookup_cons]
      dsimp only
      by_cases hname : nameOf (e.str ptrs[i]) = n
      · have hlen := (hmatch.mpr hname).1
        rw [if_pos (hmatch.mpr hname), if_pos hname, valueOf, hname, hlen]
      · rw [if_neg (mt hmatch.mp hname), if_neg hname, hrest]

end Pointers

section HeapTable
variable {e e' : Env} {k : ℕ} {q : List ℕ} {a : Allocator}

/-- The table on the heap with the blocks of its strings, whether it is `environ` or not. -/
structure HeapTable (e : Env) (k : ℕ) (q : List ℕ) : Prop where
  holds : Holds (e.arr (.heap k)) (q.map .heap)
  heapEnviron : e.heapEnviron = some (.heap k)
  owned : k ∈ e.owned
  nodup : q.Nodup
  blocks : ∀ j ∈ q, j ∈ e.owned ∧ j ≠ k
  length : e.length = q.length
  room : e.length < e.size

def heapStrings (e : Env) (q : List ℕ) : List CString := q.map fun j => e.str (.heap j)

/-- The table on the heap is the environment. -/
def Active (e : Env) (q : List ℕ) : Prop := ∃ k, HeapTable e k q ∧ e.environ = some (.heap k)

lemma HeapTable.frame (h : HeapTable e k q) (harr : e'.arr (.heap k) = e.arr (.heap k))
    (hheap : e'.heapEnviron = e.heapEnviron) (hlength : e'.length = e.length) (hsize : e'.size = e.size)
    (howned : e.owned ⊆ e'.owned) : HeapTable e' k q where
  holds := harr ▸ h.holds
  heapEnviron := hheap.trans h.heapEnviron
  owned := howned h.owned
  nodup := h.nodup
  blocks := fun j hj => ⟨howned (h.blocks j hj).1, (h.blocks j hj).2⟩
  length := hlength.trans h.length
  room := by
    rw [hlength, hsize]
    exact h.room

lemma HeapTable.slot (h : HeapTable e k q) {i : ℕ} (hi : i < q.length) : e.arr (.heap k) i = some (.heap q[i]) := by
  rw [h.holds.entry (by rwa [List.length_map]), List.getElem_map]

lemma HeapTable.terminated (h : HeapTable e k q) : e.arr (.heap k) q.length = none := by
  have := h.holds.terminated
  rwa [List.length_map] at this

/-- Strings of blocks that have not been freed keep their bytes when a new block is filled. -/
lemma heapStrings_setStr {p : ℕ} (hblocks : ∀ j ∈ q, j ≠ p) (s : CString) :
    heapStrings (e.setStr (.heap p) s) q = heapStrings e q := by
  refine List.map_congr_left fun j hj => ?_
  have hne : Ptr.heap j ≠ .heap p := fun heq => hblocks j hj (Ptr.heap.inj heq)
  exact update_of_ne hne s e.str

lemma HeapTable.ne_new (h : HeapTable e k q) {p : ℕ} (hp : p ∉ e.owned) : ∀ j ∈ q, j ≠ p :=
  fun j hj heq => hp (heq ▸ (h.blocks j hj).1)

/-- The table moves to a larger block, unless memory is refused. -/
lemma HeapTable.grow (ha : Fresh a) (h : HeapTable e k q) (henviron : e.environ = some (.heap k)) :
    ∃ r, growTable a e (.heap k) = some r ∧ r.2.str = e.str ∧ ((r.1 = none ∧ Active r.2 q) ∨
      ∃ k', r.1 = some (.heap k') ∧ r.2.length + 1 < r.2.size ∧ HeapTable r.2 k' q ∧
        r.2.environ = some (.heap k')) := by
  rw [growTable]
  by_cases hfull : e.length + 1 = e.size
  · rw [if_pos hfull, Env.reallocarray]
    by_cases hover : 2 ^ 64 ≤ e.size * 16
    · rw [if_pos hover]
      exact ⟨_, rfl, rfl, Or.inl ⟨rfl, k, h.frame rfl rfl rfl rfl subset_rfl, henviron⟩⟩
    rw [if_neg hover]
    dsimp only
    rw [if_neg (not_not.mpr h.owned)]
    cases hk : a.realloc e.calls e.owned k (e.size * 16) with
    | none => exact ⟨_, rfl, rfl, Or.inl ⟨rfl, k, h.frame rfl rfl rfl rfl subset_rfl, henviron⟩⟩
    | some k' =>
      have hnew := ha.realloc _ _ _ _ _ hk
      have hroom := h.room
      refine ⟨_, rfl, rfl, Or.inr ⟨k', rfl, by dsimp only; omega, ?_, rfl⟩⟩
      exact {
        holds := by
          refine h.holds.congr fun i hi => ?_
          have hlt : i < e.size := by
            rw [List.length_map, ← h.length] at hi
            omega
          dsimp only
          rw [update_self, if_pos hlt]
        heapEnviron := rfl
        owned := Finset.mem_insert_self _ _
        nodup := h.nodup
        blocks := fun j hj => by
          obtain ⟨hj', hne⟩ := h.blocks j hj
          refine ⟨Finset.mem_insert_of_mem (Finset.mem_erase.mpr ⟨hne, hj'⟩), ?_⟩
          rintro rfl
          exact hnew.elim hne fun hout => hout hj'
        length := h.length
        room := by dsimp only; omega }
  · rw [if_neg hfull]
    have hroom := h.room
    exact ⟨_, rfl, rfl, Or.inr ⟨k, rfl, by dsimp only; omega, h, henviron⟩⟩

/-- A string in a new block behind the others. -/
lemma HeapTable.push (h : HeapTable e k q) {p : ℕ} (hp : p ∉ e.owned) (s : CString) (hroom : e.length + 1 < e.size)
    (calls : ℕ) :
    HeapTable { ((({ e with calls := calls, owned := insert p e.owned } : Env).setSlot (.heap k) q.length
        (some (.heap p))).setStr (.heap p) s).setSlot (.heap k) (q.length + 1) none with
      length := e.length + 1 } k (q ++ [p]) where
  holds := by
    have hpush := h.holds.push (.heap p)
    rw [List.length_map] at hpush
    rw [List.map_append, List.map_singleton]
    simpa only [Env.setSlot, Env.setStr, update_self] using hpush
  heapEnviron := h.heapEnviron
  owned := Finset.mem_insert_of_mem h.owned
  nodup := h.nodup.append (List.nodup_singleton p) (by simpa using fun hmem => h.ne_new hp p hmem rfl)
  blocks := by
    intro j hj
    rcases List.mem_append.mp hj with hj | hj
    · exact ⟨Finset.mem_insert_of_mem (h.blocks j hj).1, (h.blocks j hj).2⟩
    · rw [List.mem_singleton.mp hj]
      exact ⟨Finset.mem_insert_self _ _, fun heq => hp (heq ▸ h.owned)⟩
  length := by
    change e.length + 1 = _
    rw [h.length, List.length_append, List.length_singleton]
  room := hroom

/-- Behind the loop of `setenv` the string is added, unless memory is refused. -/
lemma HeapTable.append (ha : Fresh a) (h : HeapTable e k q) (henviron : e.environ = some (.heap k))
    (name value : CString) :
    ∃ r, appendEntry a e (.heap k) q.length name value = some r ∧ ∃ q', Active r.2 q' ∧
      (r.1 = 0 → heapStrings r.2 q' = heapStrings e q ++ [joined name value]) := by
  have hfail : (-1 : ℤ) ≠ 0 := by decide
  obtain ⟨grown, hgrow, hstr, hcases⟩ := h.grow ha henviron
  rw [appendEntry, hgrow, Option.map_some]
  refine ⟨_, rfl, ?_⟩
  obtain ⟨hnone, hold⟩ | ⟨k', hk', hroom, htable, henviron'⟩ := hcases
  · rw [hnone]
    exact ⟨q, hold, fun hret => absurd hret hfail⟩
  rw [hk']
  dsimp only
  obtain ⟨calls, hm⟩ | ⟨p, calls, hfresh, hm⟩ := malloc_cases a grown.2 (name.strlen + value.strlen + 2)
  · rw [hm]
    refine ⟨q, ⟨k', htable.frame ?_ rfl rfl rfl subset_rfl, henviron'⟩, fun hret => absurd hret hfail⟩
    exact (update_self _ _ _).trans (update_eq_self_iff.mpr htable.terminated.symm)
  · rw [hm]
    have hp := ha.malloc _ _ _ _ hfresh
    refine ⟨q ++ [p], ⟨k', htable.push hp (joined name value) hroom calls, henviron'⟩, fun _ => ?_⟩
    have hold := heapStrings_setStr (e := grown.2) (htable.ne_new hp) (joined name value)
    have hsame : heapStrings grown.2 q = heapStrings e q := by rw [heapStrings, heapStrings, hstr]
    rw [← hsame, ← hold, heapStrings, List.map_append, List.map_singleton]
    exact congrArg (fun s => _ ++ [s]) (update_self _ _ _)

/-- The string at a place moves to another block, and the old one is freed. -/
lemma HeapTable.replace (h : HeapTable e k q) {p : ℕ} (hp : p ∉ e.owned) {i : ℕ} (hi : i < q.length) (s : CString)
    (calls : ℕ) :
    ∃ e', (({ e with calls := calls, owned := insert p e.owned } : Env).setStr (.heap p) s).free (e.arr (.heap k) i) =
        some e' ∧ e'.environ = e.environ ∧ HeapTable (e'.setSlot (.heap k) i (some (.heap p))) k (q.set i p) ∧
      heapStrings (e'.setSlot (.heap k) i (some (.heap p))) (q.set i p) = (heapStrings e q).set i s := by
  obtain ⟨hj, hne⟩ := h.blocks _ (List.getElem_mem hi)
  have hpj : p ≠ q[i] := (h.ne_new hp _ (List.getElem_mem hi)).symm
  rw [h.slot hi, Env.free_owned (e := Env.setStr _ _ _) (Finset.mem_insert_of_mem hj)]
  have hmem : ∀ j ∈ q.set i p, j = p ∨ j ∈ q.eraseIdx i := fun j hj =>
    List.mem_cons.mp ((List.set_perm_cons_eraseIdx hi p).mem_iff.mp hj)
  have hgone : q[i] ∉ q.eraseIdx i := by
    have hperm := (List.getElem_cons_eraseIdx_perm hi).nodup_iff.mpr h.nodup
    exact (List.nodup_cons.mp hperm).1
  refine ⟨_, rfl, rfl, ?_, ?_⟩
  · exact {
      holds := by
        have hset := h.holds.set (i := i) (by rwa [List.length_map]) (.heap p)
        rw [List.map_set]
        simpa only [Env.setSlot, Env.setStr, update_self] using hset
      heapEnviron := h.heapEnviron
      owned := Finset.mem_erase.mpr ⟨hne.symm, Finset.mem_insert_of_mem h.owned⟩
      nodup := by
        rw [(List.set_perm_cons_eraseIdx hi p).nodup_iff, List.nodup_cons]
        exact ⟨fun hin => h.ne_new hp p (List.mem_of_mem_eraseIdx hin) rfl, h.nodup.sublist (List.eraseIdx_sublist ..)⟩
      blocks := by
        intro j hj
        rcases hmem j hj with rfl | hj
        · exact ⟨Finset.mem_erase.mpr ⟨hpj, Finset.mem_insert_self _ _⟩, fun heq => hp (heq ▸ h.owned)⟩
        · have hold := h.blocks j (List.mem_of_mem_eraseIdx hj)
          exact ⟨Finset.mem_erase.mpr ⟨fun heq => hgone (heq ▸ hj), Finset.mem_insert_of_mem hold.1⟩, hold.2⟩
      length := by
        rw [List.length_set]
        exact h.length
      room := h.room }
  · have hkeep := heapStrings_setStr (e := e) (h.ne_new hp) s
    have hnew : (e.setStr (.heap p) s).str (.heap p) = s := update_self _ _ _
    rw [← hkeep, heapStrings, heapStrings, List.map_set]
    exact congrArg (fun x => (q.map _).set i x) hnew

/-- The last string takes the place of one that is freed. -/
lemma HeapTable.remove (h : HeapTable e k q) {i : ℕ} (hi : i < q.length) :
    ∃ e', e.free (some (.heap q[i])) = some e' ∧ e'.arr = e.arr ∧ e'.length = q.length ∧ e'.environ = e.environ ∧
      HeapTable ((({ e' with length := q.length - 1 } : Env).setSlot (.heap k) i
        (e.arr (.heap k) (q.length - 1))).setSlot (.heap k) (q.length - 1) none) k (swapRemove q i) := by
  obtain ⟨hj, hne⟩ := h.blocks _ (List.getElem_mem hi)
  rw [Env.free_owned hj]
  refine ⟨_, rfl, rfl, h.length, rfl, ?_⟩
  have hperm := swapRemove_perm hi
  have hnodup := (List.getElem_cons_eraseIdx_perm hi).nodup_iff.mpr h.nodup
  exact {
    holds := by
      have hswap := h.holds.swapRemove (i := i) (by rwa [List.length_map])
      rw [List.length_map, ← map_swapRemove] at hswap
      simpa only [Env.setSlot, update_self] using hswap
    heapEnviron := h.heapEnviron
    owned := Finset.mem_erase.mpr ⟨hne.symm, h.owned⟩
    nodup := hperm.nodup_iff.mpr (List.nodup_cons.mp hnodup).2
    blocks := by
      intro j hj
      have hin := hperm.mem_iff.mp hj
      have hold := h.blocks j (List.mem_of_mem_eraseIdx hin)
      exact ⟨Finset.mem_erase.mpr ⟨fun heq => (List.nodup_cons.mp hnodup).1 (heq ▸ hin), hold.1⟩, hold.2⟩
    length := by
      rw [hperm.length_eq, List.length_eraseIdx_of_lt hi]
      rfl
    room := by
      have hroom := h.room
      change q.length - 1 < e.size
      rw [h.length] at hroom
      omega }

/-- `unsetenv` frees blocks of strings only; each round comes closer to the end of the table. -/
lemma HeapTable.unsetLoop (h : HeapTable e k q) (henviron : e.environ = some (.heap k)) (n : CString) {i d : ℕ}
    (hi : i + d = q.length) :
    ∃ e' q', (∀ fuel > d, Environ.unsetLoop (.heap k) n fuel i e = some e') ∧ Active e' q' := by
  induction d generalizing e q i with
  | zero =>
    refine ⟨e, q, fun fuel hf => ?_, k, h, henviron⟩
    obtain ⟨fuel, rfl⟩ := Nat.exists_eq_add_one_of_ne_zero hf.ne'
    rw [Environ.unsetLoop, ← hi.symm.trans (Nat.add_zero i), h.terminated]
  | succ d ih =>
    have hlt : i < q.length := by omega
    by_cases hentry : e.isEntry n (.heap q[i]) = true
    · obtain ⟨e1, hfree, harr, hlength, hsame, hnew⟩ := h.remove hlt
      have hlen : (TerminatedArray.swapRemove q i).length = q.length - 1 := by
        rw [(swapRemove_perm hlt).length_eq, List.length_eraseIdx_of_lt hlt]
      obtain ⟨e', q', hrun, hactive⟩ := ih hnew (hsame.trans henviron)
        (show i + d = (TerminatedArray.swapRemove q i).length by omega)
      refine ⟨e', q', fun fuel hf => ?_, hactive⟩
      obtain ⟨fuel, rfl⟩ := Nat.exists_eq_add_one_of_ne_zero (Nat.ne_zero_of_lt hf)
      rw [Environ.unsetLoop, h.slot hlt]
      dsimp only
      rw [if_pos hentry, if_pos h.heapEnviron, hfree, Option.bind_some, hlength,
        show e1.arr (.heap k) (q.length - 1) = e.arr (.heap k) (q.length - 1) by rw [harr]]
      exact hrun fuel (by omega)
    · obtain ⟨e', q', hrun, hactive⟩ := ih h henviron (show i + 1 + d = q.length by omega)
      refine ⟨e', q', fun fuel hf => ?_, hactive⟩
      obtain ⟨fuel, rfl⟩ := Nat.exists_eq_add_one_of_ne_zero (Nat.ne_zero_of_lt hf)
      rw [Environ.unsetLoop, h.slot hlt]
      dsimp only
      rw [if_neg hentry]
      exact hrun fuel (by omega)

end HeapTable

section Calls
variable {e : Env} {q : List ℕ} {a : Allocator} {name : CString}

lemma heapStrings_eq (e : Env) (q : List ℕ) : (q.map Ptr.heap).map e.str = heapStrings e q := List.map_map

/-- On the heap the name gets its value, and the others keep theirs. -/
lemma Active.setEntry (ha : Fresh a) (h : Active e q) (hname : IsName name) (value : CString) (overwrite : Bool) :
    ∃ r, (∀ᶠ fuel in atTop, Environ.setEntry a fuel e name value overwrite = some r) ∧ ∃ q', Active r.2 q' ∧
      (r.1 = 0 → overwrite = true → ∀ m, lookup (heapStrings r.2 q') m =
        if m = name then some value else lookup (heapStrings e q) m) := by
  obtain ⟨k, h, henviron⟩ := h
  have hplain : 61 ∉ name.1 := fun hmem => hname (Or.inr hmem)
  have hlen : (heapStrings e q).length = q.length := List.length_map _
  have hfind : ∀ᶠ fuel in atTop, Environ.findEntry e (.heap k) name fuel 0 = some (placeOf (heapStrings e q) name) := by
    filter_upwards [eventually_gt_atTop q.length] with fuel hf
    rw [findEntry_place h.holds name (Nat.zero_le _) (by rwa [List.length_map]), List.drop_zero, heapStrings_eq,
      Nat.add_zero]
  have hle : placeOf (heapStrings e q) name ≤ q.length := hlen ▸ List.findIdx_le_length
  obtain hend | hplace := Nat.eq_or_lt_of_le hle
  · obtain ⟨r, hrun, q', hactive, hstrings⟩ := h.append ha henviron name value
    refine ⟨r, ?_, q', hactive, fun hret _ m => ?_⟩
    · filter_upwards [hfind] with fuel hf
      rw [Environ.setEntry, henviron, Option.bind_some, hf, Option.bind_some, hend, if_pos h.terminated, hrun]
    · rw [hstrings hret]
      exact lookup_append hplain value m (hend.trans hlen.symm)
  · have hslot := h.slot hplace
    have hstart : ∀ᶠ fuel in atTop, Environ.setEntry a fuel e name value overwrite =
        if !overwrite then some (0, e)
        else
          (e.malloc a (name.strlen + value.strlen + 2)).1.elim
            (some (-1, (e.malloc a (name.strlen + value.strlen + 2)).2)) fun p =>
            (((e.malloc a (name.strlen + value.strlen + 2)).2.setStr p (joined name value)).free
              ((e.malloc a (name.strlen + value.strlen + 2)).2.arr (.heap k) (placeOf (heapStrings e q) name))).map
                fun e' => (0, e'.setSlot (.heap k) (placeOf (heapStrings e q) name) (some p)) := by
      filter_upwards [hfind] with fuel hf
      rewrite [Environ.setEntry, henviron, Option.bind_some, hf, Option.bind_some,
        if_neg (by rw [hslot]; exact Option.some_ne_none _)]
      dsimp only
      cases (e.malloc a (name.strlen + value.strlen + 2)).1 with
      | none => rfl
      | some p => rfl
    cases overwrite with
    | false => exact ⟨_, hstart, q, ⟨k, h, henviron⟩, fun _ hover => Bool.noConfusion hover⟩
    | true =>
      obtain ⟨calls, hm⟩ | ⟨p, calls, hfresh, hm⟩ := malloc_cases a e (name.strlen + value.strlen + 2)
      · have hfail : (-1 : ℤ) ≠ 0 := by decide
        rw [hm] at hstart
        exact ⟨_, hstart, q, ⟨k, h.frame rfl rfl rfl rfl subset_rfl, henviron⟩, fun hret => absurd hret hfail⟩
      · rw [hm] at hstart
        obtain ⟨e', hfree, hsame, hnew, hstrings⟩ :=
          h.replace (ha.malloc _ _ _ _ hfresh) hplace (joined name value) calls
        refine ⟨_, hstart.mono fun fuel hf => hf.trans (congrArg (Option.map _) hfree), _,
          ⟨k, hnew, hsame.trans henviron⟩, fun _ _ m => ?_⟩
        dsimp only
        rw [hstrings]
        exact lookup_set hplain value m (hlen.symm ▸ hplace)

end Calls

section Reset
variable {e : Env} {k src : ℕ} {q l : List ℕ} {a : Allocator}

/-- The environment is an array of the program. -/
structure Assigned (e : Env) (src : ℕ) (l : List ℕ) : Prop where
  environ : e.environ = some (.foreign src)
  holds : Holds (e.arr (.foreign src)) (l.map .foreign)

def foreignStrings (e : Env) (l : List ℕ) : List CString := l.map fun j => e.str (.foreign j)

lemma Assigned.slot (h : Assigned e src l) {i : ℕ} (hi : i < l.length) :
    e.arr (.foreign src) i = some (.foreign l[i]) := by
  rw [h.holds.entry (by rwa [List.length_map]), List.getElem_map]

lemma Assigned.terminated (h : Assigned e src l) : e.arr (.foreign src) l.length = none := by
  have := h.holds.terminated
  rwa [List.length_map] at this

/-- The pointers of the program's array; their names play no part here. -/
def pointersOf (l : List ℕ) : List Binding := l.map fun j => ⟨.foreign j, equals, equals⟩

lemma length_pointersOf (l : List ℕ) : (pointersOf l).length = l.length := List.length_map _

/-- The copies of all strings are the new table. -/
lemma Copied.heapTable (h : Copied e k q (pointersOf l)) (hq : q.length = l.length)
    (hheap : e.heapEnviron = some (.heap k)) (hlength : e.length = l.length) (hroom : e.length < e.size) :
    HeapTable { e.setSlot (.heap k) q.length none with environ := some (.heap k) } k q ∧
      heapStrings e q = foreignStrings e l := by
  constructor
  · exact {
      holds := by
        intro i hi
        rw [List.length_map] at hi
        change update e.arr (.heap k) _ (.heap k) i = _
        rw [update_self]
        obtain rfl | hlt := Nat.eq_or_lt_of_le hi
        · rw [update_self, List.getElem?_eq_none (by rw [List.length_map])]
        · rw [update_of_ne hlt.ne, h.slots i hlt, List.getElem?_map, List.getElem?_eq_getElem hlt]
          rfl
      heapEnviron := hheap
      owned := h.owned
      nodup := h.nodup
      blocks := h.blocks
      length := hlength.trans hq.symm
      room := hroom }
  · apply List.ext_getElem
    · rw [heapStrings, foreignStrings, List.length_map, List.length_map, hq]
    · intro i hi hi'
      rw [heapStrings, List.length_map] at hi
      simp only [heapStrings, foreignStrings, List.getElem_map]
      rw [h.strings i hi (by rw [length_pointersOf]; omega)]
      simp only [pointersOf, List.getElem_map]

/-- A copy that is given up frees what it has allocated. -/
lemma Copied.release (h : Copied e k q (pointersOf l)) (hassigned : Assigned e src l) (calls : ℕ) :
    ∃ e', ((freeEntries (.heap k) q.length 0
        (({ e with calls := calls, refused := true } : Env).setSlot (.heap k) q.length none)).bind fun e =>
          (e.free (some (.heap k))).map fun e => (false, { e with heapEnviron := none })) = some (false, e') ∧
      e'.heapEnviron = none ∧ Assigned e' src l := by
  obtain ⟨owned, hrun, hkeep⟩ := freeEntries_spec (k := k) (q := q) (j := 0)
    (e := ({ e with calls := calls, refused := true } : Env).setSlot (.heap k) q.length none)
    (fun i hi => by
      rw [Env.setSlot, Nat.zero_add]
      dsimp only
      rw [update_self, update_of_ne hi.ne]
      exact h.slots i hi)
    h.nodup fun x hx => (h.blocks x hx).1
  have hk : k ∈ owned := hkeep k h.owned fun hmem => (h.blocks k hmem).2 rfl
  refine ⟨{ ({ e with calls := calls, refused := true } : Env).setSlot (.heap k) q.length none with
      owned := owned.erase k
      heapEnviron := none }, ?_, rfl, hassigned.environ, ?_⟩
  · rw [hrun, Option.bind_some]
    exact congrArg (Option.map _) (if_pos hk)
  · exact hassigned.holds.congr fun i _ => congrFun (setSlot_foreign e k src q.length none) i

lemma copyEntries_assigned (ha : Fresh a) (hassigned : Assigned e src l) (hheap : e.heapEnviron = some (.heap k))
    (hlength : e.length = l.length) (hroom : e.length < e.size) (h : Copied e k q (pointersOf l)) {n : ℕ}
    (hn : q.length + n = l.length) :
    ∃ r, copyEntries a (some (.foreign src)) (.heap k) n q.length e = some r ∧
      ((r.1 = false ∧ r.2.heapEnviron = none ∧ Assigned r.2 src l) ∨
        (r.1 = true ∧ ∃ q', Active r.2 q' ∧ heapStrings r.2 q' = foreignStrings e l)) := by
  induction n generalizing e q with
  | zero =>
    obtain ⟨htable, hstrings⟩ := h.heapTable hn hheap hlength hroom
    exact ⟨_, rfl, Or.inr ⟨rfl, q, ⟨k, htable, rfl⟩, hstrings⟩⟩
  | succ n ih =>
    have hq : q.length < l.length := by omega
    have hq' : q.length < (pointersOf l).length := (length_pointersOf l).symm ▸ hq
    have hforeign : ∀ b ∈ pointersOf l, ∃ j, b.ptr = .foreign j := by
      intro b hb
      obtain ⟨j, -, rfl⟩ := List.mem_map.mp hb
      exact ⟨j, rfl⟩
    have hptr : (pointersOf l)[q.length].ptr = .foreign l[q.length] := by simp only [pointersOf, List.getElem_map]
    rw [copyEntries, Option.bind_some, hassigned.slot hq, Option.bind_some]
    dsimp only
    obtain ⟨calls, hm⟩ | ⟨p, calls, hfresh, hm⟩ := malloc_cases a e ((e.str (.foreign l[q.length])).strlen + 1)
    · rw [Env.strdup, hm]
      dsimp only
      rw [if_pos rfl]
      obtain ⟨e', hrun, hnone, hsame⟩ := h.release hassigned calls
      exact ⟨_, hrun, Or.inl ⟨rfl, hnone, hsame⟩⟩
    · have hpush := h.push hforeign (ha.malloc _ _ _ _ hfresh) hq' calls
      rw [hptr] at hpush
      rw [Env.strdup, hm]
      dsimp only
      rw [if_neg (Option.some_ne_none _)]
      have hlen : (q ++ [p]).length = q.length + 1 := by rw [List.length_append, List.length_singleton]
      rw [← hlen]
      have hassigned' : Assigned ((({ e with calls := calls, owned := insert p e.owned } : Env).setStr (.heap p)
          (e.str (.foreign l[q.length]))).setSlot (.heap k) q.length (some (.heap p))) src l :=
        ⟨hassigned.environ, hassigned.holds.congr fun i _ => congrFun (setSlot_foreign _ k src q.length _) i⟩
      obtain ⟨r, hrun, hcases⟩ := ih hassigned' hheap hlength hroom hpush (by omega)
      refine ⟨r, hrun, hcases.imp_right fun hdone => ?_⟩
      obtain ⟨hret, q', hactive, hstrings⟩ := hdone
      refine ⟨hret, q', hactive, hstrings.trans (List.map_congr_left fun j _ => ?_)⟩
      have hne : Ptr.foreign j ≠ .heap p := by simp
      exact update_of_ne hne (e.str (.foreign l[q.length])) e.str

/-- The loop that frees a table with entries ends with a pointer that is not the start of a block. -/
lemma freeTable_moved (base : Ptr) {i : ℕ} (hi : i ≠ 0) (fuel : ℕ) (e : Env) : freeTable base fuel i e = none := by
  induction fuel generalizing i e with
  | zero => rfl
  | succ fuel ih =>
    rw [freeTable]
    cases hslot : e.arr base i with
    | none => exact if_neg hi
    | some p => exact Option.bind_eq_none_iff.mpr fun e' _ => ih (Nat.succ_ne_zero i) e'

/-- What is left of `reset_environ` when the old table has been freed. -/
def copyOut (a : Allocator) (fuel : ℕ) (e : Env) : Option (Bool × Env) :=
  (match e.environ with
    | none => some 0
    | some base => countEntries (e.arr base) fuel 0).bind fun length =>
  let size := if length > 15 then length + 1 else 16
  let r := e.malloc a (size * 8)
  match r.1 with
  | none => some (false, { r.2 with heapEnviron := none })
  | some dst =>
      copyEntries a e.environ dst length 0 { r.2 with heapEnviron := some dst, length := length, size := size }

lemma resetEnviron_copyOut (hheap : e.heapEnviron = none) (fuel : ℕ) : resetEnviron a fuel e = copyOut a fuel e := by
  rewrite [resetEnviron, hheap]
  rfl

lemma resetEnviron_freeTable {base : Ptr} (hheap : e.heapEnviron = some base) (fuel : ℕ) :
    resetEnviron a fuel e = (freeTable base fuel 0 e).bind (copyOut a fuel) := by
  rewrite [resetEnviron, hheap]
  rfl

lemma resetEnviron_none {base : Ptr} (hheap : e.heapEnviron = some base) (hslot : e.arr base 0 ≠ none) (fuel : ℕ) :
    resetEnviron a fuel e = none := by
  have hfree : freeTable base fuel 0 e = none := by
    cases fuel with
    | zero => rfl
    | succ fuel =>
      rw [freeTable]
      obtain ⟨p, hp⟩ := Option.ne_none_iff_exists'.mp hslot
      rw [hp]
      exact Option.bind_eq_none_iff.mpr fun e' _ => freeTable_moved base Nat.one_ne_zero fuel e'
  rw [resetEnviron_freeTable hheap, hfree, Option.bind_none]

/-- An empty table is freed as a block. -/
lemma HeapTable.resetEnviron (h : HeapTable e k []) {fuel : ℕ} (hf : fuel ≠ 0) :
    Environ.resetEnviron a fuel e = copyOut a fuel { e with owned := e.owned.erase k } := by
  obtain ⟨fuel, rfl⟩ := Nat.exists_eq_add_one_of_ne_zero hf
  have hfirst : e.arr (.heap k) 0 = none := h.terminated
  have hfree : freeTable (.heap k) (fuel + 1) 0 e = some { e with owned := e.owned.erase k } := by
    rewrite [freeTable, hfirst]
    exact Env.free_owned h.owned
  rw [resetEnviron_freeTable h.heapEnviron, hfree, Option.bind_some]

/-- The array moves to the heap unless memory is refused. -/
lemma Assigned.copyOut (ha : Fresh a) (h : Assigned e src l) :
    ∃ r, (∀ fuel > l.length, Environ.copyOut a fuel e = some r) ∧
      ((r.1 = false ∧ r.2.heapEnviron = none ∧ Assigned r.2 src l) ∨
        (r.1 = true ∧ ∃ q', Active r.2 q' ∧ heapStrings r.2 q' = foreignStrings e l)) := by
  obtain ⟨size, hsize⟩ : ∃ size, (if l.length > 15 then l.length + 1 else 16) = size := ⟨_, rfl⟩
  have hroom : l.length < size := by
    rw [← hsize]
    split_ifs <;> omega
  have hstart : ∀ fuel > l.length, Environ.copyOut a fuel e =
      (e.malloc a (size * 8)).1.elim (some (false, { (e.malloc a (size * 8)).2 with heapEnviron := none })) fun dst =>
        copyEntries a (some (.foreign src)) dst l.length 0
          { (e.malloc a (size * 8)).2 with heapEnviron := some dst, length := l.length, size := size } := by
    intro fuel hf
    have hcount : countEntries (e.arr (.foreign src)) fuel 0 = some l.length :=
      countEntries_spec (Nat.zero_le _) (fun x hx => by rw [h.slot hx]; exact Option.some_ne_none _) h.terminated hf
    rewrite [Environ.copyOut, h.environ]
    dsimp only
    rewrite [hcount, Option.bind_some, hsize]
    cases (e.malloc a (size * 8)).1 with
    | none => rfl
    | some dst => rfl
  obtain ⟨calls, hm⟩ | ⟨k, calls, hfresh, hm⟩ := malloc_cases a e (size * 8)
  · rw [hm] at hstart
    exact ⟨_, hstart, Or.inl ⟨rfl, rfl, h.environ, h.holds⟩⟩
  · rw [hm] at hstart
    have hcopied : Copied { e with
        calls := calls
        owned := insert k e.owned
        heapEnviron := some (.heap k)
        length := l.length
        size := size } k [] (pointersOf l) :=
      ⟨Finset.mem_insert_self _ _, List.nodup_nil, fun j hj => absurd hj List.not_mem_nil,
        fun i hi => absurd hi (Nat.not_lt_zero i), fun i hi => absurd hi (Nat.not_lt_zero i)⟩
    obtain ⟨r, hrun, hcases⟩ := copyEntries_assigned ha (e := { e with
        calls := calls
        owned := insert k e.owned
        heapEnviron := some (.heap k)
        length := l.length
        size := size }) ⟨h.environ, h.holds⟩ rfl rfl hroom hcopied (Nat.zero_add _)
    exact ⟨r, fun fuel hf => (hstart fuel hf).trans hrun, hcases⟩

lemma Assigned.reset (ha : Fresh a) (h : Assigned e src l) (hheap : e.heapEnviron = none ∨ ∃ k, HeapTable e k []) :
    ∃ r, (∀ᶠ fuel in atTop, Environ.resetEnviron a fuel e = some r) ∧
      ((r.1 = false ∧ r.2.heapEnviron = none ∧ Assigned r.2 src l) ∨
        (r.1 = true ∧ ∃ q', Active r.2 q' ∧ heapStrings r.2 q' = foreignStrings e l)) := by
  obtain hnone | ⟨k, htable⟩ := hheap
  · obtain ⟨r, hrun, hcases⟩ := h.copyOut ha
    refine ⟨r, ?_, hcases⟩
    filter_upwards [eventually_gt_atTop l.length] with fuel hf
    rw [resetEnviron_copyOut hnone, hrun fuel hf]
  · have hfreed : Assigned { e with owned := e.owned.erase k } src l := ⟨h.environ, h.holds⟩
    obtain ⟨r, hrun, hcases⟩ := hfreed.copyOut ha
    refine ⟨r, ?_, hcases⟩
    filter_upwards [eventually_gt_atTop l.length] with fuel hf
    rw [htable.resetEnviron (Nat.ne_zero_of_lt hf), hrun fuel hf]

/-- `unsetenv` moves pointers within the program's array and frees nothing. -/
lemma Assigned.unsetLoop (h : Assigned e src l) (hheap : e.heapEnviron ≠ some (.foreign src)) (n : CString) {i d : ℕ}
    (hi : i + d = l.length) :
    ∃ slots, ∃ l' : List ℕ, (∀ fuel > d + 1, Environ.unsetLoop (.foreign src) n fuel i e =
      some { e with arr := update e.arr (.foreign src) slots }) ∧ Holds slots (l'.map .foreign) := by
  induction d generalizing e l i with
  | zero =>
    refine ⟨e.arr (.foreign src), l, fun fuel hf => ?_, h.holds⟩
    obtain ⟨fuel, rfl⟩ := Nat.exists_eq_add_one_of_ne_zero (Nat.ne_zero_of_lt hf)
    rw [Environ.unsetLoop, ← hi.symm.trans (Nat.add_zero i), h.terminated, update_eq_self]
  | succ d ih =>
    have hlt : i < l.length := by omega
    by_cases hentry : e.isEntry n (.foreign l[i]) = true
    · obtain ⟨slots, hshift, hlow, hhigh⟩ := shiftEntries_spec e (.foreign src) i (d + 1)
        (fun x _ hx => by rw [h.slot (by omega)]; exact Option.some_ne_none _) (by rw [hi]; exact h.terminated)
      have hholds : Holds slots ((l.eraseIdx i).map .foreign) := by
        rw [← List.eraseIdx_map]
        exact h.holds.shift (by rwa [List.length_map]) hlow fun x hx hx' =>
          hhigh x hx (by rwa [List.length_map, ← hi] at hx')
      have hnew : Assigned { e with arr := update e.arr (.foreign src) slots } src (l.eraseIdx i) := by
        refine ⟨h.environ, ?_⟩
        dsimp only
        rwa [update_self]
      obtain ⟨slots', l', hrun, hholds'⟩ := ih hnew hheap (show i + d = (l.eraseIdx i).length by
        rw [List.length_eraseIdx_of_lt hlt]; omega)
      refine ⟨slots', l', fun fuel hf => ?_, hholds'⟩
      obtain ⟨fuel, rfl⟩ := Nat.exists_eq_add_one_of_ne_zero (Nat.ne_zero_of_lt hf)
      rw [Environ.unsetLoop, h.slot hlt]
      dsimp only
      rw [if_pos hentry, if_neg hheap, hshift fuel (by omega), Option.bind_some, hrun fuel (by omega)]
      dsimp only
      rw [update_idem]
    · obtain ⟨slots, l', hrun, hholds⟩ := ih h hheap (show i + 1 + d = l.length by omega)
      refine ⟨slots, l', fun fuel hf => ?_, hholds⟩
      obtain ⟨fuel, rfl⟩ := Nat.exists_eq_add_one_of_ne_zero (Nat.ne_zero_of_lt hf)
      rw [Environ.unsetLoop, h.slot hlt]
      dsimp only
      rw [if_neg hentry]
      exact hrun fuel (by omega)

end Reset

section Runs
variable {e : Env} {k src : ℕ} {q l : List ℕ} {a : Allocator} {name : CString}

/-- The strings of the program change, those of the library do not. -/
def Env.withStrings (e : Env) (strings : ℕ → CString) : Ptr → CString
  | .foreign j => strings j
  | .heap j => e.str (.heap j)

/-- The program lets `environ` be an array of its own, with pointers to the strings at `l` and a null pointer. -/
def Env.assign (e : Env) (src : ℕ) (l : List ℕ) (strings : ℕ → CString) : Env :=
  { e with
    environ := some (.foreign src)
    arr := update e.arr (.foreign src) fun i => (l.map .foreign)[i]?
    str := e.withStrings strings }

inductive EnvStep
  | setenv (name value : CString) (overwrite : Bool)
  | unsetenv (name : CString)
  | assign (src : ℕ) (l : List ℕ) (strings : ℕ → CString)

def Env.step (a : Allocator) (fuel : ℕ) (e : Env) : EnvStep → Option (ℤ × Env)
  | .setenv name value overwrite => Environ.setenv a fuel e name value overwrite
  | .unsetenv name => Environ.unsetenv fuel e name
  | .assign src l strings => some (0, e.assign src l strings)

/-- The name has the value, and the others have what they had. -/
def Env.Sets (e e' : Env) (name value : CString) : Prop :=
  ∀ m, ∃ v, (∀ᶠ fuel in atTop, getenv fuel e m = some v) ∧
    ∀ᶠ fuel in atTop, getenv fuel e' m = some (if m = name then some value else v)

def EnvStep.Correct (e : Env) (r : ℤ × Env) : EnvStep → Prop
  | .setenv name value overwrite => r.1 = 0 → overwrite = true → e.Sets r.2 name value
  | _ => True

/-- `setenv` finds that `environ` is not the table of the library, which has entries. -/
def EnvStep.Stale (e : Env) : EnvStep → Prop
  | .setenv name _ _ =>
      IsName name ∧ e.environ ≠ e.heapEnviron ∧ ∃ base, e.heapEnviron = some base ∧ e.arr base 0 ≠ none
  | _ => False

/-- All steps free nothing but blocks that have not been freed, and set what they are asked to. -/
def Survives (a : Allocator) : Env → List EnvStep → Prop
  | _, [] => True
  | e, s :: steps => ∃ r, (∀ᶠ fuel in atTop, e.step a fuel s = some r) ∧ s.Correct e r ∧ Survives a r.2 steps

def NeverStale (a : Allocator) : Env → List EnvStep → Prop
  | _, [] => True
  | e, s :: steps => ¬ s.Stale e ∧ ∀ r, (∀ᶠ fuel in atTop, e.step a fuel s = some r) → NeverStale a r.2 steps

/-- The environment is the table of the library or an array of the program, beside which that table may be left. -/
def Sound (e : Env) : Prop :=
  (∃ q, Active e q) ∨ ∃ src l, Assigned e src l ∧ (e.heapEnviron = none ∨ ∃ k q, HeapTable e k q)

lemma Active.getenv (h : Active e q) (m : CString) :
    ∀ᶠ fuel in atTop, Environ.getenv fuel e m = some (lookup (heapStrings e q) m) := by
  obtain ⟨k, htable, henviron⟩ := h
  filter_upwards [eventually_gt_atTop q.length] with fuel hf
  rw [Environ.getenv, henviron, Option.bind_some,
    getenvLoop_lookup htable.holds m (Nat.zero_le _) (by rwa [List.length_map]), List.drop_zero, heapStrings_eq]

lemma Assigned.getenv (h : Assigned e src l) (m : CString) :
    ∀ᶠ fuel in atTop, Environ.getenv fuel e m = some (lookup (foreignStrings e l) m) := by
  filter_upwards [eventually_gt_atTop l.length] with fuel hf
  rw [Environ.getenv, h.environ, Option.bind_some,
    getenvLoop_lookup h.holds m (Nat.zero_le _) (by rwa [List.length_map]), List.drop_zero, foreignStrings,
    List.map_map]
  rfl

lemma Sound.table (h : Sound e) : e.heapEnviron = none ∨ ∃ k q, HeapTable e k q := by
  obtain ⟨q, k, htable, -⟩ | ⟨src, l, -, htable⟩ := h
  · exact Or.inr ⟨k, q, htable⟩
  · exact htable

lemma Sound.assign (h : Sound e) (src : ℕ) (l : List ℕ) (strings : ℕ → CString) : Sound (e.assign src l strings) := by
  refine Or.inr ⟨src, l, ⟨rfl, fun i hi => ?_⟩, h.table.imp_right ?_⟩
  · exact congrFun (update_self (Ptr.foreign src) _ e.arr) i
  · rintro ⟨k, q, htable⟩
    have hne : Ptr.heap k ≠ .foreign src := nofun
    have harr : (e.assign src l strings).arr (.heap k) = e.arr (.heap k) :=
      update_of_ne hne (fun i => (l.map .foreign)[i]?) e.arr
    exact ⟨k, q, htable.frame harr rfl rfl rfl subset_rfl⟩

lemma Sound.unsetenv (h : Sound e) (name : CString) :
    ∃ r, (∀ᶠ fuel in atTop, Environ.unsetenv fuel e name = some r) ∧ Sound r.2 := by
  by_cases hname : IsName name
  · obtain ⟨q, k, htable, henviron⟩ | ⟨src, l, hassigned, hheap⟩ := h
    · obtain ⟨e', q', hrun, hactive⟩ := htable.unsetLoop henviron name (Nat.zero_add q.length)
      refine ⟨(0, e'), ?_, Or.inl ⟨q', hactive⟩⟩
      filter_upwards [eventually_gt_atTop q.length] with fuel hf
      rw [Environ.unsetenv, if_neg hname, henviron]
      dsimp only
      rw [hrun fuel hf, Option.map_some]
    · have hother : e.heapEnviron ≠ some (.foreign src) := by
        obtain hnone | ⟨k, q, htable⟩ := hheap
        · simp [hnone]
        · simp [htable.heapEnviron]
      obtain ⟨slots, l', hrun, hholds⟩ := hassigned.unsetLoop hother name (Nat.zero_add l.length)
      refine ⟨(0, { e with arr := update e.arr (.foreign src) slots }), ?_,
        Or.inr ⟨src, l', ⟨hassigned.environ, ?_⟩, hheap.imp_right ?_⟩⟩
      · filter_upwards [eventually_gt_atTop (l.length + 1)] with fuel hf
        have hret := congrArg (Option.map fun e => ((0 : ℤ), e)) (hrun fuel hf)
        refine Eq.trans ?_ hret
        rw [Environ.unsetenv, if_neg hname, hassigned.environ]
      · dsimp only
        rwa [update_self]
      · rintro ⟨k, q, htable⟩
        have hne : Ptr.heap k ≠ .foreign src := by simp
        exact ⟨k, q, htable.frame (update_of_ne hne slots e.arr) rfl rfl rfl subset_rfl⟩
  · exact ⟨(-1, e), .of_forall fun fuel => if_pos (not_not.mp hname), h⟩

lemma Active.setenv (ha : Fresh a) (h : Active e q) (hname : IsName name) (value : CString) (overwrite : Bool) :
    ∃ r, (∀ᶠ fuel in atTop, Environ.setenv a fuel e name value overwrite = some r) ∧ Sound r.2 ∧
      (r.1 = 0 → overwrite = true → e.Sets r.2 name value) := by
  obtain ⟨r, hrun, q', hactive, hlookup⟩ := h.setEntry ha hname value overwrite
  refine ⟨r, ?_, Or.inl ⟨q', hactive⟩, fun hret hover m => ⟨_, h.getenv m, ?_⟩⟩
  · obtain ⟨k, htable, henviron⟩ := h
    have hsame : ¬ (e.environ = none ∨ e.environ ≠ e.heapEnviron) := by
      rw [henviron, htable.heapEnviron]
      simp
    filter_upwards [hrun] with fuel hf
    rw [Environ.setenv, if_neg hname, if_neg hsame, Option.bind_some]
    exact hf
  · rw [← hlookup hret hover m]
    exact hactive.getenv m

lemma Assigned.setenv (ha : Fresh a) (h : Assigned e src l) (hheap : e.heapEnviron = none ∨ ∃ k, HeapTable e k [])
    (hname : IsName name) (value : CString) (overwrite : Bool) :
    ∃ r, (∀ᶠ fuel in atTop, Environ.setenv a fuel e name value overwrite = some r) ∧ Sound r.2 ∧
      (r.1 = 0 → overwrite = true → e.Sets r.2 name value) := by
  have hfail : (-1 : ℤ) ≠ 0 := by decide
  have hother : e.environ = none ∨ e.environ ≠ e.heapEnviron := by
    refine Or.inr ?_
    rw [h.environ]
    obtain hnone | ⟨k, htable⟩ := hheap
    · rw [hnone]
      nofun
    · rw [htable.heapEnviron]
      simp
  obtain ⟨r, hreset, ⟨hret, hnone, hsame⟩ | ⟨hret, q, hactive, hstrings⟩⟩ := h.reset ha hheap
  · refine ⟨(-1, r.2), ?_, Or.inr ⟨src, l, hsame, Or.inl hnone⟩, fun hzero => absurd hzero hfail⟩
    filter_upwards [hreset] with fuel hf
    rw [Environ.setenv, if_neg hname, if_pos hother, hf, Option.bind_some, hret]
    rfl
  · obtain ⟨r', hrun, q', hactive', hlookup⟩ := hactive.setEntry ha hname value overwrite
    refine ⟨r', ?_, Or.inl ⟨q', hactive'⟩, fun hzero hover m => ⟨_, h.getenv m, ?_⟩⟩
    · filter_upwards [hreset, hrun] with fuel hf hf'
      rw [Environ.setenv, if_neg hname, if_pos hother, hf, Option.bind_some, hret]
      exact hf'
    · rw [← hstrings, ← hlookup hzero hover m]
      exact hactive'.getenv m

lemma Sound.setenv (ha : Fresh a) (h : Sound e) (value : CString) (overwrite : Bool)
    (hstale : ¬ (EnvStep.setenv name value overwrite).Stale e) :
    ∃ r, (∀ᶠ fuel in atTop, Environ.setenv a fuel e name value overwrite = some r) ∧ Sound r.2 ∧
      (r.1 = 0 → overwrite = true → e.Sets r.2 name value) := by
  have hfail : (-1 : ℤ) ≠ 0 := by decide
  by_cases hname : IsName name
  · obtain ⟨q, hactive⟩ | ⟨src, l, hassigned, hheap⟩ := h
    · exact hactive.setenv ha hname value overwrite
    · refine hassigned.setenv ha (hheap.imp_right ?_) hname value overwrite
      rintro ⟨k, q, htable⟩
      cases q with
      | nil => exact ⟨k, htable⟩
      | cons j q =>
        have hother : e.environ ≠ e.heapEnviron := by
          rw [hassigned.environ, htable.heapEnviron]
          simp
        have hslot := htable.slot (i := 0) (Nat.succ_pos _)
        exact absurd ⟨hname, hother, _, htable.heapEnviron, by rw [hslot]; exact Option.some_ne_none _⟩ hstale
  · exact ⟨(-1, e), .of_forall fun fuel => if_pos (not_not.mp hname), h, fun hzero => absurd hzero hfail⟩

/-- What one step does unless the table of the library is left beside another environment. -/
lemma Sound.step (ha : Fresh a) (h : Sound e) (s : EnvStep) (hstale : ¬ s.Stale e) :
    ∃ r, (∀ᶠ fuel in atTop, e.step a fuel s = some r) ∧ s.Correct e r ∧ Sound r.2 := by
  cases s with
  | setenv name value overwrite =>
    obtain ⟨r, hrun, hsound, hsets⟩ := h.setenv ha value overwrite hstale
    exact ⟨r, hrun, hsets, hsound⟩
  | unsetenv name =>
    obtain ⟨r, hrun, hsound⟩ := h.unsetenv name
    exact ⟨r, hrun, trivial, hsound⟩
  | assign src l strings => exact ⟨_, .of_forall fun _ => rfl, trivial, h.assign src l strings⟩

/-- Then the pointer behind the entries of that table is freed. -/
lemma EnvStep.Stale.step {s : EnvStep} (h : s.Stale e) (fuel : ℕ) : e.step a fuel s = none := by
  cases s with
  | setenv name value overwrite =>
    obtain ⟨hname, hother, base, hheap, hslot⟩ := h
    rw [Env.step, Environ.setenv, if_neg hname, if_pos (Or.inr hother), resetEnviron_none hheap hslot, Option.bind_none]
  | unsetenv name => exact h.elim
  | assign src l strings => exact h.elim

lemma eventually_unique {f : ℕ → Option (ℤ × Env)} {r r' : ℤ × Env} (h : ∀ᶠ fuel in atTop, f fuel = some r)
    (h' : ∀ᶠ fuel in atTop, f fuel = some r') : r = r' := by
  obtain ⟨fuel, hr, hr'⟩ := (h.and h').exists
  exact Option.some.inj (hr.symm.trans hr')

lemma Sound.lasts_iff (ha : Fresh a) (h : Sound e) (steps : List EnvStep) :
    Survives a e steps ↔ NeverStale a e steps := by
  induction steps generalizing e with
  | nil => exact Iff.rfl
  | cons s steps ih =>
    constructor
    · rintro ⟨r, hrun, hcorrect, hrest⟩
      have hstale : ¬ s.Stale e := by
        intro hstale
        obtain ⟨fuel, hf⟩ := hrun.exists
        rw [hstale.step] at hf
        cases hf
      obtain ⟨r', hrun', -, hsound⟩ := h.step ha s hstale
      obtain rfl := eventually_unique hrun hrun'
      refine ⟨hstale, fun r' hr' => ?_⟩
      obtain rfl := eventually_unique hrun hr'
      exact (ih hsound).mp hrest
    · rintro ⟨hstale, hrest⟩
      obtain ⟨r, hrun, hcorrect, hsound⟩ := h.step ha s hstale
      exact ⟨r, hrun, hcorrect, (ih hsound).mpr (hrest r hrun)⟩

end Runs

/-- While the program changes the environment and assigns it, the library frees only its own blocks and sets what it is
asked to, as long as `setenv` is not called when its table has entries and is not the environment. -/
theorem survives_iff {a : Allocator} (ha : Fresh a) {e : Env} {src : ℕ} {l : List ℕ} (h : Assigned e src l)
    (hheap : e.heapEnviron = none) (steps : List EnvStep) : Survives a e steps ↔ NeverStale a e steps :=
  Sound.lasts_iff ha (Or.inr ⟨src, l, h, Or.inl hheap⟩) steps

lemma single_assigned : Assigned single 0 [1] := by
  refine ⟨rfl, fun i hi => ?_⟩
  rw [List.length_map, List.length_singleton] at hi
  interval_cases i <;> rfl

theorem survives_iff_single :
    Survives above single [.setenv ⟨[66], by decide⟩ ⟨[50], by decide⟩ true, .unsetenv ⟨[65], by decide⟩] ↔
      NeverStale above single [.setenv ⟨[66], by decide⟩ ⟨[50], by decide⟩ true, .unsetenv ⟨[65], by decide⟩] :=
  survives_iff above_fresh single_assigned rfl _

/-- `B` is set, the program assigns the array that it has been given, and `C` is set. -/
theorem not_survives : ¬ Survives above single [.setenv ⟨[66], by decide⟩ ⟨[50], by decide⟩ true,
    .assign 0 [1] fun _ => ⟨[65, 61, 49], by decide⟩, .setenv ⟨[67], by decide⟩ ⟨[51], by decide⟩ true] := by
  rintro ⟨r, hfirst, -, r', hassign, -, r'', hlast, -⟩
  have htable : r.2.heapEnviron = some (.heap 1) ∧ r.2.arr (.heap 1) 0 = some (.heap 2) := by
    obtain ⟨fuel, hr, hfuel⟩ := (hfirst.and (eventually_ge_atTop 3)).exists
    obtain ⟨n, rfl⟩ := Nat.exists_eq_add_of_le' hfuel
    obtain rfl := Option.some.inj hr
    exact ⟨rfl, rfl⟩
  have hname : IsName ⟨[67], by decide⟩ := by
    unfold IsName
    decide
  have hstale : (EnvStep.setenv ⟨[67], by decide⟩ ⟨[51], by decide⟩ true).Stale r'.2 := by
    obtain ⟨fuel, hr⟩ := hassign.exists
    obtain rfl := Option.some.inj hr
    refine ⟨hname, ?_, _, htable.1, ?_⟩
    · have hother : some (Ptr.foreign 0) ≠ some (.heap 1) := by decide
      exact fun heq => hother (heq.trans htable.1)
    · have hslot : some (Ptr.heap 2) ≠ none := by decide
      exact fun hnone => hslot (htable.2.symm.trans hnone)
  obtain ⟨fuel, hf⟩ := hlast.exists
  rw [hstale.step] at hf
  cases hf

end PiggyOs.Environ
