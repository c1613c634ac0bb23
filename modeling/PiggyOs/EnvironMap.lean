import Mathlib.Order.Filter.AtTopBot.Basic
import PiggyOs.Environ
import PiggyOs.TerminatedArray

/-! The environment as a map from names to values, which no failed call changes. -/
namespace PiggyOs.Environ
open Function CString TerminatedArray Filter

structure Binding where
  ptr : Ptr
  name : CString
  value : CString

section Bindings
variable {table table' : List Binding} {M : CString → Option CString} {b : Binding} {n : CString}

/-- A table binds what a map does. -/
def Binds (table : List Binding) (M : CString → Option CString) : Prop :=
  ∀ n v, M n = some v ↔ ∃ b ∈ table, b.name = n ∧ b.value = v

lemma Binds.perm (h : Binds table M) (hp : table.Perm table') : Binds table' M := by
  intro n v
  rw [h n v]
  simp only [hp.mem_iff]

/-- Only the names and the values matter. -/
lemma Binds.congr (h : Binds table M)
    (heq : table'.map (fun b => (b.name, b.value)) = table.map fun b => (b.name, b.value)) : Binds table' M := by
  have hmem : ∀ (t : List Binding) n v, (∃ b ∈ t, b.name = n ∧ b.value = v) ↔
      (n, v) ∈ t.map fun b => (b.name, b.value) := by
    intro t n v
    simp only [List.mem_map, Prod.mk.injEq]
  intro n v
  rw [h n v, hmem, hmem, heq]

lemma Binds.eq_none_iff (h : Binds table M) : M n = none ↔ n ∉ table.map Binding.name := by
  constructor
  · intro hnone hmem
    obtain ⟨b, hb, rfl⟩ := List.mem_map.mp hmem
    have hsome := (h b.name b.value).mpr ⟨b, hb, rfl, rfl⟩
    rw [hnone] at hsome
    cases hsome
  · intro hmem
    cases hM : M n with
    | none => rfl
    | some v =>
      obtain ⟨b, hb, rfl, -⟩ := (h n v).mp hM
      exact absurd (List.mem_map_of_mem hb) hmem

lemma Binds.cons (h : Binds table M) (hn : b.name ∉ table.map Binding.name) :
    Binds (b :: table) (update M b.name (some b.value)) := by
  intro n v
  by_cases hname : n = b.name
  · subst hname
    rw [update_self, Option.some.injEq]
    constructor
    · intro hv
      exact ⟨b, List.mem_cons_self, rfl, hv⟩
    · rintro ⟨b', hb', hname, hv⟩
      rcases List.mem_cons.mp hb' with rfl | hb'
      · exact hv
      · exact absurd (hname ▸ List.mem_map_of_mem hb') hn
  · rw [update_of_ne hname, h n v]
    constructor
    · rintro ⟨b', hb', hb⟩
      exact ⟨b', List.mem_cons_of_mem _ hb', hb⟩
    · rintro ⟨b', hb', rfl, hv⟩
      rcases List.mem_cons.mp hb' with rfl | hb'
      · exact absurd rfl hname
      · exact ⟨b', hb', rfl, hv⟩

lemma Binds.tail (h : Binds (b :: table) M) (hn : b.name ∉ table.map Binding.name) :
    Binds table (update M b.name none) := by
  intro n v
  by_cases hname : n = b.name
  · subst hname
    rw [update_self]
    refine iff_of_false (by simp) ?_
    rintro ⟨b', hb', hname, -⟩
    exact hn (hname ▸ List.mem_map_of_mem hb')
  · rw [update_of_ne hname, h n v]
    constructor
    · rintro ⟨b', hb', rfl, hv⟩
      rcases List.mem_cons.mp hb' with rfl | hb'
      · exact absurd rfl hname
      · exact ⟨b', hb', rfl, hv⟩
    · rintro ⟨b', hb', hb⟩
      exact ⟨b', List.mem_cons_of_mem _ hb', hb⟩

/-- A binding and the others. -/
lemma perm_at {i : ℕ} (hi : i < table.length) : table.Perm (table[i] :: table.eraseIdx i) :=
  (List.getElem_cons_eraseIdx_perm hi).symm

lemma nodup_at (hnodup : (table.map Binding.name).Nodup) {i : ℕ} (hi : i < table.length) :
    table[i].name ∉ (table.eraseIdx i).map Binding.name ∧ ((table.eraseIdx i).map Binding.name).Nodup := by
  rw [((perm_at hi).map Binding.name).nodup_iff, List.map_cons, List.nodup_cons] at hnodup
  exact hnodup

lemma Binds.erase (h : Binds table M) (hnodup : (table.map Binding.name).Nodup) {i : ℕ} (hi : i < table.length) :
    Binds (table.eraseIdx i) (update M table[i].name none) :=
  (h.perm (perm_at hi)).tail (nodup_at hnodup hi).1

lemma Binds.set (h : Binds table M) (hnodup : (table.map Binding.name).Nodup) {i : ℕ} (hi : i < table.length)
    (hname : table[i].name = b.name) : Binds (table.set i b) (update M b.name (some b.value)) := by
  have hcons := (h.erase hnodup hi).cons (b := b) (hname ▸ (nodup_at hnodup hi).1)
  rw [hname, update_idem] at hcons
  exact hcons.perm (List.set_perm_cons_eraseIdx hi b).symm

end Bindings

section Strings
variable {name name' value value' : CString}

lemma joined_val (name value : CString) : (joined name value).1 = name.1 ++ (equals.1 ++ value.1) :=
  List.append_assoc _ _ _

lemma takeWhile_joined (hplain : 61 ∉ name.1) (value : CString) :
    (joined name value).1.takeWhile (· ∉ equals.1) = name.1 := by
  have hall : name.1.takeWhile (· ∉ equals.1) = name.1 := by
    rw [List.takeWhile_eq_self_iff]
    intro c hc
    simp only [equals, List.mem_singleton, decide_eq_true_eq]
    exact fun h => hplain (h ▸ hc)
  rw [joined_val, List.takeWhile_append, if_pos (by rw [hall])]
  simp [equals]

lemma strcspn_joined (hplain : 61 ∉ name.1) (value : CString) : strcspn (joined name value) equals = name.strlen := by
  rw [strcspn, takeWhile_joined hplain]
  rfl

lemma joined_inj (hplain : 61 ∉ name.1) (hplain' : 61 ∉ name'.1) (h : joined name value = joined name' value') :
    name = name' ∧ value = value' := by
  have hname : name = name' := Subtype.ext (by rw [← takeWhile_joined hplain value, h, takeWhile_joined hplain'])
  subst hname
  exact ⟨rfl, Subtype.ext (List.append_cancel_left (congrArg Subtype.val h))⟩

lemma take_joined (name value : CString) : (joined name value).1.take name.strlen = name.1 := by
  rw [joined_val]
  exact List.take_left' rfl

lemma take_strlen (name : CString) : name.1.take name.strlen = name.1 := List.take_of_length_le le_rfl

end Strings

section Entries
variable {e : Env} {base : Ptr} {table : List Binding} {n : CString} {b : Binding}

structure Entries (e : Env) (base : Ptr) (table : List Binding) : Prop where
  holds : Holds (e.arr base) (table.map Binding.ptr)
  strings : ∀ b ∈ table, e.str b.ptr = joined b.name b.value
  plain : ∀ b ∈ table, 61 ∉ b.name.1
  nodup : (table.map Binding.name).Nodup

lemma Entries.isEntry_iff (h : Entries e base table) (hb : b ∈ table) (n : CString) :
    e.isEntry n b.ptr = true ↔ b.name = n := by
  rw [Env.isEntry, decide_eq_true_eq, h.strings b hb, strcspn_joined (h.plain b hb), strncmp,
    compareBytes_eq_zero (joined _ _).2 n.2]
  constructor
  · rintro ⟨hlen, htake⟩
    rw [hlen, take_joined, ← hlen, take_strlen] at htake
    exact Subtype.ext htake
  · rintro rfl
    exact ⟨rfl, by rw [take_joined, take_strlen]⟩

/-- The same for the comparison in `getenv`. -/
lemma Entries.getenv_iff (h : Entries e base table) (hb : b ∈ table) (n : CString) :
    (strcspn (e.str b.ptr) equals = n.strlen ∧ strncmp n (e.str b.ptr) (strcspn (e.str b.ptr) equals) = 0) ↔
      b.name = n := by
  rw [h.strings b hb, strcspn_joined (h.plain b hb), strncmp, compareBytes_eq_zero n.2 (joined _ _).2, take_joined]
  constructor
  · rintro ⟨hlen, htake⟩
    rw [hlen, take_strlen] at htake
    exact Subtype.ext htake.symm
  · rintro rfl
    exact ⟨rfl, take_strlen _⟩

lemma Entries.slot (h : Entries e base table) {i : ℕ} (hi : i < table.length) : e.arr base i = some table[i].ptr := by
  rw [h.holds.entry (by rwa [List.length_map]), List.getElem_map]

lemma Entries.terminated (h : Entries e base table) : e.arr base table.length = none := by
  have := h.holds.terminated
  rwa [List.length_map] at this

/-- Two entries do not share their string. -/
lemma Entries.ptr_ne (h : Entries e base table) {i : ℕ} (hi : i < table.length) {b : Binding}
    (hb : b ∈ table.eraseIdx i) : b.ptr ≠ table[i].ptr := by
  intro hptr
  have hbmem := List.mem_of_mem_eraseIdx hb
  have hstr := h.strings b hbmem
  rw [hptr, h.strings _ (List.getElem_mem hi)] at hstr
  have hname := (joined_inj (h.plain _ (List.getElem_mem hi)) (h.plain b hbmem) hstr).1
  exact (nodup_at h.nodup hi).1 (hname ▸ List.mem_map_of_mem hb)

/-- The first entry with a name, or the end of the table. -/
def place (table : List Binding) (n : CString) : ℕ := table.findIdx fun b => b.name = n

lemma place_le : place table n ≤ table.length := List.findIdx_le_length

lemma ne_of_lt_place {i : ℕ} (hi : i < place table n) (h : i < table.length) : table[i].name ≠ n := by
  have := List.not_of_lt_findIdx hi
  simpa using this

lemma place_of_eq {i : ℕ} (hi : i < table.length) (hname : table[i].name = n) : place table n ≤ i := by
  by_contra hlt
  exact ne_of_lt_place (not_le.mp hlt) hi hname

lemma place_eq_length (hn : n ∉ table.map Binding.name) : place table n = table.length :=
  List.findIdx_eq_length_of_false fun _ hb => decide_eq_false fun hname => hn (hname ▸ List.mem_map_of_mem hb)

lemma place_name (h : place table n < table.length) : table[place table n].name = n := by
  have := List.findIdx_getElem (w := h)
  exact of_decide_eq_true this

lemma ne_place {i : ℕ} (hi : i < table.length) (hname : table[i].name ≠ n) : i ≠ place table n := by
  rintro rfl
  exact hname (place_name hi)

lemma place_lt_iff : place table n < table.length ↔ n ∈ table.map Binding.name := by
  constructor
  · intro h
    exact List.mem_map.mpr ⟨_, List.getElem_mem h, place_name h⟩
  · intro h
    by_contra hge
    obtain ⟨b, hb, hname⟩ := List.mem_map.mp h
    obtain ⟨i, hi, rfl⟩ := List.getElem_of_mem hb
    have := place_of_eq hi hname
    omega

/-- The loop stops at that place. -/
lemma Entries.findEntry (h : Entries e base table) (n : CString) {i fuel : ℕ} (hi : i ≤ place table n)
    (hf : table.length < fuel + i) : findEntry e base n fuel i = some (place table n) := by
  induction fuel generalizing i with
  | zero => exact absurd (hi.trans place_le) (by omega)
  | succ fuel ih =>
    rw [Environ.findEntry]
    by_cases hend : i = table.length
    · have hplace : place table n = i := le_antisymm (hend ▸ place_le) hi
      rw [hend, h.terminated, ← hend, hplace]
    have hilt : i < table.length := lt_of_le_of_ne (hi.trans place_le) hend
    rw [h.slot hilt]
    dsimp only
    by_cases hname : table[i].name = n
    · rw [if_pos ((h.isEntry_iff (List.getElem_mem hilt) n).mpr hname), le_antisymm (place_of_eq hilt hname) hi]
    · rw [if_neg (mt (h.isEntry_iff (List.getElem_mem hilt) n).mp hname)]
      have hne := ne_place hilt hname
      exact ih (by omega) (by omega)

/-- `getenv` finds what the table binds. -/
lemma Entries.getenvLoop {M : CString → Option CString} (h : Entries e base table) (hM : Binds table M) (n : CString)
    {i fuel : ℕ} (hi : i ≤ place table n) (hf : table.length < fuel + i) :
    getenvLoop e base n fuel i = some (M n) := by
  induction fuel generalizing i with
  | zero => exact absurd (hi.trans place_le) (by omega)
  | succ fuel ih =>
    rw [Environ.getenvLoop]
    by_cases hend : i = table.length
    · have hplace : place table n = table.length := le_antisymm place_le (hend ▸ hi)
      have hnone : M n = none := hM.eq_none_iff.mpr fun hmem => absurd (place_lt_iff.mpr hmem) (by omega)
      rw [hend, h.terminated, hnone]
    have hilt : i < table.length := lt_of_le_of_ne (hi.trans place_le) hend
    rw [h.slot hilt]
    dsimp only
    by_cases hname : table[i].name = n
    · have hvalue : M n = some table[i].value := (hM n _).mpr ⟨_, List.getElem_mem hilt, hname, rfl⟩
      rw [if_pos ((h.getenv_iff (List.getElem_mem hilt) n).mpr hname), hvalue, h.strings _ (List.getElem_mem hilt),
        strcspn_joined (h.plain _ (List.getElem_mem hilt)), joined_val]
      have hdrop : (table[i].name.1 ++ (equals.1 ++ table[i].value.1)).drop (table[i].name.strlen + 1) =
          table[i].value.1 := by
        rw [← List.append_assoc]
        exact List.drop_left' (by simp [strlen, equals])
      rw [hdrop]
      exact congrArg (some ∘ some) (Subtype.ext (ofBytes_val table[i].value.2))
    · rw [if_neg (mt (h.getenv_iff (List.getElem_mem hilt) n).mp hname)]
      have hne := ne_place hilt hname
      exact ih (by omega) (by omega)

end Entries

section Owned
variable {e e' : Env} {k : ℕ} {table : List Binding}

/-- The table and its strings are blocks of the library, and there is room for the null pointer. -/
structure OnHeap (e : Env) (k : ℕ) (table : List Binding) : Prop where
  entries : Entries e (.heap k) table
  environ : e.environ = some (.heap k)
  heapEnviron : e.heapEnviron = some (.heap k)
  owned : k ∈ e.owned
  blocks : ∀ b ∈ table, ∃ j, b.ptr = .heap j ∧ j ∈ e.owned ∧ j ≠ k
  length : e.length = table.length
  room : e.length < e.size

/-- The table is the one that the program has been given. -/
structure Given (e : Env) (k : ℕ) (table : List Binding) : Prop where
  entries : Entries e (.foreign k) table
  environ : e.environ = some (.foreign k)
  heapEnviron : e.heapEnviron = none
  blocks : ∀ b ∈ table, ∃ j, b.ptr = .foreign j

def Represents (e : Env) (table : List Binding) : Prop := (∃ k, OnHeap e k table) ∨ ∃ k, Given e k table

lemma Represents.entries (h : Represents e table) : ∃ base, e.environ = some base ∧ Entries e base table := by
  obtain ⟨k, h⟩ | ⟨k, h⟩ := h
  · exact ⟨_, h.environ, h.entries⟩
  · exact ⟨_, h.environ, h.entries⟩

/-- New blocks are different from all that have not been freed. -/
structure Fresh (a : Allocator) : Prop where
  malloc : ∀ calls owned size p, a.malloc calls owned size = some p → p ∉ owned
  realloc : ∀ calls owned k size p, a.realloc calls owned k size = some p → p = k ∨ p ∉ owned

lemma Env.free_owned {j : ℕ} (hj : j ∈ e.owned) :
    e.free (some (.heap j)) = some { e with owned := e.owned.erase j } := if_pos hj

/-- What `malloc` does: it refuses, or there is a new block. -/
lemma malloc_cases (a : Allocator) (e : Env) (size : ℕ) :
    (∃ calls, e.malloc a size = (none, { e with calls := calls, refused := true })) ∨
    ∃ p calls, a.malloc e.calls e.owned size = some p ∧
      e.malloc a size = (some (.heap p), { e with calls := calls, owned := insert p e.owned }) := by
  rw [Env.malloc]
  cases h : a.malloc e.calls e.owned size with
  | none => exact Or.inl ⟨_, rfl⟩
  | some p => exact Or.inr ⟨p, _, rfl, rfl⟩

/-- The string of a new block does not change the entries. -/
lemma Entries.frame {base : Ptr} (h : Entries e base table) (harr : e'.arr base = e.arr base)
    (hstr : ∀ b ∈ table, e'.str b.ptr = e.str b.ptr) : Entries e' base table :=
  ⟨h.holds.congr fun i _ => congrFun harr i, fun b hb => (hstr b hb).trans (h.strings b hb), h.plain, h.nodup⟩

lemma OnHeap.frame (h : OnHeap e k table) (harr : e'.arr (.heap k) = e.arr (.heap k)) (henviron : e'.environ = e.environ)
    (hheap : e'.heapEnviron = e.heapEnviron) (hlength : e'.length = e.length) (hsize : e'.size = e.size)
    (howned : e.owned ⊆ e'.owned) (hstr : e'.str = e.str) : OnHeap e' k table where
  entries := h.entries.frame harr fun b _ => congrFun hstr b.ptr
  environ := henviron.trans h.environ
  heapEnviron := hheap.trans h.heapEnviron
  owned := howned h.owned
  blocks := fun b hb => by
    obtain ⟨j, hptr, hj, hne⟩ := h.blocks b hb
    exact ⟨j, hptr, howned hj, hne⟩
  length := hlength.trans h.length
  room := by
    rw [hlength, hsize]
    exact h.room

/-- A pointer to an entry is not a new block. -/
lemma OnHeap.ptr_ne_new (h : OnHeap e k table) {p : ℕ} (hp : p ∉ e.owned) {b : Binding} (hb : b ∈ table) :
    b.ptr ≠ .heap p := by
  obtain ⟨j, hptr, hj, -⟩ := h.blocks b hb
  rw [hptr]
  rintro ⟨⟩
  exact hp hj

/-- The table moves to a larger block. -/
lemma OnHeap.realloc {a : Allocator} (ha : Fresh a) (h : OnHeap e k table) (size2 : ℕ) :
    ∃ r, e.reallocarray a (.heap k) e.size size2 = some r ∧
      ((r.1 = none ∧ r.2.refused = true ∧ OnHeap r.2 k table) ∨
        ∃ q, r.1 = some (.heap q) ∧ r.2.size = e.size ∧
          ∀ size > e.length, OnHeap { r.2 with environ := some (.heap q), heapEnviron := some (.heap q), size := size } q
            table) := by
  rw [Env.reallocarray]
  by_cases hover : 2 ^ 64 ≤ e.size * size2
  · rw [if_pos hover]
    exact ⟨_, rfl, Or.inl ⟨rfl, rfl, h.frame rfl rfl rfl rfl rfl subset_rfl rfl⟩⟩
  rw [if_neg hover]
  dsimp only
  rw [if_neg (not_not.mpr h.owned)]
  cases hq : a.realloc e.calls e.owned k (e.size * size2) with
  | none => exact ⟨_, rfl, Or.inl ⟨rfl, rfl, h.frame rfl rfl rfl rfl rfl subset_rfl rfl⟩⟩
  | some q =>
    refine ⟨_, rfl, Or.inr ⟨q, rfl, rfl, fun size hsize => ?_⟩⟩
    have hnew := ha.realloc _ _ _ _ _ hq
    exact {
      entries := {
        holds := by
          refine h.entries.holds.congr fun i hi => ?_
          have hlt : i < e.size := by
            have := h.room
            rw [List.length_map, ← h.length] at hi
            omega
          dsimp only
          rw [update_self, if_pos hlt]
        strings := h.entries.strings
        plain := h.entries.plain
        nodup := h.entries.nodup }
      environ := rfl
      heapEnviron := rfl
      owned := Finset.mem_insert_self _ _
      blocks := fun b hb => by
        obtain ⟨j, hptr, hj, hne⟩ := h.blocks b hb
        refine ⟨j, hptr, Finset.mem_insert_of_mem (Finset.mem_erase.mpr ⟨hne, hj⟩), ?_⟩
        rintro rfl
        exact hnew.elim hne fun hout => hout hj
      length := h.length
      room := hsize }

/-- A binding in a new block behind the others. -/
lemma OnHeap.push (h : OnHeap e k table) {p : ℕ} (hp : p ∉ e.owned) {name value : CString} (hplain : 61 ∉ name.1)
    (hname : name ∉ table.map Binding.name) (hroom : e.length + 1 < e.size) (calls : ℕ) :
    OnHeap { ((({ e with calls := calls, owned := insert p e.owned } : Env).setSlot (.heap k) table.length
        (some (.heap p))).setStr (.heap p) (joined name value)).setSlot (.heap k) (table.length + 1) none with
      length := e.length + 1 } k (table ++ [⟨.heap p, name, value⟩]) where
  entries := {
    holds := by
      have hpush := h.entries.holds.push (.heap p)
      rw [List.length_map] at hpush
      rw [List.map_append, List.map_singleton]
      simpa only [Env.setSlot, Env.setStr, update_self] using hpush
    strings := by
      intro b hb
      rcases List.mem_append.mp hb with hb | hb
      · exact (update_of_ne (h.ptr_ne_new hp hb) _ _).trans (h.entries.strings b hb)
      · rw [List.mem_singleton.mp hb]
        exact update_self _ _ _
    plain := by
      intro b hb
      rcases List.mem_append.mp hb with hb | hb
      · exact h.entries.plain b hb
      · rw [List.mem_singleton.mp hb]
        exact hplain
    nodup := by
      rw [List.map_append]
      exact h.entries.nodup.append (List.nodup_singleton _) (by simpa using hname) }
  environ := h.environ
  heapEnviron := h.heapEnviron
  owned := Finset.mem_insert_of_mem h.owned
  blocks := by
    intro b hb
    rcases List.mem_append.mp hb with hb | hb
    · obtain ⟨j, hptr, hj, hne⟩ := h.blocks b hb
      exact ⟨j, hptr, Finset.mem_insert_of_mem hj, hne⟩
    · rw [List.mem_singleton.mp hb]
      exact ⟨p, rfl, Finset.mem_insert_self _ _, fun heq => hp (heq ▸ h.owned)⟩
  length := by
    change e.length + 1 = _
    rw [h.length, List.length_append, List.length_singleton]
  room := hroom

/-- The binding at a place gets another string, and the old one is freed. -/
lemma OnHeap.replace (h : OnHeap e k table) {p : ℕ} (hp : p ∉ e.owned) {i : ℕ} (hi : i < table.length) {name : CString}
    (hname : table[i].name = name) (value : CString) (calls : ℕ) :
    ∃ e', ((({ e with calls := calls, owned := insert p e.owned } : Env).setStr (.heap p)
        (joined name value)).free (e.arr (.heap k) i)) = some e' ∧
      OnHeap (e'.setSlot (.heap k) i (some (.heap p))) k (table.set i ⟨.heap p, name, value⟩) := by
  subst hname
  obtain ⟨j, hptr, hj, hne⟩ := h.blocks _ (List.getElem_mem hi)
  have hpj : p ≠ j := fun heq => hp (heq ▸ hj)
  rw [h.entries.slot hi, hptr, Env.free_owned (e := Env.setStr _ _ _) (Finset.mem_insert_of_mem hj)]
  refine ⟨_, rfl, ?_⟩
  have hmem : ∀ b ∈ table.set i ⟨.heap p, table[i].name, value⟩,
      b = ⟨.heap p, table[i].name, value⟩ ∨ b ∈ table.eraseIdx i := fun b hb =>
    List.mem_cons.mp ((List.set_perm_cons_eraseIdx hi _).mem_iff.mp hb)
  exact {
    entries := {
      holds := by
        have hset := h.entries.holds.set (i := i) (by rwa [List.length_map]) (.heap p)
        rw [List.map_set]
        simpa only [Env.setSlot, Env.setStr, update_self] using hset
      strings := by
        intro b hb
        rcases hmem b hb with rfl | hb
        · exact update_self _ _ _
        · have hb := List.mem_of_mem_eraseIdx hb
          exact (update_of_ne (h.ptr_ne_new hp hb) _ _).trans (h.entries.strings b hb)
      plain := by
        intro b hb
        rcases hmem b hb with rfl | hb
        · exact h.entries.plain table[i] (List.getElem_mem hi)
        · exact h.entries.plain b (List.mem_of_mem_eraseIdx hb)
      nodup := by
        rw [((List.set_perm_cons_eraseIdx hi _).map Binding.name).nodup_iff]
        exact List.nodup_cons.mpr (nodup_at h.entries.nodup hi) }
    environ := h.environ
    heapEnviron := h.heapEnviron
    owned := Finset.mem_erase.mpr ⟨hne.symm, Finset.mem_insert_of_mem h.owned⟩
    blocks := by
      intro b hb
      rcases hmem b hb with rfl | hb
      · exact ⟨p, rfl, Finset.mem_erase.mpr ⟨hpj, Finset.mem_insert_self _ _⟩, fun heq => hp (heq ▸ h.owned)⟩
      · have hother := h.entries.ptr_ne hi hb
        obtain ⟨j', hptr', hj', hne'⟩ := h.blocks b (List.mem_of_mem_eraseIdx hb)
        refine ⟨j', hptr', Finset.mem_erase.mpr ⟨?_, Finset.mem_insert_of_mem hj'⟩, hne'⟩
        rintro rfl
        exact hother (hptr'.trans hptr.symm)
    length := by
      rw [List.length_set]
      exact h.length
    room := h.room }

/-- There is room for another entry unless memory is refused. -/
lemma OnHeap.grow {a : Allocator} (ha : Fresh a) (h : OnHeap e k table) :
    ∃ r, growTable a e (.heap k) = some r ∧
      ((r.1 = none ∧ r.2.refused = true ∧ OnHeap r.2 k table) ∨
        ∃ q, r.1 = some (.heap q) ∧ r.2.length + 1 < r.2.size ∧ OnHeap r.2 q table) := by
  rw [growTable]
  by_cases hfull : e.length + 1 = e.size
  · rw [if_pos hfull]
    obtain ⟨r, hr, ⟨hnone, hrefused, hold⟩ | ⟨q, hq, hsize, hmoved⟩⟩ := h.realloc ha 16
    · rw [hr, Option.map_some, hnone]
      exact ⟨_, rfl, Or.inl ⟨rfl, hrefused, hold⟩⟩
    · have hmoved := hmoved (r.2.size * 2) (by omega)
      rw [hr, Option.map_some, hq]
      refine ⟨_, rfl, Or.inr ⟨q, rfl, ?_, hmoved⟩⟩
      have hlen : r.2.length = e.length := hmoved.length.trans h.length.symm
      dsimp only
      omega
  · rw [if_neg hfull]
    have hroom := h.room
    exact ⟨_, rfl, Or.inr ⟨k, rfl, by dsimp only; omega, h⟩⟩

/-- Behind the loop of `setenv` the name is bound, unless memory is refused. -/
lemma OnHeap.append {a : Allocator} (ha : Fresh a) (h : OnHeap e k table) {name : CString} (hplain : 61 ∉ name.1)
    (hname : name ∉ table.map Binding.name) (value : CString) :
    ∃ r, appendEntry a e (.heap k) table.length name value = some r ∧
      ((r.1 = -1 ∧ r.2.refused = true ∧ Represents r.2 table) ∨
        (r.1 = 0 ∧ ∃ p, Represents r.2 (table ++ [⟨p, name, value⟩]))) := by
  obtain ⟨grown, hgrow, hcases⟩ := h.grow ha
  rw [appendEntry, hgrow, Option.map_some]
  refine ⟨_, rfl, ?_⟩
  obtain ⟨hnone, hrefused, hold⟩ | ⟨q, hq, hroom, hheld⟩ := hcases
  · rw [hnone]
    exact Or.inl ⟨rfl, hrefused, Or.inl ⟨k, hold⟩⟩
  rw [hq]
  dsimp only
  obtain ⟨calls, hm⟩ | ⟨p, calls, hfresh, hm⟩ := malloc_cases a grown.2 (name.strlen + value.strlen + 2)
  · rw [hm]
    refine Or.inl ⟨rfl, rfl, Or.inl ⟨q, hheld.frame ?_ rfl rfl rfl rfl subset_rfl rfl⟩⟩
    exact (update_self _ _ _).trans (update_eq_self_iff.mpr hheld.entries.terminated.symm)
  · rw [hm]
    exact Or.inr ⟨rfl, _, Or.inl ⟨q, hheld.push (ha.malloc _ _ _ _ hfresh) hplain hname hroom calls⟩⟩

lemma map_swapRemove {α β : Type*} (f : α → β) (l : List α) (i : ℕ) : (swapRemove l i).map f = swapRemove (l.map f) i := by
  rw [swapRemove, swapRemove, List.getLast?_map]
  cases l.getLast? with
  | none => rfl
  | some x => rw [Option.map_some, List.map_dropLast, List.map_set]

/-- The last entry takes the place of one that is freed. -/
lemma OnHeap.remove (h : OnHeap e k table) {i : ℕ} (hi : i < table.length) :
    ∃ e', e.free (some table[i].ptr) = some e' ∧ e'.refused = e.refused ∧ e'.arr = e.arr ∧ e'.length = table.length ∧
      OnHeap ((({ e' with length := table.length - 1 } : Env).setSlot (.heap k) i
        (e.arr (.heap k) (table.length - 1))).setSlot (.heap k) (table.length - 1) none) k (swapRemove table i) := by
  obtain ⟨j, hptr, hj, hne⟩ := h.blocks _ (List.getElem_mem hi)
  rw [hptr, Env.free_owned hj]
  refine ⟨_, rfl, rfl, rfl, h.length, ?_⟩
  have hperm := swapRemove_perm hi
  have hmem : ∀ b ∈ swapRemove table i, b ∈ table.eraseIdx i := fun b hb => hperm.mem_iff.mp hb
  have hin : ∀ b ∈ swapRemove table i, b ∈ table := fun b hb => List.mem_of_mem_eraseIdx (hmem b hb)
  exact {
    entries := {
      holds := by
        have hswap := h.entries.holds.swapRemove (i := i) (by rwa [List.length_map])
        rw [List.length_map, ← map_swapRemove] at hswap
        simpa only [Env.setSlot, update_self] using hswap
      strings := fun b hb => h.entries.strings b (hin b hb)
      plain := fun b hb => h.entries.plain b (hin b hb)
      nodup := by
        rw [(hperm.map Binding.name).nodup_iff]
        exact (nodup_at h.entries.nodup hi).2 }
    environ := h.environ
    heapEnviron := h.heapEnviron
    owned := Finset.mem_erase.mpr ⟨hne.symm, h.owned⟩
    blocks := by
      intro b hb
      have hother := h.entries.ptr_ne hi (hmem b hb)
      obtain ⟨j', hptr', hj', hne'⟩ := h.blocks b (hin b hb)
      refine ⟨j', hptr', Finset.mem_erase.mpr ⟨?_, hj'⟩, hne'⟩
      rintro rfl
      exact hother (hptr'.trans hptr.symm)
    length := by
      rw [hperm.length_eq, List.length_eraseIdx_of_lt hi]
      rfl
    room := by
      have hroom := h.room
      change table.length - 1 < e.size
      rw [h.length] at hroom
      omega }

end Owned

section Shift
variable {e : Env} {base : Ptr} {table : List Binding}

/-- The loop that moves the entries from the `j`-th on down by one. -/
lemma shiftEntries_spec (e : Env) (base : Ptr) (j d : ℕ) (hsome : ∀ x, j ≤ x → x < j + d → e.arr base x ≠ none)
    (hend : e.arr base (j + d) = none) :
    ∃ slots, (∀ fuel, d < fuel → shiftEntries base fuel j e = some { e with arr := update e.arr base slots }) ∧
      (∀ x < j, slots x = e.arr base x) ∧ ∀ x, j ≤ x → x < j + d → slots x = e.arr base (x + 1) := by
  induction d generalizing j e with
  | zero =>
    rw [Nat.add_zero] at hend
    refine ⟨e.arr base, fun fuel hf => ?_, fun x _ => rfl, fun x hx hlt => absurd hx (by omega)⟩
    obtain ⟨fuel, rfl⟩ := Nat.exists_eq_succ_of_ne_zero hf.ne'
    rw [shiftEntries, if_pos hend, update_eq_self]
  | succ d ih =>
    have hslot : ∀ x, (e.setSlot base j (e.arr base (j + 1))).arr base x =
        update (e.arr base) j (e.arr base (j + 1)) x := fun x => by
      rw [Env.setSlot]
      exact congrFun (update_self _ _ _) x
    have habove : ∀ x, j < x → (e.setSlot base j (e.arr base (j + 1))).arr base x = e.arr base x := fun x hx => by
      rw [hslot, update_of_ne hx.ne']
    obtain ⟨slots, hrun, hlow, hhigh⟩ := ih (e.setSlot base j (e.arr base (j + 1))) (j + 1)
      (fun x hx hlt => by rw [habove x hx]; exact hsome x (by omega) (by omega))
      (by rw [habove _ (by omega), Nat.add_right_comm]; exact hend)
    refine ⟨slots, fun fuel hf => ?_, fun x hx => ?_, fun x hx hlt => ?_⟩
    · obtain ⟨fuel, rfl⟩ : ∃ m, fuel = m + 1 := ⟨fuel - 1, by omega⟩
      rw [shiftEntries, if_neg (hsome j le_rfl (by omega)), hrun fuel (by omega), Env.setSlot]
      dsimp only
      rw [update_idem]
    · rw [hlow x (by omega), hslot, update_of_ne (by omega)]
    · by_cases hxj : x = j
      · subst hxj
        rw [hlow x (by omega), hslot, update_self]
      · rw [hhigh x (by omega) (by omega), habove _ (by omega)]

/-- An entry of the table that the program has been given is removed. -/
lemma Given.remove {k : ℕ} (h : Given e k table) {i : ℕ} (hi : i < table.length) :
    ∃ e', (∀ fuel, table.length < fuel → shiftEntries (.foreign k) fuel i e = some e') ∧ e'.refused = e.refused ∧
      Given e' k (table.eraseIdx i) := by
  have hsum : i + (table.length - i) = table.length := by omega
  obtain ⟨slots, hrun, hlow, hhigh⟩ := shiftEntries_spec e (.foreign k) i (table.length - i)
    (fun x _ hlt => by rw [h.entries.slot (by omega)]; exact Option.some_ne_none _)
    (by rw [hsum]; exact h.entries.terminated)
  refine ⟨_, fun fuel hf => hrun fuel (by omega), rfl, ?_⟩
  exact {
    entries := {
      holds := by
        rw [← List.eraseIdx_map]
        dsimp only
        rw [update_self]
        refine h.entries.holds.shift (by rwa [List.length_map]) hlow fun x hx hlt => hhigh x hx ?_
        rwa [List.length_map, ← hsum] at hlt
      strings := fun b hb => h.entries.strings b (List.mem_of_mem_eraseIdx hb)
      plain := fun b hb => h.entries.plain b (List.mem_of_mem_eraseIdx hb)
      nodup := (nodup_at h.entries.nodup hi).2 }
    environ := h.environ
    heapEnviron := h.heapEnviron
    blocks := fun b hb => h.blocks b (List.mem_of_mem_eraseIdx hb) }

/-- Without the name in the table the loop of `unsetenv` changes nothing. -/
lemma Entries.unsetLoop_absent (h : Entries e base table) {n : CString} (hn : n ∉ table.map Binding.name) {i fuel : ℕ}
    (hi : i ≤ table.length) (hf : table.length < fuel + i) : unsetLoop base n fuel i e = some e := by
  induction fuel generalizing i with
  | zero => omega
  | succ fuel ih =>
    rw [unsetLoop]
    by_cases hend : i = table.length
    · rw [hend, h.terminated]
    have hilt : i < table.length := by omega
    have hname : table[i].name ≠ n := fun hname => hn (hname ▸ List.mem_map_of_mem (List.getElem_mem hilt))
    rw [h.slot hilt]
    dsimp only
    rw [if_neg (mt (h.isEntry_iff (List.getElem_mem hilt) n).mp hname)]
    exact ih (by omega) (by omega)

/-- The loop gets to the place of the name. -/
lemma Entries.unsetLoop_skip (h : Entries e base table) {n : CString} {i m : ℕ} (hi : i + m = place table n) (fuel : ℕ)
    (hplace : place table n < table.length) :
    unsetLoop base n (fuel + m) i e = unsetLoop base n fuel (place table n) e := by
  induction m generalizing i with
  | zero => rw [← hi]; rfl
  | succ m ih =>
    have hilt : i < table.length := by omega
    have hname : table[i].name ≠ n := ne_of_lt_place (by omega) _
    rw [← Nat.add_assoc, unsetLoop, h.slot hilt]
    dsimp only
    rw [if_neg (mt (h.isEntry_iff (List.getElem_mem hilt) n).mp hname)]
    exact ih (by omega)

/-- The name is no longer bound. -/
lemma Represents.unsetLoop {M : CString → Option CString} (h : Represents e table) (hM : Binds table M) (n : CString) :
    ∃ base e' table', e.environ = some base ∧ e'.refused = e.refused ∧
      (∀ᶠ fuel in atTop, Environ.unsetLoop base n fuel 0 e = some e') ∧
      Represents e' table' ∧ Binds table' (update M n none) := by
  by_cases hn : n ∈ table.map Binding.name
  · have hplace := place_lt_iff.mpr hn
    have hname := place_name hplace
    have hbinds : Binds (table.eraseIdx (place table n)) (update M n none) := by
      obtain ⟨base, -, hentries⟩ := h.entries
      have herase := hM.erase hentries.nodup hplace
      rwa [hname] at herase
    have hgone : n ∉ (table.eraseIdx (place table n)).map Binding.name := by
      rw [← hbinds.eq_none_iff, update_self]
    obtain ⟨k, h⟩ | ⟨k, h⟩ := h
    · have hentry := (h.entries.isEntry_iff (List.getElem_mem hplace) n).mpr hname
      obtain ⟨e', hfree, hrefused, harr, hlength, hnew⟩ := h.remove hplace
      have hperm := swapRemove_perm hplace
      have hlen : (swapRemove table (place table n)).length = table.length - 1 := by
        rw [hperm.length_eq, List.length_eraseIdx_of_lt hplace]
      refine ⟨_, _, _, h.environ, ?_, ?_, Or.inl ⟨k, hnew⟩, hbinds.perm hperm.symm⟩
      · exact hrefused
      filter_upwards [eventually_gt_atTop (2 * table.length + 1)] with fuel hf
      obtain ⟨m, rfl⟩ : ∃ m, fuel = m + 1 + place table n := ⟨fuel - 1 - place table n, by omega⟩
      rw [h.entries.unsetLoop_skip (Nat.zero_add _) (m + 1) hplace, Environ.unsetLoop, h.entries.slot hplace]
      dsimp only
      rw [if_pos hentry, if_pos h.heapEnviron, hfree, Option.bind_some, hlength,
        show e'.arr (.heap k) (table.length - 1) = e.arr (.heap k) (table.length - 1) by rw [harr]]
      have hgone' : n ∉ (swapRemove table (place table n)).map Binding.name := by
        rwa [(hperm.map Binding.name).mem_iff]
      exact hnew.entries.unsetLoop_absent hgone' (by omega) (by omega)
    · have hentry := (h.entries.isEntry_iff (List.getElem_mem hplace) n).mpr hname
      have hforeign : ¬ e.heapEnviron = some (.foreign k) := by
        rw [h.heapEnviron]
        exact (Option.some_ne_none _).symm
      obtain ⟨e', hrun, hrefused, hnew⟩ := h.remove hplace
      have hlen := List.length_eraseIdx_of_lt hplace
      refine ⟨_, e', _, h.environ, hrefused, ?_, Or.inr ⟨k, hnew⟩, hbinds⟩
      filter_upwards [eventually_gt_atTop (2 * table.length + 1)] with fuel hf
      obtain ⟨m, rfl⟩ : ∃ m, fuel = m + 1 + place table n := ⟨fuel - 1 - place table n, by omega⟩
      rw [h.entries.unsetLoop_skip (Nat.zero_add _) (m + 1) hplace, Environ.unsetLoop, h.entries.slot hplace]
      dsimp only
      rw [if_pos hentry, if_neg hforeign, hrun m (by omega), Option.bind_some]
      exact hnew.entries.unsetLoop_absent hgone (by omega) (by omega)
  · obtain ⟨base, henviron, hentries⟩ := h.entries
    refine ⟨base, e, table, henviron, rfl, ?_, h, ?_⟩
    · filter_upwards [eventually_gt_atTop table.length] with fuel hf
      exact hentries.unsetLoop_absent hn (Nat.zero_le _) hf
    · rwa [update_eq_self_iff.mpr (hM.eq_none_iff.mpr hn).symm]

end Shift

section Copy
variable {e : Env} {k src : ℕ} {q : List ℕ} {table : List Binding} {a : Allocator}

/-- A table on the heap is not the given one. -/
lemma setSlot_foreign (e : Env) (k src i : ℕ) (p : Option Ptr) :
    (e.setSlot (.heap k) i p).arr (.foreign src) = e.arr (.foreign src) := by
  have hne : Ptr.foreign src ≠ .heap k := nofun
  rw [Env.setSlot]
  exact update_of_ne hne (update (e.arr (.heap k)) i p) e.arr

/-- The strings of the first entries have been copied into the blocks `q`. -/
structure Copied (e : Env) (k : ℕ) (q : List ℕ) (table : List Binding) : Prop where
  owned : k ∈ e.owned
  nodup : q.Nodup
  blocks : ∀ j ∈ q, j ∈ e.owned ∧ j ≠ k
  slots : ∀ i (hi : i < q.length), e.arr (.heap k) i = some (.heap q[i])
  strings : ∀ i (hi : i < q.length) (ht : i < table.length), e.str (.heap q[i]) = e.str table[i].ptr

lemma freeEntries_spec {j : ℕ} (hslots : ∀ i (hi : i < q.length), e.arr (.heap k) (j + i) = some (.heap q[i]))
    (hnodup : q.Nodup) (howned : ∀ x ∈ q, x ∈ e.owned) :
    ∃ owned, freeEntries (.heap k) q.length j e = some { e with owned := owned } ∧
      ∀ x ∈ e.owned, x ∉ q → x ∈ owned := by
  induction q generalizing e j with
  | nil => exact ⟨e.owned, rfl, fun x hx _ => hx⟩
  | cons p q ih =>
    rw [List.nodup_cons] at hnodup
    have hfirst : e.arr (.heap k) j = some (.heap p) := hslots 0 (Nat.zero_lt_succ _)
    obtain ⟨owned, hrun, hkeep⟩ := ih (e := { e with owned := e.owned.erase p }) (j := j + 1)
      (fun i hi => by
        have hslot := hslots (i + 1) (by rw [List.length_cons]; omega)
        rw [List.getElem_cons_succ] at hslot
        rw [← hslot, Nat.add_right_comm]
        rfl)
      hnodup.2 fun x hx => Finset.mem_erase.mpr ⟨fun heq => hnodup.1 (heq ▸ hx), howned x (List.mem_cons_of_mem _ hx)⟩
    refine ⟨owned, ?_, fun x hx hout => ?_⟩
    · rw [List.length_cons, freeEntries, hfirst, Env.free_owned (howned p List.mem_cons_self)]
      exact hrun
    · rw [List.mem_cons, not_or] at hout
      exact hkeep x (Finset.mem_erase.mpr ⟨hout.1, hx⟩) hout.2

/-- Another string is copied. -/
lemma Copied.push (h : Copied e k q table) (hforeign : ∀ b ∈ table, ∃ j, b.ptr = .foreign j) {p : ℕ} (hp : p ∉ e.owned)
    (hq : q.length < table.length) (calls : ℕ) :
    Copied ((({ e with calls := calls, owned := insert p e.owned } : Env).setStr (.heap p)
      (e.str table[q.length].ptr)).setSlot (.heap k) q.length (some (.heap p))) k (q ++ [p]) table where
  owned := Finset.mem_insert_of_mem h.owned
  nodup := h.nodup.append (List.nodup_singleton p) (by simpa using fun hmem => hp (h.blocks p hmem).1)
  blocks := by
    intro j hj
    rcases List.mem_append.mp hj with hj | hj
    · exact ⟨Finset.mem_insert_of_mem (h.blocks j hj).1, (h.blocks j hj).2⟩
    · rw [List.mem_singleton.mp hj]
      exact ⟨Finset.mem_insert_self _ _, fun heq => hp (heq ▸ h.owned)⟩
  slots := by
    intro i hi
    rw [List.length_append, List.length_singleton] at hi
    rw [Env.setSlot]
    dsimp only
    rw [update_self]
    by_cases hlast : i = q.length
    · subst hlast
      rw [update_self, List.getElem_concat_length rfl]
    · rw [update_of_ne hlast, List.getElem_append_left (by omega)]
      exact h.slots i (by omega)
  strings := by
    intro i hi ht
    rw [List.length_append, List.length_singleton] at hi
    have hptr : table[i].ptr ≠ .heap p := by
      obtain ⟨j, hj⟩ := hforeign _ (List.getElem_mem ht)
      rw [hj]
      exact Ptr.noConfusion
    change update e.str _ _ _ = update e.str _ _ _
    rw [update_of_ne hptr]
    by_cases hlast : i = q.length
    · subst hlast
      rw [List.getElem_concat_length rfl, update_self]
    · have hilt : i < q.length := by omega
      have hne : Ptr.heap q[i] ≠ .heap p := by
        rintro ⟨⟩
        exact hp (h.blocks _ (List.getElem_mem hilt)).1
      rw [List.getElem_append_left hilt, update_of_ne hne]
      exact h.strings i hilt ht

/-- When all are copied, the copies are the table. -/
lemma Copied.onHeap (h : Copied e k q table) (hentries : Entries e (.foreign src) table) (hq : q.length = table.length)
    (hheap : e.heapEnviron = some (.heap k)) (hlength : e.length = table.length) (hroom : e.length < e.size) :
    ∃ table', OnHeap { e.setSlot (.heap k) q.length none with environ := some (.heap k) } k table' ∧
      table'.map (fun b => (b.name, b.value)) = table.map fun b => (b.name, b.value) := by
  obtain ⟨table', htable⟩ : ∃ t, t = List.zipWith (fun j b => Binding.mk (.heap j) b.name b.value) q table := ⟨_, rfl⟩
  have hlen : table'.length = table.length := by rw [htable, List.length_zipWith, hq, Nat.min_self]
  have hget : ∀ i (hi : i < table'.length) (hq : i < q.length) (ht : i < table.length),
      table'[i] = ⟨.heap q[i], table[i].name, table[i].value⟩ := by
    intro i hi _ _
    simp only [htable, List.getElem_zipWith]
  have hpairs : table'.map (fun b => (b.name, b.value)) = table.map fun b => (b.name, b.value) := by
    apply List.ext_getElem
    · simp only [List.length_map, hlen]
    · intro i hi hi'
      rw [List.length_map] at hi
      simp only [List.getElem_map, hget i hi (by omega) (by omega)]
  have hnames : table'.map Binding.name = table.map Binding.name := by
    have := congrArg (List.map Prod.fst) hpairs
    rwa [List.map_map, List.map_map] at this
  refine ⟨table', ?_, hpairs⟩
  exact {
    entries := {
      holds := by
        intro i hi
        rw [List.length_map] at hi
        change update e.arr (.heap k) _ (.heap k) i = _
        rw [update_self]
        by_cases hend : i = q.length
        · rw [hend, update_self, List.getElem?_eq_none (by rw [List.length_map]; omega)]
        · have hilt : i < table'.length := by omega
          rw [update_of_ne hend, h.slots i (by omega), List.getElem?_map, List.getElem?_eq_getElem hilt, hget i hilt (by omega) (by omega)]
          rfl
      strings := by
        intro b hb
        obtain ⟨i, hi, rfl⟩ := List.getElem_of_mem hb
        rw [hget i hi (by omega) (by omega)]
        exact (h.strings i (by omega) (by omega)).trans (hentries.strings _ (List.getElem_mem _))
      plain := by
        intro b hb
        obtain ⟨i, hi, rfl⟩ := List.getElem_of_mem hb
        rw [hget i hi (by omega) (by omega)]
        exact hentries.plain (table.get ⟨i, by omega⟩) (List.getElem_mem _)
      nodup := hnames ▸ hentries.nodup }
    environ := rfl
    heapEnviron := hheap
    owned := h.owned
    blocks := by
      intro b hb
      obtain ⟨i, hi, rfl⟩ := List.getElem_of_mem hb
      rw [hget i hi (by omega) (by omega)]
      exact ⟨_, rfl, h.blocks _ (List.getElem_mem _)⟩
    length := hlength.trans hlen.symm
    room := hroom }

/-- A copy that is given up frees what it has allocated, and the table stays the given one. -/
lemma Copied.giveUp (h : Copied e k q table) (hentries : Entries e (.foreign src) table)
    (henviron : e.environ = some (.foreign src)) (hforeign : ∀ b ∈ table, ∃ j, b.ptr = .foreign j) (calls : ℕ) :
    ∃ e', ((freeEntries (.heap k) q.length 0
        (({ e with calls := calls, refused := true } : Env).setSlot (.heap k) q.length none)).bind fun e =>
          (e.free (some (.heap k))).map fun e => (false, { e with heapEnviron := none })) = some (false, e') ∧
      e'.refused = true ∧ Given e' src table := by
  obtain ⟨owned, hrun, hkeep⟩ := freeEntries_spec (k := k) (q := q) (j := 0)
    (e := ({ e with calls := calls, refused := true } : Env).setSlot (.heap k) q.length none)
    (fun i hi => by
      rw [Env.setSlot, Nat.zero_add]
      dsimp only
      rw [update_self, update_of_ne hi.ne]
      exact h.slots i hi)
    h.nodup fun x hx => (h.blocks x hx).1
  have hk : k ∈ owned := hkeep k h.owned fun hmem => (h.blocks k hmem).2 rfl
  refine ⟨{ ({ e with calls := calls, refused := true } : Env).setSlot (.heap k) q.length none with
      owned := owned.erase k
      heapEnviron := none }, ?_, rfl, ?_, henviron, rfl, hforeign⟩
  · rw [hrun, Option.bind_some]
    exact congrArg (Option.map _) (if_pos hk)
  · exact hentries.frame (setSlot_foreign e k src q.length none) fun _ _ => rfl

lemma copyEntries_spec (ha : Fresh a) (hentries : Entries e (.foreign src) table)
    (henviron : e.environ = some (.foreign src)) (hforeign : ∀ b ∈ table, ∃ j, b.ptr = .foreign j)
    (hheap : e.heapEnviron = some (.heap k)) (hlength : e.length = table.length) (hroom : e.length < e.size)
    (h : Copied e k q table) {n : ℕ} (hn : q.length + n = table.length) :
    ∃ r, copyEntries a (some (.foreign src)) (.heap k) n q.length e = some r ∧
      ((r.1 = false ∧ r.2.refused = true ∧ Given r.2 src table) ∨
        (r.1 = true ∧ ∃ table', OnHeap r.2 k table' ∧
          table'.map (fun b => (b.name, b.value)) = table.map fun b => (b.name, b.value))) := by
  induction n generalizing e q with
  | zero => exact ⟨_, rfl, Or.inr ⟨rfl, h.onHeap hentries hn hheap hlength hroom⟩⟩
  | succ n ih =>
    have hq : q.length < table.length := by omega
    rw [copyEntries, Option.bind_some, hentries.slot hq, Option.bind_some]
    dsimp only
    obtain ⟨calls, hm⟩ | ⟨p, calls, hfresh, hm⟩ := malloc_cases a e ((e.str table[q.length].ptr).strlen + 1)
    · rw [Env.strdup, hm]
      dsimp only
      rw [if_pos rfl]
      obtain ⟨e', hrun, hrefused, hgiven⟩ := h.giveUp hentries henviron hforeign calls
      exact ⟨_, hrun, Or.inl ⟨rfl, hrefused, hgiven⟩⟩
    · have hp := ha.malloc _ _ _ _ hfresh
      have hpush := h.push hforeign hp hq calls
      rw [Env.strdup, hm]
      dsimp only
      rw [if_neg (Option.some_ne_none _)]
      have hlen : (q ++ [p]).length = q.length + 1 := by rw [List.length_append, List.length_singleton]
      rw [← hlen]
      refine ih ?_ henviron hheap hlength hroom hpush (by omega)
      refine hentries.frame (setSlot_foreign _ k src q.length _) fun b hb => update_of_ne ?_ _ _
      obtain ⟨j, hj⟩ := hforeign b hb
      rw [hj]
      exact fun h => Ptr.noConfusion h

lemma countEntries_spec {slots : ℕ → Option Ptr} {i L fuel : ℕ} (hi : i ≤ L) (hsome : ∀ x < L, slots x ≠ none)
    (hend : slots L = none) (hf : L < fuel + i) : countEntries slots fuel i = some L := by
  induction fuel generalizing i with
  | zero => omega
  | succ fuel ih =>
    rw [countEntries]
    by_cases hstop : i = L
    · rw [hstop, if_pos hend]
    · rw [if_neg (hsome i (by omega))]
      exact ih (by omega) (by omega)

/-- The table moves to the heap unless memory is refused. -/
lemma Given.reset (ha : Fresh a) (h : Given e src table) :
    ∃ r, (∀ᶠ fuel in atTop, resetEnviron a fuel e = some r) ∧
      ((r.1 = false ∧ r.2.refused = true ∧ Given r.2 src table) ∨
        (r.1 = true ∧ ∃ k table', OnHeap r.2 k table' ∧
          table'.map (fun b => (b.name, b.value)) = table.map fun b => (b.name, b.value))) := by
  obtain ⟨size, hsize⟩ : ∃ size, (if table.length > 15 then table.length + 1 else 16) = size := ⟨_, rfl⟩
  have hroom : table.length < size := by
    rw [← hsize]
    split_ifs <;> omega
  have hstart : ∀ᶠ fuel in atTop, resetEnviron a fuel e =
      (e.malloc a (size * 8)).1.elim (some (false, { (e.malloc a (size * 8)).2 with heapEnviron := none })) fun dst =>
        copyEntries a (some (.foreign src)) dst table.length 0
          { (e.malloc a (size * 8)).2 with heapEnviron := some dst, length := table.length, size := size } := by
    filter_upwards [eventually_gt_atTop table.length] with fuel hf
    have hcount : countEntries (e.arr (.foreign src)) fuel 0 = some table.length :=
      countEntries_spec (Nat.zero_le _) (fun x hx => by rw [h.entries.slot hx]; exact Option.some_ne_none _)
        h.entries.terminated hf
    rw [resetEnviron, h.heapEnviron, Option.bind_some, h.environ]
    dsimp only
    rewrite [hcount, Option.bind_some, hsize]
    cases (e.malloc a (size * 8)).1 with
    | none => rfl
    | some dst => rfl
  obtain ⟨calls, hm⟩ | ⟨k, calls, hfresh, hm⟩ := malloc_cases a e (size * 8)
  · rw [hm] at hstart
    refine ⟨_, hstart, Or.inl ⟨rfl, rfl, ?_⟩⟩
    exact ⟨h.entries.frame rfl fun _ _ => rfl, h.environ, rfl, h.blocks⟩
  · rw [hm] at hstart
    have hcopied : Copied { e with
        calls := calls
        owned := insert k e.owned
        heapEnviron := some (.heap k)
        length := table.length
        size := size } k [] table :=
      ⟨Finset.mem_insert_self _ _, List.nodup_nil, fun j hj => absurd hj List.not_mem_nil,
        fun i hi => absurd hi (Nat.not_lt_zero i), fun i hi => absurd hi (Nat.not_lt_zero i)⟩
    obtain ⟨r, hrun, hr⟩ := copyEntries_spec ha (e := { e with
        calls := calls
        owned := insert k e.owned
        heapEnviron := some (.heap k)
        length := table.length
        size := size }) (h.entries.frame rfl fun _ _ => rfl) h.environ h.blocks rfl rfl hroom hcopied (Nat.zero_add _)
    refine ⟨r, hstart.mono fun fuel hf => hf.trans hrun, ?_⟩
    obtain hfail | ⟨hok, table', htable⟩ := hr
    · exact Or.inl hfail
    · exact Or.inr ⟨hok, k, table', htable⟩

end Copy

section Setenv
variable {e : Env} {k : ℕ} {table : List Binding} {M : CString → Option CString} {a : Allocator} {name : CString}

/-- A name that can be set. -/
def IsName (name : CString) : Prop := ¬ (name.1 = [] ∨ 61 ∈ name.1)

/-- What a map becomes. -/
def bound (M : CString → Option CString) (name value : CString) (overwrite : Bool) : CString → Option CString :=
  if overwrite = false ∧ M name ≠ none then M else update M name (some value)

/-- On the heap the name gets its value, unless memory is refused. -/
lemma OnHeap.setEntry (ha : Fresh a) (h : OnHeap e k table) (hM : Binds table M) (hname : IsName name) (value : CString)
    (overwrite : Bool) :
    ∃ r, (∀ᶠ fuel in atTop, Environ.setEntry a fuel e name value overwrite = some r) ∧
      ((r.1 = -1 ∧ r.2.refused = true ∧ ∃ table', Represents r.2 table' ∧ Binds table' M) ∨
        (r.1 = 0 ∧ ∃ table', Represents r.2 table' ∧ Binds table' (bound M name value overwrite))) := by
  have hplain : 61 ∉ name.1 := fun hmem => hname (Or.inr hmem)
  have hfind : ∀ᶠ fuel in atTop, Environ.findEntry e (.heap k) name fuel 0 = some (place table name) := by
    filter_upwards [eventually_gt_atTop table.length] with fuel hf
    exact h.entries.findEntry name (Nat.zero_le _) hf
  by_cases hplace : place table name < table.length
  · have hat := place_name hplace
    have hslot := h.entries.slot hplace
    have hsome : M name ≠ none := fun hnone => hM.eq_none_iff.mp hnone (place_lt_iff.mp hplace)
    have hstart : ∀ᶠ fuel in atTop, Environ.setEntry a fuel e name value overwrite =
        if !overwrite then some (0, e)
        else
          (e.malloc a (name.strlen + value.strlen + 2)).1.elim
            (some (-1, (e.malloc a (name.strlen + value.strlen + 2)).2)) fun p =>
            (((e.malloc a (name.strlen + value.strlen + 2)).2.setStr p (joined name value)).free
              ((e.malloc a (name.strlen + value.strlen + 2)).2.arr (.heap k) (place table name))).map fun e =>
                (0, e.setSlot (.heap k) (place table name) (some p)) := by
      filter_upwards [hfind] with fuel hf
      rewrite [Environ.setEntry, h.environ, Option.bind_some, hf, Option.bind_some,
        if_neg (by rw [hslot]; exact Option.some_ne_none _)]
      dsimp only
      cases (e.malloc a (name.strlen + value.strlen + 2)).1 with
      | none => rfl
      | some p => rfl
    cases overwrite with
    | false =>
      refine ⟨_, hstart, Or.inr ⟨rfl, table, Or.inl ⟨k, h⟩, ?_⟩⟩
      rwa [bound, if_pos ⟨rfl, hsome⟩]
    | true =>
      have hbound : bound M name value true = update M name (some value) := if_neg fun hno => Bool.noConfusion hno.1
      obtain ⟨calls, hm⟩ | ⟨p, calls, hfresh, hm⟩ := malloc_cases a e (name.strlen + value.strlen + 2)
      · rw [hm] at hstart
        refine ⟨_, hstart, Or.inl ⟨rfl, rfl, table, Or.inl ⟨k, ?_⟩, hM⟩⟩
        exact h.frame rfl rfl rfl rfl rfl subset_rfl rfl
      · rw [hm] at hstart
        obtain ⟨e', hfree, hnew⟩ := h.replace (ha.malloc _ _ _ _ hfresh) hplace hat value calls
        refine ⟨_, hstart.mono fun fuel hf => hf.trans (congrArg (Option.map _) hfree), Or.inr ⟨rfl, _, Or.inl ⟨k, hnew⟩, ?_⟩⟩
        rw [hbound]
        exact hM.set h.entries.nodup hplace hat
  · have habsent : name ∉ table.map Binding.name := fun hmem => hplace (place_lt_iff.mpr hmem)
    have hend := place_eq_length habsent
    have hbound : bound M name value overwrite = update M name (some value) :=
      if_neg fun hno => hno.2 (hM.eq_none_iff.mpr habsent)
    obtain ⟨r, hrun, hr⟩ := h.append ha hplain habsent value
    refine ⟨r, ?_, ?_⟩
    · filter_upwards [hfind] with fuel hf
      rw [Environ.setEntry, h.environ, Option.bind_some, hf, Option.bind_some, hend, if_pos h.entries.terminated, hrun]
    · obtain ⟨hret, hrefused, hold⟩ | ⟨hret, p, hnew⟩ := hr
      · exact Or.inl ⟨hret, hrefused, table, hold, hM⟩
      · refine Or.inr ⟨hret, _, hnew, ?_⟩
        rw [hbound]
        exact (hM.cons (b := ⟨p, name, value⟩) habsent).perm (List.perm_append_singleton _ _).symm

lemma Represents.setenv (ha : Fresh a) (h : Represents e table) (hM : Binds table M) (name value : CString)
    (overwrite : Bool) :
    ∃ r, (∀ᶠ fuel in atTop, Environ.setenv a fuel e name value overwrite = some r) ∧
      ((r.1 = -1 ∧ (¬ IsName name ∨ r.2.refused = true) ∧ ∃ table', Represents r.2 table' ∧ Binds table' M) ∨
        (r.1 = 0 ∧ IsName name ∧ ∃ table', Represents r.2 table' ∧ Binds table' (bound M name value overwrite))) := by
  by_cases hname : IsName name
  · obtain ⟨r1, hrun1, hr1⟩ : ∃ r1, (∀ᶠ fuel in atTop,
        (if e.environ = none ∨ e.environ ≠ e.heapEnviron then resetEnviron a fuel e else some (true, e)) = some r1) ∧
        ((r1.1 = false ∧ r1.2.refused = true ∧ Represents r1.2 table) ∨
          (r1.1 = true ∧ ∃ k table', OnHeap r1.2 k table' ∧ Binds table' M)) := by
      obtain ⟨k, h⟩ | ⟨k, h⟩ := h
      · have hsame : ¬ (e.environ = none ∨ e.environ ≠ e.heapEnviron) := by
          rw [h.environ, h.heapEnviron]
          simp
        exact ⟨_, .of_forall fun fuel => if_neg hsame, Or.inr ⟨rfl, k, table, h, hM⟩⟩
      · have hother : e.environ = none ∨ e.environ ≠ e.heapEnviron := by
          rw [h.environ, h.heapEnviron]
          simp
        obtain ⟨r, hrun, ⟨hret, hrefused, hold⟩ | ⟨hret, k', table', hnew, hsame⟩⟩ := h.reset ha
        · exact ⟨r, hrun.mono fun fuel hf => (if_pos hother).trans hf, Or.inl ⟨hret, hrefused, Or.inr ⟨k, hold⟩⟩⟩
        · exact ⟨r, hrun.mono fun fuel hf => (if_pos hother).trans hf, Or.inr ⟨hret, k', table', hnew, hM.congr hsame⟩⟩
    obtain ⟨hret, hrefused, hold⟩ | ⟨hret, k, table', hheap, hM'⟩ := hr1
    · refine ⟨(-1, r1.2), ?_, Or.inl ⟨rfl, Or.inr hrefused, table, hold, hM⟩⟩
      filter_upwards [hrun1] with fuel hf
      rw [Environ.setenv, if_neg hname, hf, Option.bind_some, hret]
      rfl
    · obtain ⟨r, hrun, hr⟩ := hheap.setEntry ha hM' hname value overwrite
      refine ⟨r, ?_, ?_⟩
      · filter_upwards [hrun1, hrun] with fuel hf1 hf
        rw [Environ.setenv, if_neg hname, hf1, Option.bind_some, hret]
        exact hf
      · obtain ⟨hret, hrefused, hold⟩ | ⟨hret, hnew⟩ := hr
        · exact Or.inl ⟨hret, Or.inr hrefused, hold⟩
        · exact Or.inr ⟨hret, hname, hnew⟩
  · refine ⟨_, .of_forall fun fuel => if_pos (not_not.mp hname), Or.inl ⟨rfl, Or.inl hname, table, h, hM⟩⟩

end Setenv

section Runs
variable {e : Env} {table : List Binding} {M : CString → Option CString} {a : Allocator}

/-- What a call may answer; `refused` tells whether it was refused memory. -/
def Op.Allows (M : CString → Option CString) (refused : Bool) : Op → Answer → Prop
  | .setenv name _ _, .status r => (r = 0 ∧ IsName name) ∨ (r = -1 ∧ (¬ IsName name ∨ refused = true))
  | .unsetenv name, .status r => (r = 0 ∧ IsName name) ∨ (r = -1 ∧ ¬ IsName name)
  | .getenv name, .value v => v = M name
  | _, _ => False

/-- What a call makes of the bindings: nothing if it fails. -/
def Op.effect (M : CString → Option CString) : Op → Answer → CString → Option CString
  | .setenv name value overwrite, .status 0 => bound M name value overwrite
  | .unsetenv name, .status 0 => update M name none
  | _, _ => M

/-- A table on the heap has room for the null pointer behind its entries. -/
def Terminated (e : Env) : Prop :=
  ∀ base, e.environ = some base → e.heapEnviron = some base → e.arr base e.length = none ∧ e.length < e.size

/-- The answers are those of a map, and the table is terminated after every call. -/
def Legal : (CString → Option CString) → List Op → List (Answer × Env) → Prop
  | _, [], [] => True
  | M, op :: ops, (answer, e) :: rest => op.Allows M e.refused answer ∧ Terminated e ∧ Legal (op.effect M answer) ops rest
  | _, _, _ => False

lemma Represents.terminated (h : Represents e table) : Terminated e := by
  obtain ⟨k, h⟩ | ⟨k, h⟩ := h
  · intro base henviron _
    rw [h.environ] at henviron
    obtain rfl := Option.some.inj henviron
    exact ⟨h.length ▸ h.entries.terminated, h.room⟩
  · intro base _ hheap
    rw [h.heapEnviron] at hheap
    cases hheap

lemma Represents.unrefused (h : Represents e table) : Represents { e with refused := false } table := by
  obtain ⟨k, h⟩ | ⟨k, h⟩ := h
  · exact Or.inl ⟨k, h.frame rfl rfl rfl rfl rfl subset_rfl rfl⟩
  · exact Or.inr ⟨k, h.entries.frame rfl fun _ _ => rfl, h.environ, h.heapEnviron, h.blocks⟩

/-- Every call does to the table what it does to the map. -/
lemma Represents.call (ha : Fresh a) (h : Represents e table) (hM : Binds table M) (op : Op) :
    ∃ answer e' table', (∀ᶠ fuel in atTop, e.call a fuel op = some (answer, e')) ∧ op.Allows M e'.refused answer ∧
      Represents e' table' ∧ Binds table' (op.effect M answer) := by
  have h0 := h.unrefused
  obtain ⟨e0, he0⟩ : ∃ e0, { e with refused := false } = e0 := ⟨_, rfl⟩
  rw [he0] at h0
  cases op with
  | setenv name value overwrite =>
    obtain ⟨⟨ret, e'⟩, hrun, ⟨rfl, hwhy, table', hnew, hbinds⟩ | ⟨rfl, hname, table', hnew, hbinds⟩⟩ :=
      h0.setenv ha hM name value overwrite
    · refine ⟨.status (-1), e', table', hrun.mono fun fuel hf => ?_, Or.inr ⟨rfl, hwhy⟩, hnew, hbinds⟩
      rw [Env.call, he0, hf]
      rfl
    · refine ⟨.status 0, e', table', hrun.mono fun fuel hf => ?_, Or.inl ⟨rfl, hname⟩, hnew, hbinds⟩
      rw [Env.call, he0, hf]
      rfl
  | unsetenv name =>
    by_cases hname : IsName name
    · obtain ⟨base, e', table', henviron, -, hrun, hnew, hbinds⟩ := h0.unsetLoop hM name
      refine ⟨.status 0, e', table', ?_, Or.inl ⟨rfl, hname⟩, hnew, hbinds⟩
      filter_upwards [hrun] with fuel hf
      rw [Env.call, he0, Environ.unsetenv, if_neg hname, henviron]
      dsimp only
      rw [hf]
      rfl
    · refine ⟨.status (-1), _, table, .of_forall fun fuel => ?_, Or.inr ⟨rfl, hname⟩, h0, hM⟩
      rw [Env.call, he0, Environ.unsetenv, if_pos (not_not.mp hname)]
      rfl
  | getenv name =>
    obtain ⟨base, henviron, hentries⟩ := h0.entries
    refine ⟨.value (M name), _, table, ?_, rfl, h0, hM⟩
    filter_upwards [eventually_gt_atTop table.length] with fuel hf
    rw [Env.call, he0, Environ.getenv, henviron, Option.bind_some, hentries.getenvLoop hM name (Nat.zero_le _) hf]
    rfl

lemma Represents.callAll (ha : Fresh a) (h : Represents e table) (hM : Binds table M) (ops : List Op) :
    ∃ list, (∀ᶠ fuel in atTop, e.callAll a fuel ops = some list) ∧ Legal M ops list := by
  induction ops generalizing e table M with
  | nil => exact ⟨[], .of_forall fun _ => rfl, trivial⟩
  | cons op ops ih =>
    obtain ⟨answer, e', table', hcall, hallows, hnew, hbinds⟩ := h.call ha hM op
    obtain ⟨list, hrest, hlegal⟩ := ih hnew hbinds
    refine ⟨(answer, e') :: list, ?_, hallows, hnew.terminated, hlegal⟩
    filter_upwards [hcall, hrest] with fuel hf1 hf2
    rw [Env.callAll, hf1, Option.bind_some, hf2]
    rfl

def nameOf (s : CString) : CString := ofBytes (s.1.takeWhile (· ∉ equals.1))

def valueOf (s : CString) : CString := ofBytes (s.1.drop ((nameOf s).strlen + 1))

/-- What a list of strings binds. -/
def lookup (strings : List CString) (name : CString) : Option CString :=
  (strings.find? fun s => nameOf s = name).map valueOf

/-- The environment as the program has been given it, in the strings at `l`. -/
structure Initial (e : Env) (l : List Ptr) : Prop where
  environ : ∃ k, e.environ = some (.foreign k) ∧ Holds (e.arr (.foreign k)) l
  heapEnviron : e.heapEnviron = none
  foreign : ∀ p ∈ l, ∃ j, p = .foreign j
  equals : ∀ p ∈ l, 61 ∈ (e.str p).1
  distinct : (l.map fun p => nameOf (e.str p)).Nodup

lemma nameOf_val (s : CString) : (nameOf s).1 = s.1.takeWhile (· ∉ equals.1) :=
  ofBytes_val fun h => s.2 (List.takeWhile_subset _ h)

lemma valueOf_val (s : CString) : (valueOf s).1 = s.1.drop ((nameOf s).strlen + 1) :=
  ofBytes_val fun h => s.2 (List.mem_of_mem_drop h)

lemma nameOf_plain (s : CString) : 61 ∉ (nameOf s).1 := by
  rw [nameOf_val]
  intro h
  have := List.mem_takeWhile_imp h
  simp [equals] at this

lemma split_equals {l : List (BitVec 8)} (h : 61 ∈ l) : ∃ v, l = l.takeWhile (· ∉ equals.1) ++ (equals.1 ++ v) := by
  induction l with
  | nil => exact absurd h List.not_mem_nil
  | cons c l ih =>
    by_cases hc : c = 61
    · subst hc
      exact ⟨l, by simp [equals]⟩
    · obtain ⟨v, hv⟩ := ih ((List.mem_cons.mp h).resolve_left (Ne.symm hc))
      refine ⟨v, ?_⟩
      rw [List.takeWhile_cons_of_pos (by simpa [equals] using hc), List.cons_append, ← hv]

lemma joined_nameOf {s : CString} (hs : 61 ∈ s.1) : joined (nameOf s) (valueOf s) = s := by
  obtain ⟨v, hv⟩ := split_equals hs
  rw [← nameOf_val] at hv
  have hvalue : (valueOf s).1 = v := by
    rw [valueOf_val, hv, ← List.append_assoc]
    exact List.drop_left' (by simp [strlen, equals])
  refine Subtype.ext ?_
  rw [joined_val, hvalue, ← hv]

lemma lookup_eq_some {strings : List CString} (hdistinct : (strings.map nameOf).Nodup) (n v : CString) :
    lookup strings n = some v ↔ ∃ s ∈ strings, nameOf s = n ∧ valueOf s = v := by
  rw [lookup, Option.map_eq_some_iff]
  constructor
  · rintro ⟨s, hfind, hv⟩
    have hn := List.find?_some hfind
    exact ⟨s, List.mem_of_find?_eq_some hfind, of_decide_eq_true hn, hv⟩
  · rintro ⟨s, hs, hn, hv⟩
    obtain ⟨s', hfind⟩ : ∃ s', (strings.find? fun s => nameOf s = n) = some s' :=
      Option.isSome_iff_exists.mp (List.find?_isSome.mpr ⟨s, hs, decide_eq_true hn⟩)
    have hn' := List.find?_some hfind
    replace hn' : nameOf s' = n := of_decide_eq_true hn'
    have hsame := List.inj_on_of_nodup_map hdistinct (List.mem_of_find?_eq_some hfind) hs (hn'.trans hn.symm)
    exact ⟨s', hfind, hsame ▸ hv⟩

/-- At the start the table binds what the strings do. -/
lemma Initial.represents {l : List Ptr} (h : Initial e l) :
    ∃ table, Represents e table ∧ Binds table (lookup (l.map e.str)) := by
  obtain ⟨k, henviron, hholds⟩ := h.environ
  refine ⟨l.map fun p => ⟨p, nameOf (e.str p), valueOf (e.str p)⟩, Or.inr ⟨k, ⟨?_, ?_, ?_, ?_⟩, henviron, h.heapEnviron, ?_⟩,
    fun n v => ?_⟩
  · rw [List.map_map]
    exact (List.map_id l).symm ▸ hholds
  · intro b hb
    obtain ⟨p, hp, rfl⟩ := List.mem_map.mp hb
    exact (joined_nameOf (h.equals p hp)).symm
  · intro b hb
    obtain ⟨p, hp, rfl⟩ := List.mem_map.mp hb
    exact nameOf_plain (e.str p)
  · rw [List.map_map]
    exact h.distinct
  · intro b hb
    obtain ⟨p, hp, rfl⟩ := List.mem_map.mp hb
    exact h.foreign p hp
  · have hdistinct := h.distinct
    rw [← Function.comp_def nameOf e.str, ← List.map_map] at hdistinct
    rw [lookup_eq_some hdistinct]
    simp only [List.mem_map, exists_exists_and_eq_and]

end Runs

/-- The environment behaves as a map from names to values, whatever the allocator refuses. A call that the model gives
a result for has freed nothing but blocks of the library. -/
theorem environ_refines_map {a : Allocator} (ha : Fresh a) {e : Env} {l : List Ptr} (h : Initial e l) (ops : List Op) :
    ∃ list, (∀ᶠ fuel in atTop, e.callAll a fuel ops = some list) ∧ Legal (lookup (l.map e.str)) ops list := by
  obtain ⟨table, hrep, hbinds⟩ := h.represents
  exact hrep.callAll ha hbinds ops

/-- Always a block above all others. -/
def above : Allocator where
  malloc _ owned _ := some (owned.sup id + 1)
  realloc _ owned _ _ := some (owned.sup id + 1)

lemma above_fresh : Fresh above := by
  have hnew : ∀ owned : Finset ℕ, owned.sup id + 1 ∉ owned := fun owned hmem =>
    absurd (Finset.le_sup (f := id) hmem) (Nat.not_succ_le_self _)
  refine ⟨fun calls owned size p hp => ?_, fun calls owned k size p hp => ?_⟩
  · obtain rfl := Option.some.inj hp
    exact hnew owned
  · obtain rfl := Option.some.inj hp
    exact Or.inr (hnew owned)

/-- An environment with the string `A=1`. -/
def single : Env where
  str _ := ⟨[65, 61, 49], by decide⟩
  arr _ i := if i = 0 then some (.foreign 1) else none
  environ := some (.foreign 0)
  heapEnviron := none
  length := 0
  size := 0
  owned := ∅
  calls := 0
  refused := false

theorem environ_refines_map_single : ∃ list,
    (∀ᶠ fuel in atTop, single.callAll above fuel [.setenv ⟨[66], by decide⟩ ⟨[50], by decide⟩ true,
      .unsetenv ⟨[65], by decide⟩, .getenv ⟨[66], by decide⟩] = some list) ∧
    Legal (lookup [⟨[65, 61, 49], by decide⟩]) [.setenv ⟨[66], by decide⟩ ⟨[50], by decide⟩ true,
      .unsetenv ⟨[65], by decide⟩, .getenv ⟨[66], by decide⟩] list := by
  have hinitial : Initial single [.foreign 1] := by
    refine ⟨⟨0, rfl, fun i hi => ?_⟩, rfl, fun p hp => ⟨1, List.mem_singleton.mp hp⟩, fun p _ => by simp [single],
      List.nodup_singleton _⟩
    rw [List.length_singleton] at hi
    interval_cases i <;> rfl
  exact environ_refines_map above_fresh hinitial _

end PiggyOs.Environ
