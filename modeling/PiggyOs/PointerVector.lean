import PiggyOs.ByteMemory
import PiggyOs.Simulation
import PiggyOs.Transition

/-! The vectors of the kernel, which hold pointers, and the lists that they stand for. -/
namespace PiggyOs.PointerVector
open ByteMemory Transition Simulation

def elemSize : ℕ := 8

def vectorInitialCapacity : ℕ := 4

def vectorResizeFactor : ℕ := 2

/-- `vector_t`, with the memory from `data` on. Its block is in memory, so that no size wraps around. -/
structure VectorT where
  size : ℕ
  capacity : ℕ
  data : BitVec 64
  mem : Memory

/-- `length` bytes that are read or written, `offset` bytes behind `data`. -/
structure Access where
  offset : ℕ
  length : ℕ

/-- `v->data[k]` -/
def VectorT.slot (v : VectorT) (k : ℕ) : BitVec 64 := read64 v.mem (8 * k)

def vectorCreate (data : BitVec 64) (mem : Memory) : VectorT := ⟨0, vectorInitialCapacity, data, mem⟩

/-- The address that is returned, or none for `NULL`. -/
def vectorGet (v : VectorT) (index : ℕ) : Option (BitVec 64) :=
  if v.data = 0 ∨ v.size ≤ index then none else some (v.data + BitVec.ofNat 64 (8 * (elemSize * index)))

def vectorSet (v : VectorT) (index : ℕ) (value : BitVec 64) : Bool × VectorT × List Access :=
  if v.data = 0 ∨ v.size ≤ index then (false, v, [])
  else (true, { v with mem := write64 v.mem (8 * (elemSize * index)) value }, [⟨8 * (elemSize * index), 8⟩])

def vectorRemove (v : VectorT) (index : ℕ) : Bool × VectorT × List Access :=
  if v.data = 0 ∨ v.size ≤ index then (false, v, [])
  else if index = v.size - 1 then (true, { v with size := v.size - 1 }, [])
  else
    let n := elemSize * v.size - index - 1
    (true, { v with mem := copy v.mem (8 * index) (8 * (index + 1)) n, size := v.size - 1 },
      [⟨8 * (index + 1), n⟩, ⟨8 * index, n⟩])

/-- The loop of `vector_remove_by_value` over the `n` indices from `i` on. -/
def searchFrom (v : VectorT) (value : BitVec 64) : ℕ → ℕ → Option ℕ × List Access
  | 0, _ => (none, [])
  | n + 1, i =>
      if v.slot (elemSize * i) = value then (some i, [⟨8 * (elemSize * i), 8⟩])
      else
        let (found, accesses) := searchFrom v value n (i + 1)
        (found, ⟨8 * (elemSize * i), 8⟩ :: accesses)

def vectorRemoveByValue (v : VectorT) (value : BitVec 64) : Bool × VectorT × List Access :=
  if v.data = 0 then (false, v, [])
  else match searchFrom v value v.size 0 with
    | (none, accesses) => (false, v, accesses)
    | (some i, accesses) =>
        let (_, v, moves) := vectorRemove v i
        (true, v, accesses ++ moves)

/-- `krealloc` returns `newData`, and what is in memory from there on. -/
def vectorPushBack (v : VectorT) (value newData : BitVec 64) (newMem : Memory) : Bool × VectorT × List Access :=
  if v.data = 0 then (false, v, [])
  else
    let v := if v.size = v.capacity then { v with capacity := vectorResizeFactor * v.capacity, data := newData, mem := newMem }
      else v
    (true, { v with mem := write64 v.mem (8 * v.size) value, size := v.size + 1 }, [⟨8 * v.size, 8⟩])

inductive Op
  | pushBack (value newData : BitVec 64) (newMem : Memory)
  | remove (index : ℕ)
  | removeByValue (value : BitVec 64)
  | set (index : ℕ) (value : BitVec 64)
  | get (index : ℕ)

inductive Answer
  | flag (b : Bool)
  | pointer (p : Option (BitVec 64))

def flagged (r : Bool × VectorT × List Access) : Answer × VectorT × List Access := (.flag r.1, r.2)

def perform (v : VectorT) : Op → Answer × VectorT × List Access
  | .pushBack value newData newMem => flagged (vectorPushBack v value newData newMem)
  | .remove index => flagged (vectorRemove v index)
  | .removeByValue value => flagged (vectorRemoveByValue v value)
  | .set index value => flagged (vectorSet v index value)
  | .get index => (.pointer (vectorGet v index), v, [])

/-- What is behind `data`: a block that `krealloc` could not move is gone. -/
def VectorT.allocated (v : VectorT) : ℕ := if v.data = 0 then 0 else elemSize * v.capacity

/-- A block that has been moved begins with what was in the old one. -/
def Step (v : VectorT) (op : Op) (v' : VectorT) : Prop :=
  v' = (perform v op).2.1 ∧ match op with
    | .pushBack _ newData newMem => v.size = v.capacity → newData ≠ 0 → ∀ b < elemSize * v.capacity, newMem b = v.mem b
    | _ => True

/-- The operation of a list that is meant. -/
def listPerform (l : List (BitVec 64)) : Op → Answer × List (BitVec 64)
  | .pushBack value _ _ => (.flag true, l ++ [value])
  | .remove index => (.flag (index < l.length), l.eraseIdx index)
  | .removeByValue value => (.flag (value ∈ l), l.erase value)
  | .set index value => (.flag (index < l.length), l.set index value)
  | .get index => (.pointer l[index]?, l)

def VectorT.contents (v : VectorT) : List (BitVec 64) := (List.range v.size).map v.slot

/-- The call answers and changes the contents as the list does, and stays in the block. -/
structure Conforms (v : VectorT) (op : Op) : Prop where
  answer : (perform v op).1 = (listPerform v.contents op).1
  contents : (perform v op).2.1.contents = (listPerform v.contents op).2
  inside : ∀ a ∈ (perform v op).2.2, a.offset + a.length ≤ (perform v op).2.1.allocated

/-- The last element, or enough room behind the elements for the bytes that are moved with them. -/
def MovesInside (v : VectorT) (index : ℕ) : Prop :=
  v.size ≤ index + 1 ∨ 8 * v.size + 7 * index + 7 ≤ 8 * v.capacity

/-- The first of every eighth slot that holds the value. -/
def FoundAt (v : VectorT) (value : BitVec 64) (i : ℕ) : Prop :=
  v.slot (elemSize * i) = value ∧ ∀ j < i, v.slot (elemSize * j) ≠ value

/-- The element at `i` is the first one with its value, or follows on it with only the same between. -/
def FirstRun (v : VectorT) (value : BitVec 64) (i : ℕ) : Prop :=
  ∃ k ≤ i, (∀ j < k, v.slot j ≠ value) ∧ ∀ j, k ≤ j → j ≤ i → v.slot j = value

/-- When a call does what it should. -/
def Allowed (v : VectorT) : Op → Prop
  | .pushBack _ newData _ => v.size = v.capacity → newData ≠ 0
  | .remove index => MovesInside v index
  | .removeByValue value =>
      (∀ i < v.size, (∀ j < i, v.slot (elemSize * j) ≠ value) → elemSize * i < v.capacity) ∧
        ((∀ i < v.size, v.slot i ≠ value ∧ v.slot (elemSize * i) ≠ value) ∨
          ∃ i < v.size, FoundAt v value i ∧ FirstRun v value i ∧ MovesInside v i)
  | .set index value => index = 0 ∨ v.size ≤ index ∨
      (elemSize * index < v.capacity ∧ v.slot index = value ∧ (elemSize * index < v.size → v.slot (elemSize * index) = value))
  | .get index => v.size ≤ index ∨ v.slot index = v.data + BitVec.ofNat 64 (8 * (elemSize * index))

section Contents
variable {v : VectorT} {value : BitVec 64} {i j : ℕ}

@[simp] lemma length_contents (v : VectorT) : v.contents.length = v.size := by simp [VectorT.contents]

lemma getElem?_contents (v : VectorT) (i : ℕ) : v.contents[i]? = if i < v.size then some (v.slot i) else none := by
  by_cases hi : i < v.size
  · simp [VectorT.contents, hi]
  · rw [if_neg hi]
    exact List.getElem?_eq_none (by simpa using hi)

lemma mem_contents : value ∈ v.contents ↔ ∃ i < v.size, v.slot i = value := by simp [VectorT.contents]

lemma slot_write64 (v : VectorT) (k : ℕ) : VectorT.slot { v with mem := write64 v.mem (8 * k) value } i =
    if i = k then value else v.slot i := by
  rw [VectorT.slot]
  split_ifs with hik
  · rw [hik, read64_write64]
  · exact read64_write64_of_apart _ _ (by omega)

/-- The elements behind the one that is removed move down, together with some bytes behind them. -/
lemma slot_copy (v : VectorT) (hi : i < v.size - 1) :
    VectorT.slot { v with mem := copy v.mem (8 * j) (8 * (j + 1)) (elemSize * v.size - j - 1) } i =
      if i < j then v.slot i else v.slot (i + 1) := by
  rw [VectorT.slot, elemSize]
  split_ifs with hij
  · exact read64_congr fun k hk => copy_outside _ (by omega)
  · refine read64_congr fun k hk => ?_
    have hinside : copy v.mem (8 * j) (8 * (j + 1)) (8 * v.size - j - 1) (8 * j + (8 * i + k - 8 * j)) =
        v.mem (8 * (j + 1) + (8 * i + k - 8 * j)) := copy_inside v.mem _ (by omega)
    rw [show 8 * j + (8 * i + k - 8 * j) = 8 * i + k by omega] at hinside
    exact hinside.trans (congrArg v.mem (by omega))

/-- Two elements whose removal comes to the same have only the same between them. -/
lemma eraseIdx_eq_iff {l : List (BitVec 64)} (hji : j ≤ i) :
    l.eraseIdx i = l.eraseIdx j ↔ ∀ k, j ≤ k → k < i → l[k]? = l[k + 1]? := by
  constructor
  · intro h k hjk hki
    have hk := congrArg (fun l : List (BitVec 64) => l[k]?) h
    simpa [List.getElem?_eraseIdx, hki, not_lt.mpr hjk] using hk
  · intro h
    refine List.ext_getElem? fun k => ?_
    rw [List.getElem?_eraseIdx, List.getElem?_eraseIdx]
    split_ifs with hki hkj
    · rfl
    · exact h k (not_lt.mp hkj) hki
    · omega
    · rfl

lemma idxOf_contents (hmem : value ∈ v.contents) : v.contents.idxOf value < v.size ∧
    v.slot (v.contents.idxOf value) = value ∧ ∀ j < v.contents.idxOf value, v.slot j ≠ value := by
  have hk : v.contents.idxOf value < v.size := (length_contents v) ▸ List.idxOf_lt_length_iff.mpr hmem
  refine ⟨hk, ?_, fun j hj hjv => ?_⟩
  · have hget := List.getElem?_idxOf hmem
    rw [getElem?_contents, if_pos hk] at hget
    exact Option.some.inj hget
  · have hnot := List.not_of_lt_findIdx hj
    simp [VectorT.contents, hjv] at hnot

/-- What is removed is the first occurrence, or cannot be told from it. -/
lemma eraseIdx_eq_erase_iff (hi : i < v.size) :
    value ∈ v.contents ∧ v.contents.eraseIdx i = v.contents.erase value ↔ FirstRun v value i := by
  constructor
  · rintro ⟨hmem, herase⟩
    obtain ⟨hk, hslot, hfirst⟩ := idxOf_contents hmem
    rw [← List.eraseIdx_idxOf_eq_erase] at herase
    by_cases hle : v.contents.idxOf value ≤ i
    · rw [eraseIdx_eq_iff hle] at herase
      refine ⟨_, hle, hfirst, fun j hkj hji => ?_⟩
      induction j, hkj using Nat.le_induction with
      | base => exact hslot
      | succ j hkj ih =>
        have hj := herase j hkj hji
        rw [getElem?_contents, getElem?_contents, if_pos (by omega), if_pos (by omega)] at hj
        exact (Option.some.inj hj).symm.trans (ih (by omega))
    · have hbefore := (eraseIdx_eq_iff (not_le.mp hle).le).mp herase.symm (v.contents.idxOf value - 1) (by omega) (by omega)
      rw [getElem?_contents, getElem?_contents, if_pos (by omega), if_pos (by omega),
        Nat.sub_add_cancel (by omega)] at hbefore
      exact absurd ((Option.some.inj hbefore).trans hslot) (hfirst _ (by omega))
  · rintro ⟨k, hki, hkfirst, hrun⟩
    have hmem : value ∈ v.contents := mem_contents.mpr ⟨i, hi, hrun i hki le_rfl⟩
    obtain ⟨-, hslot, hfirst⟩ := idxOf_contents hmem
    have hle : v.contents.idxOf value ≤ i := not_lt.mp fun hlt => hfirst i hlt (hrun i hki le_rfl)
    have hk : k ≤ v.contents.idxOf value := not_lt.mp fun hlt => hkfirst _ hlt hslot
    refine ⟨hmem, ?_⟩
    rw [← List.eraseIdx_idxOf_eq_erase, eraseIdx_eq_iff hle]
    intro j hkj hji
    rw [getElem?_contents, getElem?_contents, if_pos (by omega), if_pos (by omega), hrun j (by omega) (by omega),
      hrun (j + 1) (by omega) (by omega)]

end Contents

section Operations
variable {v v' : VectorT} {value newData : BitVec 64} {newMem : Memory} {i index : ℕ}

/-- There is a block, and the elements are in it. -/
structure Valid (v : VectorT) : Prop where
  data : v.data ≠ 0
  size : v.size ≤ v.capacity
  capacity : 0 < v.capacity

lemma Valid.allocated (h : Valid v) : v.allocated = 8 * v.capacity := if_neg h.data

lemma vectorRemove_eq (h : Valid v) (hi : index < v.size) : (vectorRemove v index).1 = true ∧
    (vectorRemove v index).2.1.contents = v.contents.eraseIdx index ∧ Valid (vectorRemove v index).2.1 ∧
    (vectorRemove v index).2.1.allocated = v.allocated ∧
    ((∀ a ∈ (vectorRemove v index).2.2, a.offset + a.length ≤ v.allocated) ↔ MovesInside v index) := by
  have hsize := h.size
  have hopen : ¬(v.data = 0 ∨ v.size ≤ index) := not_or.mpr ⟨h.data, by omega⟩
  by_cases hlast : index = v.size - 1
  · have heq : vectorRemove v index = (true, { v with size := v.size - 1 }, []) := by
      rw [vectorRemove, if_neg hopen, if_pos hlast]
    rw [heq]
    refine ⟨rfl, List.ext_getElem? fun k => ?_, ⟨h.data, by dsimp only; omega, h.capacity⟩, rfl, ?_⟩
    · rw [List.getElem?_eraseIdx, getElem?_contents, getElem?_contents, getElem?_contents]
      by_cases hk : k < v.size - 1
      · rw [if_pos hk, if_pos (by omega), if_pos (by omega)]
        rfl
      · rw [if_neg hk, if_neg (by omega), if_neg (by omega)]
    · exact iff_of_true (by simp) (Or.inl (by omega))
  · have heq : vectorRemove v index = (true, { v with
        mem := copy v.mem (8 * index) (8 * (index + 1)) (elemSize * v.size - index - 1), size := v.size - 1 },
        [⟨8 * (index + 1), elemSize * v.size - index - 1⟩, ⟨8 * index, elemSize * v.size - index - 1⟩]) := by
      rw [vectorRemove, if_neg hopen, if_neg hlast]
    rw [heq]
    refine ⟨rfl, List.ext_getElem? fun k => ?_, ⟨h.data, by dsimp only; omega, h.capacity⟩, rfl, ?_⟩
    · rw [List.getElem?_eraseIdx, getElem?_contents, getElem?_contents, getElem?_contents]
      dsimp only
      by_cases hk : k < v.size - 1
      · have hslot := slot_copy v (j := index) hk
        rw [if_pos hk]
        refine (congrArg some hslot).trans ?_
        split_ifs
        · rfl
        · omega
        · rfl
        · omega
      · rw [if_neg hk, if_neg (by omega), if_neg (by omega)]
    · rw [h.allocated, MovesInside, elemSize]
      simp only [List.mem_cons, List.not_mem_nil, or_false, forall_eq_or_imp, forall_eq]
      omega

/-- One slot written in place of another. -/
lemma contents_write64_iff (value : BitVec 64) (hi : index < v.size) (k : ℕ) :
    VectorT.contents { v with mem := write64 v.mem (8 * k) value } = v.contents.set index value ↔
      k = index ∨ (v.slot index = value ∧ (k < v.size → v.slot k = value)) := by
  have hget : ∀ j, (VectorT.contents { v with mem := write64 v.mem (8 * k) value })[j]? =
      if j < v.size then some (if j = k then value else v.slot j) else none := by
    intro j
    rw [getElem?_contents, slot_write64]
  constructor
  · intro h
    have heq : ∀ j < v.size, (if j = k then value else v.slot j) = if index = j then value else v.slot j := by
      intro j hj
      have hj' := congrArg (fun l : List (BitVec 64) => l[j]?) h
      simp only [hget, if_pos hj, List.getElem?_set, length_contents, getElem?_contents] at hj'
      split_ifs at hj' ⊢
      all_goals exact Option.some.inj hj'
    by_cases hk : k = index
    · exact Or.inl hk
    · refine Or.inr ⟨?_, fun hks => ?_⟩
      · have hindex := heq index hi
        rwa [if_neg (Ne.symm hk), if_pos rfl] at hindex
      · have hslot := heq k hks
        rw [if_pos rfl, if_neg (Ne.symm hk)] at hslot
        exact hslot.symm
  · intro h
    refine List.ext_getElem? fun j => ?_
    rw [hget, List.getElem?_set, length_contents, getElem?_contents]
    by_cases hj : j < v.size
    · rw [if_pos hj, if_pos hj, if_pos hi]
      split_ifs with hjk hij hij
      · rfl
      · rcases h with hk | ⟨-, hslot⟩
        · exact absurd (hk.symm.trans hjk.symm) hij
        · rw [hjk, hslot (hjk ▸ hj)]
      · rcases h with hk | ⟨hslot, -⟩
        · exact absurd (hij.symm.trans hk.symm) hjk
        · rw [← hij, hslot]
      · rfl
    · rw [if_neg hj, if_neg (show index ≠ j by omega), if_neg hj]

lemma Valid.remove (h : Valid v) : (Conforms v (.remove index) ↔ Allowed v (.remove index)) ∧
    Valid (perform v (.remove index)).2.1 := by
  by_cases hi : index < v.size
  · obtain ⟨hflag, hcontents, hvalid, hallocated, hinside⟩ := vectorRemove_eq h hi
    refine ⟨⟨fun hc => hinside.mp ?_, fun ha => ⟨?_, hcontents, ?_⟩⟩, hvalid⟩
    · rw [← hallocated]
      exact hc.inside
    · simp [perform, listPerform, flagged, hflag, hi]
    · exact fun a hmem => (hinside.mpr ha a hmem).trans_eq hallocated.symm
  · have heq : vectorRemove v index = (false, v, []) := by rw [vectorRemove, if_pos (Or.inr (not_lt.mp hi))]
    refine ⟨iff_of_true ⟨?_, ?_, ?_⟩ (Or.inl (by omega)), ?_⟩
    · simp [perform, listPerform, flagged, heq, hi]
    · simp only [perform, listPerform, flagged, heq]
      exact (List.eraseIdx_of_length_le (by simpa using hi)).symm
    · simp [perform, flagged, heq]
    · simpa [perform, flagged, heq] using h

lemma Valid.set (h : Valid v) : (Conforms v (.set index value) ↔ Allowed v (.set index value)) ∧
    Valid (perform v (.set index value)).2.1 := by
  by_cases hi : index < v.size
  · have heq : vectorSet v index value = (true, { v with mem := write64 v.mem (8 * (elemSize * index)) value },
        [⟨8 * (elemSize * index), 8⟩]) := by
      rw [vectorSet, if_neg (not_or.mpr ⟨h.data, by omega⟩)]
    have hcontents := contents_write64_iff value hi (elemSize * index)
    have hzero : elemSize * index = index ↔ index = 0 := by
      rw [elemSize]
      omega
    have hsize := h.size
    rw [hzero] at hcontents
    refine ⟨⟨fun hc => ?_, fun ha => ⟨?_, ?_, ?_⟩⟩, ?_⟩
    · have hkept := hc.contents
      have hinside := hc.inside ⟨8 * (elemSize * index), 8⟩ (by simp [perform, flagged, heq])
      simp only [perform, flagged, heq, listPerform] at hkept hinside
      rcases hcontents.mp hkept with h0 | ⟨hslot, hother⟩
      · exact Or.inl h0
      · rw [show VectorT.allocated { v with mem := write64 v.mem (8 * (elemSize * index)) value } = 8 * v.capacity from
          h.allocated] at hinside
        exact Or.inr (Or.inr ⟨by omega, hslot, hother⟩)
    · simp [perform, listPerform, flagged, heq, hi]
    · simp only [perform, flagged, heq, listPerform]
      refine hcontents.mpr (ha.imp_right fun hr => ?_)
      exact (hr.resolve_left (not_le.mpr hi)).2
    · intro a hmem
      simp only [perform, flagged, heq, List.mem_singleton] at hmem ⊢
      rw [hmem, show VectorT.allocated { v with mem := write64 v.mem (8 * (elemSize * index)) value } = 8 * v.capacity from
        h.allocated]
      rcases ha with rfl | hle | ⟨hlt, -⟩
      · dsimp only
        omega
      · omega
      · dsimp only
        omega
    · simpa [perform, flagged, heq] using ⟨h.data, h.size, h.capacity⟩
  · have heq : vectorSet v index value = (false, v, []) := by rw [vectorSet, if_pos (Or.inr (not_lt.mp hi))]
    refine ⟨iff_of_true ⟨?_, ?_, ?_⟩ (Or.inr (Or.inl (by omega))), ?_⟩
    · simp [perform, listPerform, flagged, heq, hi]
    · simp only [perform, listPerform, flagged, heq]
      exact (List.set_eq_of_length_le (by simpa using hi)).symm
    · simp [perform, flagged, heq]
    · simpa [perform, flagged, heq] using h

lemma Valid.get (h : Valid v) : Conforms v (.get index) ↔ Allowed v (.get index) := by
  have hget : vectorGet v index = v.contents[index]? ↔ Allowed v (.get index) := by
    rw [getElem?_contents, vectorGet, Allowed]
    by_cases hi : index < v.size
    · rw [if_neg (not_or.mpr ⟨h.data, not_le.mpr hi⟩), if_pos hi, Option.some_inj, or_iff_right (not_le.mpr hi)]
      exact eq_comm
    · exact iff_of_true (by rw [if_pos (Or.inr (not_lt.mp hi)), if_neg hi]) (Or.inl (not_lt.mp hi))
  rw [← hget]
  exact ⟨fun hc => Answer.pointer.inj hc.answer, fun heq => ⟨congrArg Answer.pointer heq, rfl, by simp [perform]⟩⟩

/-- The new element, behind those that were there. -/
lemma contents_push {w : VectorT} (hsize : w.size = v.size) (hslot : ∀ i < v.size, w.slot i = v.slot i) :
    VectorT.contents { w with mem := write64 w.mem (8 * w.size) value, size := w.size + 1 } = v.contents ++ [value] := by
  refine List.ext_getElem? fun k => ?_
  have hwrite : VectorT.slot { w with mem := write64 w.mem (8 * w.size) value, size := w.size + 1 } k =
      if k = w.size then value else w.slot k := slot_write64 w w.size
  rw [getElem?_contents, hwrite, List.getElem?_append, length_contents, getElem?_contents]
  dsimp only
  rcases lt_trichotomy k v.size with hlt | heq | hgt
  · rw [if_pos (by omega), if_neg (by omega), if_pos hlt, if_pos hlt, hslot k hlt]
  · rw [if_pos (by omega), if_pos (by omega), if_neg (by omega), heq, Nat.sub_self]
    rfl
  · rw [if_neg (by omega), if_neg (by omega)]
    exact (List.getElem?_eq_none (by simp; omega)).symm

lemma Valid.pushBack (h : Valid v) (hmoved : v.size = v.capacity → newData ≠ 0 → ∀ b < elemSize * v.capacity, newMem b = v.mem b) :
    (Conforms v (.pushBack value newData newMem) ↔ Allowed v (.pushBack value newData newMem)) ∧
      (Allowed v (.pushBack value newData newMem) → Valid (perform v (.pushBack value newData newMem)).2.1) := by
  have hsize := h.size
  have hcapacity := h.capacity
  by_cases hfull : v.size = v.capacity
  · have heq : vectorPushBack v value newData newMem = (true, { v with
        capacity := vectorResizeFactor * v.capacity, data := newData, mem := write64 newMem (8 * v.size) value
        size := v.size + 1 }, [⟨8 * v.size, 8⟩]) := by
      rw [vectorPushBack, if_neg h.data, if_pos hfull]
    have hallowed : Allowed v (.pushBack value newData newMem) ↔ newData ≠ 0 := ⟨fun ha => ha hfull, fun hne _ => hne⟩
    rw [hallowed]
    simp only [perform, flagged, heq]
    refine ⟨⟨fun hc hnull => ?_, fun hne => ⟨?_, ?_, ?_⟩⟩, fun hne => ⟨hne, ?_, ?_⟩⟩
    · have hinside := hc.inside ⟨8 * v.size, 8⟩ (by simp [perform, flagged, heq])
      simp only [perform, flagged, heq, VectorT.allocated, if_pos hnull] at hinside
      omega
    · simp [perform, listPerform, flagged, heq]
    · simp only [perform, flagged, heq, listPerform]
      exact contents_push (w := { v with
        capacity := vectorResizeFactor * v.capacity, data := newData, mem := newMem }) rfl fun i hi =>
          read64_congr fun k hk => hmoved hfull hne _ (by rw [elemSize]; omega)
    · intro a hmem
      simp only [perform, flagged, heq, List.mem_singleton] at hmem ⊢
      rw [hmem, VectorT.allocated, if_neg hne, vectorResizeFactor, elemSize]
      dsimp only
      omega
    · simp only [vectorResizeFactor]
      omega
    · simp only [vectorResizeFactor]
      omega
  · have heq : vectorPushBack v value newData newMem = (true, { v with
        mem := write64 v.mem (8 * v.size) value, size := v.size + 1 }, [⟨8 * v.size, 8⟩]) := by
      rw [vectorPushBack, if_neg h.data, if_neg hfull]
    have hallowed : Allowed v (.pushBack value newData newMem) := fun hsame => absurd hsame hfull
    refine ⟨iff_of_true ⟨?_, ?_, ?_⟩ hallowed, fun _ => ?_⟩
    · simp [perform, listPerform, flagged, heq]
    · simp only [perform, flagged, heq, listPerform]
      exact contents_push rfl fun _ _ => rfl
    · intro a hmem
      simp only [perform, flagged, heq, List.mem_singleton] at hmem ⊢
      rw [hmem, VectorT.allocated, if_neg h.data, elemSize]
      dsimp only
      omega
    · simp only [perform, flagged, heq]
      exact ⟨h.data, by dsimp only; omega, h.capacity⟩

/-- The slots that the loop reads: those up to the first one that holds the value. -/
lemma mem_searchFrom {n : ℕ} {a : Access} : a ∈ (searchFrom v value n i).2 ↔ ∃ j, i ≤ j ∧ j < i + n ∧
    (∀ k, i ≤ k → k < j → v.slot (elemSize * k) ≠ value) ∧ a = ⟨8 * (elemSize * j), 8⟩ := by
  induction n generalizing i with
  | zero =>
    refine iff_of_false (by simp [searchFrom]) ?_
    rintro ⟨j, hij, hji, -⟩
    omega
  | succ n ih =>
    by_cases hv : v.slot (elemSize * i) = value
    · rw [searchFrom, if_pos hv, List.mem_singleton]
      constructor
      · exact fun ha => ⟨i, le_rfl, by omega, fun k hik hki => absurd hki (not_lt.mpr hik), ha⟩
      · rintro ⟨j, hij, -, hbefore, ha⟩
        have hji : j = i := le_antisymm (not_lt.mp fun hlt => hbefore i le_rfl hlt hv) hij
        rw [ha, hji]
    · have hcons : (searchFrom v value (n + 1) i).2 = ⟨8 * (elemSize * i), 8⟩ :: (searchFrom v value n (i + 1)).2 := by
        rw [searchFrom, if_neg hv]
      rw [hcons, List.mem_cons, ih]
      constructor
      · rintro (ha | ⟨j, hij, hji, hbefore, ha⟩)
        · exact ⟨i, le_rfl, by omega, fun k hik hki => absurd hki (not_lt.mpr hik), ha⟩
        · refine ⟨j, by omega, by omega, fun k hik hkj => ?_, ha⟩
          by_cases hki : k = i
          · rwa [hki]
          · exact hbefore k (by omega) hkj
      · rintro ⟨j, hij, hji, hbefore, ha⟩
        by_cases hj : j = i
        · exact Or.inl (by rw [ha, hj])
        · exact Or.inr ⟨j, by omega, by omega, fun k hik hkj => hbefore k (by omega) hkj, ha⟩

lemma searchFrom_none {n : ℕ} (h : (searchFrom v value n i).1 = none) :
    ∀ j, i ≤ j → j < i + n → v.slot (elemSize * j) ≠ value := by
  induction n generalizing i with
  | zero =>
    intro j hij hji
    omega
  | succ n ih =>
    by_cases hv : v.slot (elemSize * i) = value
    · rw [searchFrom, if_pos hv] at h
      simp at h
    · rw [searchFrom, if_neg hv] at h
      intro j hij hji
      by_cases hj : j = i
      · rwa [hj]
      · exact ih h j (by omega) (by omega)

lemma searchFrom_some {n k : ℕ} (h : (searchFrom v value n i).1 = some k) :
    k < i + n ∧ v.slot (elemSize * k) = value ∧ ∀ j, i ≤ j → j < k → v.slot (elemSize * j) ≠ value := by
  induction n generalizing i with
  | zero => simp [searchFrom] at h
  | succ n ih =>
    by_cases hv : v.slot (elemSize * i) = value
    · rw [searchFrom, if_pos hv] at h
      obtain rfl := Option.some.inj h
      exact ⟨by omega, hv, fun j hij hji => absurd hij (not_le.mpr hji)⟩
    · rw [searchFrom, if_neg hv] at h
      obtain ⟨hkn, hk, hbefore⟩ := ih h
      refine ⟨by omega, hk, fun j hij hjk => ?_⟩
      by_cases hj : j = i
      · rwa [hj]
      · exact hbefore j (by omega) hjk

lemma Valid.search_inside (h : Valid v) (value : BitVec 64) : (∀ a ∈ (searchFrom v value v.size 0).2, a.offset + a.length ≤ v.allocated) ↔
    ∀ i < v.size, (∀ j < i, v.slot (elemSize * j) ≠ value) → elemSize * i < v.capacity := by
  rw [h.allocated]
  constructor
  · intro hall i hi hbefore
    have hread := hall ⟨8 * (elemSize * i), 8⟩ (mem_searchFrom.mpr ⟨i, Nat.zero_le i, by omega, fun k _ hk => hbefore k hk, rfl⟩)
    dsimp only at hread
    omega
  · intro hall a ha
    obtain ⟨i, -, hi, hbefore, rfl⟩ := mem_searchFrom.mp ha
    have hlt := hall i (by omega) fun j hj => hbefore j (Nat.zero_le j) hj
    dsimp only
    omega

lemma Valid.removeByValue (h : Valid v) : (Conforms v (.removeByValue value) ↔ Allowed v (.removeByValue value)) ∧
    Valid (perform v (.removeByValue value)).2.1 := by
  cases hsearch : searchFrom v value v.size 0 with
  | mk found accesses =>
    have hinside := h.search_inside value
    rw [hsearch] at hinside
    cases found with
    | none =>
      have hnone := searchFrom_none (congrArg Prod.fst hsearch)
      have heq : vectorRemoveByValue v value = (false, v, accesses) := by rw [vectorRemoveByValue, if_neg h.data, hsearch]
      simp only [perform, flagged, heq]
      refine ⟨⟨fun hc => ?_, fun ha => ?_⟩, h⟩
      · have hanswer := Answer.flag.inj hc.answer
        have hreads := hc.inside
        simp only [perform, flagged, heq] at hanswer hreads
        refine ⟨hinside.mp hreads, Or.inl fun i hi => ⟨fun hslot => ?_, hnone i (Nat.zero_le i) (by omega)⟩⟩
        exact absurd (mem_contents.mpr ⟨i, hi, hslot⟩) (of_decide_eq_false hanswer.symm)
      · have hmissing : value ∉ v.contents := by
          rw [mem_contents]
          rintro ⟨i, hi, hslot⟩
          rcases ha.2 with hall | ⟨k, hk, hfoundAt, -⟩
          · exact (hall i hi).1 hslot
          · exact hnone k (Nat.zero_le k) (by omega) hfoundAt.1
        refine ⟨?_, ?_, ?_⟩
        · simp [perform, flagged, heq, listPerform, hmissing]
        · simp only [perform, flagged, heq, listPerform]
          exact (List.erase_of_not_mem hmissing).symm
        · simp only [perform, flagged, heq]
          exact hinside.mpr ha.1
    | some i =>
      obtain ⟨hi, hslot, hbefore⟩ := searchFrom_some (congrArg Prod.fst hsearch)
      rw [Nat.zero_add] at hi
      have hfoundAt : FoundAt v value i := ⟨hslot, fun j hj => hbefore j (Nat.zero_le j) hj⟩
      have hunique : ∀ k, FoundAt v value k → k = i := fun k hk =>
        le_antisymm (not_lt.mp fun hlt => hk.2 i hlt hslot) (not_lt.mp fun hlt => hfoundAt.2 k hlt hk.1)
      obtain ⟨-, hcontents, hvalid, hallocated, hmoves⟩ := vectorRemove_eq h hi
      have heq : vectorRemoveByValue v value = (true, (vectorRemove v i).2.1, accesses ++ (vectorRemove v i).2.2) := by
        rw [vectorRemoveByValue, if_neg h.data, hsearch]
      simp only [perform, flagged, heq]
      refine ⟨⟨fun hc => ?_, fun ha => ?_⟩, hvalid⟩
      · have hanswer := Answer.flag.inj hc.answer
        have hkept := hc.contents
        have hall := hc.inside
        simp only [perform, flagged, heq, listPerform, hallocated] at hanswer hkept hall
        have hmem : value ∈ v.contents := of_decide_eq_true hanswer.symm
        rw [hcontents] at hkept
        refine ⟨hinside.mp fun a ha => hall a (List.mem_append_left _ ha), Or.inr ⟨i, hi, hfoundAt, ?_, ?_⟩⟩
        · exact (eraseIdx_eq_erase_iff hi).mp ⟨hmem, hkept⟩
        · exact hmoves.mp fun a ha => hall a (List.mem_append_right _ ha)
      · obtain ⟨k, hk, hkfound, hrun, hroom⟩ := ha.2.resolve_left fun hall => (hall i hi).2 hslot
        obtain rfl := hunique k hkfound
        obtain ⟨hmem, herase⟩ := (eraseIdx_eq_erase_iff hi).mpr hrun
        refine ⟨?_, ?_, ?_⟩
        · simp [perform, flagged, heq, listPerform, hmem]
        · simp only [perform, flagged, heq, listPerform]
          exact hcontents.trans herase
        · simp only [perform, flagged, heq, hallocated]
          intro a hmemA
          rcases List.mem_append.mp hmemA with hread | hmove
          · exact hinside.mpr ha.1 a hread
          · exact hmoves.mpr hroom a hmove

/-- A call does what it should exactly if it is allowed, and leaves a block with the elements in it. -/
lemma Valid.step {op : Op} (h : Valid v) (hstep : Step v op v') :
    (Conforms v op ↔ Allowed v op) ∧ (Allowed v op → Valid v') := by
  obtain ⟨rfl, hmoved⟩ := hstep
  cases op with
  | pushBack value newData newMem => exact h.pushBack hmoved
  | remove index => exact h.remove.imp_right fun hvalid _ => hvalid
  | removeByValue value => exact h.removeByValue.imp_right fun hvalid _ => hvalid
  | set index value => exact h.set.imp_right fun hvalid _ => hvalid
  | get index => exact ⟨h.get, fun _ => h⟩

end Operations

section Runs
variable {v v' : VectorT} {ops : List Op} {data : BitVec 64} {mem : Memory}

lemma valid_vectorCreate (hdata : data ≠ 0) : Valid (vectorCreate data mem) :=
  ⟨hdata, Nat.zero_le _, Nat.succ_pos 3⟩

/-- Calls that conform make the contents follow the list. -/
lemma contents_of_run (h : Run (fun v op v' => Step v op v' ∧ Conforms v op) v ops v') :
    v'.contents = after listPerform v.contents ops := by
  induction h with
  | nil v => rfl
  | cons hstep _ ih =>
    rw [ih, after, ← hstep.2.contents, hstep.1.1]

/-- The calls on a vector do what the operations of a list do, inside the block of the vector, exactly
as long as all of them are allowed, and then the contents are the list. -/
theorem vector_refines_list (hdata : data ≠ 0) :
    (Run (fun v op v' => Step v op v' ∧ Conforms v op) (vectorCreate data mem) ops v ↔
      Run (fun v op v' => Step v op v' ∧ Allowed v op) (vectorCreate data mem) ops v) ∧
    (Run (fun v op v' => Step v op v' ∧ Allowed v op) (vectorCreate data mem) ops v →
      v.contents = after listPerform [] ops) := by
  have hiff : Run (fun v op v' => Step v op v' ∧ Conforms v op) (vectorCreate data mem) ops v ↔
      Run (fun v op v' => Step v op v' ∧ Allowed v op) (vectorCreate data mem) ops v :=
    Run.congr (P := fun v op _ => Conforms v op) (Q := fun v op _ => Allowed v op)
      (fun v op v' (h : Valid v) hstep hallowed => (h.step hstep).2 hallowed)
      (fun v op v' h hstep => (h.step hstep).1) (valid_vectorCreate hdata)
  exact ⟨hiff, fun h => contents_of_run (hiff.mpr h)⟩

/-- The vector `[1, 2]`. -/
def pushed : VectorT :=
  (perform (perform (vectorCreate 0x1000 fun _ => 0) (.pushBack 1 0 fun _ => 0)).2.1 (.pushBack 2 0 fun _ => 0)).2.1

lemma run_pushed : Run (fun v op v' => Step v op v' ∧ Allowed v op) (vectorCreate 0x1000 fun _ => 0)
    [.pushBack 1 0 fun _ => 0, .pushBack 2 0 fun _ => 0] pushed :=
  .cons ⟨⟨rfl, fun h => absurd h (by decide)⟩, fun h => absurd h (by decide)⟩
    (.single ⟨⟨rfl, fun h => absurd h (by decide)⟩, fun h => absurd h (by decide)⟩)

theorem vector_refines_list_pushed : Run (fun v op v' => Step v op v' ∧ Conforms v op) (vectorCreate 0x1000 fun _ => 0)
    [.pushBack 1 0 fun _ => 0, .pushBack 2 0 fun _ => 0] pushed ∧ pushed.contents = [1, 2] := by
  have hdata : (0x1000 : BitVec 64) ≠ 0 := by decide
  exact ⟨(vector_refines_list hdata).1.mpr run_pushed, (vector_refines_list hdata).2 run_pushed⟩

/-- The search for the second element reads behind the block. -/
theorem vector_search_outside : ∃ ops v, Run Step (vectorCreate 0x1000 fun _ => 0) ops v ∧ ¬Conforms v (.removeByValue 2) := by
  refine ⟨_, pushed, run_pushed.mono fun _ _ _ h => h.1, fun hc => ?_⟩
  have hvalid : Valid pushed := ⟨by decide, by decide, by decide⟩
  have hslot : pushed.slot 0 ≠ 2 := by decide
  have hread := (hvalid.removeByValue.1.mp hc).1 1 (by decide) fun j hj => by
    obtain rfl : j = 0 := by omega
    exact hslot
  exact absurd hread (by decide)

end Runs

end PiggyOs.PointerVector
