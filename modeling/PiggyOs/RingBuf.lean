import PiggyOs.ByteMemory
import PiggyOs.Simulation

/-! The ring buffer of the terminals. Cursors, sizes and the products of both are 64-bit numbers;
the cursors of an empty buffer are `-1`. -/
namespace PiggyOs.Ring
open ByteMemory Simulation

abbrev Elem := List (BitVec 8)

/-- `data` is the block from `kmalloc`, of `dataSize` bytes. The `(offset, bytes)` of all accesses
to it are kept in a list. -/
structure RingBuf where
  elemSize : BitVec 64
  size : BitVec 64
  capacity : BitVec 64
  readPtr : BitVec 64
  writePtr : BitVec 64
  data : Memory
  dataSize : BitVec 64
  accesses : List (ℕ × ℕ)

/-- When both allocations succeed; `stale` is what the block held before. -/
def ringbufCreate (stale : Memory) (size elemSize : BitVec 64) : RingBuf where
  elemSize := elemSize
  size := 0
  capacity := size
  readPtr := -1
  writePtr := -1
  data := stale
  dataSize := size * elemSize
  accesses := []

def RingBuf.offset (r : RingBuf) (ptr : BitVec 64) : ℕ := (ptr * r.elemSize).toNat

def RingBuf.readElem (r : RingBuf) : Elem := readBytes r.data (r.offset r.readPtr) r.elemSize.toNat

def RingBuf.access (r : RingBuf) (ptr : BitVec 64) : ℕ × ℕ := (r.offset ptr, r.elemSize.toNat)

def ringbufPush (r : RingBuf) (elem : Memory) : Bool × RingBuf :=
  if (r.readPtr = 0 ∧ r.writePtr = r.capacity - 1) ∨ r.readPtr = r.writePtr + 1 then (false, r)
  else
    let readPtr := if r.readPtr = -1 then 0 else r.readPtr
    let writePtr :=
      if r.readPtr = -1 then 0 else if r.writePtr = r.capacity - 1 then 0 else r.writePtr + 1
    (true, { r with
      readPtr := readPtr
      writePtr := writePtr
      data := blit r.data (r.offset writePtr) elem r.elemSize.toNat
      size := r.size + 1
      accesses := r.access writePtr :: r.accesses })

def ringbufPop (r : RingBuf) : Option Elem × RingBuf :=
  if r.readPtr = -1 then (none, r)
  else
    let last := r.readPtr = r.writePtr
    (some r.readElem, { r with
      size := r.size - 1
      readPtr := if last then -1 else if r.readPtr = r.capacity - 1 then 0 else r.readPtr + 1
      writePtr := if last then -1 else r.writePtr
      accesses := r.access r.readPtr :: r.accesses })

def ringbufPeek (r : RingBuf) : Option Elem × RingBuf :=
  if r.readPtr = -1 then (none, r)
  else (some r.readElem, { r with accesses := r.access r.readPtr :: r.accesses })

/-- The newest element; a buffer with one element is taken for an empty one. -/
def ringbufPopTail (r : RingBuf) : Option Elem × RingBuf :=
  if r.readPtr = r.writePtr then (none, r)
  else
    let writePtr := if r.writePtr = 0 then r.capacity - 1 else r.writePtr - 1
    (some (readBytes r.data (r.offset writePtr) r.elemSize.toNat), { r with
      writePtr := writePtr
      size := r.size - 1
      accesses := r.access writePtr :: r.accesses })

inductive Call
  | push (elem : Memory)
  | pop
  | peek

inductive Answer
  | done (ok : Bool)
  | element (e : Option Elem)
  deriving DecidableEq, Repr

def RingBuf.call (r : RingBuf) : Call → Answer × RingBuf
  | .push elem => (.done (ringbufPush r elem).1, (ringbufPush r elem).2)
  | .pop => (.element (ringbufPop r).1, (ringbufPop r).2)
  | .peek => (.element (ringbufPeek r).1, (ringbufPeek r).2)

/-- What the buffer is for: a queue of at most `capacity` elements of `elemSize` bytes. -/
def queueCall (capacity elemSize : ℕ) (q : List Elem) : Call → Answer × List Elem
  | .push elem =>
      if q.length = capacity then (.done false, q) else (.done true, q ++ [readBytes elem 0 elemSize])
  | .pop => (.element q.head?, q.tail)
  | .peek => (.element q.head?, q)

/-- The place of element `i` if the first one is at `head`. -/
def place (capacity head i : ℕ) : ℕ := if head + i < capacity then head + i else head + i - capacity

lemma place_lt {c head i : ℕ} (hh : head < c) (hi : i < c) : place c head i < c := by
  unfold place
  split_ifs <;> omega

lemma place_inj {c head i j : ℕ} (hi : i < c) (hj : j < c)
    (h : place c head i = place c head j) : i = j := by
  unfold place at h
  split_ifs at h <;> omega

/-- How the cursors show a queue of `n` elements. -/
inductive Cursors (c : ℕ) (readPtr writePtr : BitVec 64) : ℕ → Prop
  | empty : readPtr = -1 → writePtr = -1 → Cursors c readPtr writePtr 0
  | some {n : ℕ} : readPtr.toNat < c → n < c → writePtr.toNat = place c readPtr.toNat n →
      Cursors c readPtr writePtr (n + 1)

section Steps
variable {c e n : ℕ} {r : RingBuf} {q : List Elem} {p readPtr writePtr : BitVec 64}

/-- The buffer holds the queue `q`. -/
structure Holds (c e : ℕ) (r : RingBuf) (q : List Elem) : Prop where
  capacity : r.capacity.toNat = c
  elemSize : r.elemSize.toNat = e
  cursors : Cursors c r.readPtr r.writePtr q.length
  size : r.size = BitVec.ofNat 64 q.length
  block : r.dataSize.toNat = c * e
  elems : ∀ i (h : i < q.length), readBytes r.data (place c r.readPtr.toNat i * e) e = q[i]
  inside : ∀ x ∈ r.accesses, x.1 + x.2 ≤ c * e

lemma toNat_zero64 : (0 : BitVec 64).toNat = 0 := rfl

lemma ne_neg_one (hc : c < 2 ^ 64) (h : p.toNat < c) : p ≠ -1 := by
  rintro rfl
  have : (-1 : BitVec 64).toNat = 2 ^ 64 - 1 := rfl
  omega

lemma eq_last_iff {capacity : BitVec 64} (hpos : 0 < capacity.toNat) :
    p = capacity - 1 ↔ p.toNat + 1 = capacity.toNat := by
  have hp := p.isLt
  have hc := capacity.isLt
  have hlast : (capacity - 1).toNat = capacity.toNat - 1 := by
    rw [BitVec.toNat_sub]
    have : (1 : BitVec 64).toNat = 1 := rfl
    omega
  rw [← BitVec.toNat_inj, hlast]
  omega

lemma toNat_succ (hc : c < 2 ^ 64) (h : p.toNat < c) : (p + 1).toNat = p.toNat + 1 := by
  rw [BitVec.toNat_add]
  have : (1 : BitVec 64).toNat = 1 := rfl
  omega

lemma Cursors.le (h : Cursors c readPtr writePtr n) : n ≤ c := by
  cases h with
  | empty => exact Nat.zero_le c
  | some _ hn _ => exact hn

lemma Cursors.empty_iff (hc : c < 2 ^ 64) (h : Cursors c readPtr writePtr n) : readPtr = -1 ↔ n = 0 := by
  cases h with
  | empty hr _ => exact iff_of_true hr rfl
  | some hr _ _ => exact iff_of_false (ne_neg_one hc hr) (Nat.succ_ne_zero _)

/-- Both conditions of `ringbuf_push` together say that the buffer is full. -/
lemma Cursors.full_iff {capacity : BitVec 64} (hpos : 0 < capacity.toNat)
    (h : Cursors capacity.toNat readPtr writePtr n) :
    ((readPtr = 0 ∧ writePtr = capacity - 1) ∨ readPtr = writePtr + 1) ↔ n = capacity.toNat := by
  cases h with
  | empty hr hw =>
    subst hr hw
    have h1 : ¬ (-1 : BitVec 64) = 0 := by decide
    have h2 : ¬ (-1 : BitVec 64) = -1 + 1 := by decide
    simp only [h1, false_and, h2, or_false, false_iff]
    omega
  | @some n hr hn hw =>
    have hwlt := place_lt hr hn
    rw [← hw] at hwlt
    rw [eq_last_iff hpos, ← BitVec.toNat_inj, ← BitVec.toNat_inj, toNat_succ capacity.isLt hwlt, hw,
      toNat_zero64, place]
    split_ifs <;> omega

/-- One more element at the end. -/
lemma Cursors.push {capacity : BitVec 64} (hpos : 0 < capacity.toNat)
    (h : Cursors capacity.toNat readPtr writePtr n) (hn : n ≠ capacity.toNat) :
    Cursors capacity.toNat (if readPtr = -1 then 0 else readPtr)
      (if readPtr = -1 then 0 else if writePtr = capacity - 1 then 0 else writePtr + 1) (n + 1) ∧
    ∀ i < n, (if readPtr = -1 then 0 else readPtr).toNat = readPtr.toNat := by
  have hc := capacity.isLt
  cases h with
  | empty hr hw =>
    rw [if_pos hr, if_pos hr]
    refine ⟨.some hpos hpos ?_, fun i hi => absurd hi (Nat.not_lt_zero i)⟩
    simp [place]
  | @some n hr hlt hw =>
    have hne := ne_neg_one hc hr
    rw [if_neg hne, if_neg hne]
    refine ⟨.some hr (by omega) ?_, fun _ _ => rfl⟩
    have hwlt := place_lt hr hlt
    rw [← hw] at hwlt
    have hlast := eq_last_iff (p := writePtr) hpos
    by_cases h : writePtr = capacity - 1
    · have hend := hlast.mp h
      rw [if_pos h, toNat_zero64]
      rw [hw] at hend
      unfold place at hend ⊢
      split_ifs at hend ⊢ <;> omega
    · have hend : ¬ writePtr.toNat + 1 = capacity.toNat := fun h' => h (hlast.mpr h')
      rw [if_neg h, toNat_succ hc hwlt, hw]
      rw [hw] at hend
      unfold place at hend ⊢
      split_ifs at hend ⊢ <;> omega

/-- The oldest element goes. -/
lemma Cursors.pop {capacity : BitVec 64} (hpos : 0 < capacity.toNat)
    (h : Cursors capacity.toNat readPtr writePtr (n + 1)) :
    Cursors capacity.toNat
      (if readPtr = writePtr then -1 else if readPtr = capacity - 1 then 0 else readPtr + 1)
      (if readPtr = writePtr then -1 else writePtr) n ∧
    ∀ i < n, place capacity.toNat
      (if readPtr = writePtr then -1 else if readPtr = capacity - 1 then 0 else readPtr + 1 : BitVec 64).toNat i =
      place capacity.toNat readPtr.toNat (i + 1) := by
  have hc := capacity.isLt
  cases h with
  | some hr hlt hw =>
    have hsame : readPtr = writePtr ↔ n = 0 := by
      rw [← BitVec.toNat_inj, hw, place]
      split_ifs <;> omega
    by_cases h : readPtr = writePtr
    · obtain rfl := hsame.mp h
      rw [if_pos h, if_pos h]
      exact ⟨.empty rfl rfl, fun i hi => absurd hi (Nat.not_lt_zero i)⟩
    · rw [if_neg h, if_neg h]
      obtain ⟨n, rfl⟩ := Nat.exists_eq_succ_of_ne_zero fun h0 => h (hsame.mpr h0)
      have hlast := eq_last_iff (p := readPtr) hpos
      by_cases hl : readPtr = capacity - 1
      · have hend := hlast.mp hl
        rw [if_pos hl]
        refine ⟨.some (by rwa [toNat_zero64]) (by omega) ?_, fun i hi => ?_⟩
        · rw [hw, toNat_zero64]
          unfold place
          split_ifs <;> omega
        · rw [toNat_zero64]
          unfold place
          split_ifs <;> omega
      · have hend : ¬ readPtr.toNat + 1 = capacity.toNat := fun h' => hl (hlast.mpr h')
        have hsucc := toNat_succ hc hr
        rw [if_neg hl]
        refine ⟨.some (by omega) (by omega) ?_, fun i hi => ?_⟩
        · rw [hw, hsucc]
          unfold place
          split_ifs <;> omega
        · rw [hsucc]
          unfold place
          split_ifs <;> omega

/-- The cursors meet when there is one element or none. -/
lemma Cursors.eq_iff {capacity : BitVec 64} (h : Cursors capacity.toNat readPtr writePtr n) :
    readPtr = writePtr ↔ n ≤ 1 := by
  cases h with
  | empty hr hw => exact iff_of_true (hr.trans hw.symm) (Nat.zero_le 1)
  | some hr hlt hw =>
    rw [← BitVec.toNat_inj, hw, place]
    split_ifs <;> omega

/-- The newest element goes. -/
lemma Cursors.popTail {capacity : BitVec 64} (hpos : 0 < capacity.toNat)
    (h : Cursors capacity.toNat readPtr writePtr (n + 2)) :
    Cursors capacity.toNat readPtr (if writePtr = 0 then capacity - 1 else writePtr - 1) (n + 1) := by
  have hcap := capacity.isLt
  cases h with
  | some hr hlt hw =>
    refine .some hr (by omega) ?_
    have hone : (1 : BitVec 64).toNat = 1 := rfl
    by_cases hzero : writePtr = 0
    · rw [if_pos hzero, BitVec.toNat_sub, hone]
      rw [hzero, toNat_zero64] at hw
      unfold place at hw ⊢
      split_ifs at hw ⊢ <;> omega
    · have hne : writePtr.toNat ≠ 0 := fun h0 => hzero (BitVec.eq_of_toNat_eq h0)
      have hw64 := writePtr.isLt
      rw [if_neg hzero, BitVec.toNat_sub, hone]
      unfold place at hw ⊢
      split_ifs at hw ⊢ <;> omega

/-- Elements at different places do not overlap. -/
lemma slots_apart {a b k : ℕ} (hab : a ≠ b) (hk : k < e) : a * e + k < b * e ∨ b * e + e ≤ a * e + k := by
  rcases Nat.lt_or_gt_of_ne hab with h | h
  · have := Nat.mul_le_mul_right e (Nat.succ_le_of_lt h)
    rw [Nat.succ_mul] at this
    exact Or.inl (by omega)
  · have := Nat.mul_le_mul_right e (Nat.succ_le_of_lt h)
    rw [Nat.succ_mul] at this
    exact Or.inr (by omega)

lemma Holds.offset (hfit : c * e < 2 ^ 64) (h : Holds c e r q) (hp : p.toNat < c) :
    r.offset p = p.toNat * e ∧ p.toNat * e + e ≤ c * e := by
  have hle := Nat.mul_le_mul_right e (Nat.succ_le_of_lt hp)
  rw [Nat.succ_mul] at hle
  rw [RingBuf.offset, BitVec.toNat_mul, h.elemSize]
  refine ⟨Nat.mod_eq_of_lt ?_, hle⟩
  omega

/-- The slot that an access goes to. -/
lemma Holds.access (hfit : c * e < 2 ^ 64) (h : Holds c e r q) (hp : p.toNat < c) :
    ∀ x ∈ r.access p :: r.accesses, x.1 + x.2 ≤ c * e := by
  obtain ⟨hoff, hle⟩ := h.offset hfit hp
  refine List.forall_mem_cons.mpr ⟨?_, h.inside⟩
  rw [RingBuf.access, hoff, h.elemSize]
  exact hle

/-- The element at the read cursor is the oldest one. -/
lemma Holds.readElem {x : Elem} (hfit : c * e < 2 ^ 64) (h : Holds c e r (x :: q)) (hr : r.readPtr.toNat < c) :
    r.readElem = x := by
  have hfirst := h.elems 0 (Nat.succ_pos _)
  rw [place, Nat.add_zero, if_pos hr] at hfirst
  rw [RingBuf.readElem, (h.offset hfit hr).1, h.elemSize]
  exact hfirst

/-- What `ringbuf_push` does to a queue. -/
lemma Holds.push (hpos : 0 < c) (hfit : c * e < 2 ^ 64) (h : Holds c e r q) (elem : Memory) :
    ((ringbufPush r elem).1 = false ∧ q.length = c ∧ (ringbufPush r elem).2 = r) ∨
    ((ringbufPush r elem).1 = true ∧ q.length ≠ c ∧
      Holds c e (ringbufPush r elem).2 (q ++ [readBytes elem 0 e])) := by
  obtain rfl := h.capacity
  have hfull := h.cursors.full_iff hpos
  unfold ringbufPush
  by_cases hq : q.length = r.capacity.toNat
  · rw [if_pos (hfull.mpr hq)]
    exact Or.inl ⟨rfl, hq, rfl⟩
  rw [if_neg (hq ∘ hfull.mp)]
  obtain ⟨hcur, hread⟩ := h.cursors.push hpos hq
  refine Or.inr ⟨rfl, hq, ?_⟩
  obtain ⟨readPtr, hr⟩ : ∃ x, x = if r.readPtr = -1 then 0 else r.readPtr := ⟨_, rfl⟩
  obtain ⟨writePtr, hw⟩ : ∃ x, x = if r.readPtr = -1 then 0
    else if r.writePtr = r.capacity - 1 then 0 else r.writePtr + 1 := ⟨_, rfl⟩
  simp only [← hr, ← hw] at hcur hread ⊢
  obtain ⟨hrlt, hlt, hwp⟩ : readPtr.toNat < r.capacity.toNat ∧ q.length < r.capacity.toNat ∧
      writePtr.toNat = place r.capacity.toNat readPtr.toNat q.length := by
    cases hcur with
    | some h1 h2 h3 => exact ⟨h1, h2, h3⟩
  have hwlt : writePtr.toNat < r.capacity.toNat := hwp ▸ place_lt hrlt hlt
  obtain ⟨hoff, hle⟩ := h.offset hfit hwlt
  refine ⟨rfl, h.elemSize, by simpa using hcur, ?_, h.block, ?_, h.access hfit hwlt⟩
  · rw [h.size, List.length_append, List.length_singleton, BitVec.ofNat_add]
    rfl
  · intro i hi
    rw [List.length_append, List.length_singleton] at hi
    dsimp only
    rw [hoff, h.elemSize, hwp]
    by_cases hold : i < q.length
    · have hne : place r.capacity.toNat readPtr.toNat i ≠ place r.capacity.toNat readPtr.toNat q.length :=
        fun heq => absurd (place_inj (by omega) hlt heq) (by omega)
      rw [List.getElem_append_left hold, ← h.elems i hold, hread i hold]
      rw [hread i hold] at hne
      exact readBytes_congr fun k hk => blit_outside _ _ (slots_apart hne hk)
    · obtain rfl : i = q.length := by omega
      rw [List.getElem_append_right le_rfl]
      simp only [Nat.sub_self, List.getElem_singleton]
      refine readBytes_congr fun k hk => ?_
      rw [blit_inside _ _ hk, Nat.zero_add]

/-- What `ringbuf_pop` does to a queue. -/
lemma Holds.pop (hpos : 0 < c) (hfit : c * e < 2 ^ 64) (h : Holds c e r q) :
    (ringbufPop r).1 = q.head? ∧ Holds c e (ringbufPop r).2 q.tail := by
  obtain rfl := h.capacity
  have hempty := h.cursors.empty_iff r.capacity.isLt
  unfold ringbufPop
  cases q with
  | nil =>
    rw [if_pos (hempty.mpr rfl)]
    exact ⟨rfl, h⟩
  | cons x q =>
    rw [if_neg (by rw [hempty]; exact Nat.succ_ne_zero _)]
    have hrlt : r.readPtr.toNat < r.capacity.toNat := by
      cases h.cursors with
      | some hr _ _ => exact hr
    obtain ⟨hcur, hplace⟩ := h.cursors.pop hpos
    refine ⟨congrArg some (h.readElem hfit hrlt), rfl, h.elemSize, hcur, ?_, h.block, ?_, h.access hfit hrlt⟩
    · dsimp only
      rw [h.size, List.length_cons, BitVec.ofNat_add]
      exact BitVec.add_sub_cancel _ _
    · intro i hi
      dsimp only
      rw [hplace i hi]
      exact h.elems (i + 1) (Nat.succ_lt_succ hi)

/-- What `ringbuf_pop_tail` does to a queue. -/
lemma Holds.popTail (hpos : 0 < c) (hfit : c * e < 2 ^ 64) (h : Holds c e r q) :
    Holds c e (ringbufPopTail r).2 (if q.length ≤ 1 then q else q.dropLast) := by
  obtain rfl := h.capacity
  have hmeet := h.cursors.eq_iff
  unfold ringbufPopTail
  by_cases hq : q.length ≤ 1
  · rw [if_pos (hmeet.mpr hq), if_pos hq]
    exact h
  rw [if_neg (hq ∘ hmeet.mp), if_neg hq]
  obtain ⟨n, hn⟩ : ∃ n, q.length = n + 2 := ⟨q.length - 2, by omega⟩
  have hcur : Cursors r.capacity.toNat r.readPtr
      (if r.writePtr = 0 then r.capacity - 1 else r.writePtr - 1) (n + 1) := (hn ▸ h.cursors).popTail hpos
  have hlen : q.dropLast.length = n + 1 := by
    rw [List.length_dropLast, hn]
    rfl
  obtain ⟨hrlt, hlt, hwp⟩ : r.readPtr.toNat < r.capacity.toNat ∧ n < r.capacity.toNat ∧
      (if r.writePtr = 0 then r.capacity - 1 else r.writePtr - 1).toNat =
        place r.capacity.toNat r.readPtr.toNat n := by
    cases hcur with
    | some h1 h2 h3 => exact ⟨h1, h2, h3⟩
  refine ⟨rfl, h.elemSize, hlen ▸ hcur, ?_, h.block, fun i hi => ?_, h.access hfit (hwp ▸ place_lt hrlt hlt)⟩
  · dsimp only
    rw [h.size, hlen, hn, BitVec.ofNat_add, BitVec.ofNat_add]
    grind
  · rw [List.getElem_dropLast]
    exact h.elems i _

lemma Holds.peek (hfit : c * e < 2 ^ 64) (h : Holds c e r q) :
    (ringbufPeek r).1 = q.head? ∧ Holds c e (ringbufPeek r).2 q := by
  obtain rfl := h.capacity
  have hempty := h.cursors.empty_iff r.capacity.isLt
  unfold ringbufPeek
  cases q with
  | nil =>
    rw [if_pos (hempty.mpr rfl)]
    exact ⟨rfl, h⟩
  | cons x q =>
    rw [if_neg (by rw [hempty]; exact Nat.succ_ne_zero _)]
    have hrlt : r.readPtr.toNat < r.capacity.toNat := by
      cases h.cursors with
      | some hr _ _ => exact hr
    exact ⟨congrArg some (h.readElem hfit hrlt), rfl, h.elemSize, h.cursors, h.size, h.block,
      h.elems, h.access hfit hrlt⟩

/-- A call on the buffer is a call on the queue. -/
lemma Holds.call (hpos : 0 < c) (hfit : c * e < 2 ^ 64) (h : Holds c e r q) (call : Call) :
    (r.call call).1 = (queueCall c e q call).1 ∧ Holds c e (r.call call).2 (queueCall c e q call).2 := by
  cases call with
  | push elem =>
    rcases h.push hpos hfit elem with ⟨hans, hq, hr⟩ | ⟨hans, hq, hr⟩
    · rw [RingBuf.call, queueCall, if_pos hq, hans, hr]
      exact ⟨rfl, h⟩
    · rw [RingBuf.call, queueCall, if_neg hq, hans]
      exact ⟨rfl, hr⟩
  | pop =>
    obtain ⟨hans, hr⟩ := h.pop hpos hfit
    exact ⟨congrArg Answer.element hans, hr⟩
  | peek =>
    obtain ⟨hans, hr⟩ := h.peek hfit
    exact ⟨congrArg Answer.element hans, hr⟩

lemma holds_create (stale : Memory) {capacity elemSize : BitVec 64} (hfit : capacity.toNat * elemSize.toNat < 2 ^ 64) :
    Holds capacity.toNat elemSize.toNat (ringbufCreate stale capacity elemSize) [] := by
  refine ⟨rfl, rfl, .empty rfl rfl, rfl, ?_, fun i hi => absurd hi (Nat.not_lt_zero i), by simp [ringbufCreate]⟩
  rw [ringbufCreate, BitVec.toNat_mul, Nat.mod_eq_of_lt hfit]

end Steps

end PiggyOs.Ring
