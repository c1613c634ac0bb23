import PiggyOs.RingBuf

/-! The ring buffer as a double-ended queue. `ringbuf_pop_tail` moves the write cursor before it reads, and takes a
buffer with one element for an empty one. -/
namespace PiggyOs.RingTail
open ByteMemory Simulation PiggyOs.Ring

inductive TailCall
  | push (elem : Memory)
  | pop
  | popTail

def tailCall (r : RingBuf) : TailCall → Answer × RingBuf
  | .push elem => (.done (ringbufPush r elem).1, (ringbufPush r elem).2)
  | .pop => (.element (ringbufPop r).1, (ringbufPop r).2)
  | .popTail => (.element (ringbufPopTail r).1, (ringbufPopTail r).2)

/-- What the buffer should be: a queue that also gives its newest element back. -/
def dequeCall (capacity elemSize : ℕ) (q : List Elem) : TailCall → Answer × List Elem
  | .push elem =>
      if q.length = capacity then (.done false, q) else (.done true, q ++ [readBytes elem 0 elemSize])
  | .pop => (.element q.head?, q.tail)
  | .popTail => (.element q.getLast?, q.dropLast)

/-- The newest element has an equal one before it, or there is no element at all. -/
def EndsTwice (q : List Elem) : Prop := q = [] ∨ 2 ≤ q.length ∧ q.dropLast.getLast? = q.getLast?

/-- Every `ringbuf_pop_tail` of the run comes at such a queue. -/
def TailsEndTwice (capacity elemSize : ℕ) : List Elem → List TailCall → Prop
  | _, [] => True
  | q, i :: is =>
      (i = .popTail → EndsTwice q) ∧ TailsEndTwice capacity elemSize (dequeCall capacity elemSize q i).2 is

section Steps
variable {c e : ℕ} {r : RingBuf} {q : List Elem}

/-- The element before the newest one is returned. -/
lemma popTail_answer (hpos : 0 < c) (hfit : c * e < 2 ^ 64) (h : Holds c e r q) :
    (ringbufPopTail r).1 = if q.length ≤ 1 then none else q.dropLast.getLast? := by
  have hafter := h.popTail hpos hfit
  obtain rfl := h.capacity
  have hmeet := h.cursors.eq_iff
  unfold ringbufPopTail at hafter ⊢
  by_cases hq : q.length ≤ 1
  · rw [if_pos (hmeet.mpr hq), if_pos hq]
  rw [if_neg (hq ∘ hmeet.mp), if_neg hq] at hafter
  rw [if_neg (hq ∘ hmeet.mp), if_neg hq]
  obtain ⟨n, hn⟩ : ∃ n, q.dropLast.length = n + 1 := ⟨q.length - 2, by simp; omega⟩
  have hcur := hafter.cursors
  rw [hn] at hcur
  obtain ⟨hrlt, hlt, hwp⟩ : r.readPtr.toNat < r.capacity.toNat ∧ n < r.capacity.toNat ∧
      (if r.writePtr = 0 then r.capacity - 1 else r.writePtr - 1).toNat =
        place r.capacity.toNat r.readPtr.toNat n := by
    cases hcur with
    | some h1 h2 h3 => exact ⟨h1, h2, h3⟩
  have hnewest := hafter.elems n (by omega)
  have hoff := (h.offset hfit (hwp ▸ place_lt hrlt hlt)).1
  dsimp only
  rw [hoff, h.elemSize, hwp, List.getLast?_eq_getElem?, hn, Nat.add_sub_cancel,
    List.getElem?_eq_getElem (by omega)]
  exact congrArg some hnewest

/-- `ringbuf_pop_tail` answers right exactly at such a queue. -/
lemma popTail_right_iff (hpos : 0 < c) (hfit : c * e < 2 ^ 64) (h : Holds c e r q) :
    (ringbufPopTail r).1 = q.getLast? ↔ EndsTwice q := by
  rw [popTail_answer hpos hfit h, EndsTwice]
  rcases q with _ | ⟨x, _ | ⟨y, q⟩⟩ <;> simp

/-- A call that is no such `ringbuf_pop_tail` is a call on the double-ended queue. -/
lemma tailCall_deque (hpos : 0 < c) (hfit : c * e < 2 ^ 64) (h : Holds c e r q) {i : TailCall}
    (hi : i = .popTail → EndsTwice q) :
    (tailCall r i).1 = (dequeCall c e q i).1 ∧ Holds c e (tailCall r i).2 (dequeCall c e q i).2 := by
  cases i with
  | push elem => exact h.call hpos hfit (.push elem)
  | pop => exact h.call hpos hfit .pop
  | popTail =>
    refine ⟨congrArg Answer.element ((popTail_right_iff hpos hfit h).mpr (hi rfl)), ?_⟩
    have hafter := h.popTail hpos hfit
    rcases hi rfl with rfl | ⟨hlen, -⟩
    · exact hafter
    · rw [if_neg (by omega)] at hafter
      exact hafter

/-- A run agrees with the double-ended queue as long as its calls do. -/
lemma outputs_deque_iff (hpos : 0 < c) (hfit : c * e < 2 ^ 64) (h : Holds c e r q) (calls : List TailCall) :
    (outputs tailCall r calls = outputs (dequeCall c e) q calls ↔ TailsEndTwice c e q calls) ∧
    (TailsEndTwice c e q calls → Holds c e (after tailCall r calls) (after (dequeCall c e) q calls)) := by
  induction calls generalizing r q with
  | nil => exact ⟨iff_of_true rfl trivial, fun _ => h⟩
  | cons i is ih =>
    by_cases hi : i = .popTail → EndsTwice q
    · obtain ⟨hans, hafter⟩ := tailCall_deque hpos hfit h hi
      obtain ⟨hiff, hend⟩ := ih hafter
      refine ⟨?_, fun hrun => hend hrun.2⟩
      rw [outputs, outputs, List.cons.injEq, TailsEndTwice, hiff]
      exact and_congr_left fun _ => iff_of_true hans hi
    · obtain ⟨rfl, hnot⟩ : i = .popTail ∧ ¬ EndsTwice q := by simpa using hi
      refine ⟨iff_of_false (fun heq => hnot ?_) fun hrun => hi hrun.1, fun hrun => absurd hrun.1 hi⟩
      rw [outputs, outputs, List.cons.injEq] at heq
      exact (popTail_right_iff hpos hfit h).mp (Answer.element.inj heq.1)

end Steps

end PiggyOs.RingTail
