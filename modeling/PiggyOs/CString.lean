import Mathlib.Data.List.TakeWhile
import Mathlib.Tactic

/-! Strings that end at the first zero byte, and the functions of `string.c` on them. -/
namespace PiggyOs

/-- The bytes before the terminator. -/
abbrev CString := {s : List (BitVec 8) // 0 ∉ s}

instance instLawfulBEqByte : LawfulBEq (BitVec 8) := inferInstance

lemma zero_notMem_nil : (0 : BitVec 8) ∉ ([] : List (BitVec 8)) := by decide

lemma zero_notMem_a : (0 : BitVec 8) ∉ [0x61] := by decide

namespace CString

def strlen (s : CString) : ℕ := s.1.length

/-- The string that starts at these bytes. -/
def ofBytes (bytes : List (BitVec 8)) : CString :=
  ⟨bytes.takeWhile (· ≠ 0), fun h => by simpa using List.mem_takeWhile_imp h⟩

lemma ofBytes_val {bytes : List (BitVec 8)} (h : 0 ∉ bytes) : (ofBytes bytes).1 = bytes :=
  List.takeWhile_eq_self_iff.mpr fun b hb => by simpa using ne_of_mem_of_not_mem hb h

/-- Bytes are compared as signed characters. The end of a list is the terminator. -/
def compareBytes : List (BitVec 8) → List (BitVec 8) → ℕ → ℤ
  | _, _, 0 => 0
  | a, b, n + 1 =>
      if a.headD 0 ≠ b.headD 0 then (a.headD 0).toInt - (b.headD 0).toInt
      else if a.headD 0 = 0 then 0
      else compareBytes a.tail b.tail n

def strncmp (a b : CString) (n : ℕ) : ℤ := compareBytes a.1 b.1 n

def strcspn (s chars : CString) : ℕ := (s.1.takeWhile (· ∉ chars.1)).length

lemma compareBytes_eq_zero_iff {a b : List (BitVec 8)} (hb : 0 ∉ b) :
    compareBytes a b b.length = 0 ↔ b <+: a := by
  induction b generalizing a with
  | nil => simp [compareBytes]
  | cons y b ih =>
    have hy : y ≠ 0 := fun h => hb (h ▸ List.mem_cons_self)
    have ihb := ih (a := a.tail) fun h => hb (List.mem_cons_of_mem _ h)
    rw [List.length_cons, compareBytes, List.headD_cons, List.tail_cons]
    by_cases hhead : a.headD 0 = y
    · rw [if_neg (not_not.mpr hhead), if_neg (hhead ▸ hy), ihb]
      cases a with
      | nil => exact absurd hhead.symm hy
      | cons x a =>
        obtain rfl : x = y := hhead
        rw [List.tail_cons, List.cons_prefix_cons]
        simp
    · rw [if_pos hhead]
      refine iff_of_false ?_ ?_
      · intro h
        exact hhead (BitVec.eq_of_toInt_eq (by omega))
      · rintro ⟨t, rfl⟩
        exact hhead rfl

/-- Compared up to the length of the second string, only that one has to match. -/
lemma strncmp_strlen_iff (a b : CString) : strncmp a b b.strlen = 0 ↔ b.1 <+: a.1 :=
  compareBytes_eq_zero_iff b.2

/-- Neither string has a zero in it, so the end of one of them is a difference. -/
lemma compareBytes_eq_zero {a b : List (BitVec 8)} (ha : 0 ∉ a) (hb : 0 ∉ b) (n : ℕ) :
    compareBytes a b n = 0 ↔ a.take n = b.take n := by
  induction n generalizing a b with
  | zero => simp [compareBytes]
  | succ n ih =>
    cases a with
    | nil =>
      cases b with
      | nil => simp [compareBytes]
      | cons y b =>
        have hy : ¬ (0 : BitVec 8) = y := fun h => hb (h ▸ List.mem_cons_self)
        rw [compareBytes, List.headD_nil, List.headD_cons, if_pos hy]
        refine iff_of_false (fun h => hy (BitVec.eq_of_toInt_eq (by omega))) (by simp)
    | cons x a =>
      have hx : ¬ x = 0 := fun h => ha (h ▸ List.mem_cons_self)
      have ih' := fun b hb => ih (a := a) (b := b) (fun h => ha (List.mem_cons_of_mem _ h)) hb
      cases b with
      | nil =>
        rw [compareBytes, List.headD_nil, List.headD_cons, if_pos hx]
        refine iff_of_false (fun h => hx (BitVec.eq_of_toInt_eq (by omega))) (by simp)
      | cons y b =>
        rw [compareBytes, List.headD_cons, List.headD_cons, List.tail_cons, List.tail_cons, List.take_succ_cons,
          List.take_succ_cons, List.cons.injEq]
        by_cases hxy : x = y
        · rw [if_neg (not_not.mpr hxy), if_neg hx, ih' b fun h => hb (List.mem_cons_of_mem _ h)]
          exact (and_iff_right hxy).symm
        · rw [if_pos hxy]
          exact iff_of_false (fun h => hxy (BitVec.eq_of_toInt_eq (by omega))) fun h => hxy h.1

end CString
end PiggyOs
