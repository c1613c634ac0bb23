import PiggyOs.PrintfDigits

/-! `strtol` and `strtoul`. They are made by one macro, from the value for a wrong base and the type of the result. -/
namespace PiggyOs.Strtox
open ByteMemory
open PiggyOs.Printf (Byte Text ch)

def isspace (c : Byte) : Bool := c ∈ [0x0c, 0x0a, 0x0d, 0x09, 0x0b, 0x20]

def isValid (base : ℤ) (c : Byte) : Bool :=
  if c.toInt < '0'.toNat then false
  else if base ≤ 10 then c.toInt < '0'.toNat + base
  else if c.toInt ≥ 'a'.toNat ∧ c.toInt < 'a'.toNat + (base - 10) then true
  else if c.toInt ≥ 'A'.toNat ∧ c.toInt < 'A'.toNat + (base - 10) then true
  else c.toInt ≥ '0'.toNat ∧ c.toInt ≤ '9'.toNat

def convertDigit (c : Byte) : ℤ :=
  if c.toInt ≥ '0'.toNat ∧ c.toInt ≤ '9'.toNat then c.toInt - '0'.toNat
  else if c.toInt ≥ 'a'.toNat ∧ c.toInt ≤ 'z'.toNat then c.toInt - 'a'.toNat + 10
  else if c.toInt ≥ 'A'.toNat ∧ c.toInt ≤ 'Z'.toNat then c.toInt - 'A'.toNat + 10
  else 0

inductive Errno
  | einval
  | erange
deriving DecidableEq

/-- What is returned, what is stored through `endptr`, and what `errno` is set to. -/
structure Result where
  value : BitVec 64
  endptr : Option ℕ
  errno : Option Errno
deriving DecidableEq

def skipSpaces (m : Memory) : ℕ → ℕ → Option ℕ
  | 0, _ => none
  | fuel + 1, nptr => if m nptr ≠ 0 ∧ isspace (m nptr) then skipSpaces m fuel (nptr + 1) else some nptr

/-- The loop over the digits. -/
def accumulate (base : ℤ) (m : Memory) : ℕ → ℕ → BitVec 64 → Option (ℕ × BitVec 64)
  | 0, _, _ => none
  | fuel + 1, nptr, val =>
      if isValid base (m nptr) then
        accumulate base m fuel (nptr + 1) (val * BitVec.ofInt 64 base + BitVec.ofInt 64 (convertDigit (m nptr)))
      else some (nptr, val)

def skipSign (m : Memory) (nptr : ℕ) : ℕ := if m nptr = ch '-' ∨ m nptr = ch '+' then nptr + 1 else nptr

def skipHex (m : Memory) (base : ℤ) (nptr : ℕ) : ℕ :=
  if base = 16 then if m nptr = ch '0' then if m (nptr + 1) = ch 'x' then nptr + 2 else nptr + 1 else nptr else nptr

/-- The base if it is to be found out. -/
def findBase (m : Memory) (base : ℤ) (nptr : ℕ) : ℤ × ℕ :=
  if base = 0 then
    if m nptr = ch '0' then if m (nptr + 1) = ch 'x' then (16, nptr + 2) else (8, nptr + 1) else (10, nptr)
  else (base, nptr)

def strtox (max : BitVec 64) (m : Memory) (fuel nptr : ℕ) (base : ℤ) : Option Result :=
  if base < 0 ∨ base = 1 ∨ base > 36 then some ⟨max, none, some .einval⟩
  else (skipSpaces m fuel nptr).bind fun nptr =>
    let r := findBase m base (skipHex m base (skipSign m nptr))
    (accumulate r.1 m fuel r.2 0).map fun q => ⟨if m nptr = ch '-' then -q.2 else q.2, some q.1, none⟩

def strtol : Memory → ℕ → ℕ → ℤ → Option Result := strtox 0x7fffffffffffffff

def strtoul : Memory → ℕ → ℕ → ℤ → Option Result := strtox 0xffffffffffffffff

section Text
variable {m : Memory} {p fuel : ℕ} {l : List Byte}

lemma text_drop_takeWhile (h : Text m p l) (P : Byte → Bool) :
    Text m (p + (l.takeWhile P).length) (l.dropWhile P) := by
  refine Text.drop ?_
  rwa [List.takeWhile_append_dropWhile]

lemma skipSpaces_text (h : Text m p l) (hl : 0 ∉ l) (hfuel : l.length < fuel) :
    skipSpaces m fuel p = some (p + (l.takeWhile isspace).length) := by
  induction fuel generalizing p l with
  | zero => omega
  | succ fuel ih =>
    cases l with
    | nil =>
      rw [skipSpaces, if_neg fun hc => hc.1 h.eq_headD]
      rfl
    | cons c l =>
      rw [List.mem_cons, not_or] at hl
      rw [skipSpaces, h.head]
      by_cases hspace : isspace c = true
      · rw [if_pos ⟨Ne.symm hl.1, hspace⟩, ih h.tail hl.2 (Nat.lt_of_succ_lt_succ hfuel),
          List.takeWhile_cons_of_pos hspace, List.length_cons, add_assoc, add_comm 1]
      · rw [if_neg fun hc => hspace hc.2, List.takeWhile_cons_of_neg hspace]
        rfl

/-- One digit more. -/
def push (base : ℤ) (val : BitVec 64) (c : Byte) : BitVec 64 :=
  val * BitVec.ofInt 64 base + BitVec.ofInt 64 (convertDigit c)

lemma isValid_zero (base : ℤ) : isValid base 0 = false := rfl

lemma accumulate_text (base : ℤ) (h : Text m p l) (val : BitVec 64) (hfuel : l.length < fuel) :
    accumulate base m fuel p val =
      some (p + (l.takeWhile (isValid base)).length, (l.takeWhile (isValid base)).foldl (push base) val) := by
  induction fuel generalizing p l val with
  | zero => omega
  | succ fuel ih =>
    cases l with
    | nil =>
      rw [accumulate, h.eq_headD, List.headD_nil, isValid_zero, if_neg Bool.false_ne_true]
      rfl
    | cons c l =>
      rw [accumulate, h.head]
      by_cases hvalid : isValid base c = true
      · rw [if_pos hvalid, ih h.tail _ (Nat.lt_of_succ_lt_succ hfuel), List.takeWhile_cons_of_pos hvalid,
          List.length_cons, add_assoc, add_comm 1]
        rfl
      · rw [if_neg hvalid, List.takeWhile_cons_of_neg hvalid]
        rfl

/-- The base of the digits, and how many characters before them are skipped. -/
def skipped (base : ℤ) (u : List Byte) : ℤ × ℕ :=
  if (base = 0 ∨ base = 16) ∧ u.headD 0 = ch '0' then
    if u.tail.headD 0 = ch 'x' then (16, 2) else (if base = 0 then 8 else 16, 1)
  else (if base = 0 then 10 else base, 0)

lemma findBase_text (base : ℤ) (h : Text m p l) :
    findBase m base (skipHex m base p) = ((skipped base l).1, p + (skipped base l).2) := by
  have hhead : m p = l.headD 0 := h.eq_headD
  by_cases hzero : l.headD 0 = ch '0'
  · obtain ⟨c, l, rfl⟩ : ∃ c l', l = c :: l' := by
      cases l with
      | nil => exact absurd hzero (by decide)
      | cons c l => exact ⟨c, l, rfl⟩
    have hnext : m (p + 1) = l.headD 0 := h.tail.eq_headD
    by_cases h0 : base = 0
    · subst h0
      simp only [skipHex, findBase, skipped, hhead, hzero, List.tail_cons, hnext]
      split_ifs <;> simp_all
    · by_cases h16 : base = 16
      · subst h16
        simp only [skipHex, findBase, skipped, hhead, hzero, List.tail_cons, hnext]
        split_ifs <;> simp_all
      · simp [skipHex, findBase, skipped, h0, h16]
  · rw [skipped, if_neg fun hc => hzero hc.2]
    simp only [skipHex, findBase, hhead, hzero, if_false, ite_self]
    split_ifs <;> rfl

def signLength (r : List Byte) : ℕ := if r.headD 0 = ch '-' ∨ r.headD 0 = ch '+' then 1 else 0

/-- What follows the white space, and what follows the sign. -/
def signed (l : List Byte) : List Byte := l.dropWhile isspace

def subject (l : List Byte) : List Byte := (signed l).drop (signLength (signed l))

/-- The digits that the code takes. -/
def taken (base : ℤ) (u : List Byte) : List Byte := (u.drop (skipped base u).2).takeWhile (isValid (skipped base u).1)

lemma text_drop_signLength {r : List Byte} (h : Text m p r) : Text m (p + signLength r) (r.drop (signLength r)) := by
  rw [signLength]
  split_ifs with hsign
  · cases r with
    | nil => exact absurd hsign (by decide)
    | cons c r => exact h.tail
  · exact h

lemma skipped_le (base : ℤ) (u : List Byte) : (skipped base u).2 ≤ u.length := by
  rw [skipped]
  by_cases hzero : (base = 0 ∨ base = 16) ∧ u.headD 0 = ch '0'
  · rw [if_pos hzero]
    cases u with
    | nil => exact absurd hzero.2 (by decide)
    | cons c u =>
      rw [List.tail_cons, List.length_cons]
      by_cases hx : u.headD 0 = ch 'x'
      · rw [if_pos hx]
        cases u with
        | nil => exact absurd hx (by decide)
        | cons c u => simp
      · rw [if_neg hx]
        exact Nat.succ_le_succ (Nat.zero_le _)
  · rw [if_neg hzero]
    exact Nat.zero_le _

lemma text_drop {n : ℕ} (h : Text m p l) (hn : n ≤ l.length) : Text m (p + n) (l.drop n) := by
  have htake : (l.take n).length = n := List.length_take_of_le hn
  have hdrop : Text m (p + (l.take n).length) (l.drop n) := Text.drop (by rwa [List.take_append_drop])
  rwa [htake] at hdrop

/-- What a call does with a string. -/
lemma strtox_text {max : BitVec 64} {base : ℤ} (hbase : base = 0 ∨ 2 ≤ base ∧ base ≤ 36) (h : Text m p l) (hl : 0 ∉ l)
    (hfuel : l.length < fuel) : strtox max m fuel p base =
      some ⟨if (signed l).headD 0 = ch '-' then -(taken base (subject l)).foldl (push (skipped base (subject l)).1) 0
          else (taken base (subject l)).foldl (push (skipped base (subject l)).1) 0,
        some (p + (l.takeWhile isspace).length + signLength (signed l) + (skipped base (subject l)).2 +
          (taken base (subject l)).length), none⟩ := by
  have hsigned : Text m (p + (l.takeWhile isspace).length) (signed l) := text_drop_takeWhile h isspace
  have hsubject : Text m (p + (l.takeWhile isspace).length + signLength (signed l)) (subject l) :=
    text_drop_signLength hsigned
  have hsign : skipSign m (p + (l.takeWhile isspace).length) =
      p + (l.takeWhile isspace).length + signLength (signed l) := by
    rw [skipSign, signLength, hsigned.eq_headD]
    split_ifs <;> rfl
  have hrange : ¬ (base < 0 ∨ base = 1 ∨ base > 36) := by omega
  have hlen : ((subject l).drop (skipped base (subject l)).2).length < fuel := by
    have hsubject : (subject l).length ≤ (signed l).length := by
      rw [subject, List.length_drop]
      exact Nat.sub_le _ _
    have hsigned : (signed l).length ≤ l.length := (List.dropWhile_suffix _).length_le
    rw [List.length_drop]
    omega
  rw [strtox, if_neg hrange, skipSpaces_text h hl hfuel, Option.bind_some]
  dsimp only
  rw [hsign, findBase_text base hsubject, accumulate_text _ (text_drop hsubject (skipped_le base _)) 0 hlen,
    hsigned.eq_headD]
  rfl

end Text

section Digits

/-- What a character stands for as a digit. -/
def digitValue (c : Byte) : Option ℕ :=
  if '0'.toNat ≤ c.toNat ∧ c.toNat ≤ '9'.toNat then some (c.toNat - '0'.toNat)
  else if 'a'.toNat ≤ c.toNat ∧ c.toNat ≤ 'z'.toNat then some (c.toNat - 'a'.toNat + 10)
  else if 'A'.toNat ≤ c.toNat ∧ c.toNat ≤ 'Z'.toNat then some (c.toNat - 'A'.toNat + 10)
  else none

def isDigit (base : ℕ) (c : Byte) : Bool := (digitValue c).any (· < base)

/-- The number that digits stand for. -/
def numeral (base : ℕ) (digits : List Byte) : ℕ := digits.foldl (fun n c => n * base + (digitValue c).getD 0) 0

lemma isValid_eq {base : ℕ} (h : 2 ≤ base ∧ base ≤ 36) (c : Byte) : isValid base c = isDigit base c := by
  have hlt := c.isLt
  have hcast : c.toInt = if c.toNat < 128 then (c.toNat : ℤ) else c.toNat - 256 := by
    rw [BitVec.toInt_eq_toNat_cond]
    split_ifs <;> omega
  have h0 : '0'.toNat = 48 := rfl
  have h9 : '9'.toNat = 57 := rfl
  have ha : 'a'.toNat = 97 := rfl
  have hz : 'z'.toNat = 122 := rfl
  have hA : 'A'.toNat = 65 := rfl
  have hZ : 'Z'.toNat = 90 := rfl
  rw [Bool.eq_iff_iff, isValid, isDigit, digitValue, h0, h9, ha, hz, hA, hZ, hcast]
  split_ifs <;> simp <;> omega

lemma convertDigit_eq {base : ℕ} {c : Byte} (h : isDigit base c) : convertDigit c = ((digitValue c).getD 0 : ℕ) := by
  have hlt := c.isLt
  have hcast : c.toInt = if c.toNat < 128 then (c.toNat : ℤ) else c.toNat - 256 := by
    rw [BitVec.toInt_eq_toNat_cond]
    split_ifs <;> omega
  have h0 : '0'.toNat = 48 := rfl
  have h9 : '9'.toNat = 57 := rfl
  have ha : 'a'.toNat = 97 := rfl
  have hz : 'z'.toNat = 122 := rfl
  have hA : 'A'.toNat = 65 := rfl
  have hZ : 'Z'.toNat = 90 := rfl
  rw [isDigit, digitValue, h0, h9, ha, hz, hA, hZ] at h
  rw [convertDigit, digitValue, h0, h9, ha, hz, hA, hZ, hcast]
  split_ifs at h ⊢ <;> simp at h ⊢ <;> omega

/-- The code computes the number modulo the size of a word. -/
lemma foldl_push (base : ℕ) {digits : List Byte} (h : ∀ c ∈ digits, isDigit base c) (n : ℕ) :
    digits.foldl (push base) (BitVec.ofNat 64 n) =
      BitVec.ofNat 64 (digits.foldl (fun n c => n * base + (digitValue c).getD 0) n) := by
  induction digits generalizing n with
  | nil => rfl
  | cons c digits ih =>
    rw [List.forall_mem_cons] at h
    have hpush : push base (BitVec.ofNat 64 n) c = BitVec.ofNat 64 (n * base + (digitValue c).getD 0) := by
      rw [push, convertDigit_eq h.1, BitVec.ofNat_add, BitVec.ofNat_mul]
      rfl
    rw [List.foldl_cons, List.foldl_cons, hpush, ih h.2]

end Digits

end PiggyOs.Strtox
