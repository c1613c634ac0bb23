import PiggyOs.Strtox

/-! What the C standard demands of `strtol` and `strtoul`, and where the code does it. -/
namespace PiggyOs.Strtox
open ByteMemory
open PiggyOs.Printf (Byte Text ch)

/-- `0x` or `0X` before a digit. -/
def prefixed (base : ℕ) (u : List Byte) : Prop :=
  (base = 0 ∨ base = 16) ∧ u.getD 0 0 = ch '0' ∧ (u.getD 1 0 = ch 'x' ∨ u.getD 1 0 = ch 'X') ∧ isDigit 16 (u.getD 2 0)

instance (base : ℕ) (u : List Byte) : Decidable (prefixed base u) := by unfold prefixed; infer_instance

def effective (base : ℕ) (u : List Byte) : ℕ :=
  if prefixed base u then 16 else if base = 0 then if u.getD 0 0 = ch '0' then 8 else 10 else base

def prefixLength (base : ℕ) (u : List Byte) : ℕ := if prefixed base u then 2 else 0

/-- The longest run of digits. -/
def digits (base : ℕ) (u : List Byte) : List Byte :=
  (u.drop (prefixLength base u)).takeWhile (isDigit (effective base u))

def magnitude (base : ℕ) (u : List Byte) : ℕ := numeral (effective base u) (digits base u)

inductive Kind
  | long
  | unsignedLong
deriving DecidableEq

def Kind.call : Kind → Memory → ℕ → ℕ → ℤ → Option Result
  | long => strtol
  | unsignedLong => strtoul

/-- The number can be returned; the negative of an unsigned one is taken in its type. -/
def Kind.Fits : Kind → Bool → ℕ → Prop
  | long, true, n => n ≤ 2 ^ 63
  | long, false, n => n < 2 ^ 63
  | unsignedLong, _, n => n < 2 ^ 64

instance (kind : Kind) (negative : Bool) (n : ℕ) : Decidable (kind.Fits negative n) := by
  cases kind <;> cases negative <;> unfold Kind.Fits <;> infer_instance

def Kind.limit : Kind → Bool → BitVec 64
  | long, true => 0x8000000000000000
  | long, false => 0x7fffffffffffffff
  | unsignedLong, _ => 0xffffffffffffffff

def negative (l : List Byte) : Bool := (signed l).headD 0 = ch '-'

/-- How far a call gets in the string. -/
def subjectEnd (base : ℕ) (l : List Byte) : ℕ :=
  if digits base (subject l) = [] then 0
  else (l.takeWhile isspace).length + signLength (signed l) + prefixLength base (subject l) +
    (digits base (subject l)).length

def standard (kind : Kind) (p : ℕ) (l : List Byte) (base : ℕ) : Result :=
  if kind.Fits (negative l) (magnitude base (subject l)) then
    ⟨BitVec.ofInt 64 (if negative l then -magnitude base (subject l) else magnitude base (subject l)),
      some (p + subjectEnd base l), none⟩
  else ⟨kind.limit (negative l), some (p + subjectEnd base l), some .erange⟩

/-- A `0x` stands before a digit, and a `0X` does not. -/
def PrefixRegular (base : ℕ) (u : List Byte) : Prop := (base = 0 ∨ base = 16) → u.getD 0 0 = ch '0' →
  (u.getD 1 0 = ch 'x' → isDigit 16 (u.getD 2 0)) ∧ (u.getD 1 0 = ch 'X' → ¬ isDigit 16 (u.getD 2 0))

/-- There is a digit, or nothing is skipped. -/
def Regular (base : ℕ) (l : List Byte) : Prop := PrefixRegular base (subject l) ∧
  (digits base (subject l) = [] → l.takeWhile isspace = [] ∧ signLength (signed l) = 0)

section Prefix
variable {base : ℕ} {u : List Byte}

lemma effective_range (hbase : base = 0 ∨ 2 ≤ base ∧ base ≤ 36) : 2 ≤ effective base u ∧ effective base u ≤ 36 := by
  rw [effective]
  split_ifs <;> omega

lemma takeWhile_isValid {base : ℕ} (h : 2 ≤ base ∧ base ≤ 36) (u : List Byte) :
    u.takeWhile (isValid base) = u.takeWhile (isDigit base) := by
  have heq : isValid base = isDigit base := funext (isValid_eq h)
  rw [heq]

/-- The base of a number with a leading zero. -/
def zeroBase (base : ℕ) : ℕ := if base = 0 then 8 else 16

lemma zeroBase_range (base : ℕ) : 2 ≤ zeroBase base ∧ zeroBase base ≤ 36 := by
  rw [zeroBase]
  split_ifs <;> decide

/-- Without a zero in front nothing is skipped. -/
lemma skipped_of_ne (h : ¬ ((base = 0 ∨ base = 16) ∧ u.getD 0 0 = ch '0')) :
    skipped base u = ((effective base u : ℤ), prefixLength base u) := by
  have hnot : ¬ prefixed base u := fun hp => h ⟨hp.1, hp.2.1⟩
  have hhead : u.headD 0 = u.getD 0 0 := by cases u <;> rfl
  have hcast : ((base : ℤ) = 0 ∨ (base : ℤ) = 16) ↔ (base = 0 ∨ base = 16) := by omega
  rw [skipped, effective, prefixLength, if_neg hnot, if_neg hnot, hhead,
    if_neg fun hc => h ⟨hcast.mp hc.1, hc.2⟩]
  by_cases h0 : base = 0
  · rw [if_pos h0, if_neg fun hz => h ⟨Or.inl h0, hz⟩, if_pos (by omega)]
    rfl
  · rw [if_neg h0, if_neg (by omega)]

lemma skipped_zero (hbase : base = 0 ∨ base = 16) (v : List Byte) : skipped base (ch '0' :: v) =
    if v.headD 0 = ch 'x' then (16, 2) else ((zeroBase base : ℤ), 1) := by
  have hzero : ((base : ℤ) = 0 ∨ (base : ℤ) = 16) ∧ (ch '0' :: v).headD 0 = ch '0' := ⟨by omega, rfl⟩
  rw [skipped, if_pos hzero, List.tail_cons, zeroBase]
  split_ifs <;> first | rfl | omega

lemma prefixed_zero (hbase : base = 0 ∨ base = 16) (c : Byte) (w : List Byte) :
    prefixed base (ch '0' :: c :: w) ↔ (c = ch 'x' ∨ c = ch 'X') ∧ isDigit 16 (w.headD 0) := by
  have hhead : (ch '0' :: c :: w).getD 2 0 = w.headD 0 := by cases w <;> rfl
  rw [prefixed, hhead]
  exact ⟨fun h => h.2.2, fun h => ⟨hbase, rfl, h⟩⟩

lemma effective_zero (hbase : base = 0 ∨ base = 16) {v : List Byte} (h : ¬ prefixed base (ch '0' :: v)) :
    effective base (ch '0' :: v) = zeroBase base ∧ prefixLength base (ch '0' :: v) = 0 := by
  rw [effective, prefixLength, if_neg h, if_neg h, zeroBase]
  refine ⟨?_, rfl⟩
  by_cases h0 : base = 0
  · rw [if_pos h0, if_pos h0]
    rfl
  · rw [if_neg h0, if_neg h0]
    exact hbase.resolve_left h0

lemma effective_prefixed (h : prefixed base u) : effective base u = 16 ∧ prefixLength base u = 2 :=
  ⟨if_pos h, if_pos h⟩

/-- The code agrees where it skips what is no digit. -/
lemma taken_eq (hbase : base = 0 ∨ 2 ≤ base ∧ base ≤ 36)
    (h : skipped base u = ((effective base u : ℤ), prefixLength base u)) :
    (skipped base u).2 + (taken base u).length = prefixLength base u + (digits base u).length ∧
      (taken base u).foldl (push (skipped base u).1) 0 = BitVec.ofNat 64 (magnitude base u) := by
  have htaken : taken base u = digits base u := by
    rw [taken, h, takeWhile_isValid (effective_range hbase), digits]
  rw [htaken, h]
  refine ⟨rfl, foldl_push _ (fun c hc => ?_) 0⟩
  exact List.mem_takeWhile_imp hc

/-- A leading zero that is skipped changes nothing. -/
lemma taken_zero (hbase : base = 0 ∨ base = 16) {v : List Byte} (hx : v.headD 0 ≠ ch 'x')
    (h : ¬ prefixed base (ch '0' :: v)) :
    (skipped base (ch '0' :: v)).2 + (taken base (ch '0' :: v)).length =
        prefixLength base (ch '0' :: v) + (digits base (ch '0' :: v)).length ∧
      (taken base (ch '0' :: v)).foldl (push (skipped base (ch '0' :: v)).1) 0 =
        BitVec.ofNat 64 (magnitude base (ch '0' :: v)) := by
  obtain ⟨heff, hlen⟩ := effective_zero hbase h
  have hskip : skipped base (ch '0' :: v) = ((zeroBase base : ℤ), 1) := by rw [skipped_zero hbase, if_neg hx]
  have htaken : taken base (ch '0' :: v) = v.takeWhile (isDigit (zeroBase base)) := by
    rw [taken, hskip]
    exact takeWhile_isValid (zeroBase_range base) v
  have hzero : isDigit (zeroBase base) (ch '0') = true := by
    rw [zeroBase]
    split_ifs <;> decide
  have hdigits : digits base (ch '0' :: v) = ch '0' :: v.takeWhile (isDigit (zeroBase base)) := by
    rw [digits, heff, hlen, List.drop_zero, List.takeWhile_cons_of_pos hzero]
  have hnumeral : magnitude base (ch '0' :: v) = numeral (zeroBase base) (v.takeWhile (isDigit (zeroBase base))) := by
    rw [magnitude, heff, hdigits, numeral, numeral, List.foldl_cons, Nat.zero_mul]
    rfl
  rw [htaken, hdigits, hnumeral, hskip, hlen]
  refine ⟨by rw [List.length_cons]; omega, foldl_push _ (fun c hc => ?_) 0⟩
  exact List.mem_takeWhile_imp hc

/-- Where the prefix is regular the code gets as far as it should, with the same number. -/
lemma taken_of_regular (hbase : base = 0 ∨ 2 ≤ base ∧ base ≤ 36) (h : PrefixRegular base u) :
    (skipped base u).2 + (taken base u).length = prefixLength base u + (digits base u).length ∧
      (taken base u).foldl (push (skipped base u).1) 0 = BitVec.ofNat 64 (magnitude base u) := by
  by_cases hzero : (base = 0 ∨ base = 16) ∧ u.getD 0 0 = ch '0'
  · obtain ⟨hhex, hhead⟩ := hzero
    cases u with
    | nil => exact absurd hhead (by decide)
    | cons c v =>
      obtain rfl : c = ch '0' := hhead
      cases v with
      | nil => exact taken_zero hhex (by decide) fun hp => absurd hp.2.2.1 (by decide)
      | cons c w =>
        have hthird : (ch '0' :: c :: w).getD 2 0 = w.headD 0 := by cases w <;> rfl
        have hregular := h hhex rfl
        rw [hthird] at hregular
        by_cases hx : c = ch 'x'
        · have hp : prefixed base (ch '0' :: c :: w) := (prefixed_zero hhex c w).mpr ⟨Or.inl hx, hregular.1 hx⟩
          obtain ⟨heff, hlen⟩ := effective_prefixed hp
          refine taken_eq hbase ?_
          rw [heff, hlen, skipped_zero hhex, List.headD_cons, if_pos hx]
          rfl
        · refine taken_zero hhex hx fun hp => ?_
          obtain ⟨hX | hX, hdigit⟩ := (prefixed_zero hhex c w).mp hp
          · exact hx hX
          · exact hregular.2 hX hdigit
  · exact taken_eq hbase (skipped_of_ne hzero)

lemma takeWhile_of_head {P : Byte → Bool} {w : List Byte} (hzero : P 0 = false) :
    w.takeWhile P = [] ↔ P (w.headD 0) = false := by
  cases w with
  | nil => exact iff_of_true rfl hzero
  | cons c w => by_cases hc : P c <;> simp [hc]

/-- A prefix is followed by a digit. -/
lemma digits_of_prefixed (h : prefixed base u) : digits base u ≠ [] := by
  obtain ⟨heff, hlen⟩ := effective_prefixed h
  have hhead : (u.drop 2).headD 0 = u.getD 2 0 := by
    rw [List.headD_eq_head?_getD, List.head?_drop, List.getD_eq_getElem?_getD]
  rw [digits, heff, hlen, Ne, takeWhile_of_head (by decide), hhead, h.2.2.2]
  exact Bool.noConfusion

lemma taken_of_irregular (h : ¬ PrefixRegular base u) : digits base u ≠ [] ∧
    (skipped base u).2 + (taken base u).length ≠ prefixLength base u + (digits base u).length := by
  simp only [PrefixRegular, Classical.not_imp] at h
  obtain ⟨hhex, hhead, h⟩ := h
  cases u with
  | nil => exact absurd hhead (by decide)
  | cons c v =>
    obtain rfl : c = ch '0' := hhead
    cases v with
    | nil => exact absurd ⟨fun hx => absurd hx (by decide), fun hX => absurd hX (by decide)⟩ h
    | cons c w =>
      have hthird : (ch '0' :: c :: w).getD 2 0 = w.headD 0 := by cases w <;> rfl
      rw [hthird] at h
      change ¬ ((c = ch 'x' → isDigit 16 (w.headD 0)) ∧ (c = ch 'X' → ¬ isDigit 16 (w.headD 0))) at h
      by_cases hdigit : isDigit 16 (w.headD 0) = true
      · obtain rfl : c = ch 'X' := by
          by_contra hne
          exact h ⟨fun _ => hdigit, fun hX => absurd hX hne⟩
        have hp := (prefixed_zero hhex _ w).mpr ⟨Or.inr rfl, hdigit⟩
        obtain ⟨heff, hlen⟩ := effective_prefixed hp
        have hskip : skipped base (ch '0' :: ch 'X' :: w) = ((zeroBase base : ℤ), 1) := by
          rw [skipped_zero hhex, List.headD_cons]
          exact if_neg (by decide)
        have htaken : taken base (ch '0' :: ch 'X' :: w) = [] := by
          have hno : isDigit (zeroBase base) (ch 'X') = false := by
            rw [zeroBase]
            split_ifs <;> decide
          rw [taken, hskip, takeWhile_isValid (zeroBase_range base)]
          exact List.takeWhile_cons_of_neg (by rw [hno]; exact Bool.false_ne_true)
        refine ⟨digits_of_prefixed hp, ?_⟩
        rw [htaken, hskip, hlen, List.length_nil]
        omega
      · obtain rfl : c = ch 'x' := by
          by_contra hne
          exact h ⟨fun hx => absurd hx hne, fun _ => hdigit⟩
        have hnot : ¬ prefixed base (ch '0' :: ch 'x' :: w) := fun hp => hdigit ((prefixed_zero hhex _ w).mp hp).2
        obtain ⟨heff, hlen⟩ := effective_zero hhex hnot
        have hskip : skipped base (ch '0' :: ch 'x' :: w) = (16, 2) := by
          rw [skipped_zero hhex]
          exact if_pos rfl
        have htaken : taken base (ch '0' :: ch 'x' :: w) = [] := by
          rw [taken, hskip]
          refine (takeWhile_of_head (isValid_zero 16)).mpr ?_
          have hvalid := isValid_eq (show 2 ≤ 16 ∧ 16 ≤ 36 by decide) (w.headD 0)
          rw [Bool.not_eq_true] at hdigit
          exact hvalid.trans hdigit
        have hdigits : digits base (ch '0' :: ch 'x' :: w) = [ch '0'] := by
          have hzero : isDigit (zeroBase base) (ch '0') = true ∧ isDigit (zeroBase base) (ch 'x') = false := by
            rw [zeroBase]
            split_ifs <;> decide
          rw [digits, heff, hlen, List.drop_zero, List.takeWhile_cons_of_pos hzero.1, List.takeWhile_cons_of_neg]
          rw [hzero.2]
          exact Bool.false_ne_true
        rw [hdigits, htaken, hskip, hlen]
        exact ⟨List.cons_ne_nil _ _, by decide⟩

end Prefix

/-- `strtol` and `strtoul` do what the standard demands exactly if there is a digit wherever something has been skipped,
`0x` stands before a digit and `0X` does not, and the number fits into the type. -/
theorem strtox_standard_iff (kind : Kind) {m : Memory} {p : ℕ} {l : List Byte} (h : Text m p l) (hl : 0 ∉ l) {base : ℕ}
    (hbase : base = 0 ∨ 2 ≤ base ∧ base ≤ 36) {fuel : ℕ} (hfuel : l.length < fuel) :
    kind.call m fuel p base = some (standard kind p l base) ↔
      Regular base l ∧ kind.Fits (negative l) (magnitude base (subject l)) := by
  have hcall : ∃ max, kind.call m fuel p base = strtox max m fuel p base := by
    cases kind with
    | long => exact ⟨_, rfl⟩
    | unsignedLong => exact ⟨_, rfl⟩
  obtain ⟨max, hmax⟩ := hcall
  have hlength : (l.takeWhile isspace).length = 0 ↔ l.takeWhile isspace = [] := List.length_eq_zero_iff
  rw [hmax, strtox_text (by omega) h hl hfuel, Option.some_inj, standard]
  constructor
  · intro heq
    by_cases hfits : kind.Fits (negative l) (magnitude base (subject l))
    · rw [if_pos hfits, Result.mk.injEq, Option.some_inj, subjectEnd] at heq
      obtain ⟨-, hend, -⟩ := heq
      have hregular : PrefixRegular base (subject l) := by
        by_contra hirregular
        obtain ⟨hne, hlen⟩ := taken_of_irregular hirregular
        rw [if_neg hne] at hend
        omega
      refine ⟨⟨hregular, fun hnil => ?_⟩, hfits⟩
      rw [if_pos hnil] at hend
      rw [← hlength]
      omega
    · rw [if_neg hfits] at heq
      cases congrArg Result.errno heq
  · rintro ⟨⟨hregular, hnone⟩, hfits⟩
    obtain ⟨hlen, hvalue⟩ := taken_of_regular hbase hregular
    rw [if_pos hfits, Result.mk.injEq, hvalue, Option.some_inj, subjectEnd]
    refine ⟨?_, ?_, rfl⟩
    · rw [negative]
      by_cases hminus : (signed l).headD 0 = ch '-'
      · rw [if_pos hminus, decide_eq_true hminus, if_pos rfl, BitVec.ofInt_neg]
        rfl
      · rw [if_neg hminus, decide_eq_false hminus, if_neg Bool.false_ne_true]
        rfl
    · by_cases hnil : digits base (subject l) = []
      · obtain ⟨hspaces, hsign⟩ := hnone hnil
        have hhex : prefixLength base (subject l) = 0 := if_neg fun hp => digits_of_prefixed hp hnil
        rw [hnil, hhex, List.length_nil] at hlen
        rw [if_pos hnil, hspaces, hsign, List.length_nil]
        omega
      · rw [if_neg hnil]
        omega

/-- A string in memory that is zero behind it. -/
def memoryOf (l : List Byte) : Memory := fun k => l.getD k 0

lemma text_memoryOf (l : List Byte) : Text (memoryOf l) 0 l := fun k _ => by rw [memoryOf, Nat.zero_add]

/-- The string ` -0x2a` in base 0. -/
theorem strtox_standard_negative : strtol (memoryOf [0x20, ch '-', ch '0', ch 'x', ch '2', ch 'a']) 7 0 0 =
    some ⟨-42, some 6, none⟩ := by
  refine ((strtox_standard_iff .long (text_memoryOf [0x20, ch '-', ch '0', ch 'x', ch '2', ch 'a']) (by decide)
    (Or.inl rfl) (show 6 < 7 by decide)).mpr ⟨⟨fun _ _ => by decide, by decide⟩, by decide⟩).trans ?_
  decide

/-- In ` x` there is no digit, in `0xg` none behind the prefix, `0X1` is hexadecimal, and 2⁶³ does not fit. -/
theorem strtol_nonstandard :
    strtol (memoryOf [0x20, ch 'x']) 3 0 10 ≠ some (standard .long 0 [0x20, ch 'x'] 10) ∧
    strtol (memoryOf [ch '0', ch 'x', ch 'g']) 4 0 16 ≠ some (standard .long 0 [ch '0', ch 'x', ch 'g'] 16) ∧
    strtol (memoryOf [ch '0', ch 'X', ch '1']) 4 0 16 ≠ some (standard .long 0 [ch '0', ch 'X', ch '1'] 16) ∧
    strtol (memoryOf ("9223372036854775808".toList.map ch)) 20 0 10 ≠
      some (standard .long 0 ("9223372036854775808".toList.map ch) 10) := by
  decide

end PiggyOs.Strtox
