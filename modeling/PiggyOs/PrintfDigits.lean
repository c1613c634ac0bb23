import PiggyOs.PrintfBackEnds

/-! The digits that the formatting makes are those of the number, and what it reads of a format that is known. -/
namespace PiggyOs.Printf
open ByteMemory

/-- The digits of a number, the most significant first. Zero has none. -/
def digitsOf (base n : ℕ) : List ℕ := (Nat.digits base n).reverse

/-- The digits after as many zeros as the precision asks for. -/
def paddedDigits (base precision n : ℕ) : List ℕ :=
  List.replicate (precision - (digitsOf base n).length) 0 ++ digitsOf base n

@[simp] lemma digitsOf_zero (base : ℕ) : digitsOf base 0 = [] := by simp [digitsOf]

lemma digitsOf_pos {base n : ℕ} (hbase : 1 < base) (hn : 0 < n) :
    digitsOf base n = digitsOf base (n / base) ++ [n % base] := by
  rw [digitsOf, Nat.digits_def' hbase hn, List.reverse_cons, digitsOf]

@[simp] lemma length_digitsOf (base n : ℕ) : (digitsOf base n).length = (Nat.digits base n).length :=
  List.length_reverse

lemma digitsOf_lt {base n d : ℕ} (hbase : 1 < base) (hd : d ∈ digitsOf base n) : d < base :=
  Nat.digits_lt_base hbase (List.mem_reverse.mp hd)

lemma length_digitsOf_le_iff {base n k : ℕ} (hbase : 1 < base) : (digitsOf base n).length ≤ k ↔ n < base ^ k := by
  rw [length_digitsOf, Nat.digits_length_le_iff hbase]

lemma length_digitsOf_pos {base n : ℕ} (hn : 0 < n) : 0 < (digitsOf base n).length := by
  rw [length_digitsOf, List.length_pos_iff, Nat.digits_ne_nil_iff_ne_zero]
  exact hn.ne'

@[simp] lemma length_paddedDigits (base precision n : ℕ) :
    (paddedDigits base precision n).length = max precision (digitsOf base n).length := by
  simp only [paddedDigits, List.length_append, List.length_replicate]
  omega

/-- The last digit can be split off as long as there are not fewer places than digits. -/
lemma paddedDigits_succ {base n k : ℕ} (hbase : 1 < base) (h : n < base ^ (k + 1)) :
    paddedDigits base (k + 1) n = paddedDigits base k (n / base) ++ [n % base] := by
  obtain rfl | hn := Nat.eq_zero_or_pos n
  · simp [paddedDigits, List.replicate_succ']
  · rw [paddedDigits, paddedDigits, digitsOf_pos hbase hn, List.length_append, List.length_singleton,
      Nat.add_sub_add_right, List.append_assoc]

lemma div_lt_pow {base n k : ℕ} (h : n < base ^ (k + 1)) : n / base < base ^ k :=
  Nat.div_lt_of_lt_mul (by rwa [pow_succ'] at h)

/-- The loop of `print_dec` that counts the digits. -/
lemma decWidth_eq {rounds n : ℕ} (hn : 0 < n) (h : n < 10 ^ rounds) : decWidth rounds n = (digitsOf 10 n).length := by
  induction rounds generalizing n with
  | zero => omega
  | succ rounds ih =>
    rw [decWidth, digitsOf_pos (by decide) hn, List.length_append, List.length_singleton]
    split_ifs with hten
    · rw [ih (by omega) (div_lt_pow h)]
    · rw [show n / 10 = 0 by omega, digitsOf_zero]
      rfl

lemma decTmp_eq {i n : ℕ} (h : n < 10 ^ i) (tmp : List Byte) :
    decTmp i n tmp = (paddedDigits 10 i n).map (fun d => BitVec.ofNat 8 (d + 48)) ++ tmp := by
  induction i generalizing n tmp with
  | zero =>
    obtain rfl : n = 0 := by omega
    simp [decTmp, paddedDigits]
  | succ i ih =>
    rw [decTmp, ih (div_lt_pow h), paddedDigits_succ (by decide) h, List.map_append, List.append_assoc]
    rfl

lemma digit_shift (value : BitVec 64) (i : ℕ) : (value >>> (i * 4) &&& 0xf).toNat = value.toNat / 16 ^ i % 16 := by
  rw [BitVec.toNat_and, BitVec.toNat_ushiftRight, Nat.shiftRight_eq_div_pow, mul_comm, pow_mul]
  exact Nat.and_two_pow_sub_one_eq_mod _ 4

/-- The place of the last digit does not matter. -/
lemma hexDigits_succ (value : BitVec 64) (caps : Bool) (n : ℕ) : hexDigits value caps (n + 1) =
    hexDigits (value >>> 4) caps n ++ [hexChar caps (value.toNat % 16)] := by
  induction n with
  | zero =>
    change [hexChar caps (value >>> (0 * 4) &&& 0xf).toNat] = _
    rw [digit_shift, pow_zero, Nat.div_one]
    rfl
  | succ n ih =>
    rw [hexDigits, ih, hexDigits, List.cons_append, digit_shift, digit_shift, BitVec.toNat_ushiftRight,
      Nat.shiftRight_eq_div_pow, Nat.div_div_eq_div_mul, ← pow_succ']

lemma hexDigits_eq {value : BitVec 64} {n : ℕ} (caps : Bool) (h : value.toNat < 16 ^ n) :
    hexDigits value caps n = (paddedDigits 16 n value.toNat).map (hexChar caps) := by
  induction n generalizing value with
  | zero =>
    have h0 : value.toNat = 0 := by omega
    simp [hexDigits, paddedDigits, h0]
  | succ n ih =>
    have hshift : (value >>> 4).toNat = value.toNat / 16 := by
      rw [BitVec.toNat_ushiftRight, Nat.shiftRight_eq_div_pow]
    rw [hexDigits_succ, ih (hshift ▸ div_lt_pow h), paddedDigits_succ (by decide) h, hshift, List.map_append]
    rfl

/-- The loop of `print_hex` that counts the digits. -/
lemma hexWidth_eq {value : BitVec 64} {rounds n : ℕ} (hn : 0 < n) (hle : n ≤ max 1 (digitsOf 16 value.toNat).length)
    (hrounds : 16 ≤ rounds + n) :
    hexWidth value rounds (BitVec.ofNat 64 (16 ^ n - 1)) n = max 1 (digitsOf 16 value.toNat).length := by
  have hlen : (digitsOf 16 value.toNat).length ≤ 16 := (length_digitsOf_le_iff (by decide)).mpr value.isLt
  induction rounds generalizing n with
  | zero =>
    rw [hexWidth]
    omega
  | succ rounds ih =>
    have hn16 : n ≤ 16 := by omega
    have hpow : 16 ^ n ≤ 2 ^ 64 := Nat.pow_le_pow_right (by decide) hn16
    have hpos : 0 < 16 ^ n := Nat.pow_pos (by decide)
    have hj : (BitVec.ofNat 64 (16 ^ n - 1)).toNat = 16 ^ n - 1 := by
      rw [BitVec.toNat_ofNat, Nat.mod_eq_of_lt (by omega)]
    have hmore : value > BitVec.ofNat 64 (16 ^ n - 1) ↔ n < (digitsOf 16 value.toNat).length := by
      rw [gt_iff_lt, BitVec.lt_def, hj, ← not_le, ← not_le, length_digitsOf_le_iff (by decide)]
      omega
    rw [hexWidth]
    split_ifs with h
    · have hlt := hmore.mp h.1
      have hnext : BitVec.ofNat 64 (16 ^ n - 1) * 0x10 + 0x0f = BitVec.ofNat 64 (16 ^ (n + 1) - 1) := by
        apply BitVec.eq_of_toNat_eq
        rw [BitVec.toNat_add, BitVec.toNat_mul, hj, BitVec.toNat_ofNat, pow_succ]
        change ((16 ^ n - 1) * 16 % 2 ^ 64 + 15) % 2 ^ 64 = _
        omega
      rw [hnext, ih (by omega) (by omega) (by omega)]
    · have hall : ¬ n < (digitsOf 16 value.toNat).length := by
        intro hlt
        have hgt := hmore.mpr hlt
        refine h ⟨hgt, ?_⟩
        rw [gt_iff_lt, BitVec.lt_def] at hgt
        rw [BitVec.lt_def]
        change _ < 2 ^ 64 - 1
        have hvalue := value.isLt
        omega
      omega

section Format
variable {fmt : Memory} {args : ℕ → BitVec 64} {f a fuel : ℕ} {c : Byte} {l : List Byte}

/-- The format from `f` on is the text `l`, with a zero behind it. -/
def Text (fmt : Memory) (f : ℕ) (l : List Byte) : Prop := ∀ k ≤ l.length, fmt (f + k) = l.getD k 0

lemma Text.head (h : Text fmt f (c :: l)) : fmt f = c := h 0 (Nat.zero_le _)

lemma Text.tail (h : Text fmt f (c :: l)) : Text fmt (f + 1) l := fun k hk => by
  rw [add_assoc, add_comm 1 k]
  exact h (k + 1) (Nat.succ_le_succ hk)

lemma Text.eq_headD (h : Text fmt f l) : fmt f = l.headD 0 := by
  cases l with
  | nil => exact h 0 le_rfl
  | cons c l => exact h.head

lemma Text.drop {l' : List Byte} (h : Text fmt f (l ++ l')) : Text fmt (f + l.length) l' := by
  induction l generalizing f with
  | nil => exact h
  | cons c l ih =>
    rw [List.length_cons, add_comm l.length, ← add_assoc]
    exact ih h.tail

inductive Flag
  | minus
  | zero
  | plus
  | space
deriving DecidableEq

def Flag.char : Flag → Byte
  | minus => ch '-'
  | zero => ch '0'
  | plus => ch '+'
  | space => ch ' '

def Flag.apply (v : Conversion) : Flag → Conversion
  | minus => { v with align := false }
  | zero => { v with fillZero := true }
  | plus => { v with alwaysSign := 1 }
  | space => { v with alwaysSign := 2 }

/-- The characters that `__printf_internal` takes for a flag. -/
def flagChars : List Byte := [ch '-', ch '#', ch '*', ch '0', ch '+', ch ' ']

lemma parseFlags_stop (v : Conversion) (hf : fmt f ∉ flagChars) :
    parseFlags fmt args (fuel + 1) f a v = some (f, a, v) := by
  simp only [flagChars, List.mem_cons, List.not_mem_nil, or_false, not_or] at hf
  simp [parseFlags, hf]

lemma parseFlags_flag (v : Conversion) (flag : Flag) (hf : fmt f = flag.char) :
    parseFlags fmt args (fuel + 1) f a v = parseFlags fmt args fuel (f + 1) a (flag.apply v) := by
  cases flag <;> rw [parseFlags, hf] <;> rfl

lemma parseFlags_text {flags : List Flag} {rest : List Byte} (h : Text fmt f (flags.map Flag.char ++ rest))
    (hrest : rest.headD 0 ∉ flagChars) (v : Conversion) (hfuel : flags.length < fuel) :
    parseFlags fmt args fuel f a v = some (f + flags.length, a, flags.foldl Flag.apply v) := by
  induction flags generalizing f fuel v with
  | nil =>
    obtain ⟨fuel, rfl⟩ := Nat.exists_eq_succ_of_ne_zero (show fuel ≠ 0 by omega)
    exact parseFlags_stop v (Text.eq_headD h ▸ hrest)
  | cons flag flags ih =>
    obtain ⟨fuel, rfl⟩ := Nat.exists_eq_succ_of_ne_zero (show fuel ≠ 0 by omega)
    rw [parseFlags_flag v flag h.head, ih h.tail (flag.apply v) (Nat.lt_of_succ_lt_succ hfuel), List.length_cons,
      List.foldl_cons, add_assoc, add_comm 1]

/-- The number as it stands in a format, with no character for zero. -/
def decimal (n : ℕ) : List Byte := (digitsOf 10 n).map fun d => BitVec.ofNat 8 (d + 48)

lemma decimal_zero : decimal 0 = [] := by simp [decimal]

lemma decimal_pos {n : ℕ} (hn : 0 < n) : decimal n = decimal (n / 10) ++ [BitVec.ofNat 8 (n % 10 + 48)] := by
  rw [decimal, digitsOf_pos (by decide) hn, List.map_append]
  rfl

lemma parseDigits_stop (n : BitVec 32) (hf : ¬ (48 ≤ (fmt f).toNat ∧ (fmt f).toNat ≤ 57)) :
    parseDigits fmt (fuel + 1) f n = some (f, n) := if_neg hf

lemma parseDigits_digit (n : BitVec 32) {d : ℕ} (hd : d < 10) (hf : fmt f = BitVec.ofNat 8 (d + 48)) :
    parseDigits fmt (fuel + 1) f n = parseDigits fmt fuel (f + 1) (n * 10 + BitVec.ofNat 32 d) := by
  have hchar : (fmt f).toNat = d + 48 := by
    rw [hf, BitVec.toNat_ofNat]
    omega
  rw [parseDigits, hchar, if_pos (by omega), Nat.add_sub_cancel]

lemma parseDigits_text {digits : List ℕ} (hlt : ∀ d ∈ digits, d < 10) {rest : List Byte}
    (h : Text fmt f ((digits.map fun d => BitVec.ofNat 8 (d + 48)) ++ rest))
    (hrest : ¬ (48 ≤ (rest.headD 0).toNat ∧ (rest.headD 0).toNat ≤ 57)) (n : BitVec 32) (hfuel : digits.length < fuel) :
    parseDigits fmt fuel f n =
      some (f + digits.length, digits.foldl (fun n d => n * 10 + BitVec.ofNat 32 d) n) := by
  induction digits generalizing f fuel n with
  | nil =>
    obtain ⟨fuel, rfl⟩ := Nat.exists_eq_succ_of_ne_zero (show fuel ≠ 0 by omega)
    exact parseDigits_stop n (Text.eq_headD h ▸ hrest)
  | cons d digits ih =>
    obtain ⟨fuel, rfl⟩ := Nat.exists_eq_succ_of_ne_zero (show fuel ≠ 0 by omega)
    rw [List.forall_mem_cons] at hlt
    rw [parseDigits_digit n hlt.1 h.head, ih hlt.2 h.tail _ (Nat.lt_of_succ_lt_succ hfuel), List.length_cons,
      List.foldl_cons, add_assoc, add_comm 1]

lemma foldl_digitsOf (n : ℕ) :
    (digitsOf 10 n).foldl (fun n d => n * 10 + BitVec.ofNat 32 d) 0 = BitVec.ofNat 32 n := by
  induction n using Nat.strong_induction_on with
  | h n ih =>
    obtain rfl | hn := Nat.eq_zero_or_pos n
    · rw [digitsOf_zero]
      rfl
    · rw [digitsOf_pos (by decide) hn, List.foldl_append, ih (n / 10) (by omega), List.foldl_cons, List.foldl_nil]
      apply BitVec.eq_of_toNat_eq
      simp only [BitVec.toNat_add, BitVec.toNat_mul, BitVec.toNat_ofNat, show (10 : BitVec 32).toNat = 10 from rfl]
      omega

lemma parseDigits_decimal {n : ℕ} {rest : List Byte} (h : Text fmt f (decimal n ++ rest))
    (hrest : ¬ (48 ≤ (rest.headD 0).toNat ∧ (rest.headD 0).toNat ≤ 57)) (hfuel : (decimal n).length < fuel) :
    parseDigits fmt fuel f 0 = some (f + (decimal n).length, BitVec.ofNat 32 n) := by
  rw [decimal, List.length_map] at hfuel ⊢
  rw [parseDigits_text (fun d hd => digitsOf_lt (by decide) hd) h hrest 0 hfuel, foldl_digitsOf]

/-- A number does not start with a flag. -/
lemma head_decimal_append {n : ℕ} (hn : 0 < n) (rest : List Byte) : (decimal n ++ rest).headD 0 ∉ flagChars := by
  induction n using Nat.strong_induction_on generalizing rest with
  | h n ih =>
    rw [decimal_pos hn, List.append_assoc]
    obtain hten | hten := Nat.lt_or_ge n 10
    · rw [show n / 10 = 0 by omega, decimal_zero, Nat.mod_eq_of_lt hten]
      change BitVec.ofNat 8 (n + 48) ∉ flagChars
      interval_cases n <;> decide
    · exact ih (n / 10) (by omega) (by omega) _

end Format

end PiggyOs.Printf
