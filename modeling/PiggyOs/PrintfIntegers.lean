import PiggyOs.PrintfDigits

/-! The conversions `%ld`, `%lu`, `%lx` and `%lX` next to those of the C standard. -/
namespace PiggyOs.Printf
open ByteMemory Filter

inductive Letter
  | d
  | u
  | x
  | X
deriving DecidableEq

def Letter.char : Letter → Byte
  | d => ch 'd'
  | u => ch 'u'
  | x => ch 'x'
  | X => ch 'X'

def Letter.base : Letter → ℕ
  | d => 10
  | u => 10
  | x => 16
  | X => 16

/-- A conversion of an integer; a width of zero stands for none. -/
structure IntegerFormat where
  flags : List Flag
  width : ℕ
  precision : Option ℕ
  letter : Letter
  width_le : width ≤ 64
  precision_le : ∀ p ∈ precision, p ≤ 64

namespace IntegerFormat
variable (c : IntegerFormat) (value : BitVec 64)

/-- The conversion as it stands in a format. -/
def text : List Byte :=
  ch '%' :: (c.flags.map Flag.char ++ (decimal c.width ++
    ((c.precision.elim [] fun p => ch '.' :: decimal p) ++ [ch 'l', c.letter.char])))

def magnitude : ℕ := if c.letter = .d then value.toInt.natAbs else value.toNat

/-- The digits with the zeros of the precision. -/
def digits : List Byte :=
  (paddedDigits c.letter.base (c.precision.getD 1) (c.magnitude value)).map (hexChar (c.letter = .X))

def sign : List Byte :=
  if c.letter ≠ .d then []
  else if value.toInt < 0 then [ch '-']
  else if .plus ∈ c.flags then [ch '+']
  else if .space ∈ c.flags then [ch ' ']
  else []

/-- Digits and sign, not padded to the width. -/
def unpadded : List Byte := c.sign value ++ c.digits value

/-- What the C standard demands. -/
def standard : List Byte :=
  if .minus ∈ c.flags then c.unpadded value ++ List.replicate (c.width - (c.unpadded value).length) (ch ' ')
  else if .zero ∈ c.flags ∧ c.precision = none then
    c.sign value ++ List.replicate (c.width - (c.unpadded value).length) (ch '0') ++ c.digits value
  else List.replicate (c.width - (c.unpadded value).length) (ch ' ') ++ c.unpadded value

lemma length_standard : (c.standard value).length = max c.width (c.unpadded value).length := by
  simp only [standard]
  split_ifs <;> simp only [unpadded, List.length_append, List.length_replicate] <;> omega

end IntegerFormat

/-- The last of the flags `+` and space. -/
def lastSign (flags : List Flag) : Option Flag := (flags.filter fun f => f = .plus ∨ f = .space).getLast?

lemma foldl_apply (flags : List Flag) (v : Conversion) :
    flags.foldl Flag.apply v = { v with
      align := v.align && decide (.minus ∉ flags)
      fillZero := v.fillZero || decide (.zero ∈ flags)
      alwaysSign := (lastSign flags).elim v.alwaysSign fun f => if f = .space then 2 else 1 } := by
  induction flags using List.reverseRecOn with
  | nil => simp [lastSign]
  | append_singleton flags flag ih =>
    rw [List.foldl_append, ih]
    cases flag <;> simp [Flag.apply, lastSign]

/-- The precision as the code keeps it. -/
def precisionBits (precision : Option ℕ) : BitVec 32 := precision.elim (-1) (BitVec.ofNat 32)

/-- What the parser makes of the conversion. -/
def IntegerFormat.parsed (c : IntegerFormat) : Conversion where
  argWidth := BitVec.ofNat 32 c.width
  align := decide (.minus ∉ c.flags)
  fillZero := decide (.zero ∈ c.flags)
  big := 1
  alt := false
  alwaysSign := (lastSign c.flags).elim 0 fun f => if f = .space then 2 else 1
  precision := precisionBits c.precision

section Parsing
variable {fmt : Memory} {args : ℕ → BitVec 64} {f a fuel : ℕ}

lemma parsePrecision_none (v : Conversion) (hf : fmt f ≠ ch '.') :
    parsePrecision fmt args fuel f a v = some (f, a, v) := if_neg hf

lemma parsePrecision_some {p : ℕ} {rest : List Byte} (v : Conversion) (h : Text fmt f (ch '.' :: (decimal p ++ rest)))
    (hrest : ¬ (48 ≤ (rest.headD 0).toNat ∧ (rest.headD 0).toNat ≤ 57)) (hne : rest.headD 0 ≠ ch '*')
    (hfuel : (decimal p).length < fuel) :
    parsePrecision fmt args fuel f a v =
      some (f + 1 + (decimal p).length, a, { v with precision := BitVec.ofNat 32 p }) := by
  have hstar : fmt (f + 1) ≠ ch '*' := by
    rw [h.tail.eq_headD]
    obtain rfl | hp := Nat.eq_zero_or_pos p
    · rwa [decimal_zero]
    · exact fun heq => head_decimal_append hp rest (heq ▸ by decide)
  rw [parsePrecision, if_pos h.head, if_neg hstar, parseDigits_decimal h.tail hrest hfuel]
  rfl

lemma parseLength_long {c : Byte} {rest : List Byte} (v : Conversion) (h : Text fmt f (ch 'l' :: c :: rest))
    (hl : c ≠ ch 'l') (hz : c ≠ ch 'z') (ht : c ≠ ch 't') : parseLength fmt f v = (f + 1, { v with big := 1 }) := by
  have hc : fmt (f + 1) = c := h.tail.head
  simp [parseLength, h.head, hc, hl, hz, ht]

lemma parsePrecision_text {rest : List Byte} (precision : Option ℕ) (v : Conversion) (hv : v.precision = -1)
    (h : Text fmt f ((precision.elim [] fun p => ch '.' :: decimal p) ++ ch 'l' :: rest))
    (hfuel : (precision.elim [] fun p => ch '.' :: decimal p).length < fuel) :
    ∃ g, parsePrecision fmt args fuel f a v = some (g, a, { v with precision := precisionBits precision }) ∧
      Text fmt g (ch 'l' :: rest) := by
  cases precision with
  | none =>
    refine ⟨f, ?_, h⟩
    rw [parsePrecision_none v (h.head ▸ by decide), precisionBits, Option.elim_none, ← hv]
  | some p =>
    refine ⟨f + 1 + (decimal p).length, ?_, h.tail.drop⟩
    refine parsePrecision_some v h ?_ ?_ (Nat.lt_of_succ_lt hfuel)
    · exact (by decide : ¬ (48 ≤ (ch 'l').toNat ∧ (ch 'l').toNat ≤ 57))
    · exact (by decide : ch 'l' ≠ ch '*')

lemma head_after_width (c : IntegerFormat) (rest : List Byte) :
    ((c.precision.elim [] fun p => ch '.' :: decimal p) ++ ch 'l' :: rest).headD 0 = ch '.' ∨
      ((c.precision.elim [] fun p => ch '.' :: decimal p) ++ ch 'l' :: rest).headD 0 = ch 'l' := by
  cases c.precision with
  | none => exact Or.inr rfl
  | some p => exact Or.inl rfl

lemma parseConversion_text (args : ℕ → BitVec 64) (a : ℕ) (c : IntegerFormat) (h : Text fmt f c.text)
    (hfuel : c.text.length < fuel) :
    ∃ g, parseConversion fmt args fuel (f + 1) a = some (g, a, c.parsed) ∧ Text fmt g [c.letter.char] := by
  simp only [IntegerFormat.text, List.length_cons, List.length_append, List.length_map] at hfuel
  have hflags := h.tail
  have hwidth := hflags.drop
  have hprecision := hwidth.drop
  rw [List.length_map] at hwidth hprecision
  have hnext := head_after_width c [c.letter.char]
  have hhead : (decimal c.width ++ ((c.precision.elim [] fun p => ch '.' :: decimal p) ++
      [ch 'l', c.letter.char])).headD 0 ∉ flagChars := by
    obtain h0 | hpos := Nat.eq_zero_or_pos c.width
    · rw [h0, decimal_zero, List.nil_append]
      obtain hdot | hlong := hnext
      · rw [hdot]
        decide
      · rw [hlong]
        decide
    · exact head_decimal_append hpos _
  have hdigits : parseDigits fmt fuel (f + 1 + c.flags.length) 0 =
      some (f + 1 + c.flags.length + (decimal c.width).length, BitVec.ofNat 32 c.width) := by
    refine parseDigits_decimal hwidth ?_ (by omega)
    obtain hdot | hlong := hnext
    · rw [hdot]
      decide
    · rw [hlong]
      decide
  obtain ⟨g, hparsed, hlong⟩ := parsePrecision_text c.precision
    { c.flags.foldl Flag.apply ⟨0, true, false, 0, false, 0, -1⟩ with argWidth := BitVec.ofNat 32 c.width }
    (by rw [foldl_apply]) hprecision (show _ < fuel by omega)
  refine ⟨g + 1, ?_, hlong.tail⟩
  have hwidth0 : (c.flags.foldl Flag.apply ⟨0, true, false, 0, false, 0, -1⟩).argWidth = 0 := by rw [foldl_apply]
  rw [parseConversion, parseFlags_text hflags hhead _ (by omega), Option.bind_some]
  dsimp only
  rw [hwidth0, hdigits, Option.bind_some]
  dsimp only
  rw [hparsed, Option.map_some]
  dsimp only
  rw [parseLength_long _ hlong, foldl_apply]
  · simp [IntegerFormat.parsed]
  all_goals cases c.letter <;> decide

end Parsing

section Printing
variable {σ : Type} (cb : σ → Byte → σ)

lemma puts_puts (o : Out σ) (l l' : List Byte) : (o.puts cb l).puts cb l' = o.puts cb (l ++ l') :=
  (List.foldl_append).symm

lemma put_puts (o : Out σ) (c : Byte) (l : List Byte) : (o.put cb c).puts cb l = o.puts cb (c :: l) := rfl

lemma toNat_ofNat_int {n : ℕ} (hn : n < 2 ^ 31) : (BitVec.ofNat 32 n).toNat = n := by
  rw [BitVec.toNat_ofNat, Nat.mod_eq_of_lt (by omega)]

lemma toInt_ofNat_int {n : ℕ} (hn : n < 2 ^ 31) : (BitVec.ofNat 32 n).toInt = n := by
  rw [BitVec.toInt_eq_toNat_of_lt (by rw [toNat_ofNat_int hn]; omega), toNat_ofNat_int hn]

lemma signExtend_ofNat_int {n : ℕ} (hn : n < 2 ^ 31) : (BitVec.ofNat 32 n).signExtend 64 = BitVec.ofNat 64 n := by
  apply BitVec.eq_of_toInt_eq
  rw [BitVec.toInt_signExtend_of_le (by decide), toInt_ofNat_int hn, BitVec.toInt_eq_toNat_of_lt, BitVec.toNat_ofNat,
    Nat.mod_eq_of_lt (by omega)]
  rw [BitVec.toNat_ofNat, Nat.mod_eq_of_lt (by omega)]
  omega

lemma padLeft_eq (c : Byte) {n width printed fuel : ℕ} (hn : n < 2 ^ 31) (hwidth : width < 2 ^ 31)
    (hprinted : printed ≤ width) (hfuel : width - (n + printed) < fuel) (o : Out σ) :
    padLeft cb c (BitVec.ofNat 64 n) (BitVec.ofNat 32 width) fuel (BitVec.ofNat 32 printed) o =
      some (o.puts cb (List.replicate (width - (n + printed)) c)) := by
  induction fuel generalizing printed o with
  | zero => omega
  | succ fuel ih =>
    have hmore : BitVec.ofNat 64 n + (BitVec.ofNat 32 printed).signExtend 64 < (BitVec.ofNat 32 width).setWidth 64 ↔
        n + printed < width := by
      rw [signExtend_ofNat_int (by omega), ← BitVec.ofNat_add, BitVec.lt_def, BitVec.toNat_setWidth,
        toNat_ofNat_int hwidth, toNat_ofNat_small (by omega)]
      omega
    rw [padLeft]
    split_ifs with h
    · have hlt := hmore.mp h
      rw [show BitVec.ofNat 32 printed + 1 = BitVec.ofNat 32 (printed + 1) from (BitVec.ofNat_add _ _).symm,
        ih (by omega) (by omega), put_puts, ← List.replicate_succ]
      congr 4
      omega
    · rw [hmore] at h
      rw [show width - (n + printed) = 0 by omega]
      rfl

lemma padRight_eq (c : Byte) {width printed fuel : ℕ} (hwidth : width < 2 ^ 31) (hprinted : printed < 2 ^ 31)
    (hfuel : width - printed < fuel) (o : Out σ) :
    padRight cb c (BitVec.ofNat 32 width) fuel (BitVec.ofNat 32 printed) o =
      some (o.puts cb (List.replicate (width - printed) c)) := by
  induction fuel generalizing printed o with
  | zero => omega
  | succ fuel ih =>
    have hmore : (BitVec.ofNat 32 printed).toInt < ((BitVec.ofNat 32 width).toNat : ℤ) ↔ printed < width := by
      rw [toInt_ofNat_int hprinted, toNat_ofNat_int hwidth]
      exact Int.ofNat_lt
    rw [padRight]
    split_ifs with h
    · have hlt := hmore.mp h
      rw [show BitVec.ofNat 32 printed + 1 = BitVec.ofNat 32 (printed + 1) from (BitVec.ofNat_add _ _).symm,
        ih (by omega) (by omega), put_puts, ← List.replicate_succ]
      congr 4
      omega
    · rw [hmore] at h
      rw [show width - printed = 0 by omega]
      rfl

lemma decDigits_eq (value : BitVec 64) {precision : Option ℕ} (h : ∀ p ∈ precision, p < 2 ^ 31) :
    decDigits value (precisionBits precision) =
      BitVec.ofNat 64 (paddedDigits 10 (precision.getD 1) value.toNat).length := by
  have hprecision : (if precisionBits precision = -1 then 1 else precisionBits precision).signExtend 64 =
      BitVec.ofNat 64 (precision.getD 1) := by
    cases precision with
    | none => rfl
    | some p =>
      have hp : p < 2 ^ 31 := h p rfl
      rw [precisionBits, Option.elim_some, if_neg, signExtend_ofNat_int hp]
      · rfl
      · intro heq
        have hnat := congrArg BitVec.toNat heq
        rw [toNat_ofNat_int hp] at hnat
        change p = 2 ^ 32 - 1 at hnat
        omega
  have hp : precision.getD 1 < 2 ^ 31 := by
    cases precision with
    | none => decide
    | some p => exact h p rfl
  have hdigits : (digitsOf 10 value.toNat).length ≤ 20 := by
    rw [length_digitsOf_le_iff (by decide)]
    have hlt := value.isLt
    omega
  have hcount : (if value = 0 then (0 : BitVec 64) else BitVec.ofNat 64 (decWidth 20 value.toNat)) =
      BitVec.ofNat 64 (digitsOf 10 value.toNat).length := by
    split_ifs with h0
    · rw [h0]
      rfl
    · have hpos : 0 < value.toNat := Nat.pos_of_ne_zero fun hz => h0 (BitVec.eq_of_toNat_eq hz)
      have hlt := value.isLt
      rw [decWidth_eq hpos (by omega)]
  rw [decDigits, hprecision, hcount, length_paddedDigits]
  have hmore : BitVec.ofNat 64 (digitsOf 10 value.toNat).length < BitVec.ofNat 64 (precision.getD 1) ↔
      (digitsOf 10 value.toNat).length < precision.getD 1 := by
    rw [BitVec.lt_def, toNat_ofNat_small (by omega), toNat_ofNat_small (by omega)]
  split_ifs with hlt
  · rw [max_eq_left (hmore.mp hlt).le]
  · rw [max_eq_right (not_lt.mp (mt hmore.mpr hlt))]

lemma hexChar_of_lt_ten (caps : Bool) {d : ℕ} (hd : d < 10) : hexChar caps d = BitVec.ofNat 8 (d + 48) := by
  rw [hexChar, if_pos hd]

lemma paddedDigits_lt {base precision n d : ℕ} (hbase : 1 < base) (hd : d ∈ paddedDigits base precision n) :
    d < base := by
  rw [paddedDigits, List.mem_append, List.mem_replicate] at hd
  obtain ⟨-, rfl⟩ | hd := hd
  · omega
  · exact digitsOf_lt hbase hd

lemma paddedDigits_length (base precision n : ℕ) :
    paddedDigits base (paddedDigits base precision n).length n = paddedDigits base precision n := by
  rw [length_paddedDigits, paddedDigits, paddedDigits]
  congr 2
  omega

/-- The digits between the spaces or zeros that bring them to the width. -/
def padded (align : Bool) (left right : Byte) (width : ℕ) (digits : List Byte) : List Byte :=
  if align then List.replicate (width - digits.length) left ++ digits
  else digits ++ List.replicate (width - digits.length) right

lemma printDec_eq {fuel width : ℕ} {precision : Option ℕ} (value : BitVec 64) (fillZero align : Bool)
    (hwidth : width < 2 ^ 31) (hprecision : ∀ p ∈ precision, p ≤ 100) (hfuel : width < fuel) (o : Out σ) :
    printDec cb fuel value (BitVec.ofNat 32 width) fillZero align (precisionBits precision) o =
      some (o.puts cb (padded align (if fillZero then ch '0' else ch ' ') (if fillZero then ch '0' else ch ' ') width
        ((paddedDigits 10 (precision.getD 1) value.toNat).map (hexChar false)))) := by
  have hlen : (paddedDigits 10 (precision.getD 1) value.toNat).length ≤ 100 := by
    have hp : precision.getD 1 ≤ 100 := by
      cases precision with
      | none => decide
      | some p => exact hprecision p rfl
    have hdigits : (digitsOf 10 value.toNat).length ≤ 20 := by
      rw [length_digitsOf_le_iff (by decide)]
      have hlt := value.isLt
      omega
    rw [length_paddedDigits]
    omega
  have hlt : value.toNat < 10 ^ (paddedDigits 10 (precision.getD 1) value.toNat).length := by
    rw [← length_digitsOf_le_iff (by decide), length_paddedDigits]
    omega
  have htmp : decTmp (paddedDigits 10 (precision.getD 1) value.toNat).length value.toNat [] =
      (paddedDigits 10 (precision.getD 1) value.toNat).map (hexChar false) := by
    rw [decTmp_eq hlt, List.append_nil, paddedDigits_length]
    exact List.map_congr_left fun d hd => (hexChar_of_lt_ten false (paddedDigits_lt (by decide) hd)).symm
  have hlen' : ((paddedDigits 10 (precision.getD 1) value.toNat).map (hexChar false)).length =
      (paddedDigits 10 (precision.getD 1) value.toNat).length := List.length_map _
  rw [printDec, decDigits_eq value fun p hp => (hprecision p hp).trans_lt (by decide)]
  rw [toNat_ofNat_small (by omega), if_neg (by omega), htmp, padded, hlen']
  cases align with
  | true =>
    rw [if_pos rfl, if_pos rfl]
    have hleft : padLeft cb (if fillZero then ch '0' else ch ' ')
        (BitVec.ofNat 64 (paddedDigits 10 (precision.getD 1) value.toNat).length) (BitVec.ofNat 32 width) fuel 0 o =
          _ := padLeft_eq cb _ (by omega) hwidth (Nat.zero_le _) (by omega) o
    rw [hleft, Option.map_some, puts_puts, Nat.add_zero]
  | false =>
    rw [if_neg Bool.false_ne_true, if_neg Bool.false_ne_true, BitVec.setWidth_ofNat_of_le (by decide),
      padRight_eq cb _ hwidth (by omega) (by omega), puts_puts]

lemma printHex_eq {width : ℕ} (value : BitVec 64) (fillZero caps align : Bool) (hwidth : width < 2 ^ 31) (o : Out σ) :
    printHex cb value (BitVec.ofNat 32 width) fillZero false caps align o =
      o.puts cb (padded align (if fillZero then ch '0' else ch ' ') (ch ' ') width
        ((paddedDigits 16 1 value.toNat).map (hexChar caps))) := by
  have hcount : hexWidth value 16 0x0f 1 = (paddedDigits 16 1 value.toNat).length :=
    (hexWidth_eq (n := 1) one_pos (le_max_left _ _) (by decide)).trans (length_paddedDigits 16 1 value.toNat).symm
  have hlt : value.toNat < 16 ^ (paddedDigits 16 1 value.toNat).length := by
    rw [← length_digitsOf_le_iff (by decide), length_paddedDigits]
    exact le_max_right _ _
  have hpad : ((BitVec.ofNat 32 width).toInt - ((paddedDigits 16 1 value.toNat).length + 2 * false.toNat)).toNat =
      width - (paddedDigits 16 1 value.toNat).length := by
    rw [toInt_ofNat_int hwidth]
    change ((width : ℤ) - ((_ : ℤ) + 2 * (0 : ℕ))).toNat = _
    omega
  rw [printHex, hcount]
  rw [hpad, hexDigits_eq caps hlt, paddedDigits_length, padded, List.length_map]
  cases fillZero <;> cases align <;> simp [puts_puts]

end Printing

namespace IntegerFormat
variable (c : IntegerFormat) (value : BitVec 64)

/-- The sign that the code prints. -/
def printedSign : List Byte :=
  if c.letter ≠ .d then []
  else if value.toInt < 0 then [ch '-']
  else (lastSign c.flags).elim [] fun f => [if f = .space then ch ' ' else ch '+']

def fill : Byte := if .zero ∈ c.flags then ch '0' else ch ' '

/-- What the code prints. -/
def output : List Byte :=
  if c.letter.base = 16 then
    padded (.minus ∉ c.flags) c.fill (ch ' ') c.width
      ((paddedDigits 16 1 (c.magnitude value)).map (hexChar (c.letter = .X)))
  else c.printedSign value ++ padded (.minus ∉ c.flags) c.fill c.fill c.width (c.digits value)

end IntegerFormat

section Run
variable {σ : Type} (cb : σ → Byte → σ) {fmt mem : Memory} {args : ℕ → BitVec 64} {a fuel : ℕ}

lemma slt_zero (value : BitVec 64) : value.slt 0 = true ↔ value.toInt < 0 := by
  rw [BitVec.slt_iff_toInt_lt]
  rfl

lemma toNat_abs_arg (value : BitVec 64) : (if value.slt 0 then -value else value).toNat = value.toInt.natAbs := by
  have hlt := value.isLt
  split_ifs with h <;> rw [slt_zero, BitVec.toInt_eq_toNat_cond] at h <;> rw [BitVec.toInt_eq_toNat_cond]
  · rw [BitVec.toNat_neg]
    split_ifs at h ⊢ <;> omega
  · split_ifs at h ⊢ <;> omega

lemma put_sign (c : IntegerFormat) (hd : c.letter = .d) (value : BitVec 64) (o : Out σ) :
    (if value.slt 0 then o.put cb (ch '-')
      else if c.parsed.alwaysSign ≠ 0 then o.put cb (if c.parsed.alwaysSign = 2 then ch ' ' else ch '+')
      else o) = o.puts cb (c.printedSign value) := by
  have hsign : c.parsed.alwaysSign = (lastSign c.flags).elim 0 fun f => if f = .space then 2 else 1 := rfl
  rw [IntegerFormat.printedSign, if_neg (not_not.mpr hd), hsign]
  simp only [slt_zero]
  by_cases hneg : value.toInt < 0
  · rw [if_pos hneg, if_pos hneg]
    rfl
  · rw [if_neg hneg, if_neg hneg]
    cases lastSign c.flags with
    | none => rfl
    | some f => cases f <;> rfl

lemma convert_integer (c : IntegerFormat) (hfuel : c.width < fuel) (o : Out σ) :
    convert cb mem args fuel c.letter.char a c.parsed o = some (some (a + 1), o.puts cb (c.output (args a))) := by
  have hwidth : c.width < 2 ^ 31 := c.width_le.trans_lt (by decide)
  have hprecision : ∀ p ∈ c.precision, p ≤ 100 := fun p hp => (c.precision_le p hp).trans (by decide)
  have hfill : (if c.parsed.fillZero then ch '0' else ch ' ') = c.fill := by
    simp [IntegerFormat.parsed, IntegerFormat.fill]
  have hdec : ∀ value o, printDec cb fuel value c.parsed.argWidth c.parsed.fillZero c.parsed.align c.parsed.precision
      o = some (o.puts cb (padded (.minus ∉ c.flags) c.fill c.fill c.width
        ((paddedDigits 10 (c.precision.getD 1) value.toNat).map (hexChar false)))) := by
    intro value o
    rw [← hfill]
    exact printDec_eq cb value _ _ hwidth hprecision hfuel o
  have hhex : ∀ caps, printHex cb (args a) c.parsed.argWidth c.parsed.fillZero false caps c.parsed.align o =
      o.puts cb (padded (.minus ∉ c.flags) c.fill (ch ' ') c.width
        ((paddedDigits 16 1 (args a).toNat).map (hexChar caps))) := by
    intro caps
    rw [← hfill]
    exact printHex_eq cb (args a) _ caps _ hwidth o
  have hsigned : signedArg c.parsed.big (args a) = args a := if_neg one_ne_zero
  have hunsigned : unsignedArg c.parsed.big (args a) = args a := if_neg one_ne_zero
  obtain ⟨letter, hletter⟩ : ∃ letter, c.letter = letter := ⟨_, rfl⟩
  cases letter with
  | d =>
    simp only [convert, hletter, Letter.char, show ch 'd' ≠ ch 's' by decide, show ch 'd' ≠ ch 'c' by decide,
      show ch 'd' ≠ ch 'p' by decide, show ch 'd' ≠ ch 'X' by decide, show ch 'd' ≠ ch 'x' by decide, or_true, or_self,
      if_true, if_false]
    rw [hsigned, put_sign cb c hletter, hdec, toNat_abs_arg, Option.map_some, puts_puts, IntegerFormat.output,
      IntegerFormat.digits, IntegerFormat.magnitude, hletter]
    rfl
  | u =>
    simp only [convert, hletter, Letter.char, show ch 'u' ≠ ch 's' by decide, show ch 'u' ≠ ch 'c' by decide,
      show ch 'u' ≠ ch 'p' by decide, show ch 'u' ≠ ch 'X' by decide, show ch 'u' ≠ ch 'x' by decide,
      show ch 'u' ≠ ch 'i' by decide, show ch 'u' ≠ ch 'd' by decide, or_self, if_true, if_false]
    rw [hunsigned, hdec, Option.map_some, IntegerFormat.output, IntegerFormat.digits, IntegerFormat.magnitude,
      IntegerFormat.printedSign, hletter]
    rfl
  | x =>
    simp only [convert, hletter, Letter.char, show ch 'x' ≠ ch 's' by decide, show ch 'x' ≠ ch 'c' by decide,
      show ch 'x' ≠ ch 'p' by decide, or_true, if_true, if_false]
    rw [hunsigned, IntegerFormat.output, IntegerFormat.magnitude, hletter]
    exact congrArg (fun o => some (some (a + 1), o)) (hhex false)
  | X =>
    simp only [convert, hletter, Letter.char, show ch 'X' ≠ ch 's' by decide, show ch 'X' ≠ ch 'c' by decide,
      show ch 'X' ≠ ch 'p' by decide, or_true, true_or, if_true, if_false]
    rw [hunsigned, IntegerFormat.output, IntegerFormat.magnitude, hletter]
    exact congrArg (fun o => some (some (a + 1), o)) (hhex true)

/-- The whole run, from the `%` to the end of the format. -/
lemma printfLoop_integer (c : IntegerFormat) (h : Text fmt 0 c.text) (hfuel : c.text.length + c.width + 1 < fuel)
    (o : Out σ) : printfLoop cb fmt mem args fuel 0 0 o = some (o.puts cb (c.output (args 0))) := by
  obtain ⟨fuel, rfl⟩ := Nat.exists_eq_add_of_le' (show 2 ≤ fuel by omega)
  obtain ⟨g, hparsed, hletter⟩ := parseConversion_text args 0 c h (show _ < fuel + 1 by omega)
  have hpercent : fmt 0 = ch '%' := h.head
  have hend : fmt (g + 1) = 0 := hletter.tail.eq_headD
  rw [printfLoop, hpercent, if_neg (by decide), if_neg (not_not.mpr rfl), hparsed, Option.bind_some]
  dsimp only
  rw [hletter.head, convert_integer cb c (by omega), Option.bind_some]
  dsimp only
  rw [printfLoop, if_pos hend]

end Run

section Standard
variable {fmt mem : Memory} {args : ℕ → BitVec 64}

/-- With enough fuel, the run hands over `S`, and all of it is counted. -/
def Prints (fmt mem : Memory) (args : ℕ → BitVec 64) (S : List Byte) : Prop :=
  ∀ᶠ fuel in atTop, HandsOver fmt mem args fuel S 0

lemma prints_output (c : IntegerFormat) (h : Text fmt 0 c.text) (mem : Memory) (args : ℕ → BitVec 64) :
    Prints fmt mem args (c.output (args 0)) := by
  filter_upwards [eventually_gt_atTop (c.text.length + c.width + 1)] with fuel hfuel
  refine ⟨(c.output (args 0)).length, ?_⟩
  rw [printfLoop_integer collect c h hfuel, puts_eq_emit, Out.emit, collect_foldl]
  simp [Emission.counted]

lemma Prints.unique {S S' : List Byte} (h : Prints fmt mem args S) (h' : Prints fmt mem args S') : S = S' := by
  obtain ⟨fuel, ⟨w, hw⟩, w', hw'⟩ := (h.and h').exists
  exact congrArg Out.cd (Option.some.inj (hw.symm.trans hw'))

/-- The code does what the C standard demands. -/
def IntegerFormat.Conforms (c : IntegerFormat) (value : BitVec 64) : Prop :=
  if c.letter.base = 16 then
    c.precision = none ∨ (c.digits value).length =
      max (if .zero ∈ c.flags ∧ .minus ∉ c.flags then c.width else 1)
        (max 1 (digitsOf 16 (c.magnitude value)).length)
  else
    (c.letter = .d → 0 ≤ value.toInt → .plus ∈ c.flags → lastSign c.flags = some .plus) ∧
      (c.width ≤ (c.digits value).length ∨
        c.sign value = [] ∧ (.zero ∈ c.flags → .minus ∉ c.flags ∧ c.precision = none))

lemma padded_of_le {width : ℕ} {digits : List Byte} (h : width ≤ digits.length) (align : Bool) (left right : Byte) :
    padded align left right width digits = digits := by
  simp [padded, Nat.sub_eq_zero_of_le h]

lemma length_padded (align : Bool) (left right : Byte) (width : ℕ) (digits : List Byte) :
    (padded align left right width digits).length = max width digits.length := by
  cases align <;> simp [padded] <;> omega

lemma replicate_inj {n : ℕ} (hn : 0 < n) {c c' : Byte} : List.replicate n c = List.replicate n c' ↔ c = c' := by
  constructor
  · intro h
    exact List.eq_of_mem_replicate (h ▸ List.mem_replicate.mpr ⟨hn.ne', rfl⟩)
  · rintro rfl
    rfl

lemma padded_inj {width : ℕ} {digits : List Byte} (h : digits.length < width) (align : Bool)
    (left right left' right' : Byte) : padded align left right width digits = padded align left' right' width digits ↔
      if align then left = left' else right = right' := by
  cases align
  · simp only [padded, Bool.false_eq_true, if_false, List.append_cancel_left_eq]
    exact replicate_inj (Nat.sub_pos_of_lt h)
  · simp only [padded, if_true, List.append_cancel_right_eq]
    exact replicate_inj (Nat.sub_pos_of_lt h)

/-- Zeros before the digits are a precision. -/
lemma padded_zeros (base precision n width : ℕ) (caps : Bool) (right : Byte) :
    padded true (ch '0') right width ((paddedDigits base precision n).map (hexChar caps)) =
      (paddedDigits base (max width precision) n).map (hexChar caps) := by
  have hzero : hexChar caps 0 = ch '0' := by cases caps <;> rfl
  simp only [padded, if_true, paddedDigits, List.map_append, List.map_replicate, hzero, List.length_map,
    List.length_append, List.length_replicate, ← List.append_assoc, List.replicate_append_replicate]
  congr 2
  omega

lemma hexChar_ne_space : ∀ d < 16, ∀ caps, hexChar caps d ≠ ch ' ' := by decide

lemma space_notMem {base : ℕ} (hbase : 1 < base) (hle : base ≤ 16) (precision n : ℕ) (caps : Bool) :
    ch ' ' ∉ (paddedDigits base precision n).map (hexChar caps) := by
  intro h
  obtain ⟨d, hd, heq⟩ := List.mem_map.mp h
  exact hexChar_ne_space d ((paddedDigits_lt hbase hd).trans_le hle) caps heq

lemma filter_digits {digits : List Byte} (h : ch ' ' ∉ digits) : digits.filter (· ≠ ch ' ') = digits :=
  List.filter_eq_self.mpr fun _ hc => decide_eq_true fun heq => h (heq ▸ hc)

/-- Without the spaces only the digits are left. -/
lemma filter_padded {digits : List Byte} (h : ch ' ' ∉ digits) (align : Bool) (width : ℕ) :
    (padded align (ch ' ') (ch ' ') width digits).filter (· ≠ ch ' ') = digits := by
  cases align <;>
    simp only [padded, Bool.false_eq_true, if_false, if_true, List.filter_append, filter_digits h] <;> simp

/-- The length tells how many zeros there are. -/
lemma paddedDigits_inj (base p q n : ℕ) (caps : Bool) :
    (paddedDigits base p n).map (hexChar caps) = (paddedDigits base q n).map (hexChar caps) ↔
      (paddedDigits base p n).length = (paddedDigits base q n).length := by
  constructor
  · intro h
    have hlen := congrArg List.length h
    rwa [List.length_map, List.length_map] at hlen
  · intro h
    rw [← paddedDigits_length base p n, h, paddedDigits_length]

lemma lastSign_none {flags : List Flag} : lastSign flags = none ↔ .plus ∉ flags ∧ .space ∉ flags := by
  rw [lastSign, List.getLast?_eq_none_iff, List.filter_eq_nil_iff]
  constructor
  · intro h
    exact ⟨fun hp => h .plus hp (by decide), fun hs => h .space hs (by decide)⟩
  · intro h f hf heq
    obtain rfl | rfl := of_decide_eq_true heq
    · exact h.1 hf
    · exact h.2 hf

lemma lastSign_some {flags : List Flag} {f : Flag} (h : lastSign flags = some f) :
    f ∈ flags ∧ (f = .plus ∨ f = .space) := by
  have hmem := List.mem_filter.mp (List.mem_of_getLast? h)
  exact ⟨hmem.1, of_decide_eq_true hmem.2⟩

/-- There is a sign where there has to be one; only which of `+` and space can be wrong. -/
lemma sign_cases (c : IntegerFormat) (value : BitVec 64) :
    (c.sign value).length = (c.printedSign value).length ∧
      (c.printedSign value = c.sign value ↔
        (c.letter = .d → 0 ≤ value.toInt → .plus ∈ c.flags → lastSign c.flags = some .plus)) := by
  rw [IntegerFormat.sign, IntegerFormat.printedSign]
  by_cases hd : c.letter = .d
  · rw [if_neg (not_not.mpr hd), if_neg (not_not.mpr hd)]
    by_cases hneg : value.toInt < 0
    · rw [if_pos hneg, if_pos hneg]
      exact ⟨rfl, iff_of_true rfl fun _ hle => absurd hle (not_le.mpr hneg)⟩
    rw [if_neg hneg, if_neg hneg]
    rw [not_lt] at hneg
    cases hlast : lastSign c.flags with
    | none =>
      obtain ⟨hp, hs⟩ := lastSign_none.mp hlast
      rw [if_neg hp, if_neg hs]
      exact ⟨rfl, iff_of_true rfl fun _ _ hplus => absurd hplus hp⟩
    | some f =>
      obtain ⟨hmem, rfl | rfl⟩ := lastSign_some hlast
      · rw [if_pos hmem]
        exact ⟨rfl, iff_of_true rfl fun _ _ _ => rfl⟩
      · by_cases hp : .plus ∈ c.flags
        · rw [if_pos hp]
          refine ⟨rfl, iff_of_false (by decide) fun h => ?_⟩
          cases h hd hneg hp
        · rw [if_neg hp, if_pos hmem]
          exact ⟨rfl, iff_of_true rfl fun _ _ hplus => absurd hplus hp⟩
  · rw [if_pos hd, if_pos hd]
    exact ⟨rfl, iff_of_true rfl fun h => absurd h hd⟩

section Conversion
variable (c : IntegerFormat) (value : BitVec 64)

lemma length_digits : (c.digits value).length =
    max (c.precision.getD 1) (digitsOf c.letter.base (c.magnitude value)).length := by
  rw [IntegerFormat.digits, List.length_map, length_paddedDigits]

/-- Without a sign the standard only chooses the padding. -/
lemma standard_unsigned (hsign : c.sign value = []) : c.standard value =
    padded (.minus ∉ c.flags) (if .zero ∈ c.flags ∧ c.precision = none then ch '0' else ch ' ') (ch ' ') c.width
      (c.digits value) := by
  rw [IntegerFormat.standard, IntegerFormat.unpadded, hsign, List.nil_append, padded]
  by_cases hminus : .minus ∈ c.flags
  · simp [hminus]
  · by_cases hzero : .zero ∈ c.flags ∧ c.precision = none <;> simp [hminus, hzero]

lemma standard_wide (h : c.width ≤ (c.digits value).length) :
    c.standard value = c.sign value ++ c.digits value := by
  have hlen : c.width - (c.unpadded value).length = 0 := by
    rw [IntegerFormat.unpadded, List.length_append]
    omega
  rw [IntegerFormat.standard, hlen]
  split_ifs <;> simp [IntegerFormat.unpadded]

lemma output_decimal (hbase : c.letter.base ≠ 16) : c.output value = c.standard value ↔
    (c.letter = .d → 0 ≤ value.toInt → .plus ∈ c.flags → lastSign c.flags = some .plus) ∧
      (c.width ≤ (c.digits value).length ∨
        c.sign value = [] ∧ (.zero ∈ c.flags → .minus ∉ c.flags ∧ c.precision = none)) := by
  obtain ⟨hlen, hsame⟩ := sign_cases c value
  rw [IntegerFormat.output, if_neg hbase, ← hsame]
  by_cases hwide : c.width ≤ (c.digits value).length
  · rw [standard_wide c value hwide, padded_of_le hwide, List.append_cancel_right_eq]
    exact (and_iff_left (Or.inl hwide)).symm
  by_cases hsign : c.sign value = []
  · have hprinted : c.printedSign value = [] := List.eq_nil_of_length_eq_zero (by rw [← hlen, hsign, List.length_nil])
    rw [standard_unsigned c value hsign, hprinted, hsign, List.nil_append, padded_inj (not_le.mp hwide)]
    simp only [hwide, true_and, false_or]
    by_cases hminus : .minus ∈ c.flags <;> by_cases hzero : .zero ∈ c.flags <;> by_cases hp : c.precision = none <;>
      simp [IntegerFormat.fill, hminus, hzero, hp] <;> decide
  · refine iff_of_false (fun heq => ?_) fun h => ?_
    · have hcount := congrArg List.length heq
      rw [IntegerFormat.length_standard, List.length_append, length_padded, IntegerFormat.unpadded, List.length_append,
        ← hlen] at hcount
      have hpos := List.length_pos_of_ne_nil hsign
      omega
    · obtain hle | ⟨hnil, -⟩ := h.2
      · exact hwide hle
      · exact hsign hnil

lemma output_hex (hbase : c.letter.base = 16) : c.output value = c.standard value ↔
    c.precision = none ∨ (c.digits value).length =
      max (if .zero ∈ c.flags ∧ .minus ∉ c.flags then c.width else 1)
        (max 1 (digitsOf 16 (c.magnitude value)).length) := by
  obtain ⟨n, hn⟩ : ∃ n, c.magnitude value = n := ⟨_, rfl⟩
  obtain ⟨caps, hcaps⟩ : ∃ caps, decide (c.letter = .X) = caps := ⟨_, rfl⟩
  have hletter : c.letter ≠ .d := fun hd => absurd (hd ▸ hbase) (by decide)
  have hdigits : c.digits value = (paddedDigits 16 (c.precision.getD 1) n).map (hexChar caps) := by
    rw [IntegerFormat.digits, hbase, hn, hcaps]
  have hspace : ∀ p, ch ' ' ∉ (paddedDigits 16 p n).map (hexChar caps) := fun p =>
    space_notMem (by decide) le_rfl p n caps
  rw [standard_unsigned c value (if_pos hletter), IntegerFormat.output, if_pos hbase, hn, hcaps, hdigits,
    List.length_map, length_paddedDigits]
  cases c.precision with
  | none =>
    refine iff_of_true ?_ (Or.inl rfl)
    simp [IntegerFormat.fill]
  | some p =>
    simp only [reduceCtorEq, and_false, if_false, false_or, Option.getD_some]
    by_cases hzeros : .zero ∈ c.flags ∧ .minus ∉ c.flags
    · have hfill : c.fill = ch '0' := if_pos hzeros.1
      rw [if_pos hzeros, hfill, decide_eq_true hzeros.2, padded_zeros]
      have hinj := paddedDigits_inj 16 (max c.width 1) p n caps
      rw [length_paddedDigits, length_paddedDigits] at hinj
      constructor
      · intro heq
        have hfilter := congrArg (List.filter (· ≠ ch ' ')) heq
        rw [filter_padded (hspace p), filter_digits (hspace (max c.width 1))] at hfilter
        have hlen := hinj.mp hfilter
        omega
      · intro hlen
        rw [padded_of_le (by rw [List.length_map, length_paddedDigits]; omega)]
        exact hinj.mpr (by omega)
    · have hleft : padded (.minus ∉ c.flags) c.fill (ch ' ') c.width ((paddedDigits 16 1 n).map (hexChar caps)) =
          padded (.minus ∉ c.flags) (ch ' ') (ch ' ') c.width ((paddedDigits 16 1 n).map (hexChar caps)) := by
        by_cases hminus : .minus ∈ c.flags
        · simp [padded, hminus]
        · rw [IntegerFormat.fill, if_neg fun hzero => hzeros ⟨hzero, hminus⟩]
      have hinj := paddedDigits_inj 16 1 p n caps
      rw [length_paddedDigits, length_paddedDigits] at hinj
      rw [if_neg hzeros, hleft]
      constructor
      · intro heq
        have hfilter := congrArg (List.filter (· ≠ ch ' ')) heq
        rw [filter_padded (hspace p), filter_padded (hspace 1)] at hfilter
        have hlen := hinj.mp hfilter
        omega
      · intro hlen
        rw [hinj.mpr (by omega)]

end Conversion

/-- The code prints what the C standard demands exactly if, in decimal, `+` is not followed by a space that wins, and
the digits fill the width or there is no sign and zeros are only asked for where they are due, and in hexadecimal, no
precision is given or it makes no difference. -/
theorem prints_standard_iff (c : IntegerFormat) {fmt : Memory} (h : Text fmt 0 c.text) (mem : Memory)
    (args : ℕ → BitVec 64) : Prints fmt mem args (c.standard (args 0)) ↔ c.Conforms (args 0) := by
  have houtput : Prints fmt mem args (c.standard (args 0)) ↔ c.output (args 0) = c.standard (args 0) := by
    constructor
    · exact fun hprints => (prints_output c h mem args).unique hprints
    · exact fun heq => heq ▸ prints_output c h mem args
  rw [houtput, IntegerFormat.Conforms]
  by_cases hbase : c.letter.base = 16
  · rw [if_pos hbase]
    exact output_hex c (args 0) hbase
  · rw [if_neg hbase]
    exact output_decimal c (args 0) hbase

/-- A format without flags and precision. -/
def plainFormat (letter : Letter) (width : ℕ) (h : width ≤ 64) : IntegerFormat where
  flags := []
  width := width
  precision := none
  letter := letter
  width_le := h
  precision_le := nofun

lemma text_getD (l : List Byte) : Text (fun k => l.getD k 0) 0 l := fun k _ => by rw [Nat.zero_add]

/-- `%5ld` with 3. -/
theorem prints_standard_positive : Prints (fun k => (plainFormat .d 5 (by decide)).text.getD k 0) (fun _ => 0)
    (fun _ => 3) ((plainFormat .d 5 (by decide)).standard 3) ∧
      (plainFormat .d 5 (by decide)).standard 3 = [ch ' ', ch ' ', ch ' ', ch ' ', ch '3'] := by
  refine ⟨(prints_standard_iff (plainFormat .d 5 (by decide)) (text_getD _) (fun _ => 0) (fun _ => 3)).mpr ?_, ?_⟩
  · exact ⟨nofun, Or.inr ⟨by decide, nofun⟩⟩
  · decide

/-- `%5ld` with -3: the spaces stand behind the sign, and they are one too many. -/
theorem prints_negative : Prints (fun k => (plainFormat .d 5 (by decide)).text.getD k 0) (fun _ => 0) (fun _ => -3)
      [ch '-', ch ' ', ch ' ', ch ' ', ch ' ', ch '3'] ∧
    ¬ Prints (fun k => (plainFormat .d 5 (by decide)).text.getD k 0) (fun _ => 0) (fun _ => -3)
      ((plainFormat .d 5 (by decide)).standard (-3)) := by
  have hprints := prints_output (plainFormat .d 5 (by decide)) (text_getD _) (fun _ => 0) (fun _ => -3)
  have houtput : (plainFormat .d 5 (by decide)).output (-3) = [ch '-', ch ' ', ch ' ', ch ' ', ch ' ', ch '3'] := by
    decide
  rw [houtput] at hprints
  refine ⟨hprints, fun hstandard => ?_⟩
  have heq := congrArg List.length (hprints.unique hstandard)
  revert heq
  decide

end Standard

end PiggyOs.Printf
