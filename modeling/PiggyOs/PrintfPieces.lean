import Mathlib.Data.List.GetD
import PiggyOs.PrintfIntegers

/-! Formats that are made of plain characters, `%c`, `%s`, `%d` and `%ld`, and what is printed for them. -/
namespace PiggyOs.Printf
open ByteMemory Filter

/-- A part of a format with its argument: `num true 2 n` is `%02d`, and `str i` is `%s` for the `i`-th string. -/
inductive Piece
  | lit (c : Char)
  | chr (c : Byte)
  | num (zero : Bool) (width : ℕ) (n : ℤ)
  | long (n : ℤ)
  | str (i : ℕ)

/-- The strings stand in memory one every 16 bytes. -/
def stringMemory (strings : List (List Byte)) : Memory := fun a => (strings.getD (a / 16 - 1) []).getD (a % 16) 0

def stringAddress (i : ℕ) : BitVec 64 := BitVec.ofNat 64 (16 * (i + 1))

/-- A decimal number; the sign is not counted in the width. -/
def number (fill : Byte) (width : ℕ) (n : ℤ) : List Byte :=
  (if n < 0 then [ch '-'] else []) ++ padded true fill fill width ((paddedDigits 10 1 n.natAbs).map (hexChar false))

namespace Piece
variable (strings : List (List Byte))

def text : Piece → List Byte
  | lit c => [ch c]
  | chr _ => [ch '%', ch 'c']
  | num zero width _ => ch '%' :: ((if zero then [Flag.zero] else []).map Flag.char ++ (decimal width ++ [ch 'd']))
  | long _ => [ch '%', ch 'l', ch 'd']
  | str _ => [ch '%', ch 's']

def arg : Piece → List (BitVec 64)
  | lit _ => []
  | chr c => [c.setWidth 64]
  | num _ _ n => [BitVec.ofInt 64 n]
  | long n => [BitVec.ofInt 64 n]
  | str i => [stringAddress i]

/-- What is printed, an `int` from the lower half of its argument. -/
def chars : Piece → List Byte
  | lit c => [ch c]
  | chr c => [c]
  | num zero width n => number (if zero then ch '0' else ch ' ') width (n.bmod (2 ^ 32))
  | long n => number (ch ' ') 0 (n.bmod (2 ^ 64))
  | str i => strings.getD i []

/-- `%c` is not counted. -/
def uncounted : Piece → ℕ
  | chr _ => 1
  | _ => 0

def Valid : Piece → Prop
  | lit c => ch c ≠ 0 ∧ ch c ≠ ch '%'
  | num _ width _ => width ≤ 64
  | str i => i < strings.length
  | _ => True

end Piece

def Short (strings : List (List Byte)) : Prop := strings.length < 2 ^ 32 ∧ ∀ s ∈ strings, 0 ∉ s ∧ s.length < 16

section Collect
variable {fmt mem : Memory} {args : ℕ → BitVec 64} {f a fuel : ℕ} {rest : List Byte} {strings : List (List Byte)}

lemma puts_collect (w k : ℕ) (l chars : List Byte) :
    (⟨w, k, l⟩ : Out (List Byte)).puts collect chars = ⟨w + chars.length, k, l ++ chars⟩ := by
  rw [puts_eq_emit, Out.emit, collect_foldl]
  rfl

lemma stringAt_address (hs : Short strings) {i : ℕ} (hi : i < strings.length) {k : ℕ} (hk : k < 16) :
    stringAt (stringMemory strings) (stringAddress i) k = (strings.getD i []).getD k 0 := by
  have hlt := hs.1
  have haddr : (stringAddress i).toNat = 16 * (i + 1) := by
    rw [stringAddress, BitVec.toNat_ofNat]
    omega
  have hne : stringAddress i ≠ 0 := by
    intro h
    rw [h] at haddr
    exact absurd haddr (by change 0 ≠ _; omega)
  rw [stringAt, if_neg hne, haddr, stringMemory, show (16 * (i + 1) + k) / 16 - 1 = i by omega,
    show (16 * (i + 1) + k) % 16 = k by omega]

/-- A string without a width and a precision. -/
lemma putString_collect {s : Memory} {S : List Byte} (h : Text s 0 S) (hzero : 0 ∉ S) {j : ℕ} (hj : j ≤ S.length)
    (hf : S.length < fuel + j) (p : BitVec 32) (w k : ℕ) (l : List Byte) :
    ∃ w', putString collect s false 0 fuel j p ⟨w, k, l⟩ = some (S.length, ⟨w', k, l ++ S.drop j⟩) := by
  induction fuel generalizing j p w l with
  | zero => omega
  | succ fuel ih =>
    have hchar : s j = S.getD j 0 := by
      have := h j hj
      rwa [Nat.zero_add] at this
    rw [putString, hchar]
    obtain rfl | hlt := Nat.eq_or_lt_of_le hj
    · rw [List.getD_eq_default _ _ le_rfl, if_neg (by simp), List.drop_length, List.append_nil]
      exact ⟨w, rfl⟩
    · have hne : S.getD j 0 ≠ 0 := by
        rw [List.getD_eq_getElem _ _ hlt]
        exact fun h0 => hzero (h0 ▸ List.getElem_mem hlt)
      rw [if_pos ⟨hne, by simp⟩, if_neg (by simp)]
      obtain ⟨w', hrun⟩ := ih (j := j + 1) hlt (by omega) (p - 1) (w + 1) (l ++ [S.getD j 0])
      refine ⟨w', hrun.trans ?_⟩
      rw [List.drop_eq_getElem_cons hlt, List.append_assoc, List.getD_eq_getElem _ _ hlt]
      rfl

lemma parseLength_none (v : Conversion) (hl : fmt f ≠ ch 'l') (hz : fmt f ≠ ch 'z') (ht : fmt f ≠ ch 't') :
    parseLength fmt f v = (f, v) := by simp [parseLength, hl, hz, ht]

/-- Characters that are not taken for flags, for a width, a precision or a length. -/
def Ends (c : Byte) : Prop := c ∉ flagChars ∧ ¬ (48 ≤ c.toNat ∧ c.toNat ≤ 57) ∧ c ≠ ch '.' ∧ c ≠ ch 'l' ∧ c ≠ ch 'z' ∧
  c ≠ ch 't'

lemma ends_letters : Ends (ch 'd') ∧ Ends (ch 'c') ∧ Ends (ch 's') := by
  unfold Ends
  decide

/-- The conversion that stands for a width in digits and perhaps a zero. -/
lemma parseConversion_width (zero : Bool) (width : ℕ) {letter : Byte} (hends : Ends letter) (args : ℕ → BitVec 64)
    (a : ℕ) (h : Text fmt f (((if zero then [Flag.zero] else []).map Flag.char ++ (decimal width ++ (letter :: rest)))))
    (hfuel : (decimal width).length + 2 < fuel) :
    ∃ g, parseConversion fmt args fuel f a =
        some (g, a, ⟨BitVec.ofNat 32 width, true, zero, 0, false, 0, -1⟩) ∧ Text fmt g (letter :: rest) := by
  obtain ⟨hflags, hdigits, hdot, hl, hz, ht⟩ := hends
  have hwidth := h.drop
  rw [List.length_map] at hwidth
  have hletter := hwidth.drop
  obtain ⟨g, hg⟩ : ∃ g, f + (if zero then [Flag.zero] else []).length + (decimal width).length = g := ⟨_, rfl⟩
  rw [hg] at hletter
  have hhead : (decimal width ++ (letter :: rest)).headD 0 ∉ flagChars := by
    obtain h0 | hpos := Nat.eq_zero_or_pos width
    · rwa [h0, decimal_zero, List.nil_append, List.headD_cons]
    · exact head_decimal_append hpos _
  have hlength : (if zero then [Flag.zero] else []).length < fuel := by
    cases zero
    · change 0 < fuel
      omega
    · change 1 < fuel
      omega
  refine ⟨g, ?_, hletter⟩
  rw [parseConversion, parseFlags_text h hhead _ hlength, Option.bind_some]
  dsimp only
  rw [foldl_apply]
  dsimp only
  rw [parseDigits_decimal hwidth hdigits (by omega), Option.bind_some, hg]
  dsimp only
  rw [parsePrecision_none _ (by rwa [hletter.head]), Option.map_some]
  dsimp only
  rw [parseLength_none _ (by rwa [hletter.head]) (by rwa [hletter.head]) (by rwa [hletter.head])]
  cases zero <;> rfl

lemma parseConversion_plain {letter : Byte} (hends : Ends letter) (args : ℕ → BitVec 64) (a : ℕ)
    (h : Text fmt f (letter :: rest)) (hfuel : 2 < fuel) :
    ∃ g, parseConversion fmt args fuel f a = some (g, a, ⟨0, true, false, 0, false, 0, -1⟩) ∧
      Text fmt g (letter :: rest) := by
  have hempty : letter :: rest =
      (if false then [Flag.zero] else []).map Flag.char ++ (decimal 0 ++ (letter :: rest)) := by
    rw [decimal_zero]
    rfl
  rw [hempty] at h
  exact parseConversion_width false 0 hends args a h (by rwa [decimal_zero])

lemma length_decimal {width : ℕ} (h : width ≤ 64) : (decimal width).length ≤ 2 := by
  rw [decimal, List.length_map, length_digitsOf_le_iff (by decide)]
  omega

lemma parseConversion_long {letter : Byte} (hends : Ends letter) (args : ℕ → BitVec 64) (a : ℕ)
    (h : Text fmt f (ch 'l' :: letter :: rest)) (hfuel : 1 < fuel) :
    parseConversion fmt args fuel f a = some (f + 1, a, ⟨0, true, false, 1, false, 0, -1⟩) := by
  obtain ⟨fuel, rfl⟩ := Nat.exists_eq_add_one_of_ne_zero (Nat.ne_zero_of_lt hfuel)
  have hhead := h.head
  rw [parseConversion, parseFlags_stop _ (by rw [hhead]; decide), Option.bind_some]
  dsimp only
  rw [parseDigits_stop _ (by rw [hhead]; decide), Option.bind_some]
  dsimp only
  rw [parsePrecision_none _ (by rw [hhead]; decide), Option.map_some]
  dsimp only
  rw [parseLength_long _ h hends.2.2.2.1 hends.2.2.2.2.1 hends.2.2.2.2.2]

/-- The digits of a number behind its sign. -/
lemma convert_decimal (mem : Memory) (zero : Bool) {width big : ℕ} {n : ℤ} (hwidth : width ≤ 64) (hfuel : 64 < fuel)
    (hn : (signedArg big (args a)).toInt = n) (w k : ℕ) (l : List Byte) :
    ∃ w', convert collect mem args fuel (ch 'd') a ⟨BitVec.ofNat 32 width, true, zero, big, false, 0, -1⟩ ⟨w, k, l⟩ =
      some (some (a + 1), ⟨w', k, l ++ number (if zero then ch '0' else ch ' ') width n⟩) := by
  have hdec : ∀ value o, printDec collect fuel value (BitVec.ofNat 32 width) zero true (-1) o =
      some (o.puts collect (padded true (if zero then ch '0' else ch ' ') (if zero then ch '0' else ch ' ') width
        ((paddedDigits 10 1 value.toNat).map (hexChar false)))) := by
    intro value o
    have hprinted : printDec collect fuel value (BitVec.ofNat 32 width) zero true (precisionBits none) o = _ :=
      printDec_eq collect value zero true (by omega) (by simp) (by omega) o
    exact hprinted
  simp only [convert, show ch 'd' ≠ ch 's' by decide, show ch 'd' ≠ ch 'c' by decide, show ch 'd' ≠ ch 'p' by decide,
    show ch 'd' ≠ ch 'X' by decide, show ch 'd' ≠ ch 'x' by decide, or_true, or_self, if_true, if_false]
  rw [hdec, Option.map_some, toNat_abs_arg, hn, number]
  simp only [slt_zero, hn]
  by_cases hneg : n < 0
  · have hput : (⟨w, k, l⟩ : Out (List Byte)).put collect (ch '-') = ⟨w + 1, k, l ++ [ch '-']⟩ := rfl
    rw [if_pos hneg, if_pos hneg, hput, puts_collect, List.append_assoc]
    exact ⟨_, rfl⟩
  · rw [if_neg hneg, if_neg hneg, puts_collect]
    exact ⟨_, rfl⟩

/-- A conversion in a run. -/
lemma printfLoop_conversion {σ : Type} {cb : σ → Byte → σ} {g a' : ℕ} {v : Conversion} {o o' : Out σ}
    (hpercent : fmt f = ch '%') (hparse : parseConversion fmt args fuel (f + 1) a = some (g, a, v))
    (hconvert : convert cb mem args fuel (fmt g) a v o = some (some a', o')) :
    printfLoop cb fmt mem args (fuel + 1) f a o = printfLoop cb fmt mem args fuel (g + 1) a' o' := by
  have hzero : ch '%' ≠ 0 := by decide
  rw [printfLoop, hpercent, if_neg hzero, if_neg (not_not.mpr rfl), hparse, Option.bind_some]
  dsimp only
  rw [hconvert, Option.bind_some]

/-- An `int` is the lower half of its argument. -/
lemma toInt_int_arg (n : ℤ) : (signedArg 0 (BitVec.ofInt 64 n)).toInt = n.bmod (2 ^ 32) := by
  have hdvd : ((2 ^ 32 : ℕ) : ℤ) ∣ ((2 ^ 64 : ℕ) : ℤ) := by decide
  rw [signedArg, if_pos rfl, BitVec.toInt_signExtend_of_le (by decide), BitVec.toInt_setWidth, BitVec.toNat_ofInt,
    Int.toNat_of_nonneg (Int.emod_nonneg _ (by decide)), Int.bmod_eq_emod, Int.bmod_eq_emod,
    Int.emod_emod_of_dvd _ hdvd]

lemma printfLoop_piece (hs : Short strings) {p : Piece} (hp : p.Valid strings) (h : Text fmt f (p.text ++ rest))
    (hargs : ∀ x ∈ p.arg, args a = x) (hfuel : 80 < fuel) (w k : ℕ) (l : List Byte) :
    ∃ w' g, Text fmt g rest ∧ printfLoop collect fmt (stringMemory strings) args (fuel + 1) f a ⟨w, k, l⟩ =
      printfLoop collect fmt (stringMemory strings) args fuel g (a + p.arg.length)
        ⟨w', k + p.uncounted, l ++ p.chars strings⟩ := by
  obtain ⟨hd, hc, hstr⟩ := ends_letters
  cases p with
  | lit c =>
    have hchar : fmt f = ch c := h.head
    refine ⟨w + 1, f + 1, h.tail, ?_⟩
    rw [printfLoop, hchar, if_neg hp.1, if_pos hp.2]
    rfl
  | chr c =>
    obtain ⟨g, hparse, hg⟩ := parseConversion_plain hc args a h.tail (show 2 < fuel by omega)
    have harg : (args a).setWidth 8 = c := by
      rw [hargs _ (List.mem_singleton_self _)]
      exact BitVec.setWidth_setWidth_of_le _ (by decide)
    refine ⟨w, g + 1, hg.tail, ?_⟩
    refine printfLoop_conversion h.head hparse ?_
    rw [hg.head, convert, if_neg (by decide), if_pos rfl, harg]
    rfl
  | num zero width n =>
    have hlen := length_decimal hp
    rw [Piece.text, List.cons_append, List.append_assoc, List.append_assoc] at h
    obtain ⟨g, hparse, hg⟩ := parseConversion_width zero width hd args a h.tail (show _ < fuel by omega)
    have hn : (signedArg 0 (args a)).toInt = n.bmod (2 ^ 32) := by
      rw [hargs _ (List.mem_singleton_self _)]
      exact toInt_int_arg n
    obtain ⟨w', hconvert⟩ := convert_decimal (stringMemory strings) zero hp (show 64 < fuel by omega) hn w k l
    exact ⟨w', g + 1, hg.tail, printfLoop_conversion h.head hparse (hg.head ▸ hconvert)⟩
  | long n =>
    have hparse := parseConversion_long hd args a h.tail (show 1 < fuel by omega)
    have hn : (signedArg 1 (args a)).toInt = n.bmod (2 ^ 64) := by
      rw [hargs _ (List.mem_singleton_self _), signedArg, if_neg one_ne_zero, BitVec.toInt_ofInt]
    obtain ⟨w', hconvert⟩ :=
      convert_decimal (stringMemory strings) false (Nat.zero_le 64) (show 64 < fuel by omega) hn w k l
    exact ⟨w', _, h.tail.tail.tail, printfLoop_conversion h.head hparse (h.tail.tail.head ▸ hconvert)⟩
  | str i =>
    obtain ⟨g, hparse, hg⟩ := parseConversion_plain hstr args a h.tail (show 2 < fuel by omega)
    have hmem : strings.getD i [] ∈ strings := by
      rw [List.getD_eq_getElem _ _ hp]
      exact List.getElem_mem hp
    have htext : Text (stringAt (stringMemory strings) (args a)) 0 (strings.getD i []) := by
      intro j hj
      rw [hargs _ (List.mem_singleton_self _), Nat.zero_add]
      exact stringAt_address hs hp (hj.trans_lt (hs.2 _ hmem).2)
    have hshort := (hs.2 _ hmem).2
    obtain ⟨w', hrun⟩ :=
      putString_collect htext (hs.2 _ hmem).1 (Nat.zero_le _) (show _ < fuel + 0 by omega) (-1) w k l
    refine ⟨w', g + 1, hg.tail, printfLoop_conversion h.head hparse ?_⟩
    rw [hg.head, convert, if_pos rfl, if_neg (not_not.mpr rfl)]
    dsimp only
    rw [show decide (0 ≤ (-1 : BitVec 32).toInt) = false from by decide, hrun, Option.map_some]
    have hpad : (0 : BitVec 32).toNat - (strings.getD i []).length = 0 := by
      rw [show (0 : BitVec 32).toNat = 0 from rfl, Nat.zero_sub]
    rw [hpad]
    rfl

lemma printfLoop_pieces (hs : Short strings) {pieces : List Piece} (hvalid : ∀ p ∈ pieces, p.Valid strings)
    (h : Text fmt f (pieces.flatMap Piece.text))
    (hargs : ∀ j < (pieces.flatMap Piece.arg).length, args (a + j) = (pieces.flatMap Piece.arg).getD j 0)
    (hfuel : pieces.length + 81 < fuel) (w k : ℕ) (l : List Byte) :
    ∃ w', printfLoop collect fmt (stringMemory strings) args fuel f a ⟨w, k, l⟩ =
      some ⟨w', k + (pieces.map Piece.uncounted).sum, l ++ pieces.flatMap (Piece.chars strings)⟩ := by
  induction pieces generalizing fuel f a w k l with
  | nil =>
    obtain ⟨fuel, rfl⟩ := Nat.exists_eq_add_one_of_ne_zero (Nat.ne_zero_of_lt hfuel)
    have hend : fmt f = 0 := h.eq_headD
    refine ⟨w, ?_⟩
    rw [printfLoop, if_pos hend]
    simp
  | cons p pieces ih =>
    obtain ⟨fuel, rfl⟩ := Nat.exists_eq_add_one_of_ne_zero (Nat.ne_zero_of_lt hfuel)
    rw [List.length_cons] at hfuel
    rw [List.flatMap_cons] at h hargs
    obtain ⟨hp, hrest⟩ := List.forall_mem_cons.mp hvalid
    have hfirst : ∀ x ∈ p.arg, args a = x := by
      intro x hx
      have hone : p.arg = [x] := by
        cases p <;> simp [Piece.arg] at hx ⊢ <;> exact hx.symm
      have := hargs 0 (by rw [hone, List.length_append, List.length_singleton]; omega)
      rwa [hone, Nat.add_zero] at this
    obtain ⟨w', g, hg, hrun⟩ := printfLoop_piece hs hp h hfirst (show 80 < fuel by omega) w k l
    have hothers : ∀ j < (pieces.flatMap Piece.arg).length,
        args (a + p.arg.length + j) = (pieces.flatMap Piece.arg).getD j 0 := by
      intro j hj
      have := hargs (p.arg.length + j) (by rw [List.length_append]; omega)
      rwa [List.getD_append_right _ _ _ _ (Nat.le_add_right _ _), Nat.add_sub_cancel_left, ← Nat.add_assoc] at this
    obtain ⟨w'', hdone⟩ := ih hrest hg hothers (show pieces.length + 81 < fuel by omega) w' (k + p.uncounted)
      (l ++ p.chars strings)
    refine ⟨w'', ?_⟩
    rw [hrun, hdone, List.map_cons, List.sum_cons, List.flatMap_cons, Nat.add_assoc, List.append_assoc]

end Collect

section Snprintf
variable {fuel : ℕ} {strings : List (List Byte)} {pieces : List Piece}

def formatOf (pieces : List Piece) : Memory := fun k => (pieces.flatMap Piece.text).getD k 0

def argsOf (pieces : List Piece) : ℕ → BitVec 64 := fun j => (pieces.flatMap Piece.arg).getD j 0

def charsOf (strings : List (List Byte)) (pieces : List Piece) : List Byte := pieces.flatMap (Piece.chars strings)

def uncountedOf (pieces : List Piece) : ℕ := (pieces.map Piece.uncounted).sum

lemma handsOver_pieces (hs : Short strings) (hvalid : ∀ p ∈ pieces, p.Valid strings)
    (hfuel : pieces.length + 81 < fuel) :
    HandsOver (formatOf pieces) (stringMemory strings) (argsOf pieces) fuel (charsOf strings pieces)
      (uncountedOf pieces) := by
  have htext : Text (formatOf pieces) 0 (pieces.flatMap Piece.text) := fun k _ => by rw [Nat.zero_add, formatOf]
  have hargs : ∀ j < (pieces.flatMap Piece.arg).length, argsOf pieces (0 + j) = (pieces.flatMap Piece.arg).getD j 0 :=
    fun j _ => congrArg (argsOf pieces) (Nat.zero_add j)
  obtain ⟨w, hrun⟩ := printfLoop_pieces hs hvalid htext hargs hfuel 0 0 []
  rw [Nat.zero_add, List.nil_append] at hrun
  exact ⟨w, hrun⟩

lemma snprintf_empty (stale : Memory) (str : ℕ) (S : List Byte) :
    S.foldl snprintfCallback ⟨stale, str, 0, 0⟩ = ⟨stale, str, 0, 0⟩ := by
  induction S with
  | nil => rfl
  | cons c S ih =>
    have hfull : ¬ (0 : BitVec 64) + 1 < 0 := by decide
    rw [List.foldl_cons, snprintfCallback_full _ _ hfull, ih]

/-- The characters that fit are stored, and all but those of `%c` are counted. -/
lemma vsnprintf_pieces (hs : Short strings) (hvalid : ∀ p ∈ pieces, p.Valid strings)
    (hfuel : pieces.length + 81 < fuel) (stale : Memory) (str : ℕ) (size : BitVec 64) :
    vsnprintf fuel stale str size (formatOf pieces) (stringMemory strings) (argsOf pieces) =
      some (BitVec.ofNat 32 ((charsOf strings pieces).length - uncountedOf pieces),
        limited stale str (charsOf strings pieces) (min (size.toNat - 1) (charsOf strings pieces).length)) := by
  obtain ⟨-, hinternal⟩ := (handsOver_pieces hs hvalid hfuel).internal
  rw [vsnprintf, hinternal]
  by_cases hsize : size = 0
  · subst hsize
    rw [snprintf_empty]
    rfl
  · rw [snprintf_foldl stale str size hsize]
    rfl

end Snprintf

end PiggyOs.Printf
