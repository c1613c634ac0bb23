import PiggyOs.PrintfIntegers
import PiggyOs.Strtox

/-! Numbers that are printed by `snprintf` and read back by `strtol` and `strtoul`. -/
namespace PiggyOs.Strtox
open ByteMemory Filter
open PiggyOs.Printf (Byte Text ch Letter plainFormat digitsOf paddedDigits hexChar vsnprintf)

section Printed
variable {base n : ℕ}

/-- The digits of a number, at least one. -/
def printed (base n : ℕ) : List Byte := (paddedDigits base 1 n).map (hexChar false)

lemma printed_zero (base : ℕ) : printed base 0 = [ch '0'] := by simp [printed, paddedDigits, hexChar, ch]

lemma printed_pos (hn : 0 < n) : printed base n = (digitsOf base n).map (hexChar false) := by
  have hpos : 1 ≤ (digitsOf base n).length := Printf.length_digitsOf_pos hn
  rw [printed, paddedDigits, Nat.sub_eq_zero_of_le hpos]
  rfl

lemma digitValue_hexChar : ∀ d < 16, digitValue (hexChar false d) = some d := by decide

lemma hexChar_facts : ∀ d < 16, isspace (hexChar false d) = false ∧ hexChar false d ≠ ch '-' ∧
    hexChar false d ≠ ch '+' ∧ hexChar false d ≠ 0 ∧ (hexChar false d = ch '0' ↔ d = 0) := by decide

lemma foldl_digits (hbase : 1 < base) (n : ℕ) : (digitsOf base n).foldl (fun v d => v * base + d) 0 = n := by
  induction n using Nat.strong_induction_on with
  | h n ih =>
    obtain rfl | hn := Nat.eq_zero_or_pos n
    · rw [Printf.digitsOf_zero]
      rfl
    · rw [Printf.digitsOf_pos hbase hn, List.foldl_append, ih (n / base) (Nat.div_lt_self hn hbase), List.foldl_cons,
        List.foldl_nil, Nat.div_add_mod']

lemma mem_printed {c : Byte} (hbase : 1 < base) (hc : c ∈ printed base n) : ∃ d < base, c = hexChar false d := by
  obtain ⟨d, hd, rfl⟩ := List.mem_map.mp hc
  exact ⟨d, Printf.paddedDigits_lt hbase hd, rfl⟩

lemma isDigit_printed (hbase : 1 < base) (hle : base ≤ 16) {c : Byte} (hc : c ∈ printed base n) : isDigit base c := by
  obtain ⟨d, hd, rfl⟩ := mem_printed hbase hc
  rw [isDigit, digitValue_hexChar d (hd.trans_le hle)]
  exact decide_eq_true hd

lemma numeral_printed (hbase : 1 < base) (hle : base ≤ 16) (n : ℕ) : numeral base (printed base n) = n := by
  obtain rfl | hn := Nat.eq_zero_or_pos n
  · rw [printed_zero, numeral, List.foldl_cons, List.foldl_nil, Nat.zero_mul]
    rfl
  · rw [printed_pos hn, numeral, List.foldl_map]
    have hdigit : ∀ v, ∀ d ∈ digitsOf base n, v * base + (digitValue (hexChar false d)).getD 0 = v * base + d := by
      intro v d hd
      rw [digitValue_hexChar d ((Printf.digitsOf_lt hbase hd).trans_le hle)]
      rfl
    rw [List.foldl_ext _ _ _ fun v d hd => hdigit v d hd, foldl_digits hbase]

lemma head_printed (hbase : 1 < base) (hle : base ≤ 16) (hn : 0 < n) :
    ∃ d < 16, d ≠ 0 ∧ (printed base n).headD 0 = hexChar false d := by
  have hne : digitsOf base n ≠ [] := List.ne_nil_of_length_pos (Printf.length_digitsOf_pos hn)
  have hdigits : Nat.digits base n ≠ [] := Nat.digits_ne_nil_iff_ne_zero.mpr hn.ne'
  have hhead : (digitsOf base n).head hne = (Nat.digits base n).getLast hdigits := List.head_reverse _
  refine ⟨(digitsOf base n).head hne, (Printf.digitsOf_lt hbase (List.head_mem hne)).trans_le hle, ?_, ?_⟩
  · rw [hhead]
    exact Nat.getLast_digit_ne_zero base hn.ne'
  · rw [printed_pos hn]
    obtain ⟨d, l, hl⟩ := List.exists_cons_of_ne_nil hne
    simp only [hl, List.map_cons, List.headD_cons, List.head_cons]

/-- In each of the bases that fit the digits, all of them are taken. -/
lemma taken_printed (hbase : 1 < base) (hle : base ≤ 16) {b : ℤ} (hb : b = base ∨ b = 0 ∧ base = 10) (n : ℕ) :
    (skipped b (printed base n)).2 + (taken b (printed base n)).length = (printed base n).length ∧
      (taken b (printed base n)).foldl (push (skipped b (printed base n)).1) 0 = BitVec.ofNat 64 n := by
  have hall : (printed base n).takeWhile (isValid base) = printed base n := by
    rw [List.takeWhile_eq_self_iff]
    intro c hc
    rw [isValid_eq ⟨hbase, by omega⟩]
    exact isDigit_printed hbase hle hc
  by_cases hskip : skipped b (printed base n) = ((base : ℤ), 0)
  · rw [taken, hskip, List.drop_zero, hall]
    refine ⟨Nat.zero_add _, ?_⟩
    have hfold := foldl_push base (fun c hc => isDigit_printed hbase hle (n := n) hc) 0
    exact hfold.trans (congrArg _ (numeral_printed hbase hle n))
  · obtain rfl | hn := Nat.eq_zero_or_pos n
    · rw [printed_zero] at hskip ⊢
      by_cases hzero : b = 0 ∨ b = 16
      · have hone : (skipped b [ch '0']).2 = 1 := by
          rw [skipped, if_pos ⟨hzero, rfl⟩]
          exact congrArg Prod.snd (if_neg (by decide))
        have hnil : taken b [ch '0'] = [] := by
          rw [taken, hone]
          rfl
        rw [hnil, hone]
        exact ⟨rfl, rfl⟩
      · refine absurd ?_ hskip
        rw [skipped, if_neg fun hc => hzero hc.1, if_neg fun h0 => hzero (Or.inl h0)]
        rw [hb.resolve_right fun h => hzero (Or.inl h.1)]
    · obtain ⟨d, hd, hne, hhead⟩ := head_printed hbase hle hn
      have hzero : (printed base n).headD 0 ≠ ch '0' := by
        rw [hhead]
        exact mt (hexChar_facts d hd).2.2.2.2.mp hne
      refine absurd ?_ hskip
      rw [skipped, if_neg fun hc => hzero hc.2]
      obtain rfl | ⟨rfl, rfl⟩ := hb
      · rw [if_neg (by omega)]
      · rfl

/-- A printed number, perhaps with a minus sign, is read back. -/
lemma strtox_printed (max : BitVec 64) {m : Memory} {p fuel : ℕ} (hbase : 1 < base) (hle : base ≤ 16) {b : ℤ}
    (hb : b = base ∨ b = 0 ∧ base = 10) {sign : List Byte} (hsign : sign = [] ∨ sign = [ch '-'])
    (h : Text m p (sign ++ printed base n)) (hfuel : (sign ++ printed base n).length < fuel) :
    strtox max m fuel p b = some ⟨if sign = [] then BitVec.ofNat 64 n else -BitVec.ofNat 64 n,
      some (p + (sign ++ printed base n).length), none⟩ := by
  have hzero : 0 ∉ sign ++ printed base n := by
    rw [List.mem_append, not_or]
    refine ⟨?_, fun hmem => ?_⟩
    · obtain rfl | rfl := hsign <;> decide
    · obtain ⟨d, hd, heq⟩ := mem_printed hbase hmem
      exact (hexChar_facts d (hd.trans_le hle)).2.2.2.1 heq.symm
  obtain ⟨d, hd, hhead⟩ : ∃ d < 16, (printed base n).headD 0 = hexChar false d := by
    obtain rfl | hn := Nat.eq_zero_or_pos n
    · exact ⟨0, by decide, by rw [printed_zero]; rfl⟩
    · obtain ⟨d, hd, -, hhead⟩ := head_printed hbase hle hn
      exact ⟨d, hd, hhead⟩
  have hne : printed base n ≠ [] := fun hnil => by
    rw [hnil] at hhead
    exact (hexChar_facts d hd).2.2.2.1 hhead.symm
  obtain ⟨c, l, hl⟩ := List.exists_cons_of_ne_nil hne
  rw [hl] at hhead
  obtain rfl : c = hexChar false d := hhead
  obtain ⟨hspace, hminus, hplus, -, -⟩ := hexChar_facts d hd
  have hspaces : (sign ++ printed base n).takeWhile isspace = [] ∧
      (sign ++ printed base n).dropWhile isspace = sign ++ printed base n := by
    rw [hl]
    obtain rfl | rfl := hsign
    · exact ⟨List.takeWhile_cons_of_neg (by rw [hspace]; exact Bool.false_ne_true),
        List.dropWhile_cons_of_neg (by rw [hspace]; exact Bool.false_ne_true)⟩
    · exact ⟨rfl, rfl⟩
  have hlength : signLength (sign ++ printed base n) = sign.length := by
    rw [hl, signLength]
    obtain rfl | rfl := hsign
    · exact if_neg fun hc => hc.elim hminus hplus
    · rfl
  have hsubject : subject (sign ++ printed base n) = printed base n := by
    rw [subject, signed, hspaces.2, hlength, List.drop_left]
  obtain ⟨hcount, hvalue⟩ := taken_printed hbase hle hb n
  rw [strtox_text (by omega) h hzero hfuel, hsubject, signed, hspaces.2, hspaces.1, hlength, hvalue, List.length_nil,
    List.length_append, ← hcount]
  obtain rfl | rfl := hsign
  · rw [hl, if_pos rfl, List.nil_append, List.headD_cons, if_neg hminus]
    simp [Nat.add_assoc]
  · rw [if_pos (show ([ch '-'] ++ printed base n).headD 0 = ch '-' from rfl), if_neg (List.cons_ne_nil _ _)]
    simp [Nat.add_assoc]

end Printed

/-- What is printed for a number, and read back from where it has been stored. -/
def RoundTrips (letter : Letter) (parse : Memory → ℕ → ℕ → ℤ → Option Result) (base : ℤ) (v : BitVec 64) : Prop :=
  ∀ (fmt mem stale : Memory) (args : ℕ → BitVec 64) (str : ℕ) (size : BitVec 64),
    Text fmt 0 (plainFormat letter 0 (by decide)).text → args 0 = v →
    ((plainFormat letter 0 (by decide)).output v).length < size.toNat →
    ∃ ret m e, (∀ᶠ fuel in atTop, vsnprintf fuel stale str size fmt mem args = some (ret, m)) ∧
      (∀ᶠ fuel in atTop, parse m fuel str base = some ⟨v, some e, none⟩) ∧ m e = 0 ∧ ∀ a, str ≤ a → a < e → m a ≠ 0

section Output
variable {fmt : Memory} {letter : Letter}

lemma output_signed (v : BitVec 64) : (plainFormat .d 0 (by decide)).output v =
    (if v.toInt < 0 then [ch '-'] else []) ++ printed 10 v.toInt.natAbs :=
  congrArg (fun l => _ ++ l) (Printf.padded_of_le (Nat.zero_le _) ..)

lemma output_unsigned (v : BitVec 64) : (plainFormat .u 0 (by decide)).output v = printed 10 v.toNat :=
  congrArg (fun l => [] ++ l) (Printf.padded_of_le (Nat.zero_le (printed 10 v.toNat).length) ..)

lemma output_hexadecimal (v : BitVec 64) : (plainFormat .x 0 (by decide)).output v = printed 16 v.toNat := by
  have hbase : (plainFormat .x 0 (by decide)).letter.base = 16 := rfl
  rw [Printf.IntegerFormat.output, if_pos hbase]
  exact Printf.padded_of_le (Nat.zero_le _) ..

lemma text_of_readBytes {m : Memory} {p : ℕ} {l : List Byte} (h : readBytes m p (l.length + 1) = l ++ [0]) :
    Text m p l := by
  intro k hk
  have hget := congrArg (fun l => l[k]?) h
  have hrange : (List.range (l.length + 1))[k]? = some k := by simp [Nat.lt_succ_of_le hk]
  simp only [readBytes, List.getElem?_map, hrange, Option.map_some] at hget
  obtain rfl | hlt := Nat.eq_or_lt_of_le hk
  · rw [List.getElem?_append_right le_rfl, Nat.sub_self] at hget
    rw [List.getD_eq_getElem?_getD, List.getElem?_eq_none le_rfl]
    exact Option.some.inj hget
  · rw [List.getElem?_append_left hlt] at hget
    rw [List.getD_eq_getElem?_getD, ← hget]
    rfl

/-- A buffer that is large enough holds what is printed. -/
lemma vsnprintf_text (h : Text fmt 0 (plainFormat letter 0 (by decide)).text) (mem stale : Memory)
    (args : ℕ → BitVec 64) (str : ℕ) {size : BitVec 64}
    (hne : (plainFormat letter 0 (by decide)).output (args 0) ≠ [])
    (hsize : ((plainFormat letter 0 (by decide)).output (args 0)).length < size.toNat) :
    ∃ ret m, (∀ᶠ fuel in atTop, vsnprintf fuel stale str size fmt mem args = some (ret, m)) ∧
      Text m str ((plainFormat letter 0 (by decide)).output (args 0)) := by
  obtain ⟨S, hS⟩ : ∃ S, (plainFormat letter 0 (by decide)).output (args 0) = S := ⟨_, rfl⟩
  have hprints := Printf.prints_output _ h mem args
  rw [hS] at hne hsize hprints ⊢
  have hnonzero : size ≠ 0 := by
    rintro rfl
    exact absurd hsize (Nat.not_lt_zero _)
  have hmin : min (size.toNat - 1) S.length = S.length := by omega
  refine ⟨BitVec.ofNat 32 (S.length - 0), Printf.limited stale str S S.length, ?_, ?_⟩
  · filter_upwards [hprints] with fuel hrun
    rw [vsnprintf, hrun.internal.2, Printf.snprintf_foldl stale str size hnonzero, hmin]
    rfl
  · apply text_of_readBytes
    rw [Printf.readBytes_limited stale str S le_rfl, List.take_length, if_neg (mt List.length_eq_zero_iff.mp hne)]

/-- Printing and reading back, for any call that reads the text back. -/
lemma roundTrips_of_parse {parse : Memory → ℕ → ℕ → ℤ → Option Result} {base : ℤ} {v : BitVec 64}
    (hne : (plainFormat letter 0 (by decide)).output v ≠ []) (hzero : 0 ∉ (plainFormat letter 0 (by decide)).output v)
    (h : ∀ m str fuel, Text m str ((plainFormat letter 0 (by decide)).output v) →
      ((plainFormat letter 0 (by decide)).output v).length < fuel → parse m fuel str base =
        some ⟨v, some (str + ((plainFormat letter 0 (by decide)).output v).length), none⟩) :
    RoundTrips letter parse base v := by
  intro fmt mem stale args str size hfmt hv hsize
  subst hv
  obtain ⟨ret, m, hprint, htext⟩ := vsnprintf_text hfmt mem stale args str hne hsize
  refine ⟨ret, m, _, hprint, (eventually_gt_atTop _).mono fun fuel hfuel => h m str fuel htext hfuel, ?_, ?_⟩
  · rw [htext _ le_rfl, List.getD_eq_getElem?_getD, List.getElem?_eq_none le_rfl]
    rfl
  · intro a ha hlt
    obtain ⟨k, rfl⟩ := Nat.exists_eq_add_of_le ha
    have hk := Nat.lt_of_add_lt_add_left hlt
    rw [htext k hk.le, List.getD_eq_getElem?_getD, List.getElem?_eq_getElem hk, Option.getD_some]
    exact ne_of_mem_of_not_mem (List.getElem_mem hk) hzero

end Output

lemma printed_ne_nil (base n : ℕ) : printed base n ≠ [] := by
  rw [printed, Ne, List.map_eq_nil_iff, ← List.length_eq_zero_iff, Printf.length_paddedDigits]
  omega

lemma zero_notMem_printed {base : ℕ} (hbase : 1 < base) (hle : base ≤ 16) (n : ℕ) : 0 ∉ printed base n := by
  intro hmem
  obtain ⟨d, hd, heq⟩ := mem_printed hbase hmem
  exact (hexChar_facts d (hd.trans_le hle)).2.2.2.1 heq.symm

lemma ofNat_natAbs (v : BitVec 64) :
    (if v.toInt < 0 then -BitVec.ofNat 64 v.toInt.natAbs else BitVec.ofNat 64 v.toInt.natAbs) = v := by
  have hofInt := BitVec.ofInt_toInt (x := v)
  split_ifs with hneg
  · rw [← BitVec.ofInt_natCast, ← BitVec.ofInt_neg, Int.ofNat_natAbs_of_nonpos hneg.le, neg_neg, hofInt]
  · rw [← BitVec.ofInt_natCast, Int.natAbs_of_nonneg (not_lt.mp hneg), hofInt]

/-- `strtol` reads back what `%ld` prints. -/
lemma roundTrips_signed {b : ℤ} (hb : b = 10 ∨ b = 0) (v : BitVec 64) : RoundTrips .d strtol b v := by
  have hbase : b = (10 : ℕ) ∨ b = 0 ∧ 10 = 10 := hb.imp_right fun h0 => ⟨h0, rfl⟩
  obtain ⟨sign, hsign, hcases, hvalue⟩ : ∃ sign, (if v.toInt < 0 then [ch '-'] else []) = sign ∧
      (sign = [] ∨ sign = [ch '-']) ∧
      (if sign = [] then BitVec.ofNat 64 v.toInt.natAbs else -BitVec.ofNat 64 v.toInt.natAbs) = v := by
    split_ifs with hneg
    · exact ⟨_, rfl, Or.inr rfl, (if_neg (List.cons_ne_nil _ _)).trans ((if_pos hneg).symm.trans (ofNat_natAbs v))⟩
    · exact ⟨_, rfl, Or.inl rfl, (if_pos rfl).trans ((if_neg hneg).symm.trans (ofNat_natAbs v))⟩
  refine roundTrips_of_parse ?_ ?_ fun m str fuel htext hfuel => ?_
  · rw [output_signed]
    exact List.append_ne_nil_of_right_ne_nil _ (printed_ne_nil 10 _)
  · rw [output_signed, hsign, List.mem_append, not_or]
    exact ⟨by obtain rfl | rfl := hcases <;> decide, zero_notMem_printed (by decide) (by decide) _⟩
  · rw [output_signed, hsign] at htext hfuel ⊢
    rw [strtol, strtox_printed _ (by decide) (by decide) hbase hcases htext hfuel, hvalue]

/-- `snprintf` with `%ld`, `%lu` and `%lx` and the call that reads the base of the conversion are inverse to each
other; the end that is found is the terminator. -/
theorem number_roundTrips (v : BitVec 64) : RoundTrips .d strtol 10 v ∧ RoundTrips .d strtol 0 v ∧
    RoundTrips .u strtoul 10 v ∧ RoundTrips .x strtoul 16 v := by
  refine ⟨roundTrips_signed (Or.inl rfl) v, roundTrips_signed (Or.inr rfl) v, ?_, ?_⟩
  · refine roundTrips_of_parse ?_ ?_ fun m str fuel htext hfuel => ?_ <;> rw [output_unsigned] at *
    · exact printed_ne_nil 10 _
    · exact zero_notMem_printed (by decide) (by decide) _
    · have hparse := strtox_printed 0xffffffffffffffff (b := 10) (by decide) (by decide) (Or.inl rfl)
        (Or.inl rfl) htext hfuel
      rw [if_pos rfl, BitVec.ofNat_toNat, BitVec.setWidth_eq] at hparse
      exact hparse
  · refine roundTrips_of_parse ?_ ?_ fun m str fuel htext hfuel => ?_ <;> rw [output_hexadecimal] at *
    · exact printed_ne_nil 16 _
    · exact zero_notMem_printed (by decide) (by decide) _
    · have hparse := strtox_printed 0xffffffffffffffff (b := 16) (by decide) (by decide) (Or.inl rfl)
        (Or.inl rfl) htext hfuel
      rw [if_pos rfl, BitVec.ofNat_toNat, BitVec.setWidth_eq] at hparse
      exact hparse

end PiggyOs.Strtox
