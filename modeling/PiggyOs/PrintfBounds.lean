import PiggyOs.PrintfDigits

/-! Which characters of the format `__printf_internal` reads, and which places of `tmp` `print_dec` accesses. -/
namespace PiggyOs.Printf
open ByteMemory

section Reads
variable (fmt : Memory) (args : ℕ → BitVec 64)

def flagReads : ℕ → ℕ → List ℕ
  | 0, _ => []
  | fuel + 1, f => f :: if fmt f ∈ flagChars then flagReads fuel (f + 1) else []

def digitReads : ℕ → ℕ → List ℕ
  | 0, _ => []
  | fuel + 1, f => f :: if 48 ≤ (fmt f).toNat ∧ (fmt f).toNat ≤ 57 then digitReads fuel (f + 1) else []

def precisionReads (fuel f : ℕ) : List ℕ :=
  f :: if fmt f = ch '.' then (f + 1) :: if fmt (f + 1) = ch '*' then [] else digitReads fmt fuel (f + 1) else []

def skip (c : Byte) (f : ℕ) : ℕ := if fmt f = c then f + 1 else f

def skipLong (f : ℕ) : ℕ := if fmt f = ch 'l' then skip fmt (ch 'l') (f + 1) else f

/-- The tests for `l`, `z` and `t`. -/
def lengthReads (f : ℕ) : List ℕ :=
  f :: ((if fmt f = ch 'l' then [f + 1] else []) ++ [skipLong fmt f, skip fmt (ch 'z') (skipLong fmt f)])

/-- The characters behind the `%` up to the letter. -/
def conversionReads (fuel f a : ℕ) : List ℕ :=
  flagReads fmt fuel f ++ (parseFlags fmt args fuel f a ⟨0, true, false, 0, false, 0, -1⟩).elim [] fun r =>
    digitReads fmt fuel r.1 ++ (parseDigits fmt fuel r.1 r.2.2.argWidth).elim [] fun d =>
      precisionReads fmt fuel d.1 ++
        (parsePrecision fmt args fuel d.1 r.2.1 { r.2.2 with argWidth := d.2 }).elim [] fun p =>
          lengthReads fmt p.1 ++ [(parseLength fmt p.1 p.2.2).1]

/-- The characters that one round of the loop reads. -/
def formatReads (fuel f a : ℕ) : List ℕ :=
  f :: if fmt f = ch '%' then conversionReads fmt args fuel (f + 1) a else []

/-- The loop before the digits comes first if they stand on the right. -/
def digitIndices (fuel : ℕ) (value : BitVec 64) (width : BitVec 32) (fillZero alignRight : Bool)
    (precision : BitVec 32) : List ℕ :=
  let nWidth := decDigits value precision
  if alignRight then
    (padLeft (fun _ _ => ()) (if fillZero then ch '0' else ch ' ') nWidth width fuel 0 ⟨0, 0, ()⟩).elim []
      fun _ => List.range nWidth.toNat
  else List.range nWidth.toNat

/-- The value that `print_dec` is given. -/
def decValue (letter : Byte) (big : ℕ) (arg : BitVec 64) : BitVec 64 :=
  if letter = ch 'u' then unsignedArg big arg
  else if (signedArg big arg).slt 0 then -signedArg big arg else signedArg big arg

/-- The places of `tmp` that one round of the loop accesses; `pad` is the fuel of `print_dec`. -/
def tmpIndices (fuel pad f a : ℕ) : List ℕ :=
  if fmt f = ch '%' then
    (parseConversion fmt args fuel (f + 1) a).elim [] fun r =>
      if fmt r.1 = ch 'i' ∨ fmt r.1 = ch 'd' ∨ fmt r.1 = ch 'u' then
        digitIndices pad (decValue (fmt r.1) r.2.2.big (args r.2.1)) r.2.2.argWidth r.2.2.fillZero r.2.2.align
          r.2.2.precision
      else []
  else []

/-- The loop stands before the character `f`, with `a` arguments used up. -/
inductive Reaches (mem : Memory) : ℕ → ℕ → Prop
  | start : Reaches mem 0 0
  | plain {f a : ℕ} (before : Reaches mem f a) (hend : fmt f ≠ 0) (hplain : fmt f ≠ ch '%') : Reaches mem (f + 1) a
  | conversion {f a g a1 a2 fuel : ℕ} {v : Conversion} {o : Out Unit} (before : Reaches mem f a)
      (hpercent : fmt f = ch '%')
      (hparse : parseConversion fmt args fuel (f + 1) a = some (g, a1, v))
      (hconvert : convert (fun _ _ => ()) mem args fuel (fmt g) a1 v ⟨0, 0, ()⟩ = some (some a2, o)) :
      Reaches mem (g + 1) a2

/-- The format ends at `n`, nothing behind it is read, and `tmp` is kept to. -/
def InBounds (mem : Memory) (n : ℕ) : Prop :=
  ∀ f a, Reaches fmt args mem f a → ∀ fuel pad,
    (∀ p ∈ formatReads fmt args fuel f a, p ≤ n) ∧ ∀ i ∈ tmpIndices fmt args fuel pad f a, i < 100

/-- No conversion ends with the format, and where a precision is used for digits, it is at most 100; -1 is none. -/
def Harmless (mem : Memory) : Prop :=
  ∀ f a fuel r, Reaches fmt args mem f a → fmt f = ch '%' → parseConversion fmt args fuel (f + 1) a = some r →
    fmt r.1 ≠ 0 ∧ ((fmt r.1 = ch 'i' ∨ fmt r.1 = ch 'd' ∨ fmt r.1 = ch 'u') →
      -1 ≤ r.2.2.precision.toInt ∧ r.2.2.precision.toInt ≤ 100)

end Reads

section Parser
variable {fmt fmt' : Memory} {args : ℕ → BitVec 64} {fuel f a n p : ℕ}

lemma next_le {c : Byte} (hend : fmt n = 0) (hf : f ≤ n) (hc : fmt f = c) (hne : c ≠ 0) : f + 1 ≤ n := by
  refine Nat.lt_of_le_of_ne hf ?_
  rintro rfl
  exact hne (hc.symm.trans hend)

lemma flagReads_le (hend : fmt n = 0) (hf : f ≤ n) (hp : p ∈ flagReads fmt fuel f) : p ≤ n := by
  induction fuel generalizing f with
  | zero => cases hp
  | succ fuel ih =>
    rw [flagReads, List.mem_cons] at hp
    obtain rfl | hp := hp
    · exact hf
    · split_ifs at hp with hflag
      · have hne : f ≠ n := by
          rintro rfl
          exact absurd (hend ▸ hflag) (by decide)
        exact ih (by omega) hp
      · cases hp

lemma parseFlags_le {v : Conversion} {r : ℕ × ℕ × Conversion} (hend : fmt n = 0) (hf : f ≤ n)
    (hr : parseFlags fmt args fuel f a v = some r) : r.1 ≤ n := by
  induction fuel generalizing f a v with
  | zero => cases hr
  | succ fuel ih =>
    obtain hlt | rfl := Nat.lt_or_eq_of_le hf
    · rw [parseFlags] at hr
      split_ifs at hr
      all_goals first | exact ih hlt hr | (obtain rfl := Option.some.inj hr; exact hf)
    · rw [parseFlags_stop v (by rw [hend]; decide)] at hr
      obtain rfl := Option.some.inj hr
      exact le_rfl

lemma digitReads_le (hend : fmt n = 0) (hf : f ≤ n) (hp : p ∈ digitReads fmt fuel f) : p ≤ n := by
  induction fuel generalizing f with
  | zero => cases hp
  | succ fuel ih =>
    rw [digitReads, List.mem_cons] at hp
    obtain rfl | hp := hp
    · exact hf
    · split_ifs at hp with hdigit
      · have hne : f ≠ n := by
          rintro rfl
          rw [hend] at hdigit
          exact absurd hdigit (by decide)
        exact ih (by omega) hp
      · cases hp

lemma parseDigits_le {w : BitVec 32} {r : ℕ × BitVec 32} (hend : fmt n = 0) (hf : f ≤ n)
    (hr : parseDigits fmt fuel f w = some r) : r.1 ≤ n := by
  induction fuel generalizing f w with
  | zero => cases hr
  | succ fuel ih =>
    obtain hlt | rfl := Nat.lt_or_eq_of_le hf
    · rw [parseDigits] at hr
      split_ifs at hr
      · exact ih hlt hr
      · obtain rfl := Option.some.inj hr
        exact hf
    · rw [parseDigits_stop w (by rw [hend]; decide)] at hr
      obtain rfl := Option.some.inj hr
      exact le_rfl

lemma precisionReads_le (hend : fmt n = 0) (hf : f ≤ n) (hp : p ∈ precisionReads fmt fuel f) : p ≤ n := by
  rw [precisionReads, List.mem_cons] at hp
  obtain rfl | hp := hp
  · exact hf
  · split_ifs at hp with hdot hstar
    · obtain rfl | hp := List.mem_cons.mp hp
      · exact next_le hend hf hdot (by decide)
      · cases hp
    · have hnext := next_le hend hf hdot (by decide)
      obtain rfl | hp := List.mem_cons.mp hp
      · exact hnext
      · exact digitReads_le hend hnext hp
    · cases hp

lemma parsePrecision_le {v : Conversion} {r : ℕ × ℕ × Conversion} (hend : fmt n = 0) (hf : f ≤ n)
    (hr : parsePrecision fmt args fuel f a v = some r) : r.1 ≤ n := by
  rw [parsePrecision] at hr
  split_ifs at hr with hdot hstar
  · obtain rfl := Option.some.inj hr
    exact next_le hend (next_le hend hf hdot (by decide)) hstar (by decide)
  · obtain ⟨d, hd, rfl⟩ := Option.map_eq_some_iff.mp hr
    exact parseDigits_le hend (next_le hend hf hdot (by decide)) hd
  · obtain rfl := Option.some.inj hr
    exact hf

lemma parseLength_fst (v : Conversion) :
    (parseLength fmt f v).1 = skip fmt (ch 't') (skip fmt (ch 'z') (skipLong fmt f)) := by
  simp only [parseLength, apply_ite Prod.fst]
  rfl

lemma skip_le {c : Byte} (hend : fmt n = 0) (hc : c ≠ 0) (hf : f ≤ n) : skip fmt c f ≤ n := by
  rw [skip]
  split_ifs with h
  · exact next_le hend hf h hc
  · exact hf

lemma skipLong_le (hend : fmt n = 0) (hf : f ≤ n) : skipLong fmt f ≤ n := by
  rw [skipLong]
  split_ifs with h
  · exact skip_le hend (by decide) (next_le hend hf h (by decide))
  · exact hf

lemma parseLength_le (hend : fmt n = 0) (hf : f ≤ n) (v : Conversion) : (parseLength fmt f v).1 ≤ n := by
  rw [parseLength_fst]
  exact skip_le hend (by decide) (skip_le hend (by decide) (skipLong_le hend hf))

lemma lengthReads_le (hend : fmt n = 0) (hf : f ≤ n) (hp : p ∈ lengthReads fmt f) : p ≤ n := by
  have hlong := skipLong_le hend hf
  have hsize : skip fmt (ch 'z') (skipLong fmt f) ≤ n := skip_le hend (by decide) hlong
  rw [lengthReads] at hp
  split_ifs at hp with h
  · have hnext := next_le hend hf h (by decide)
    simp only [List.cons_append, List.nil_append, List.mem_cons, List.not_mem_nil, or_false] at hp
    omega
  · simp only [List.nil_append, List.mem_cons, List.not_mem_nil, or_false] at hp
    omega

lemma parseConversion_eq_some {r : ℕ × ℕ × Conversion} : parseConversion fmt args fuel f a = some r ↔
    ∃ s d t, parseFlags fmt args fuel f a ⟨0, true, false, 0, false, 0, -1⟩ = some s ∧
      parseDigits fmt fuel s.1 s.2.2.argWidth = some d ∧
      parsePrecision fmt args fuel d.1 s.2.1 { s.2.2 with argWidth := d.2 } = some t ∧
      ((parseLength fmt t.1 t.2.2).1, t.2.1, (parseLength fmt t.1 t.2.2).2) = r := by
  simp only [parseConversion, Option.bind_eq_some_iff, Option.map_eq_some_iff]
  constructor
  · rintro ⟨s, hs, d, hd, t, ht, hr⟩
    exact ⟨s, d, t, hs, hd, ht, hr⟩
  · rintro ⟨s, d, t, hs, hd, ht, hr⟩
    exact ⟨s, hs, d, hd, t, ht, hr⟩

lemma parseConversion_le {r : ℕ × ℕ × Conversion} (hend : fmt n = 0) (hf : f ≤ n)
    (hr : parseConversion fmt args fuel f a = some r) : r.1 ≤ n := by
  obtain ⟨s, d, t, hs, hd, ht, rfl⟩ := parseConversion_eq_some.mp hr
  exact parseLength_le hend (parsePrecision_le hend (parseDigits_le hend (parseFlags_le hend hf hs) hd) ht) t.2.2

lemma mem_elim {α β : Type} {x : Option α} {l : α → List β} {b : β} : b ∈ x.elim [] l ↔ ∃ y, x = some y ∧ b ∈ l y := by
  cases x <;> simp

lemma conversionReads_le (hend : fmt n = 0) (hf : f ≤ n) (hp : p ∈ conversionReads fmt args fuel f a) : p ≤ n := by
  rw [conversionReads, List.mem_append, mem_elim] at hp
  obtain hp | ⟨s, hs, hp⟩ := hp
  · exact flagReads_le hend hf hp
  have hs1 := parseFlags_le hend hf hs
  rw [List.mem_append, mem_elim] at hp
  obtain hp | ⟨d, hd, hp⟩ := hp
  · exact digitReads_le hend hs1 hp
  have hd1 := parseDigits_le hend hs1 hd
  rw [List.mem_append, mem_elim] at hp
  obtain hp | ⟨t, ht, hp⟩ := hp
  · exact precisionReads_le hend hd1 hp
  have ht1 := parsePrecision_le hend hd1 ht
  rw [List.mem_append, List.mem_singleton] at hp
  obtain hp | rfl := hp
  · exact lengthReads_le hend ht1 hp
  · exact parseLength_le hend ht1 t.2.2

/-- The letter is read. -/
lemma letter_mem {r : ℕ × ℕ × Conversion} (hr : parseConversion fmt args fuel f a = some r) :
    r.1 ∈ conversionReads fmt args fuel f a := by
  obtain ⟨s, d, t, hs, hd, ht, rfl⟩ := parseConversion_eq_some.mp hr
  refine List.mem_append_right _ (mem_elim.mpr ⟨s, hs, ?_⟩)
  refine List.mem_append_right _ (mem_elim.mpr ⟨d, hd, ?_⟩)
  refine List.mem_append_right _ (mem_elim.mpr ⟨t, ht, ?_⟩)
  exact List.mem_append_right _ (List.mem_singleton.mpr rfl)

end Parser

section Influence
variable {fmt fmt' : Memory} {args : ℕ → BitVec 64} {fuel f a : ℕ}

lemma parseFlags_congr (h : ∀ p ∈ flagReads fmt fuel f, fmt' p = fmt p) (v : Conversion) :
    parseFlags fmt' args fuel f a v = parseFlags fmt args fuel f a v := by
  induction fuel generalizing f a v with
  | zero => rfl
  | succ fuel ih =>
    rw [flagReads, List.forall_mem_cons] at h
    by_cases hflag : fmt f ∈ flagChars
    · rw [if_pos hflag] at h
      simp only [parseFlags, h.1, ih h.2]
    · rw [parseFlags_stop v hflag, parseFlags_stop v (h.1.symm ▸ hflag)]

lemma parseDigits_congr (h : ∀ p ∈ digitReads fmt fuel f, fmt' p = fmt p) (w : BitVec 32) :
    parseDigits fmt' fuel f w = parseDigits fmt fuel f w := by
  induction fuel generalizing f w with
  | zero => rfl
  | succ fuel ih =>
    rw [digitReads, List.forall_mem_cons] at h
    by_cases hdigit : 48 ≤ (fmt f).toNat ∧ (fmt f).toNat ≤ 57
    · rw [if_pos hdigit] at h
      simp only [parseDigits, h.1, ih h.2]
    · rw [parseDigits_stop w hdigit, parseDigits_stop w (h.1.symm ▸ hdigit)]

lemma parsePrecision_congr (h : ∀ p ∈ precisionReads fmt fuel f, fmt' p = fmt p) (v : Conversion) :
    parsePrecision fmt' args fuel f a v = parsePrecision fmt args fuel f a v := by
  rw [precisionReads, List.forall_mem_cons] at h
  rw [parsePrecision, parsePrecision, h.1]
  by_cases hdot : fmt f = ch '.'
  · rw [if_pos hdot, List.forall_mem_cons] at h
    rw [if_pos hdot, if_pos hdot, h.2.1]
    by_cases hstar : fmt (f + 1) = ch '*'
    · rw [if_pos hstar, if_pos hstar]
    · rw [if_neg hstar] at h
      rw [if_neg hstar, if_neg hstar, parseDigits_congr h.2.2]
  · rw [if_neg hdot, if_neg hdot]

lemma parseLength_congr (h : ∀ p ∈ lengthReads fmt f, fmt' p = fmt p) (v : Conversion) :
    parseLength fmt' f v = parseLength fmt f v := by
  rw [lengthReads, List.forall_mem_cons, List.forall_mem_append, List.forall_mem_cons, List.forall_mem_singleton] at h
  obtain ⟨hf, hnext, hlong, hsize⟩ := h
  obtain ⟨r1, hr1⟩ : ∃ r1, (if fmt f = ch 'l' then
      if fmt (f + 1) = ch 'l' then (f + 2, { v with big := 2 }) else (f + 1, { v with big := 1 }) else (f, v)) = r1 :=
    ⟨_, rfl⟩
  have hr1' : (if fmt' f = ch 'l' then
      if fmt' (f + 1) = ch 'l' then (f + 2, { v with big := 2 }) else (f + 1, { v with big := 1 }) else (f, v)) =
        r1 := by
    rw [← hr1, hf]
    by_cases hl : fmt f = ch 'l'
    · rw [if_pos hl] at hnext
      rw [if_pos hl, if_pos hl, hnext (f + 1) (List.mem_singleton_self _)]
    · rw [if_neg hl, if_neg hl]
  have hfst : r1.1 = skipLong fmt f := by
    rw [← hr1, skipLong, skip, apply_ite Prod.fst, apply_ite Prod.fst]
  rw [← hfst] at hlong hsize
  obtain ⟨r2, hr2⟩ : ∃ r2, (if fmt r1.1 = ch 'z' then (r1.1 + 1, { r1.2 with big := 2 }) else r1) = r2 := ⟨_, rfl⟩
  have hsnd : r2.1 = skip fmt (ch 'z') r1.1 := by
    rw [← hr2, skip, apply_ite Prod.fst]
  simp only [parseLength, hr1, hr1', hlong, hr2]
  rw [hsnd, hsize]

lemma parseConversion_congr (h : ∀ p ∈ conversionReads fmt args fuel f a, fmt' p = fmt p) :
    parseConversion fmt' args fuel f a = parseConversion fmt args fuel f a := by
  rw [conversionReads, List.forall_mem_append] at h
  rw [parseConversion, parseConversion, parseFlags_congr h.1]
  cases hs : parseFlags fmt args fuel f a ⟨0, true, false, 0, false, 0, -1⟩ with
  | none => rfl
  | some s =>
    rw [hs, Option.elim_some, List.forall_mem_append] at h
    rw [Option.bind_some, Option.bind_some, parseDigits_congr h.2.1]
    cases hd : parseDigits fmt fuel s.1 s.2.2.argWidth with
    | none => rfl
    | some d =>
      rw [hd, Option.elim_some, List.forall_mem_append] at h
      rw [Option.bind_some, Option.bind_some, parsePrecision_congr h.2.2.1]
      cases ht : parsePrecision fmt args fuel d.1 s.2.1 { s.2.2 with argWidth := d.2 } with
      | none => rfl
      | some t =>
        rw [ht, Option.elim_some, List.forall_mem_append] at h
        rw [Option.map_some, Option.map_some, parseLength_congr h.2.2.2.1]

/-- Whether the loop goes on does not depend on the callback. -/
lemma convert_unit {σ : Type} (cb : σ → Byte → σ) {mem : Memory} {letter : Byte} {v : Conversion} {o o' : Out σ}
    {next : Option ℕ} (h : convert cb mem args fuel letter a v o = some (next, o')) :
    ∃ o1, convert (fun _ _ => ()) mem args fuel letter a v ⟨0, 0, ()⟩ = some (next, o1) := by
  obtain ⟨e, he⟩ := uniform_convert mem args fuel letter a v
  dsimp only at he
  rw [he] at h ⊢
  cases e with
  | none => cases h
  | some e =>
    obtain rfl : e.1 = next := congrArg Prod.fst (Option.some.inj h)
    exact ⟨_, rfl⟩

/-- What is not read has no influence. -/
theorem printfLoop_congr {σ : Type} (cb : σ → Byte → σ) {mem : Memory}
    (h : ∀ f a, Reaches fmt args mem f a → ∀ fuel, ∀ p ∈ formatReads fmt args fuel f a, fmt' p = fmt p)
    (before : Reaches fmt args mem f a) (o : Out σ) :
    printfLoop cb fmt' mem args fuel f a o = printfLoop cb fmt mem args fuel f a o := by
  induction fuel generalizing f a o with
  | zero => rfl
  | succ fuel ih =>
    have hreads := h f a before fuel
    rw [formatReads, List.forall_mem_cons] at hreads
    rw [printfLoop, printfLoop, hreads.1]
    by_cases hend : fmt f = 0
    · rw [if_pos hend, if_pos hend]
    rw [if_neg hend, if_neg hend]
    by_cases hpercent : fmt f = ch '%'
    · rw [if_pos hpercent] at hreads
      rw [if_neg (not_not.mpr hpercent), if_neg (not_not.mpr hpercent), parseConversion_congr hreads.2]
      cases hr : parseConversion fmt args fuel (f + 1) a with
      | none => rfl
      | some r =>
        rw [Option.bind_some, Option.bind_some, hreads.2 r.1 (letter_mem hr)]
        cases hq : convert cb mem args fuel (fmt r.1) r.2.1 r.2.2 o with
        | none => rfl
        | some q =>
          obtain ⟨next, o'⟩ := q
          cases next with
          | none => rfl
          | some a2 =>
            obtain ⟨o1, ho1⟩ := convert_unit cb hq
            exact ih (.conversion before hpercent hr ho1) o'
    · rw [if_pos hpercent, if_pos hpercent]
      exact ih (.plain before hend hpercent) _

end Influence

section Digits

lemma toNat_signExtend_int (precision : BitVec 32) : (precision.signExtend 64).toNat =
    if 0 ≤ precision.toInt then precision.toInt.toNat else 2 ^ 64 - precision.toInt.natAbs := by
  have hext : (precision.signExtend 64).toInt = precision.toInt := BitVec.toInt_signExtend_of_le (by decide)
  have hlow := BitVec.le_toInt precision
  have hhigh := BitVec.toInt_lt (x := precision)
  have hlt := (precision.signExtend 64).isLt
  rw [BitVec.toInt_eq_toNat_cond] at hext
  split_ifs at hext ⊢ <;> omega

/-- The digits of a number of 64 bits fit, so that only the precision counts. -/
lemma decDigits_max (value : BitVec 64) (precision : BitVec 32) : ∃ count ≤ 20, (decDigits value precision).toNat =
    max count ((if precision = -1 then 1 else precision).signExtend 64).toNat := by
  obtain ⟨count, hcount, hle⟩ : ∃ count : ℕ, (if value = 0 then (0 : BitVec 64) else
      BitVec.ofNat 64 (decWidth 20 value.toNat)) = BitVec.ofNat 64 count ∧ count ≤ 20 := by
    split_ifs with h0
    · exact ⟨0, rfl, Nat.zero_le _⟩
    · have hpos : 0 < value.toNat := Nat.pos_of_ne_zero fun hz => h0 (BitVec.eq_of_toNat_eq hz)
      have hlt := value.isLt
      refine ⟨_, rfl, ?_⟩
      rw [decWidth_eq hpos (by omega), length_digitsOf_le_iff (by decide)]
      omega
  have hnat : (BitVec.ofNat 64 count).toNat = count := toNat_ofNat_small (by omega)
  refine ⟨count, hle, ?_⟩
  obtain ⟨p, hp⟩ : ∃ p, (if precision = -1 then 1 else precision) = p := ⟨_, rfl⟩
  rw [decDigits, hcount, hp]
  split_ifs with hlt <;> rw [BitVec.lt_def, hnat] at hlt
  · rw [max_eq_right hlt.le]
  · rw [max_eq_left (not_lt.mp hlt), hnat]

lemma eq_neg_one_iff (precision : BitVec 32) : precision = -1 ↔ precision.toInt = -1 := by
  rw [← BitVec.toInt_inj]
  rfl

lemma decDigits_le (value : BitVec 64) {precision : BitVec 32} (hlow : -1 ≤ precision.toInt)
    (hhigh : precision.toInt ≤ 100) : (decDigits value precision).toNat ≤ 100 := by
  obtain ⟨count, hle, heq⟩ := decDigits_max value precision
  rw [heq, toNat_signExtend_int]
  by_cases hnone : precision = -1
  · rw [if_pos hnone]
    exact max_le (by omega) (by decide)
  · have hne := mt (eq_neg_one_iff precision).mpr hnone
    rw [if_neg hnone, if_pos (by omega)]
    omega

lemma decDigits_gt (value : BitVec 64) {precision : BitVec 32}
    (h : ¬ (-1 ≤ precision.toInt ∧ precision.toInt ≤ 100)) : 100 < (decDigits value precision).toNat ∧
      ((decDigits value precision).toNat < 2 ^ 31 ∨ 2 ^ 32 ≤ (decDigits value precision).toNat) := by
  obtain ⟨count, hle, heq⟩ := decDigits_max value precision
  have hlow := BitVec.le_toInt precision
  have hhigh := BitVec.toInt_lt (x := precision)
  have hne : ¬ precision = -1 := fun hnone => by
    rw [eq_neg_one_iff] at hnone
    omega
  rw [heq, toNat_signExtend_int, if_neg hne]
  split_ifs <;> omega

/-- The loop before the digits ends even where its counter overflows. -/
lemma padLeft_ends {σ : Type} (cb : σ → Byte → σ) (c : Byte) {nWidth : BitVec 64} (width : BitVec 32)
    (h : nWidth.toNat < 2 ^ 31 ∨ 2 ^ 32 ≤ nWidth.toNat) (o : Out σ) :
    ∃ fuel o', padLeft cb c nWidth width fuel 0 o = some o' := by
  have hstop : ∀ (printed : BitVec 32) (o : Out σ), ¬ nWidth + printed.signExtend 64 < width.setWidth 64 →
      ∃ fuel o', padLeft cb c nWidth width fuel printed o = some o' := fun printed o hlt => ⟨1, o, if_neg hlt⟩
  have hwidth : (width.setWidth 64).toNat < 2 ^ 32 := by
    rw [BitVec.toNat_setWidth]
    omega
  obtain hsmall | hlarge := h
  · suffices hall : ∀ k ≤ 2 ^ 31, ∀ o : Out σ,
        ∃ fuel o', padLeft cb c nWidth width fuel (BitVec.ofNat 32 (2 ^ 31 - k)) o = some o' from hall (2 ^ 31) le_rfl o
    intro k
    induction k with
    | zero =>
      intro _ o
      refine hstop _ o ?_
      have hext : ((BitVec.ofNat 32 (2 ^ 31 - 0)).signExtend 64).toNat = 2 ^ 64 - 2 ^ 31 := rfl
      rw [BitVec.lt_def, BitVec.toNat_add, hext]
      omega
    | succ k ih =>
      intro hk o
      by_cases hmore : nWidth + (BitVec.ofNat 32 (2 ^ 31 - (k + 1))).signExtend 64 < width.setWidth 64
      · obtain ⟨fuel, o', ho⟩ := ih (by omega) (o.put cb c)
        have hnext : BitVec.ofNat 32 (2 ^ 31 - (k + 1)) + 1 = BitVec.ofNat 32 (2 ^ 31 - k) := by
          rw [show 2 ^ 31 - k = 2 ^ 31 - (k + 1) + 1 by omega, BitVec.ofNat_add]
          rfl
        refine ⟨fuel + 1, o', ?_⟩
        rw [padLeft, if_pos hmore, hnext]
        exact ho
      · exact hstop _ o hmore
  · refine hstop 0 o ?_
    have hext : ((0 : BitVec 32).signExtend 64).toNat = 0 := rfl
    rw [BitVec.lt_def, BitVec.toNat_add, hext, Nat.add_zero, Nat.mod_eq_of_lt nWidth.isLt]
    omega

end Digits

section Bounds
variable {fmt mem : Memory} {args : ℕ → BitVec 64} {fuel pad f a n p : ℕ}

lemma mem_tmpIndices {r : ℕ × ℕ × Conversion} (hpercent : fmt f = ch '%')
    (hr : parseConversion fmt args fuel (f + 1) a = some r) {i : ℕ} : i ∈ tmpIndices fmt args fuel pad f a ↔
      (fmt r.1 = ch 'i' ∨ fmt r.1 = ch 'd' ∨ fmt r.1 = ch 'u') ∧
        i ∈ digitIndices pad (decValue (fmt r.1) r.2.2.big (args r.2.1)) r.2.2.argWidth r.2.2.fillZero r.2.2.align
          r.2.2.precision := by
  rw [tmpIndices, if_pos hpercent, hr, Option.elim_some]
  split_ifs with hletter
  · exact (and_iff_right hletter).symm
  · exact iff_of_false List.not_mem_nil fun h => hletter h.1

lemma lt_of_mem_digitIndices {value : BitVec 64} {width precision : BitVec 32} {fillZero alignRight : Bool} {i : ℕ}
    (hi : i ∈ digitIndices pad value width fillZero alignRight precision) : i < (decDigits value precision).toNat := by
  cases alignRight with
  | false => exact List.mem_range.mp hi
  | true =>
    obtain ⟨o, -, hi⟩ := mem_elim.mp hi
    exact List.mem_range.mp hi

/-- Each of the places is accessed, if the fuel is enough. -/
lemma exists_mem_digitIndices {value : BitVec 64} {precision : BitVec 32}
    (h : (decDigits value precision).toNat < 2 ^ 31 ∨ 2 ^ 32 ≤ (decDigits value precision).toNat) (width : BitVec 32)
    (fillZero alignRight : Bool) {i : ℕ} (hi : i < (decDigits value precision).toNat) :
    ∃ pad, i ∈ digitIndices pad value width fillZero alignRight precision := by
  cases alignRight with
  | false => exact ⟨0, List.mem_range.mpr hi⟩
  | true =>
    obtain ⟨pad, o, ho⟩ := padLeft_ends (fun _ _ => ()) (if fillZero then ch '0' else ch ' ') width h ⟨0, 0, ()⟩
    refine ⟨pad, ?_⟩
    rw [digitIndices, if_pos rfl]
    exact mem_elim.mpr ⟨o, ho, List.mem_range.mpr hi⟩

lemma reaches_le (hend : fmt n = 0) (hsound : Harmless fmt args mem) (h : Reaches fmt args mem f a) : f ≤ n := by
  induction h with
  | start => exact Nat.zero_le _
  | plain before hne hplain ih => exact next_le hend ih rfl hne
  | conversion before hpercent hparse hconvert ih =>
    have hg := parseConversion_le hend (next_le hend ih hpercent (by decide)) hparse
    exact next_le hend hg rfl (hsound _ _ _ _ before hpercent hparse).1

lemma formatReads_le (hend : fmt n = 0) (hf : f ≤ n) (hp : p ∈ formatReads fmt args fuel f a) : p ≤ n := by
  rw [formatReads, List.mem_cons] at hp
  obtain rfl | hp := hp
  · exact hf
  · split_ifs at hp with hpercent
    · exact conversionReads_le hend (next_le hend hf hpercent (by decide)) hp
    · cases hp

/-- The terminator is printed like any other character that is no letter of a conversion. -/
lemma Reaches.past {g a1 : ℕ} {v : Conversion} (before : Reaches fmt args mem f a) (hpercent : fmt f = ch '%')
    (hparse : parseConversion fmt args fuel (f + 1) a = some (g, a1, v)) (hzero : fmt g = 0) :
    Reaches fmt args mem (g + 1) a1 := by
  have hconvert : convert (fun _ _ => ()) mem args fuel (fmt g) a1 v ⟨0, 0, ()⟩ = some (some a1, ⟨1, 0, ()⟩) := by
    rw [hzero]
    rfl
  exact .conversion before hpercent hparse hconvert

/-- Nothing behind the format is read and `tmp` is kept to exactly if no conversion that is reached ends with the
format or asks for more than 100 digits. -/
theorem inBounds_iff (hend : fmt n = 0) (hbefore : ∀ k < n, fmt k ≠ 0) :
    InBounds fmt args mem n ↔ Harmless fmt args mem := by
  constructor
  · intro h f a fuel r before hpercent hr
    have hletter : r.1 ∈ formatReads fmt args fuel f a := by
      rw [formatReads, if_pos hpercent]
      exact List.mem_cons_of_mem _ (letter_mem hr)
    refine ⟨fun hzero => ?_, fun hdecimal => ?_⟩
    · have hle := (h f a before fuel 0).1 r.1 hletter
      have heq : r.1 = n := Nat.le_antisymm hle (not_lt.mp fun hlt => hbefore r.1 hlt hzero)
      have hpast := (h (r.1 + 1) r.2.1 (before.past hpercent hr hzero) 0 0).1 (r.1 + 1) (List.mem_cons_self ..)
      omega
    · by_contra hlarge
      obtain ⟨hgt, hrange⟩ := decDigits_gt (decValue (fmt r.1) r.2.2.big (args r.2.1)) hlarge
      obtain ⟨pad, hpad⟩ := exists_mem_digitIndices hrange r.2.2.argWidth r.2.2.fillZero r.2.2.align hgt
      exact lt_irrefl 100 ((h f a before fuel pad).2 100 ((mem_tmpIndices hpercent hr).mpr ⟨hdecimal, hpad⟩))
  · intro hsound f a before fuel pad
    refine ⟨fun p hp => formatReads_le hend (reaches_le hend hsound before) hp, fun i hi => ?_⟩
    by_cases hpercent : fmt f = ch '%'
    · cases hr : parseConversion fmt args fuel (f + 1) a with
      | none =>
        rw [tmpIndices, if_pos hpercent, hr] at hi
        cases hi
      | some r =>
        obtain ⟨hdecimal, hi⟩ := (mem_tmpIndices hpercent hr).mp hi
        obtain ⟨hlow, hhigh⟩ := (hsound f a fuel r before hpercent hr).2 hdecimal
        exact (lt_of_mem_digitIndices hi).trans_le (decDigits_le _ hlow hhigh)
    · rw [tmpIndices, if_neg hpercent] at hi
      cases hi

/-- Text behind the end of the format has no influence on a run that keeps to its bounds. -/
theorem InBounds.printfInternal {σ : Type} (cb : σ → Byte → σ) {fmt' : Memory} (h : InBounds fmt args mem n)
    (hsame : ∀ p ≤ n, fmt' p = fmt p) (cd : σ) :
    printfInternal cb fuel cd fmt' mem args = printfInternal cb fuel cd fmt mem args := by
  rw [Printf.printfInternal, Printf.printfInternal,
    printfLoop_congr cb (fun f a hf fuel p hp => hsame p ((h f a hf fuel 0).1 p hp)) .start]

lemma parse_decimal {r : ℕ × ℕ × Conversion}
    (hr : parseConversion (formatMemory ['%', 'd']) (fun _ => 7) fuel 1 0 = some r) :
    r = (1, 0, ⟨0, true, false, 0, false, 0, -1⟩) := by
  cases fuel with
  | zero => cases hr
  | succ fuel => exact (Option.some.inj hr).symm

lemma reaches_decimal (h : Reaches (formatMemory ['%', 'd']) (fun _ => 7) (fun _ => 0) f a) :
    f = 0 ∧ a = 0 ∨ f = 2 := by
  induction h with
  | start => exact Or.inl ⟨rfl, rfl⟩
  | plain before hend hplain ih =>
    obtain ⟨rfl, rfl⟩ | rfl := ih
    · exact absurd rfl hplain
    · exact absurd rfl hend
  | conversion before hpercent hparse hconvert ih =>
    obtain ⟨rfl, rfl⟩ | rfl := ih
    · obtain rfl := congrArg Prod.fst (parse_decimal hparse)
      exact Or.inr rfl
    · exact absurd hpercent (by decide)

/-- The format `%d` with 7. -/
theorem inBounds_iff_decimal : InBounds (formatMemory ['%', 'd']) (fun _ => 7) (fun _ => 0) 2 := by
  refine (inBounds_iff rfl fun k hk => ?_).mpr fun f a fuel r before hpercent hr => ?_
  · interval_cases k <;> decide
  · obtain ⟨rfl, rfl⟩ | rfl := reaches_decimal before
    · rw [parse_decimal hr]
      exact ⟨by decide, fun _ => by decide⟩
    · exact absurd hpercent (by decide)

/-- The format `%` is read past its end, and `%.101d` with zero starts to fill `tmp` behind its end. -/
theorem not_inBounds : ¬ InBounds (formatMemory ['%']) (fun _ => 0) (fun _ => 0) 1 ∧
    ¬ InBounds (formatMemory ['%', '.', '1', '0', '1', 'd']) (fun _ => 0) (fun _ => 0) 6 := by
  refine ⟨fun h => ?_, fun h => ?_⟩
  · have hparse : parseConversion (formatMemory ['%']) (fun _ => 0) 1 (0 + 1) 0 =
        some (1, 0, ⟨0, true, false, 0, false, 0, -1⟩) := rfl
    have hpast : Reaches (formatMemory ['%']) (fun _ => 0) (fun _ => 0) 2 0 := Reaches.past .start rfl hparse rfl
    exact absurd ((h 2 0 hpast 0 0).1 2 (List.mem_cons_self ..)) (by decide)
  · have hread : 100 ∈ tmpIndices (formatMemory ['%', '.', '1', '0', '1', 'd']) (fun _ => 0) 4 1 0 0 := by decide
    exact lt_irrefl 100 ((h 0 0 .start 4 1).2 100 hread)

end Bounds

end PiggyOs.Printf
