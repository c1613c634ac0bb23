import PiggyOs.NumberRoundTrip
import PiggyOs.Strftime

/-! The texts of the conversions of `strftime`: what they are made of, and where one of them ends. -/
namespace PiggyOs.Strftime
open ByteMemory Printf
open PiggyOs.Timegm (Tm timegm InInt)
open PiggyOs.Strtox (printed)

section Numbers
variable {fill : Byte} {w : ℕ} {n n' : ℤ} {c : Byte}

lemma number_eq (fill : Byte) (w : ℕ) (n : ℤ) : number fill w n = (if n < 0 then [ch '-'] else []) ++
    (List.replicate (w - (printed 10 n.natAbs).length) fill ++ printed 10 n.natAbs) := rfl

lemma mem_number (h : c ∈ number fill w n) : (n < 0 ∧ c = ch '-') ∨ c = fill ∨ ∃ d < 10, c = hexChar false d := by
  rw [number_eq, List.mem_append, List.mem_append] at h
  obtain h | h | h := h
  · split_ifs at h with hneg
    · exact Or.inl ⟨hneg, List.mem_singleton.mp h⟩
    · cases h
  · exact Or.inr (Or.inl (List.eq_of_mem_replicate h))
  · exact Or.inr (Or.inr (Strtox.mem_printed (by decide) h))

lemma number_ne_nil (fill : Byte) (w : ℕ) (n : ℤ) : number fill w n ≠ [] :=
  List.append_ne_nil_of_right_ne_nil _ (List.append_ne_nil_of_right_ne_nil _ (Strtox.printed_ne_nil 10 _))

lemma length_printed (n : ℕ) : (printed 10 n).length = max 1 (digitsOf 10 n).length := by
  rw [printed, List.length_map, length_paddedDigits]

lemma length_printed_le {k : ℕ} (hk : 1 ≤ k) {n : ℕ} : (printed 10 n).length ≤ k ↔ n < 10 ^ k := by
  rw [length_printed, max_le_iff, length_digitsOf_le_iff (by decide)]
  exact and_iff_right hk

lemma length_number_le (hw : w ≤ 64) (hn : n.natAbs < 2 ^ 64) : (number fill w n).length ≤ 100 := by
  have hdigits : (printed 10 n.natAbs).length ≤ 20 := (length_printed_le (by decide)).mpr (hn.trans (by decide))
  have hsign : (if n < 0 then [ch '-'] else []).length ≤ 1 := by split_ifs <;> decide
  rw [number_eq, List.length_append, List.length_append, List.length_replicate]
  omega

/-- A number that fits into the width is as long as the width. -/
lemma length_number {k : ℕ} (hk : 1 ≤ k) (hkw : w = k ∨ w = 0 ∧ k = 1) (hn : 0 ≤ n) (hlt : n < 10 ^ k) :
    (number fill w n).length = k := by
  have hle : (printed 10 n.natAbs).length ≤ k := (length_printed_le hk).mpr (by
    have : ((n.natAbs : ℕ) : ℤ) < ((10 ^ k : ℕ) : ℤ) := by
      rw [Int.natAbs_of_nonneg hn]
      exact_mod_cast hlt
    exact_mod_cast this)
  have hpos : 1 ≤ (printed 10 n.natAbs).length := List.length_pos_iff.mpr (Strtox.printed_ne_nil 10 _)
  rw [number_eq, if_neg (not_lt.mpr hn), List.nil_append, List.length_append, List.length_replicate]
  omega

end Numbers

/-- Whatever follows them, the texts can be told apart. -/
def Cancels (s t : List Byte) : Prop := ∀ r r', s ++ r = t ++ r' → s = t

section Cancellation
variable {s t u v : List Byte}

lemma Cancels.refl (s : List Byte) : Cancels s s := fun _ _ _ => rfl

lemma cancels_of_length (h : s.length = t.length) : Cancels s t := fun _ _ heq => (List.append_inj heq h).1

lemma Cancels.append (h : Cancels s t) (h' : Cancels u v) : Cancels (s ++ u) (t ++ v) := by
  intro r r' heq
  rw [List.append_assoc, List.append_assoc] at heq
  obtain rfl := h _ _ heq
  rw [h' _ _ (List.append_cancel_left heq)]

lemma cancels_of_head {c d : Byte} (h : c ≠ d) (s t : List Byte) : Cancels (c :: s) (d :: t) :=
  fun _ _ heq => absurd (List.cons.inj heq).1 h

lemma Cancels.symm (h : Cancels s t) : Cancels t s := fun r r' heq => (h r' r heq.symm).symm

lemma printed_times_ten {n : ℕ} (hn : 0 < n) : printed 10 (10 * n) = printed 10 n ++ [ch '0'] := by
  rw [Strtox.printed_pos hn, Strtox.printed_pos (by omega), digitsOf_pos (by decide) (by omega), List.map_append,
    Nat.mul_div_cancel_left n (by decide), Nat.mul_mod_right]
  rfl

lemma printed_inj {m n : ℕ} (h : printed 10 m = printed 10 n) : m = n := by
  have hnumeral := Strtox.numeral_printed (show 1 < 10 by decide) (show 10 ≤ 16 by decide)
  rw [← hnumeral m, h, hnumeral]

lemma length_printed_mono {m n : ℕ} (h : m ≤ n) : (printed 10 m).length ≤ (printed 10 n).length := by
  have hpos : 1 ≤ (printed 10 n).length := List.length_pos_iff.mpr (Strtox.printed_ne_nil 10 n)
  exact (length_printed_le hpos).mpr (h.trans_lt ((length_printed_le hpos).mp le_rfl))

/-- The next number is as long, or its first digits are not those of the number. -/
lemma cancels_printed (m : ℕ) : Cancels (printed 10 m) (printed 10 (m + 1)) := by
  intro r r' heq
  obtain ⟨k, hk⟩ : ∃ k, (printed 10 m).length = k := ⟨_, rfl⟩
  have hpos : 1 ≤ k := hk ▸ List.length_pos_iff.mpr (Strtox.printed_ne_nil 10 m)
  have hm : m < 10 ^ k := (length_printed_le hpos).mp hk.le
  obtain hsame | hnext := Nat.lt_or_ge (m + 1) (10 ^ k)
  · refine (List.append_inj heq ?_).1
    have hle := (length_printed_le hpos).mpr hsame
    have hge := length_printed_mono (Nat.le_add_right m 1)
    omega
  · have hpow : m + 1 = 10 * 10 ^ (k - 1) := by
      rw [← pow_succ', Nat.sub_add_cancel hpos]
      omega
    have hlen : (printed 10 m).length = (printed 10 (10 ^ (k - 1))).length := by
      have hle : (printed 10 (10 ^ (k - 1))).length ≤ k :=
        (length_printed_le hpos).mpr (Nat.pow_lt_pow_right (by decide) (by omega))
      have hlong : ¬ (printed 10 (10 ^ (k - 1))).length ≤ k - 1 := by
        intro hshort
        obtain hone | hmore := Nat.eq_or_lt_of_le hpos
        · have := List.length_pos_iff.mpr (Strtox.printed_ne_nil 10 (10 ^ (k - 1)))
          omega
        · exact absurd ((length_printed_le (by omega)).mp hshort) (lt_irrefl _)
      omega
    rw [hpow, printed_times_ten (Nat.pow_pos (by decide)), List.append_assoc] at heq
    have hm' := printed_inj (List.append_inj heq hlen).1
    have := Nat.pos_of_ne_zero (pow_ne_zero (k - 1) (show 10 ≠ 0 by decide))
    omega

/-- Digits that are filled up to the width. -/
def filled (fill : Byte) (w m : ℕ) : List Byte := List.replicate (w - (printed 10 m).length) fill ++ printed 10 m

lemma length_filled (fill : Byte) (w m : ℕ) : (filled fill w m).length = max w (printed 10 m).length := by
  rw [filled, List.length_append, List.length_replicate]
  omega

lemma cancels_filled_succ (fill : Byte) (w m : ℕ) : Cancels (filled fill w m) (filled fill w (m + 1)) := by
  by_cases hlen : (filled fill w m).length = (filled fill w (m + 1)).length
  · exact cancels_of_length hlen
  · rw [length_filled, length_filled] at hlen
    have hmono := length_printed_mono (Nat.le_add_right m 1)
    have hnext : (printed 10 (m + 1)).length ≤ (printed 10 m).length + 1 := by
      have hpos : 1 ≤ (printed 10 m).length := List.length_pos_iff.mpr (Strtox.printed_ne_nil 10 m)
      have hm := (length_printed_le hpos).mp le_rfl
      rw [length_printed_le (by omega), pow_succ]
      omega
    have hw : w - (printed 10 m).length = 0 ∧ w - (printed 10 (m + 1)).length = 0 := by omega
    rw [filled, filled, hw.1, hw.2]
    exact cancels_printed m

/-- Numbers with the same sign that both fit into the width or are next to each other. -/
lemma cancels_number {fill : Byte} {w : ℕ} {n n' : ℤ} (hfill : fill ≠ ch '-')
    (h : (n < 0 ↔ n' < 0) → (1 ≤ w ∧ n.natAbs < 10 ^ w ∧ n'.natAbs < 10 ^ w) ∨ n'.natAbs = n.natAbs ∨
      n'.natAbs = n.natAbs + 1 ∨ n.natAbs = n'.natAbs + 1) : Cancels (number fill w n) (number fill w n') := by
  have hdiffer : ∀ {a b : ℤ}, a < 0 → 0 ≤ b → Cancels (number fill w a) (number fill w b) := by
    intro a b ha hb
    obtain ⟨c, t, ht⟩ := List.exists_cons_of_ne_nil (number_ne_nil fill w b)
    have hc : c ≠ ch '-' := by
      rintro rfl
      obtain ⟨hneg, -⟩ | hf | ⟨d, hd, heq⟩ := mem_number (ht ▸ List.mem_cons_self : ch '-' ∈ number fill w b)
      · omega
      · exact hfill hf.symm
      · exact (Strtox.hexChar_facts d (by omega)).2.1 heq.symm
    rw [ht, number_eq, if_pos ha]
    exact cancels_of_head hc.symm _ _
  by_cases hsign : n < 0 ↔ n' < 0
  · have hdigits : Cancels (filled fill w n.natAbs) (filled fill w n'.natAbs) := by
      obtain ⟨hw, hn, hn'⟩ | hsame | hnext | hprev := h hsign
      · apply cancels_of_length
        have hle := (length_printed_le hw).mpr hn
        have hle' := (length_printed_le hw).mpr hn'
        rw [length_filled, length_filled]
        omega
      · rw [hsame]
        exact .refl _
      · rw [hnext]
        exact cancels_filled_succ fill w _
      · rw [hprev]
        exact Cancels.symm (cancels_filled_succ fill w _)
    rw [number_eq, number_eq]
    simp only [hsign]
    exact (Cancels.refl _).append hdigits
  · by_cases hn : n < 0
    · exact hdiffer hn (by omega)
    · exact (hdiffer (by omega) (by omega)).symm

end Cancellation

section Fields
open Calendar
variable {tm tm' : Tm}

/-- The fields but for the year. -/
structure Fields (tm : Tm) : Prop where
  sec : 0 ≤ tm.tmSec ∧ tm.tmSec ≤ 60
  min : 0 ≤ tm.tmMin ∧ tm.tmMin ≤ 59
  hour : 0 ≤ tm.tmHour ∧ tm.tmHour ≤ 23
  mday : 1 ≤ tm.tmMday ∧ tm.tmMday ≤ 31
  mon : 0 ≤ tm.tmMon ∧ tm.tmMon ≤ 11
  wday : 0 ≤ tm.tmWday ∧ tm.tmWday ≤ 6
  yday : 0 ≤ tm.tmYday ∧ tm.tmYday ≤ 365

/-- All fields are in range, and the year that they stand for is an `int`. -/
structure InRange (tm : Tm) : Prop extends Fields tm where
  year : InInt tm.tmYear ∧ InInt (tm.tmYear + 1900)

lemma InRange.fits (h : InRange tm) : tm.Fits := by
  obtain ⟨⟨hsec, hmin, hhour, hmday, hmon, -, -⟩, hyear, -⟩ := h
  constructor <;> first | exact hyear | (unfold InInt; omega)

lemma InRange.carriesKept (h : InRange tm) : tm.CarriesKept := by
  obtain ⟨⟨hsec, hmin, hhour, hmday, hmon, -, -⟩, hyear, -⟩ := h
  unfold InInt at hyear
  unfold Tm.CarriesKept Timegm.Lost
  dsimp only
  omega

lemma yday_bounds (y : ℤ) {m : ℕ} (hm : m ≤ 11) {mday : ℤ} (h : 1 ≤ mday ∧ mday ≤ 31) :
    0 ≤ daysToMonth y m + (mday - 1) ∧ daysToMonth y m + (mday - 1) < yearDays y := by
  have hyear := daysToMonth_twelve y
  have hlast : monthDays y 11 = 31 := rfl
  have hpos := (daysToMonth_le y (show m ≤ 12 by omega)).1
  have hgap := daysToMonth_gap y hm
  rw [daysToMonth_succ, hlast] at hyear
  obtain rfl | hlt := Nat.eq_or_lt_of_le hm <;> omega

/-- The seconds of a date lie in its year, or are the first of the next one. -/
lemma instant_bounds (h : Fields tm) : daysToYear (1900 + tm.tmYear) * 86400 ≤ tm.instant ∧
    tm.instant ≤ daysToYear (1900 + tm.tmYear + 1) * 86400 := by
  obtain ⟨hsec, hmin, hhour, hmday, hmon, -, -⟩ := h
  have hm : tm.tmMon / 12 = 0 := Int.ediv_eq_zero_of_lt hmon.1 (by omega)
  have hmod : tm.tmMon % 12 = tm.tmMon := Int.emod_eq_of_lt hmon.1 (by omega)
  have hday := yday_bounds (1900 + tm.tmYear) (show tm.tmMon.toNat ≤ 11 by omega) hmday
  rw [daysToYear_succ, Timegm.Tm.instant, hm, hmod, add_zero]
  omega

lemma year_close {tm0 tm : Tm} (h0 : Fields tm0) (h : tm.Normal) (hinstant : tm.instant = tm0.instant) :
    tm.tmYear = tm0.tmYear ∨ tm.tmYear = tm0.tmYear + 1 := by
  obtain ⟨hlow, hhigh⟩ := instant_bounds h0
  have hday := yday_bounds (1900 + tm.tmYear) (show tm.tmMon.toNat ≤ 11 by have := h.mon; omega)
    (show 1 ≤ tm.tmMday ∧ tm.tmMday ≤ 31 by
      have := h.mday
      have := monthDays_bounds (1900 + tm.tmYear) tm.tmMon.toNat
      omega)
  have heq := h.instant_eq
  have hnext := daysToYear_succ (1900 + tm.tmYear)
  obtain ⟨hsec, hmin, hhour, -, -, -⟩ := h
  by_contra hne
  obtain hlt | hgt : tm.tmYear < tm0.tmYear ∨ tm0.tmYear + 1 < tm.tmYear := by omega
  · have hgap := (daysToYear_gap (show 1900 + tm.tmYear + 1 ≤ 1900 + tm0.tmYear by omega)).1
    omega
  · have hgap := (daysToYear_gap (show 1900 + tm0.tmYear + 1 + 1 ≤ 1900 + tm.tmYear by omega)).1
    have hyear := (yearDays_bounds (1900 + tm0.tmYear + 1)).1
    have hsucc := daysToYear_succ (1900 + tm0.tmYear + 1)
    omega

lemma fields_of_normal (h : tm.Normal) (hd : tm.Dated) : Fields tm := by
  have hday := yday_bounds (1900 + tm.tmYear) (show tm.tmMon.toNat ≤ 11 by have := h.mon; omega)
    (show 1 ≤ tm.tmMday ∧ tm.tmMday ≤ 31 by
      have := h.mday
      have := monthDays_bounds (1900 + tm.tmYear) tm.tmMon.toNat
      omega)
  have hyear := (yearDays_bounds (1900 + tm.tmYear)).2
  have hmonth := monthDays_bounds (1900 + tm.tmYear) tm.tmMon.toNat
  obtain ⟨hsec, hmin, hhour, hmon, hmday, -⟩ := h
  obtain ⟨hyday, hwday⟩ := hd
  constructor <;> omega

/-- `mktime` gives the fields that another call changes no more, in the same year or the next one. -/
lemma mktime_spec {tm0 : Tm} (h : InRange tm0) : ∃ t tm, mktime tm0 = some (t, tm) ∧ mktime tm = some (t, tm) ∧
    Fields tm ∧ (tm.tmYear = tm0.tmYear ∨ tm.tmYear = tm0.tmYear + 1) := by
  obtain hover | ⟨tm1, hn, hnormal, hinstant⟩ := Timegm.normalizeEntries_kept h.fits h.carriesKept
  · have herror : timegm tm0 = .error .eoverflow := by
      rw [timegm, hover]
      rfl
    have hsame : mktime tm0 = some (-1, tm0) := by rw [mktime, herror]
    exact ⟨-1, tm0, hsame, hsame, h.toFields, Or.inl rfl⟩
  · obtain ⟨out, hok, hdated, hout⟩ := Timegm.timegm_normal hn hnormal
    have hnormal' : out.Normal := by
      rw [hout]
      exact ⟨hnormal.sec, hnormal.min, hnormal.hour, hnormal.mon, hnormal.mday, hnormal.year⟩
    have hinstant' : out.instant = tm1.instant := by
      rw [hout]
      rfl
    obtain ⟨again, hok', hdated', hagain⟩ := Timegm.timegm_normal (Timegm.normalizeEntries_normal hnormal') hnormal'
    obtain rfl := hdated'.unique hdated hagain
    refine ⟨tm1.instant, again, ?_, ?_, fields_of_normal hnormal' hdated,
      year_close h.toFields hnormal' (hinstant'.trans hinstant)⟩
    · rw [mktime, hok]
    · rw [mktime, hok', hinstant']

end Fields

section Switch
variable {tm tm' : Tm} {letter : Byte}

/-- What the `switch` prints for a letter. -/
def piecesOf (letter : Byte) (tm : Tm) : List Piece :=
  if letter = ch 's' then (mktime tm).elim [] fun r => [.long r.1]
  else (switchCases.find? fun c => ch c.1 = letter).elim [] fun c => c.2 tm

/-- The fields behind an item. -/
def after (letter : Byte) (tm : Tm) : Tm := if letter = ch 's' then (mktime tm).elim tm Prod.snd else tm

lemma piecesOf_cases (hs : letter ≠ ch 's') : (∀ tm, piecesOf letter tm = []) ∨
    ∃ c ∈ switchCases, ∀ tm, piecesOf letter tm = c.2 tm := by
  simp only [piecesOf, if_neg hs]
  cases hfind : switchCases.find? fun c => ch c.1 = letter with
  | none => exact Or.inl fun _ => rfl
  | some c => exact Or.inr ⟨c, List.mem_of_find?_eq_some hfind, fun _ => rfl⟩

lemma literals_short : Short literals := by
  unfold Short
  decide

lemma valid_cases (h : Fields tm) : ∀ c ∈ switchCases, (∀ p ∈ c.2 tm, p.Valid literals) ∧ (c.2 tm).length ≤ 13 := by
  have hlength : literals.length = 42 := rfl
  obtain ⟨-, -, -, -, hmon, hwday, -⟩ := h
  simp only [switchCases, List.forall_mem_cons, unsupported, List.map_cons, List.map_nil, List.length_cons,
    List.length_nil, Piece.Valid, abvdays, days, abvmonths, months, hlength]
  simp only [List.not_mem_nil, false_imp_iff, implies_true, and_true]
  and_intros
  all_goals first | omega | decide | (split_ifs <;> omega)

/-- The texts of an item for two states of the fields can be told apart piece by piece. -/
lemma cancels_pieces {l l' : List Piece}
    (h : List.Forall₂ (fun p q => Cancels (p.chars literals) (q.chars literals)) l l') :
    Cancels (charsOf literals l) (charsOf literals l') := by
  induction h with
  | nil => exact .refl _
  | cons hp _ ih => exact hp.append ih

lemma bmod_int {n : ℤ} (h : InInt n) : n.bmod (2 ^ 32) = n := by
  unfold InInt at h
  exact Int.bmod_eq_of_le (by omega) (by omega)

lemma fill_ne (zero : Bool) : (if zero then ch '0' else ch ' ') ≠ ch '-' := by cases zero <;> decide

lemma cancels_small {zero : Bool} {w : ℕ} (hw : w ≤ 9) {a b : ℤ} (ha : -10 ^ w < a ∧ a < 10 ^ w)
    (hb : -10 ^ w < b ∧ b < 10 ^ w) (hpos : 1 ≤ w) :
    Cancels ((Piece.num zero w a).chars literals) ((Piece.num zero w b).chars literals) := by
  have hpow : (10 : ℤ) ^ w ≤ 10 ^ 9 := by
    exact_mod_cast Nat.pow_le_pow_right (show 0 < 10 by decide) hw
  have hcast : ((10 ^ w : ℕ) : ℤ) = 10 ^ w := by push_cast; rfl
  rw [Piece.chars, Piece.chars, bmod_int (by unfold InInt; omega), bmod_int (by unfold InInt; omega)]
  exact cancels_number (fill_ne zero) fun _ => Or.inl ⟨hpos, by omega, by omega⟩

lemma cancels_digit {a b : ℤ} (ha : 0 ≤ a ∧ a < 10) (hb : 0 ≤ b ∧ b < 10) :
    Cancels ((Piece.num false 0 a).chars literals) ((Piece.num false 0 b).chars literals) := by
  rw [Piece.chars, Piece.chars, bmod_int (by unfold InInt; omega), bmod_int (by unfold InInt; omega)]
  apply cancels_of_length
  rw [length_number le_rfl (Or.inr ⟨rfl, rfl⟩) ha.1 ha.2, length_number le_rfl (Or.inr ⟨rfl, rfl⟩) hb.1 hb.2]

/-- Two numbers next to each other, where the larger one may be too large for an `int`. -/
lemma cancels_next (zero : Bool) (w : ℕ) {y : ℤ} (hy : InInt y) :
    Cancels ((Piece.num zero w y).chars literals) ((Piece.num zero w (y + 1)).chars literals) := by
  rw [Piece.chars, Piece.chars, bmod_int hy]
  refine cancels_number (fill_ne zero) fun hsign => ?_
  by_cases hin : InInt (y + 1)
  · rw [bmod_int hin] at hsign ⊢
    omega
  · obtain rfl : y = 2 ^ 31 - 1 := by
      unfold InInt at hin hy
      omega
    exact absurd hsign (by decide)

lemma cancels_close (zero : Bool) (w : ℕ) {y a b : ℤ} (hy : InInt y) (ha : a = y ∨ a = y + 1) (hb : b = y ∨ b = y + 1) :
    Cancels ((Piece.num zero w a).chars literals) ((Piece.num zero w b).chars literals) := by
  obtain rfl | rfl := ha <;> obtain rfl | rfl := hb
  · exact .refl _
  · exact cancels_next zero w hy
  · exact (cancels_next zero w hy).symm
  · exact .refl _

lemma cancels_of_take {s t : List Byte} (n : ℕ) (hs : n ≤ s.length) (ht : n ≤ t.length)
    (h : s.take n = t.take n → s = t) : Cancels s t := by
  intro r r' heq
  have htake := congrArg (List.take n) heq
  rw [List.take_append_of_le_length hs, List.take_append_of_le_length ht] at htake
  exact h htake

lemma cancels_str {i j : ℕ} (h : (literals.getD i []).length = (literals.getD j []).length) :
    Cancels ((Piece.str i).chars literals) ((Piece.str j).chars literals) := cancels_of_length h

lemma cancels_days {i j : ℤ} (hi : 0 ≤ i ∧ i ≤ 6) (hj : 0 ≤ j ∧ j ≤ 6) :
    Cancels ((days i).chars literals) ((days j).chars literals) := by
  have hnames : ∀ i < 7, 2 ≤ (literals.getD (7 + i) []).length ∧ ∀ j < 7,
      (literals.getD (7 + i) []).take 2 = (literals.getD (7 + j) []).take 2 →
        literals.getD (7 + i) [] = literals.getD (7 + j) [] := by decide
  obtain ⟨hlen, hdiffer⟩ := hnames i.toNat (by omega)
  exact cancels_of_take 2 hlen (hnames j.toNat (by omega)).1 (hdiffer j.toNat (by omega))

lemma cancels_months {i j : ℤ} (hi : 0 ≤ i ∧ i ≤ 11) (hj : 0 ≤ j ∧ j ≤ 11) :
    Cancels ((months i).chars literals) ((months j).chars literals) := by
  have hnames : ∀ i < 12, 3 ≤ (literals.getD (26 + i) []).length ∧ ∀ j < 12,
      (literals.getD (26 + i) []).take 3 = (literals.getD (26 + j) []).take 3 →
        literals.getD (26 + i) [] = literals.getD (26 + j) [] := by decide
  obtain ⟨hlen, hdiffer⟩ := hnames i.toNat (by omega)
  exact cancels_of_take 3 hlen (hnames j.toNat (by omega)).1 (hdiffer j.toNat (by omega))

lemma cancels_abvdays {i j : ℤ} (hi : 0 ≤ i ∧ i ≤ 6) (hj : 0 ≤ j ∧ j ≤ 6) :
    Cancels ((abvdays i).chars literals) ((abvdays j).chars literals) := by
  have hnames : ∀ i < 7, (literals.getD i []).length = 3 := by decide
  exact cancels_str ((hnames i.toNat (by omega)).trans (hnames j.toNat (by omega)).symm)

lemma cancels_abvmonths {i j : ℤ} (hi : 0 ≤ i ∧ i ≤ 11) (hj : 0 ≤ j ∧ j ≤ 11) :
    Cancels ((abvmonths i).chars literals) ((abvmonths j).chars literals) := by
  have hnames : ∀ i < 12, (literals.getD (14 + i) []).length = 3 := by decide
  exact cancels_str ((hnames i.toNat (by omega)).trans (hnames j.toNat (by omega)).symm)

end Switch

section Current
variable {tm0 tm1 a b : Tm} {t : ℤ}

/-- The fields during a call: those at its start, or what `mktime` makes of them. -/
structure Current (tm0 : Tm) (t : ℤ) (tm1 tm : Tm) : Prop where
  fields : Fields tm
  year : tm.tmYear = tm0.tmYear ∨ tm.tmYear = tm0.tmYear + 1
  mktime : mktime tm = some (t, tm1)

lemma InRange.current (h : InRange tm0) : ∃ t tm1, Current tm0 t tm1 tm0 ∧ Current tm0 t tm1 tm1 := by
  obtain ⟨t, tm1, hfirst, hagain, hfields, hyear⟩ := mktime_spec h
  exact ⟨t, tm1, ⟨h.toFields, Or.inl rfl, hfirst⟩, hfields, hyear, hagain⟩

lemma hour12_bounds (h : 0 ≤ a.tmHour ∧ a.tmHour ≤ 23) : 1 ≤ hour12 a ∧ hour12 a ≤ 12 := by
  unfold hour12
  rw [Int.tmod_eq_emod_of_nonneg h.1]
  split_ifs <;> omega

/-- The years divided by 100 are next to each other, too. -/
lemma century_close {y x : ℤ} (h : x = y ∨ x = y + 1) : x.tdiv 100 = y.tdiv 100 ∨ x.tdiv 100 = y.tdiv 100 + 1 := by
  have hsign : (100 : ℤ).sign = 1 := rfl
  rw [Int.tdiv_eq_ediv, Int.tdiv_eq_ediv, hsign]
  split_ifs <;> omega

/-- Of no case is the text for some fields the beginning of that for other ones. -/
lemma cancels_cases (hy : InInt (tm0.tmYear + 1900)) (ha : Current tm0 t tm1 a) (hb : Current tm0 t tm1 b) :
    ∀ c ∈ switchCases, List.Forall₂ (fun p q => Cancels (p.chars literals) (q.chars literals)) (c.2 a) (c.2 b) := by
  have hhour12 := hour12_bounds ha.fields.hour
  have hhour12' := hour12_bounds hb.fields.hour
  obtain ⟨⟨hsec, hmin, hhour, hmday, hmon, hwday, hyday⟩, hyear, -⟩ := ha
  obtain ⟨⟨hsec', hmin', hhour', hmday', hmon', hwday', hyday'⟩, hyear', -⟩ := hb
  have hyears : (a.tmYear + 1900 = tm0.tmYear + 1900 ∨ a.tmYear + 1900 = tm0.tmYear + 1900 + 1) ∧
      (b.tmYear + 1900 = tm0.tmYear + 1900 ∨ b.tmYear + 1900 = tm0.tmYear + 1900 + 1) := by omega
  have hcentury : InInt ((tm0.tmYear + 1900).tdiv 100) := by
    unfold InInt at hy ⊢
    have hsign : (100 : ℤ).sign = 1 := rfl
    rw [Int.tdiv_eq_ediv, hsign]
    split_ifs <;> omega
  have hmod : ∀ x : ℤ, -10 ^ 2 < x.tmod 100 ∧ x.tmod 100 < 10 ^ 2 := by
    intro x
    exact ⟨Int.lt_tmod_of_pos x (by decide), Int.tmod_lt_of_pos x (by decide)⟩
  simp only [switchCases, List.forall_mem_cons, unsupported, List.map_cons, List.map_nil, List.forall₂_cons,
    List.Forall₂.nil, List.not_mem_nil, false_imp_iff, implies_true, and_true]
  and_intros
  all_goals first
    | exact .refl _
    | exact cancels_days hwday hwday'
    | exact cancels_abvdays hwday hwday'
    | exact cancels_months hmon hmon'
    | exact cancels_abvmonths hmon hmon'
    | exact cancels_small (by decide) ⟨by omega, by omega⟩ ⟨by omega, by omega⟩ (by decide)
    | exact cancels_small (by decide) (hmod _) (hmod _) (by decide)
    | exact cancels_close _ _ hy hyears.1 hyears.2
    | exact cancels_close _ _ hcentury (century_close hyears.1) (century_close hyears.2)
    | exact cancels_digit (by split_ifs <;> omega) (by split_ifs <;> omega)
    | exact cancels_digit (by omega) (by omega)
    | exact cancels_str (by split_ifs <;> rfl)

end Current

end PiggyOs.Strftime
