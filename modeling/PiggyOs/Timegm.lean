import PiggyOs.Calendar

/-! The calendar arithmetic of the C library: `timegm` with its normalization, and `gmtime_r`. -/
namespace PiggyOs.Timegm
open Calendar

structure Tm where
  tmSec : ℤ
  tmMin : ℤ
  tmHour : ℤ
  tmMday : ℤ
  tmMon : ℤ
  tmYear : ℤ
  tmWday : ℤ
  tmYday : ℤ
  deriving DecidableEq, Repr

def InInt (x : ℤ) : Prop := -2 ^ 31 ≤ x ∧ x < 2 ^ 31

instance : DecidablePred InInt := fun _ => inferInstanceAs (Decidable (_ ∧ _))

/-- `eoverflow` is the error that is reported; an `int` operation that overflows unchecked is `undefined`. -/
inductive Fault
  | eoverflow | undefined
  deriving DecidableEq, Repr

def isLeapYear (year : ℤ) : Bool := year.tmod 4 = 0 ∧ (year.tmod 100 ≠ 0 ∨ year.tmod 400 = 0)

def daysPerYear (year : ℤ) : ℤ := if isLeapYear year then 366 else 365

/-- No other number than 0 to 11 comes in. -/
def daysPerMonth (month : ℤ) (year : ℤ) : ℤ :=
  match month with
  | 0 => 31
  | 1 => if isLeapYear year then 29 else 28
  | 2 => 31
  | 3 => 30
  | 4 => 31
  | 5 => 30
  | 6 => 31
  | 7 => 31
  | 8 => 30
  | 9 => 31
  | 10 => 30
  | _ => 31

lemma daysPerMonth_pos (month year : ℤ) : 0 < daysPerMonth month year := by
  unfold daysPerMonth
  split
  case h_2 => split_ifs <;> decide
  all_goals decide

def intOp (x : ℤ) : Except Fault ℤ := if InInt x then .ok x else .error .undefined

def addOverflow (a b : ℤ) : Except Fault ℤ := if InInt (a + b) then .ok (a + b) else .error .eoverflow

def normalize (x y range : ℤ) : Except Fault (ℤ × ℤ) := do
  let y ← addOverflow y (x.tdiv range)
  if x.tmod range < 0 then
    let y ← intOp (y - 1)
    .ok (x.tmod range + range, y)
  else .ok (x.tmod range, y)

/-- Days past the end of the month. -/
def passMonths (mday mon year : ℤ) : Except Fault (ℤ × ℤ × ℤ) :=
  if daysPerMonth mon (year + 1900) < mday then
    if ¬ InInt (mday - daysPerMonth mon (year + 1900)) then .error .undefined
    else if mon + 1 ≤ 11 then passMonths (mday - daysPerMonth mon (year + 1900)) (mon + 1) year
    else if InInt (year + 1) then passMonths (mday - daysPerMonth mon (year + 1900)) 0 (year + 1)
    else .error .eoverflow
  else .ok (mday, mon, year)
termination_by mday.toNat
decreasing_by
  all_goals
    have := daysPerMonth_pos mon (year + 1900)
    omega

/-- Days before the first of the month. -/
def backMonths (mday mon year : ℤ) : Except Fault (ℤ × ℤ × ℤ) :=
  if mday ≤ 0 then
    if 0 ≤ mon - 1 then
      if ¬ InInt (mday + daysPerMonth (mon - 1) (year + 1900)) then .error .undefined
      else backMonths (mday + daysPerMonth (mon - 1) (year + 1900)) (mon - 1) year
    else if ¬ InInt (year - 1) then .error .eoverflow
    else if ¬ InInt (mday + daysPerMonth 11 (year - 1 + 1900)) then .error .undefined
    else backMonths (mday + daysPerMonth 11 (year - 1 + 1900)) 11 (year - 1)
  else .ok (mday, mon, year)
termination_by (1 - mday).toNat
decreasing_by
  · have := daysPerMonth_pos (mon - 1) (year + 1900)
    omega
  · have := daysPerMonth_pos 11 (year - 1 + 1900)
    omega

def normalizeEntries (tm : Tm) : Except Fault Tm := do
  let (tmSec, tmMin) ← normalize tm.tmSec tm.tmMin 60
  let (tmMin, tmHour) ← normalize tmMin tm.tmHour 60
  let (tmHour, tmMday) ← normalize tmHour tm.tmMday 24
  let (tmMon, tmYear) ← normalize tm.tmMon tm.tmYear 12
  let (tmMday, tmMon, tmYear) ← passMonths tmMday tmMon tmYear
  let (tmMday, tmMon, tmYear) ← backMonths tmMday tmMon tmYear
  .ok ⟨tmSec, tmMin, tmHour, tmMday, tmMon, tmYear, tm.tmWday, tm.tmYday⟩

def yearsUp (target year days : ℤ) : ℤ × ℤ :=
  if year < target then yearsUp target (year + 1) (days + daysPerYear year) else (year, days)
termination_by (target - year).toNat

def yearsDown (target year days : ℤ) : ℤ × ℤ :=
  if target < year then yearsDown target (year - 1) (days - daysPerYear (year - 1)) else (year, days)
termination_by (year - target).toNat

def monthsUp (target year month days yday : ℤ) : Except Fault (ℤ × ℤ) :=
  if month < target then
    if InInt (yday + daysPerMonth month year) then
      monthsUp target year (month + 1) (days + daysPerMonth month year) (yday + daysPerMonth month year)
    else .error .undefined
  else .ok (days, yday)
termination_by (target - month).toNat

def weekday (days : ℤ) : ℤ := if (4 + days).tmod 7 < 0 then (4 + days).tmod 7 + 7 else (4 + days).tmod 7

/-- The result with what `tm` holds afterwards; `eoverflow` stands for `-1` with `EOVERFLOW`. -/
def timegm (tm : Tm) : Except Fault (ℤ × Tm) := do
  let tm ← normalizeEntries tm
  let (year, days) := yearsUp (1900 + tm.tmYear) 1970 0
  let (year, days) := yearsDown (1900 + tm.tmYear) year days
  let (days, yday) ← monthsUp tm.tmMon year 0 days 0
  let days := days + (tm.tmMday - 1)
  let yday ← intOp (yday + (tm.tmMday - 1))
  let hours ← intOp (tm.tmHour * 60 * 60)
  let minutes ← intOp (tm.tmMin * 60)
  .ok (days * 24 * 60 * 60 + hours + minutes + tm.tmSec, { tm with tmYday := yday, tmWday := weekday days })

/-- Conversion to `int`. -/
def toInt32 (x : ℤ) : ℤ := x.bmod (2 ^ 32)

def gmtimeBack (seconds year days : ℤ) : ℤ × ℤ × ℤ :=
  if seconds < 0 then
    gmtimeBack (seconds + daysPerYear (year - 1) * 86400) (year - 1) (days - daysPerYear (year - 1))
  else (seconds, year, days)
termination_by (-seconds).toNat
decreasing_by
  unfold daysPerYear
  split_ifs <;> omega

def gmtimeForward (seconds year days : ℤ) : ℤ × ℤ × ℤ :=
  if daysPerYear year * 86400 ≤ seconds then
    gmtimeForward (seconds - daysPerYear year * 86400) (year + 1) (days + daysPerYear year)
  else (seconds, year, days)
termination_by seconds.toNat
decreasing_by
  unfold daysPerYear at *
  split_ifs at * <;> omega

def gmtimeMonths (seconds year mon days yday : ℤ) : ℤ × ℤ × ℤ × ℤ :=
  if daysPerMonth mon year * 86400 ≤ seconds then
    gmtimeMonths (seconds - daysPerMonth mon year * 86400) year (mon + 1) (days + daysPerMonth mon year)
      (yday + daysPerMonth mon year)
  else (seconds, mon, days, yday)
termination_by seconds.toNat
decreasing_by
  have := daysPerMonth_pos mon year
  omega

def gmtimeR (time : ℤ) : Tm :=
  let (seconds, year, days) := gmtimeBack time 1970 0
  let (seconds, year, days) := gmtimeForward seconds year days
  let (seconds, mon, days, yday) := gmtimeMonths seconds year 0 days 0
  let day := toInt32 (seconds.tdiv 86400)
  let days := days + day
  let seconds := seconds.tmod 86400
  { tmSec := toInt32 ((seconds.tmod (60 * 60)).tmod 60)
    tmMin := toInt32 ((seconds.tmod (60 * 60)).tdiv 60)
    tmHour := toInt32 (seconds.tdiv (60 * 60))
    tmMday := toInt32 (day + 1)
    tmMon := mon
    tmYear := toInt32 (year - 1900)
    tmWday := weekday days
    tmYday := toInt32 (yday + day) }

/-- Seconds from the epoch to what the six fields say, whatever they are. -/
def Tm.instant (tm : Tm) : ℤ :=
  (daysToYear (1900 + (tm.tmYear + tm.tmMon / 12)) +
    daysToMonth (1900 + (tm.tmYear + tm.tmMon / 12)) (tm.tmMon % 12).toNat + (tm.tmMday - 1)) * 86400 +
    tm.tmHour * 3600 + tm.tmMin * 60 + tm.tmSec

structure Tm.Normal (tm : Tm) : Prop where
  sec : 0 ≤ tm.tmSec ∧ tm.tmSec < 60
  min : 0 ≤ tm.tmMin ∧ tm.tmMin < 60
  hour : 0 ≤ tm.tmHour ∧ tm.tmHour < 24
  mon : 0 ≤ tm.tmMon ∧ tm.tmMon < 12
  mday : 1 ≤ tm.tmMday ∧ tm.tmMday ≤ monthDays (1900 + tm.tmYear) tm.tmMon.toNat
  year : InInt tm.tmYear

/-- The day of the year and of the week; the first of January 1970 was a Thursday. -/
structure Tm.Dated (tm : Tm) : Prop where
  yday : tm.tmYday = daysToMonth (1900 + tm.tmYear) tm.tmMon.toNat + (tm.tmMday - 1)
  wday : tm.tmWday = (4 + (daysToYear (1900 + tm.tmYear) + tm.tmYday)) % 7

section Tables

lemma isLeapYear_iff (y : ℤ) : isLeapYear y = true ↔ Leap y := by
  simp only [isLeapYear, Leap, decide_eq_true_eq, ← Int.dvd_iff_tmod_eq_zero, ← Int.dvd_iff_emod_eq_zero, ne_eq]

lemma daysPerYear_eq (y : ℤ) : daysPerYear y = yearDays y := by
  simp only [daysPerYear, yearDays, isLeapYear_iff]

lemma daysPerMonth_eq (y : ℤ) {m : ℕ} (hm : m < 12) : daysPerMonth m y = monthDays y m := by
  interval_cases m <;> simp [daysPerMonth, monthDays, isLeapYear_iff]

lemma daysPerMonth_toNat (y : ℤ) {mon : ℤ} (hm : 0 ≤ mon ∧ mon < 12) : daysPerMonth mon y = monthDays y mon.toNat := by
  have h := daysPerMonth_eq y (m := mon.toNat) (by omega)
  rwa [Int.toNat_of_nonneg hm.1] at h

end Tables

section Carry
variable {x y r : ℤ}

/-- The division of C against the one that rounds down. -/
lemma tdiv_carry (hr : 0 < r) (x : ℤ) :
    if x.tmod r < 0 then x / r = x.tdiv r - 1 ∧ x % r = x.tmod r + r else x / r = x.tdiv r ∧ x % r = x.tmod r := by
  have hsum := Int.mul_tdiv_add_tmod x r
  have hlt := Int.tmod_lt_of_pos x hr
  have hgt := Int.lt_tmod_of_pos x hr
  have hless : r * (x.tdiv r - 1) = r * x.tdiv r - r := by ring
  split_ifs with h
  · refine (Int.ediv_emod_unique hr).mpr ⟨?_, by omega, by omega⟩
    omega
  · refine (Int.ediv_emod_unique hr).mpr ⟨?_, by omega, by omega⟩
    omega

/-- The carry takes the last value of `int` one further down, and nothing reports it. -/
def Lost (x y r : ℤ) : Prop := y + x / r = -2 ^ 31 - 1 ∧ x % r ≠ 0

instance : Decidable (Lost x y r) := inferInstanceAs (Decidable (_ ∧ _))

lemma normalize_ite (x y r : ℤ) : normalize x y r =
    if InInt (y + x.tdiv r) then
      if x.tmod r < 0 then
        if InInt (y + x.tdiv r - 1) then .ok (x.tmod r + r, y + x.tdiv r - 1) else .error .undefined
      else .ok (x.tmod r, y + x.tdiv r)
    else .error .eoverflow := by
  unfold normalize addOverflow
  by_cases h : InInt (y + x.tdiv r)
  · rw [if_pos h, if_pos h]
    change (if x.tmod r < 0 then _ else _) = _
    unfold intOp
    split_ifs <;> rfl
  · rw [if_neg h, if_neg h]
    rfl

/-- Otherwise it rounds down, or is reported. -/
lemma normalize_eq (hr : 0 < r) (hy : InInt y) : normalize x y r =
    if Lost x y r then .error .undefined
    else if InInt (y + x / r) then .ok (x % r, y + x / r) else .error .eoverflow := by
  have hcarry := tdiv_carry hr x
  have hlt := Int.emod_lt_of_pos x hr
  have hnonneg := Int.emod_nonneg x (ne_of_gt hr)
  rw [normalize_ite]
  by_cases hneg : x.tmod r < 0
  · simp only [if_pos hneg] at hcarry ⊢
    obtain ⟨hdiv, hmod⟩ := hcarry
    have hx : x < 0 := lt_of_not_ge fun h0 => absurd hneg (not_lt.mpr (Int.tmod_nonneg r h0))
    have hdown : x / r < 0 := Int.ediv_neg_of_neg_of_pos hx hr
    have hsame : y + x / r = y + x.tdiv r - 1 := by omega
    have hlost : Lost x y r ↔ y + x.tdiv r = -2 ^ 31 := by
      have hgt := Int.lt_tmod_of_pos x hr
      rw [Lost]
      omega
    simp only [hlost, hsame, hmod]
    by_cases hin : InInt (y + x.tdiv r)
    · have hedge : y + x.tdiv r = -2 ^ 31 ↔ ¬ InInt (y + x.tdiv r - 1) := by
        unfold InInt at *
        omega
      simp only [if_pos hin, hedge]
      split_ifs <;> rfl
    · have hout : ¬ y + x.tdiv r = -2 ^ 31 ∧ ¬ InInt (y + x.tdiv r - 1) := by
        unfold InInt at *
        omega
      rw [if_neg hin, if_neg hout.1, if_neg hout.2]
  · simp only [if_neg hneg] at hcarry ⊢
    obtain ⟨hdiv, hmod⟩ := hcarry
    have hlost : ¬ Lost x y r := by
      rintro ⟨hedge, hrest⟩
      have hx : 0 ≤ x := by
        by_contra hx
        have hneg' := Int.tmod_nonneg r (show 0 ≤ -x by omega)
        rw [Int.neg_tmod] at hneg'
        omega
      have := Int.ediv_nonneg hx (le_of_lt hr)
      unfold InInt at hy
      omega
    rw [if_neg hlost, hdiv, hmod]

end Carry

section Months
variable {mday mon year : ℤ}

/-- Days from the epoch to a day of a month, in or out of the month. -/
def dayCount (year mon mday : ℤ) : ℤ := daysToYear (1900 + year) + daysToMonth (1900 + year) mon.toNat + (mday - 1)

structure InRange (mday mon year : ℤ) : Prop where
  mday : InInt mday
  mon : 0 ≤ mon ∧ mon < 12
  year : InInt year

lemma dayCount_nextMonth (mday mon year : ℤ) (hmon : 0 ≤ mon ∧ mon + 1 ≤ 11) :
    dayCount year (mon + 1) (mday - daysPerMonth mon (year + 1900)) = dayCount year mon mday := by
  rw [dayCount, dayCount, daysPerMonth_toNat _ (by omega), Int.toNat_add hmon.1 (by decide), Int.toNat_one,
    daysToMonth_succ, add_comm year]
  ring

lemma dayCount_nextYear (mday year : ℤ) :
    dayCount (year + 1) 0 (mday - daysPerMonth 11 (year + 1900)) = dayCount year 11 mday := by
  have hyear := daysToYear_succ (1900 + year)
  have htwelve := daysToMonth_twelve (1900 + year)
  rw [daysToMonth_succ] at htwelve
  rw [dayCount, dayCount, daysPerMonth_toNat _ (by decide), ← add_assoc, hyear, add_comm year, ← htwelve]
  simp only [Int.toNat_zero, daysToMonth_zero, show (11 : ℤ).toNat = 11 from rfl]
  ring

/-- The first loop keeps the day and ends at one that is not past its month, or reports. -/
lemma passMonths_spec (h : InRange mday mon year) : passMonths mday mon year = .error .eoverflow ∨
    ∃ mday' mon' year', passMonths mday mon year = .ok (mday', mon', year') ∧ InRange mday' mon' year' ∧
      mday' ≤ monthDays (1900 + year') mon'.toNat ∧ dayCount year' mon' mday' = dayCount year mon mday := by
  induction mday, mon, year using passMonths.induct with
  | case1 mday mon year hpast hundef =>
    have hpos := daysPerMonth_pos mon (year + 1900)
    refine absurd ?_ hundef
    have := h.mday
    unfold InInt at *
    omega
  | case2 mday mon year hpast hin hmon ih =>
    rw [passMonths, if_pos hpast, if_neg hin, if_pos hmon]
    rw [not_not] at hin
    rw [← dayCount_nextMonth mday mon year ⟨h.mon.1, hmon⟩]
    exact ih ⟨hin, ⟨by have := h.mon.1; omega, by omega⟩, h.year⟩
  | case3 mday mon year hpast hin hmon hyear ih =>
    rw [passMonths, if_pos hpast, if_neg hin, if_neg hmon, if_pos hyear]
    rw [not_not] at hin
    obtain rfl : mon = 11 := by
      have := h.mon.2
      omega
    rw [← dayCount_nextYear]
    exact ih ⟨hin, by decide, hyear⟩
  | case4 mday mon year hpast hin hmon hyear =>
    rw [passMonths, if_pos hpast, if_neg hin, if_neg hmon, if_neg hyear]
    exact .inl rfl
  | case5 mday mon year hpast =>
    rw [passMonths, if_neg hpast]
    refine .inr ⟨mday, mon, year, rfl, h, ?_, rfl⟩
    rw [← daysPerMonth_toNat _ h.mon, add_comm]
    exact not_lt.mp hpast

/-- The second loop ends in the month. -/
lemma backMonths_spec (h : InRange mday mon year) (hle : mday ≤ monthDays (1900 + year) mon.toNat) :
    backMonths mday mon year = .error .eoverflow ∨
    ∃ mday' mon' year', backMonths mday mon year = .ok (mday', mon', year') ∧ InRange mday' mon' year' ∧
      (1 ≤ mday' ∧ mday' ≤ monthDays (1900 + year') mon'.toNat) ∧
      dayCount year' mon' mday' = dayCount year mon mday := by
  have hsmall : ∀ {d m y : ℤ}, InInt d → d ≤ 0 → InInt (d + daysPerMonth m y) := by
    intro d m y hd h0
    have hpos := daysPerMonth_pos m y
    have hle : daysPerMonth m y ≤ 31 := by
      unfold daysPerMonth
      split
      case h_2 => split_ifs <;> decide
      all_goals decide
    unfold InInt at *
    omega
  induction mday, mon, year using backMonths.induct with
  | case1 mday mon year hback hmon hundef => exact absurd (hsmall h.mday hback) hundef
  | case2 mday mon year hback hmon hin ih =>
    rw [backMonths, if_pos hback, if_pos hmon, if_neg hin]
    have hday := dayCount_nextMonth (mday + daysPerMonth (mon - 1) (year + 1900)) (mon - 1) year
      ⟨hmon, by have := h.mon.2; omega⟩
    rw [add_sub_cancel_right, sub_add_cancel] at hday
    rw [hday]
    rw [not_not] at hin
    have hmon' : 0 ≤ mon - 1 ∧ mon - 1 < 12 := ⟨hmon, by have := h.mon.2; omega⟩
    refine ih ⟨hin, hmon', h.year⟩ ?_
    rw [daysPerMonth_toNat _ hmon', add_comm year]
    omega
  | case3 mday mon year hback hmon hyear =>
    rw [backMonths, if_pos hback, if_neg hmon, if_pos hyear]
    exact .inl rfl
  | case4 mday mon year hback hmon hyear hundef => exact absurd (hsmall h.mday hback) hundef
  | case5 mday mon year hback hmon hyear hin ih =>
    rw [backMonths, if_pos hback, if_neg hmon, if_neg hyear, if_neg hin]
    rw [not_not] at hin hyear
    obtain rfl : mon = 0 := by
      have := h.mon.1
      omega
    have hday := dayCount_nextYear (mday + daysPerMonth 11 (year - 1 + 1900)) (year - 1)
    rw [add_sub_cancel_right, sub_add_cancel] at hday
    rw [hday]
    refine ih ⟨hin, by decide, hyear⟩ ?_
    rw [daysPerMonth_toNat _ (by decide), add_comm (year - 1)]
    omega
  | case6 mday mon year hback =>
    rw [backMonths, if_neg hback]
    exact .inr ⟨mday, mon, year, rfl, h, ⟨by omega, hle⟩, rfl⟩

end Months

section Normalization
variable {tm : Tm}

structure Tm.Fits (tm : Tm) : Prop where
  sec : InInt tm.tmSec
  min : InInt tm.tmMin
  hour : InInt tm.tmHour
  mday : InInt tm.tmMday
  mon : InInt tm.tmMon
  year : InInt tm.tmYear

/-- No carry is lost before one is reported. -/
def Tm.CarriesKept (tm : Tm) : Prop :=
  let min := tm.tmMin + tm.tmSec / 60
  let hour := tm.tmHour + min / 60
  let mday := tm.tmMday + hour / 24
  ¬ Lost tm.tmSec tm.tmMin 60 ∧ (InInt min → ¬ Lost min tm.tmHour 60 ∧ (InInt hour →
    ¬ Lost hour tm.tmMday 24 ∧ (InInt mday → ¬ Lost tm.tmMon tm.tmYear 12)))

lemma ok_bind {α β : Type} (a : α) (f : α → Except Fault β) : (Except.ok a >>= f) = f a := rfl

lemma error_bind {α β : Type} (e : Fault) (f : α → Except Fault β) : (Except.error e >>= f) = .error e := rfl

lemma normalize_kept {x y r : ℤ} (hr : 0 < r) (hy : InInt y) (hkept : ¬ Lost x y r) (hin : InInt (y + x / r)) :
    normalize x y r = .ok (x % r, y + x / r) := by
  rw [normalize_eq hr hy, if_neg hkept, if_pos hin]

lemma normalize_reported {x y r : ℤ} (hr : 0 < r) (hy : InInt y) (hkept : ¬ Lost x y r) (hout : ¬ InInt (y + x / r)) :
    normalize x y r = .error .eoverflow := by
  rw [normalize_eq hr hy, if_neg hkept, if_neg hout]

lemma normalize_lost {x y r : ℤ} (hr : 0 < r) (hy : InInt y) (hlost : Lost x y r) :
    normalize x y r = .error .undefined := by
  rw [normalize_eq hr hy, if_pos hlost]

/-- After the carries: the same instant, but for the day of the month. -/
lemma normalizeEntries_carried {min hour mday mon year : ℤ}
    (hmin : normalize tm.tmSec tm.tmMin 60 = .ok (tm.tmSec % 60, min))
    (hhour : normalize min tm.tmHour 60 = .ok (min % 60, hour))
    (hmday : normalize hour tm.tmMday 24 = .ok (hour % 24, mday))
    (hyear : normalize tm.tmMon tm.tmYear 12 = .ok (mon, year)) (hr : InRange mday mon year)
    (hinstant : dayCount year mon mday * 86400 + hour % 24 * 3600 + min % 60 * 60 + tm.tmSec % 60 = tm.instant) :
    normalizeEntries tm = .error .eoverflow ∨ ∃ tm', normalizeEntries tm = .ok tm' ∧ tm'.Normal ∧
      tm'.instant = tm.instant := by
  rw [normalizeEntries, hmin, ok_bind]
  dsimp only
  rw [hhour, ok_bind]
  dsimp only
  rw [hmday, ok_bind]
  dsimp only
  rw [hyear, ok_bind]
  dsimp only
  rcases passMonths_spec hr with hpass | ⟨mday1, mon1, year1, hpass, hr1, hle1, hday1⟩
  · rw [hpass]
    exact .inl rfl
  · rw [hpass, ok_bind]
    dsimp only
    rcases backMonths_spec hr1 hle1 with hback | ⟨mday2, mon2, year2, hback, hr2, hmday2, hday2⟩
    · rw [hback]
      exact .inl rfl
    · rw [hback, ok_bind]
      refine .inr ⟨_, rfl, ⟨?_, ?_, ?_, hr2.mon, hmday2, hr2.year⟩, ?_⟩
      · exact ⟨Int.emod_nonneg _ (by decide), Int.emod_lt_of_pos _ (by decide)⟩
      · exact ⟨Int.emod_nonneg _ (by decide), Int.emod_lt_of_pos _ (by decide)⟩
      · exact ⟨Int.emod_nonneg _ (by decide), Int.emod_lt_of_pos _ (by decide)⟩
      · rw [← hinstant, ← hday1, ← hday2, Tm.instant, dayCount]
        dsimp only
        rw [Int.ediv_eq_zero_of_lt hr2.mon.1 hr2.mon.2, Int.emod_eq_of_lt hr2.mon.1 hr2.mon.2, add_zero]

lemma normalizeEntries_kept (hf : tm.Fits) (hk : tm.CarriesKept) :
    normalizeEntries tm = .error .eoverflow ∨ ∃ tm', normalizeEntries tm = .ok tm' ∧ tm'.Normal ∧
      tm'.instant = tm.instant := by
  obtain ⟨hsec, hk⟩ := hk
  by_cases hmin : InInt (tm.tmMin + tm.tmSec / 60)
  swap
  · rw [normalizeEntries, normalize_reported (by decide) hf.min hsec hmin]
    exact .inl rfl
  have hn1 := normalize_kept (by decide) hf.min hsec hmin
  obtain ⟨hmins, hk⟩ := hk hmin
  by_cases hhour : InInt (tm.tmHour + (tm.tmMin + tm.tmSec / 60) / 60)
  swap
  · rw [normalizeEntries, hn1, ok_bind]
    dsimp only
    rw [normalize_reported (by decide) hf.hour hmins hhour]
    exact .inl rfl
  have hn2 := normalize_kept (by decide) hf.hour hmins hhour
  obtain ⟨hhours, hk⟩ := hk hhour
  by_cases hmday : InInt (tm.tmMday + (tm.tmHour + (tm.tmMin + tm.tmSec / 60) / 60) / 24)
  swap
  · rw [normalizeEntries, hn1, ok_bind]
    dsimp only
    rw [hn2, ok_bind]
    dsimp only
    rw [normalize_reported (by decide) hf.mday hhours hmday]
    exact .inl rfl
  have hn3 := normalize_kept (by decide) hf.mday hhours hmday
  by_cases hyear : InInt (tm.tmYear + tm.tmMon / 12)
  swap
  · rw [normalizeEntries, hn1, ok_bind]
    dsimp only
    rw [hn2, ok_bind]
    dsimp only
    rw [hn3, ok_bind]
    dsimp only
    rw [normalize_reported (by decide) hf.year (hk hmday) hyear]
    exact .inl rfl
  have hn4 := normalize_kept (by decide) hf.year (hk hmday) hyear
  have hmon : 0 ≤ tm.tmMon % 12 ∧ tm.tmMon % 12 < 12 :=
    ⟨Int.emod_nonneg _ (by decide), Int.emod_lt_of_pos _ (by decide)⟩
  refine normalizeEntries_carried hn1 hn2 hn3 hn4 ⟨hmday, hmon, hyear⟩ ?_
  rw [Tm.instant, dayCount]
  omega

lemma normalizeEntries_lost (hf : tm.Fits) (hk : ¬ tm.CarriesKept) : normalizeEntries tm = .error .undefined := by
  unfold Tm.CarriesKept at hk
  dsimp only at hk
  by_cases hsec : Lost tm.tmSec tm.tmMin 60
  · rw [normalizeEntries, normalize_lost (by decide) hf.min hsec]
    rfl
  obtain ⟨hmin, hk⟩ := Classical.not_imp.mp fun h => hk ⟨hsec, h⟩
  have hn1 := normalize_kept (by decide) hf.min hsec hmin
  rw [normalizeEntries, hn1, ok_bind]
  dsimp only
  by_cases hmins : Lost (tm.tmMin + tm.tmSec / 60) tm.tmHour 60
  · rw [normalize_lost (by decide) hf.hour hmins]
    rfl
  obtain ⟨hhour, hk⟩ := Classical.not_imp.mp fun h => hk ⟨hmins, h⟩
  rw [normalize_kept (by decide) hf.hour hmins hhour, ok_bind]
  dsimp only
  by_cases hhours : Lost (tm.tmHour + (tm.tmMin + tm.tmSec / 60) / 60) tm.tmMday 24
  · rw [normalize_lost (by decide) hf.mday hhours]
    rfl
  obtain ⟨hmday, hk⟩ := Classical.not_imp.mp fun h => hk ⟨hhours, h⟩
  rw [normalize_kept (by decide) hf.mday hhours hmday, ok_bind]
  dsimp only
  rw [normalize_lost (by decide) hf.year (not_not.mp hk)]
  rfl

end Normalization

section Timegm
variable {tm : Tm}

lemma yearsUp_eq {t y days : ℤ} (hd : days = daysToYear y) :
    yearsUp t y days = (max y t, daysToYear (max y t)) := by
  induction y, days using yearsUp.induct (t) with
  | case1 y days h ih =>
    rw [yearsUp, if_pos h, ih (by rw [hd, daysPerYear_eq, daysToYear_succ]), max_eq_right (by omega),
      max_eq_right (by omega)]
  | case2 y days h => rw [yearsUp, if_neg h, max_eq_left (by omega), hd]

lemma yearsDown_eq {t y days : ℤ} (hd : days = daysToYear y) :
    yearsDown t y days = (min y t, daysToYear (min y t)) := by
  induction y, days using yearsDown.induct (t) with
  | case1 y days h ih =>
    rw [yearsDown, if_pos h, ih (by rw [hd, daysPerYear_eq, daysToYear_pred]), min_eq_right (by omega),
      min_eq_right (by omega)]
  | case2 y days h => rw [yearsDown, if_neg h, min_eq_left (by omega), hd]

lemma daysToMonth_inInt {y : ℤ} {m : ℕ} (hm : m ≤ 12) : 0 ≤ daysToMonth y m ∧ daysToMonth y m ≤ 366 := by
  have := daysToMonth_le y hm
  have := yearDays_bounds y
  omega

lemma monthsUp_eq {n : ℕ} {y d : ℤ} (hn : n ≤ 12) (k m : ℕ) (hk : m + k = n) :
    monthsUp n y m (daysToMonth y m + d) (daysToMonth y m) = .ok (daysToMonth y n + d, daysToMonth y n) := by
  induction k generalizing m with
  | zero =>
    obtain rfl : m = n := hk
    rw [monthsUp, if_neg (lt_irrefl _)]
  | succ k ih =>
    have hnext := ih (m + 1) (by omega)
    have hbound := daysToMonth_inInt (y := y) (show m + 1 ≤ 12 by omega)
    rw [daysToMonth_succ] at hnext hbound
    rw [monthsUp, if_pos (by omega), daysPerMonth_eq y (show m < 12 by omega), if_pos (by
      unfold InInt
      omega), ← hnext, add_right_comm, Nat.cast_add, Nat.cast_one]

lemma weekday_eq (days : ℤ) : weekday days = (4 + days) % 7 := by
  have h := tdiv_carry (by decide : (0 : ℤ) < 7) (4 + days)
  unfold weekday
  split_ifs at h ⊢ <;> exact h.2.symm

/-- What `timegm` does after the normalization. -/
lemma timegm_normal {tm' : Tm} (hn : normalizeEntries tm = .ok tm') (h : tm'.Normal) :
    ∃ out, timegm tm = .ok (tm'.instant, out) ∧ out.Dated ∧
      out = { tm' with tmYday := out.tmYday, tmWday := out.tmWday } := by
  have hyears := yearsUp_eq (t := 1900 + tm'.tmYear) daysToYear_epoch.symm
  have hdown := yearsDown_eq (t := 1900 + tm'.tmYear) (y := max 1970 (1900 + tm'.tmYear)) rfl
  rw [min_eq_right (le_max_right ..)] at hdown
  have hmon : (tm'.tmMon.toNat : ℤ) = tm'.tmMon := Int.toNat_of_nonneg h.mon.1
  have hmonths := monthsUp_eq (y := 1900 + tm'.tmYear) (d := daysToYear (1900 + tm'.tmYear))
    (show tm'.tmMon.toNat ≤ 12 by have := h.mon.2; omega) tm'.tmMon.toNat 0 (Nat.zero_add _)
  rw [daysToMonth_zero, zero_add, hmon, Nat.cast_zero] at hmonths
  have hbound := daysToMonth_inInt (y := 1900 + tm'.tmYear) (show tm'.tmMon.toNat ≤ 12 by have := h.mon.2; omega)
  have hmday := monthDays_bounds (1900 + tm'.tmYear) tm'.tmMon.toNat
  obtain ⟨hsec, hmin, hhour, hm, hday, hyear⟩ := h
  rw [timegm, hn, ok_bind, hyears]
  dsimp only
  rw [hdown]
  dsimp only
  rw [hmonths, ok_bind]
  dsimp only
  rw [intOp, if_pos (by unfold InInt; omega), ok_bind, intOp, if_pos (by unfold InInt; omega), ok_bind, intOp,
    if_pos (by unfold InInt; omega), ok_bind]
  refine ⟨_, congrArg Except.ok (Prod.ext ?_ rfl), ⟨rfl, ?_⟩, rfl⟩
  · rw [Tm.instant, Int.ediv_eq_zero_of_lt hm.1 hm.2, Int.emod_eq_of_lt hm.1 hm.2, add_zero]
    ring
  · dsimp only
    rw [weekday_eq]
    congr 2
    ring

/-- The exact count with the normal form of the same instant, or a report of overflow. -/
def Exact (tm : Tm) : Prop := timegm tm = .error .eoverflow ∨
  ∃ out, timegm tm = .ok (tm.instant, out) ∧ out.Normal ∧ out.Dated ∧ out.instant = tm.instant

lemma Tm.Normal.instant_eq (h : tm.Normal) : tm.instant = (daysToYear (1900 + tm.tmYear) +
    daysToMonth (1900 + tm.tmYear) tm.tmMon.toNat + (tm.tmMday - 1)) * 86400 + tm.tmHour * 3600 + tm.tmMin * 60 + tm.tmSec := by
  rw [Tm.instant, Int.ediv_eq_zero_of_lt h.mon.1 h.mon.2, Int.emod_eq_of_lt h.mon.1 h.mon.2, add_zero]

/-- `time_t` is wide enough. -/
lemma Tm.Normal.instant_fits (h : tm.Normal) : -2 ^ 62 ≤ tm.instant ∧ tm.instant < 2 ^ 62 := by
  have hmonth := daysToMonth_inInt (y := 1900 + tm.tmYear) (show tm.tmMon.toNat ≤ 12 by have := h.mon.2; omega)
  have hmday := monthDays_bounds (1900 + tm.tmYear) tm.tmMon.toNat
  have hyear : -2 ^ 41 ≤ daysToYear (1900 + tm.tmYear) ∧ daysToYear (1900 + tm.tmYear) < 2 ^ 41 := by
    have hin := h.year
    unfold InInt at hin
    rcases le_total 1970 (1900 + tm.tmYear) with hle | hle
    · have hgap := daysToYear_gap hle
      rw [daysToYear_epoch] at hgap
      omega
    · have hgap := daysToYear_gap hle
      rw [daysToYear_epoch] at hgap
      omega
  rw [h.instant_eq]
  obtain ⟨hsec, hmin, hhour, -, hday, -⟩ := h
  omega

/-- `timegm` is exact, or reports, on exactly those fields whose carries are not lost. -/
theorem timegm_exact_iff (hf : tm.Fits) : Exact tm ↔ tm.CarriesKept := by
  constructor
  · intro h
    by_contra hlost
    have hundef : timegm tm = .error .undefined := by
      rw [timegm, normalizeEntries_lost hf hlost]
      rfl
    rcases h with hover | ⟨out, hok, -⟩
    · rw [hundef] at hover
      cases hover
    · rw [hundef] at hok
      cases hok
  · intro hk
    rcases normalizeEntries_kept hf hk with hover | ⟨tm', hn, hnormal, hinstant⟩
    · refine .inl ?_
      rw [timegm, hover]
      rfl
    · obtain ⟨out, hok, hdated, hout⟩ := timegm_normal hn hnormal
      have hn' : out.Normal := by
        rw [hout]
        exact ⟨hnormal.sec, hnormal.min, hnormal.hour, hnormal.mon, hnormal.mday, hnormal.year⟩
      rw [hinstant] at hok
      refine .inr ⟨out, hok, hn', hdated, ?_⟩
      rw [hout]
      exact hinstant

/-- Among them is the second before the first minute that `int` holds. -/
theorem timegm_lost : ¬ Exact ⟨-1, -2 ^ 31, 0, 1, 0, 70, 0, 0⟩ := by
  have hf : Tm.Fits ⟨-1, -2 ^ 31, 0, 1, 0, 70, 0, 0⟩ := by constructor <;> decide
  have hundef : timegm ⟨-1, -2 ^ 31, 0, 1, 0, 70, 0, 0⟩ = .error .undefined := by
    rw [timegm, normalizeEntries_lost hf fun hk => hk.1 (by decide)]
    rfl
  rintro (hover | ⟨out, hok, -⟩)
  · rw [hundef] at hover
    cases hover
  · rw [hundef] at hok
    cases hok

theorem timegm_exact_carried : Exact ⟨-1, 60, 24, 0, 13, 70, 0, 0⟩ ↔ Tm.CarriesKept ⟨-1, 60, 24, 0, 13, 70, 0, 0⟩ :=
  timegm_exact_iff (by constructor <;> decide)

end Timegm

section Gmtime
variable {s y d t : ℤ}

lemma gmtimeBack_spec (hd : d = daysToYear y) : ∃ s' y', gmtimeBack s y d = (s', y', daysToYear y') ∧ 0 ≤ s' ∧
    daysToYear y' * 86400 + s' = daysToYear y * 86400 + s := by
  induction s, y, d using gmtimeBack.induct with
  | case1 s y d h ih =>
    have hpred := daysToYear_pred y
    rw [← daysPerYear_eq] at hpred
    obtain ⟨s', y', hback, h0, hsum⟩ := ih (by rw [hd, hpred])
    rw [gmtimeBack, if_pos h]
    exact ⟨s', y', hback, h0, by omega⟩
  | case2 s y d h =>
    rw [gmtimeBack, if_neg h, hd]
    exact ⟨s, y, rfl, not_lt.mp h, rfl⟩

lemma gmtimeForward_spec (hd : d = daysToYear y) (h0 : 0 ≤ s) : ∃ s' y', gmtimeForward s y d = (s', y', daysToYear y') ∧
    (0 ≤ s' ∧ s' < yearDays y' * 86400) ∧ daysToYear y' * 86400 + s' = daysToYear y * 86400 + s := by
  induction s, y, d using gmtimeForward.induct with
  | case1 s y d h ih =>
    have hsucc := daysToYear_succ y
    rw [← daysPerYear_eq] at hsucc
    obtain ⟨s', y', hforward, hs', hsum⟩ := ih (by rw [hd, hsucc]) (by omega)
    rw [gmtimeForward, if_pos h]
    exact ⟨s', y', hforward, hs', by omega⟩
  | case2 s y d h =>
    rw [gmtimeForward, if_neg h, hd]
    rw [daysPerYear_eq] at h
    exact ⟨s, y, rfl, ⟨h0, not_le.mp h⟩, rfl⟩

lemma gmtimeMonths_spec {mon yday : ℤ} (hmon : 0 ≤ mon ∧ mon < 12) (h0 : 0 ≤ s)
    (hlt : daysToMonth y mon.toNat * 86400 + s < yearDays y * 86400) (hyday : yday = daysToMonth y mon.toNat)
    (hd : d = daysToYear y + yday) : ∃ s' mon', gmtimeMonths s y mon d yday =
      (s', mon', daysToYear y + daysToMonth y mon'.toNat, daysToMonth y mon'.toNat) ∧ (0 ≤ mon' ∧ mon' < 12) ∧
      (0 ≤ s' ∧ s' < monthDays y mon'.toNat * 86400) ∧
      daysToMonth y mon'.toNat * 86400 + s' = daysToMonth y mon.toNat * 86400 + s := by
  induction s, mon, d, yday using gmtimeMonths.induct (y) with
  | case1 s mon d yday h ih =>
    rw [daysPerMonth_toNat y hmon] at h
    have hnext : daysToMonth y (mon + 1).toNat = daysToMonth y mon.toNat + daysPerMonth mon y := by
      rw [Int.toNat_add hmon.1 (by decide), Int.toNat_one, daysToMonth_succ, daysPerMonth_toNat y hmon]
    have hmon' : mon + 1 < 12 := by
      -- after the last month the year would be over
      by_contra hlast
      have heleven : mon.toNat = 11 := by omega
      have htwelve := daysToMonth_twelve y
      rw [daysToMonth_succ] at htwelve
      rw [heleven] at h hlt
      omega
    rw [daysPerMonth_toNat y hmon] at ih
    rw [daysPerMonth_toNat y hmon] at hnext
    obtain ⟨s', mon', hmonths, hm', hs', hsum⟩ := ih ⟨by omega, hmon'⟩ (by omega) (by omega) (by omega) (by omega)
    rw [gmtimeMonths, if_pos (by rwa [daysPerMonth_toNat y hmon]), daysPerMonth_toNat y hmon]
    exact ⟨s', mon', hmonths, hm', hs', by omega⟩
  | case2 s mon d yday h =>
    rw [gmtimeMonths, if_neg h, hd, hyday]
    rw [daysPerMonth_toNat y hmon] at h
    exact ⟨s, mon, rfl, hmon, ⟨h0, not_le.mp h⟩, rfl⟩

lemma toInt32_eq {x : ℤ} (h : InInt x) : toInt32 x = x := by
  unfold toInt32 InInt at *
  rw [Int.bmod_eq_of_le] <;> omega

lemma normalize_small {x z r : ℤ} (hx : 0 ≤ x ∧ x < r) (hz : InInt z) : normalize x z r = .ok (x, z) := by
  have hdiv := Int.ediv_eq_zero_of_lt hx.1 hx.2
  have hmod := Int.emod_eq_of_lt hx.1 hx.2
  have hlost : ¬ Lost x z r := by
    rw [Lost, hdiv]
    unfold InInt at hz
    omega
  rw [normalize_kept (by omega) hz hlost (by rwa [hdiv, add_zero]), hdiv, hmod, add_zero]

lemma normalizeEntries_normal {tm : Tm} (h : tm.Normal) : normalizeEntries tm = .ok tm := by
  obtain ⟨hsec, hmin, hhour, hmon, hmday, hyear⟩ := h
  have hmonth := monthDays_bounds (1900 + tm.tmYear) tm.tmMon.toNat
  have hpass : passMonths tm.tmMday tm.tmMon tm.tmYear = .ok (tm.tmMday, tm.tmMon, tm.tmYear) := by
    rw [passMonths, if_neg]
    rw [daysPerMonth_toNat _ hmon, add_comm]
    omega
  have hback : backMonths tm.tmMday tm.tmMon tm.tmYear = .ok (tm.tmMday, tm.tmMon, tm.tmYear) := by
    rw [backMonths, if_neg (by omega)]
  have hsmall : ∀ {x : ℤ}, 0 ≤ x → x < 60 → InInt x := by
    unfold InInt
    omega
  rw [normalizeEntries, normalize_small hsec (hsmall hmin.1 hmin.2), ok_bind]
  dsimp only
  rw [normalize_small hmin (hsmall hhour.1 (by omega)), ok_bind]
  dsimp only
  rw [normalize_small hhour (hsmall (by omega) (by omega)), ok_bind]
  dsimp only
  rw [normalize_small hmon hyear, ok_bind]
  dsimp only
  rw [hpass, ok_bind]
  dsimp only
  rw [hback]
  rfl

lemma Tm.Dated.unique {a b : Tm} (ha : a.Dated) (hb : b.Dated)
    (hab : a = { b with tmYday := a.tmYday, tmWday := a.tmWday }) : a = b := by
  obtain ⟨hya, hwa⟩ := ha
  obtain ⟨hyb, hwb⟩ := hb
  rw [hya] at hwa
  rw [hyb] at hwb
  have hyear : a.tmYear = b.tmYear := by rw [hab]
  have hmon : a.tmMon = b.tmMon := by rw [hab]
  have hmday : a.tmMday = b.tmMday := by rw [hab]
  rw [hab, hya, hwa, hyear, hmon, hmday, ← hyb]
  rw [← hyb] at hwb
  rw [← hwb]

/-- `gmtime_r` writes the normal date of the instant, on which `timegm` gives the instant back and changes
nothing. -/
theorem gmtimeR_timegm (hy : InInt (y - 1900)) (ht : daysToYear y * 86400 ≤ t ∧ t < daysToYear (y + 1) * 86400) :
    (gmtimeR t).Normal ∧ (gmtimeR t).Dated ∧ timegm (gmtimeR t) = .ok (t, gmtimeR t) := by
  obtain ⟨s1, y1, hback, h1, hsum1⟩ := gmtimeBack_spec (s := t) daysToYear_epoch.symm
  obtain ⟨s2, y2, hforward, h2, hsum2⟩ := gmtimeForward_spec (y := y1) rfl h1
  rw [daysToYear_epoch] at hsum1
  obtain rfl : y2 = y := by
    have hsucc := daysToYear_succ y2
    exact year_unique (d := t / 86400) ⟨by omega, by omega⟩ ⟨by omega, by omega⟩
  obtain ⟨s3, mon, hmonths, hmon, h3, hsum3⟩ := gmtimeMonths_spec (y := y2)
    (d := daysToYear y2) (⟨le_rfl, by decide⟩ : (0 : ℤ) ≤ 0 ∧ (0 : ℤ) < 12) h2.1 (by simpa using h2.2) rfl (add_zero _).symm
  rw [Int.toNat_zero, daysToMonth_zero] at hsum3 hmonths
  have hmonth := monthDays_bounds y2 mon.toNat
  have hyday := daysToMonth_inInt (y := y2) (show mon.toNat ≤ 12 by omega)
  have hsmall : ∀ {x : ℤ}, 0 ≤ x → x < 86400 → InInt x := by
    unfold InInt
    omega
  have hr : gmtimeR t = ⟨s3 % 86400 % 3600 % 60, s3 % 86400 % 3600 / 60, s3 % 86400 / 3600, s3 / 86400 + 1, mon,
      y2 - 1900, (4 + (daysToYear y2 + daysToMonth y2 mon.toNat + s3 / 86400)) % 7,
      daysToMonth y2 mon.toNat + s3 / 86400⟩ := by
    have h0 : 0 ≤ s3 % 86400 := by omega
    have h1 : 0 ≤ s3 % 86400 % 3600 := by omega
    rw [gmtimeR, hback]
    dsimp only
    rw [hforward]
    dsimp only
    rw [hmonths]
    dsimp only
    rw [Int.tdiv_eq_ediv_of_nonneg h3.1, Int.tmod_eq_emod_of_nonneg h3.1, show (60 * 60 : ℤ) = 3600 from rfl,
      Int.tdiv_eq_ediv_of_nonneg h0, Int.tmod_eq_emod_of_nonneg h0, Int.tdiv_eq_ediv_of_nonneg h1,
      Int.tmod_eq_emod_of_nonneg h1, toInt32_eq (hsmall (x := s3 / 86400) (by omega) (by omega)), toInt32_eq hy,
      toInt32_eq (hsmall (by omega) (by omega)), toInt32_eq (hsmall (by omega) (by omega)),
      toInt32_eq (hsmall (by omega) (by omega)), toInt32_eq (hsmall (by omega) (by omega)),
      toInt32_eq (hsmall (by omega) (by omega)), weekday_eq]
  have hyear : 1900 + (y2 - 1900) = y2 := by ring
  have hnormal : (gmtimeR t).Normal := by
    rw [hr]
    refine ⟨?_, ?_, ?_, hmon, ?_, hy⟩
    iterate 3
      · dsimp only
        omega
    · dsimp only
      rw [hyear]
      omega
  have hdated : (gmtimeR t).Dated := by
    rw [hr]
    constructor
    all_goals
      dsimp only
      rw [hyear]
      ring_nf
  obtain ⟨out, hok, hout, hsame⟩ := timegm_normal (normalizeEntries_normal hnormal) hnormal
  rw [hout.unique hdated hsame] at hok
  refine ⟨hnormal, hdated, ?_⟩
  rw [hok, hnormal.instant_eq, hr]
  dsimp only
  rw [hyear]
  congr 2
  omega

theorem gmtimeR_timegm_beforeEpoch : (gmtimeR (-1)).Normal ∧ (gmtimeR (-1)).Dated ∧
    timegm (gmtimeR (-1)) = .ok (-1, gmtimeR (-1)) :=
  gmtimeR_timegm (y := 1969) (by decide) (by decide)

end Gmtime

end PiggyOs.Timegm
