import PiggyOs.Clocks
import PiggyOs.Timegm

/-! The real-time clock of the CMOS: its initialization, reading the time off its registers, and the
encodings in which the registers hold it. -/
namespace PiggyOs.Rtc
open Calendar Clocks Timegm

/-- `updating` is how often more the clock answers that an update is in progress. -/
structure Cmos where
  registers : BitVec 8 → BitVec 8
  updating : ℕ
  bcdMode : Bool
  xxivHrMode : Bool
  centuryRegister : BitVec 8

def Cmos.reset (registers : BitVec 8 → BitVec 8) (updating : ℕ) : Cmos := ⟨registers, updating, false, false, 0⟩

def bcdToBin (val : BitVec 8) : BitVec 8 := (val &&& 0x0f) + ((val &&& 0xf0) >>> 4) * 10

def isCmosUpdating (c : Cmos) : Bool × Cmos := (0 < c.updating, { c with updating := c.updating - 1 })

def cmosWait (c : Cmos) : Cmos :=
  if (isCmosUpdating c).1 then cmosWait (isCmosUpdating c).2 else (isCmosUpdating c).2
termination_by c.updating
decreasing_by
  simp only [isCmosUpdating, decide_eq_true_eq] at *
  omega

def isLeap (year : ℕ) : Bool := year % 4 = 0 ∧ (year % 100 ≠ 0 ∨ year % 400 = 0)

/-- Any other month is a panic. -/
def monthToDays (month year : ℕ) : Option ℕ :=
  match month with
  | 1 => some 31
  | 2 => some (if isLeap year then 29 else 28)
  | 3 => some 31
  | 4 => some 30
  | 5 => some 31
  | 6 => some 30
  | 7 => some 31
  | 8 => some 31
  | 9 => some 30
  | 10 => some 31
  | 11 => some 30
  | 12 => some 31
  | _ => none

/-- The days of the first `n` months more. -/
def monthLoop (year n : ℕ) (days : ℤ) : Option ℤ :=
  (List.range' 1 n).foldlM (fun days i => (monthToDays i year).map fun k : ℕ => days + k) days

/-- The days of the first `n` years since 1970 more. -/
def yearLoop (n : ℕ) (days : ℤ) : ℤ :=
  (List.range' 1970 n).foldl (fun days i => days + if isLeap i then 366 else 365) days

def cmosRead (c : Cmos) (reg : BitVec 8) : BitVec 8 :=
  if c.bcdMode then c.registers reg else bcdToBin (c.registers reg)

def rtcHour (xxivHrMode : Bool) (hour : BitVec 8) : BitVec 8 :=
  if !xxivHrMode ∧ hour &&& 0x80 ≠ 0 then ((hour &&& 0x7f) + 12) % 24 else hour

/-- No result stands for a panic. -/
def cmosGetRtcTime (c : Cmos) : Option Timespec :=
  let c := cmosWait c
  let second := cmosRead c 0x00
  let minute := cmosRead c 0x02
  let hour := cmosRead c 0x04
  let day := cmosRead c 0x07
  let month := cmosRead c 0x08
  let year := (cmosRead c 0x09).toNat
  let hour := rtcHour c.xxivHrMode hour
  let year := if c.centuryRegister ≠ 0 then year + (cmosRead c c.centuryRegister).toNat * 100
    else if year < 20 then year + 21 * 100 else year + 20 * 100
  (monthLoop year (month.toNat - 1) (day.toNat - 1)).map fun days =>
    let days := yearLoop (year - 1970) days
    ⟨BitVec.ofInt 64 (second.toNat + minute.toNat * 60 + hour.toNat * 3600 + days * 86400), 0⟩

/-- `fadt` is the table with the signature `FACP`, if there is one. -/
def cmosInit (fadt : Option (ℕ → BitVec 8)) (c : Cmos) : Cmos :=
  let c := match fadt with
    | none => c
    | some table => if table 108 ≠ 0 then { c with centuryRegister := table 108 } else c
  let c := cmosWait c
  let status := cmosRead c 0x0b
  let c := if status &&& (1 <<< 1) ≠ 0 then { c with xxivHrMode := true } else c
  if status &&& (1 <<< 2) ≠ 0 then { c with bcdMode := true } else c

structure DateTime where
  year : ℕ
  month : ℕ
  day : ℕ
  hour : ℕ
  minute : ℕ
  second : ℕ
  deriving DecidableEq, Repr

/-- As the C library writes it; what `timegm` does not read is arbitrary. -/
def DateTime.tm (d : DateTime) (wday yday : ℤ) : Tm :=
  ⟨d.second, d.minute, d.hour, d.day, d.month - 1, d.year - 1900, wday, yday⟩

structure DateTime.Valid (d : DateTime) : Prop where
  year : 1970 ≤ d.year
  month : 1 ≤ d.month ∧ d.month ≤ 12
  day : 1 ≤ d.day ∧ d.day ≤ monthDays d.year (d.month - 1)
  hour : d.hour < 24
  minute : d.minute < 60
  second : d.second < 60

/-- A number below 100 in one register. -/
def encode (binary : Bool) (v : ℕ) : BitVec 8 := BitVec.ofNat 8 (if binary then v else v / 10 * 16 + v % 10)

def encodeHour (binary xxiv : Bool) (hour : ℕ) : BitVec 8 :=
  if xxiv then encode binary hour
  else encode binary (if hour % 12 = 0 then 12 else hour % 12) ||| if 12 ≤ hour then 0x80 else 0

/-- Bits 1 and 2 of the status register announce the format. -/
def announcesXxiv (status : BitVec 8) : Bool := status.getLsbD 1

def announcesBinary (status : BitVec 8) : Bool := status.getLsbD 2

/-- The registers hold `d` in the format that they announce. -/
structure Holds (registers : BitVec 8 → BitVec 8) (century : BitVec 8) (d : DateTime) : Prop where
  second : registers 0x00 = encode (announcesBinary (registers 0x0b)) d.second
  minute : registers 0x02 = encode (announcesBinary (registers 0x0b)) d.minute
  hour : registers 0x04 = encodeHour (announcesBinary (registers 0x0b)) (announcesXxiv (registers 0x0b)) d.hour
  day : registers 0x07 = encode (announcesBinary (registers 0x0b)) d.day
  month : registers 0x08 = encode (announcesBinary (registers 0x0b)) d.month
  year : registers 0x09 = encode (announcesBinary (registers 0x0b)) (d.year % 100)
  century : registers century = encode (announcesBinary (registers 0x0b)) (d.year / 100)
  fits : d.year / 100 ≤ if announcesBinary (registers 0x0b) then 255 else 99

/-- The formats are told apart, and in the 12-hour formats the hour is before noon, or binary, and not 12. Or binary
is taken for BCD, in 1970, and all numbers are below 16. -/
def Readable (status : BitVec 8) (d : DateTime) : Prop :=
  if announcesBinary (bcdToBin status) = announcesBinary status then
    announcesXxiv status ∨
      d.hour % 12 ≠ 0 ∧ (d.hour < 12 ∨ announcesBinary status ∧ ¬ announcesXxiv (bcdToBin status))
  else
    announcesBinary status ∧ d.year = 1970 ∧ d.day < 16 ∧ d.minute < 16 ∧ d.second < 16 ∧
      if announcesXxiv status then d.hour < 16 else 0 < d.hour ∧ d.hour < 12

section Registers

lemma bcdToBin_toNat (val : BitVec 8) : (bcdToBin val).toNat = val.toNat % 16 + val.toNat / 16 * 10 := by
  revert val
  decide +kernel

/-- What a register that holds `v` reads as. -/
def shown (raw binary : Bool) (v : ℕ) : ℕ :=
  if raw = binary then v else if binary then v - 6 * (v / 16) else v + 6 * (v / 10)

lemma cmosRead_encode {c : Cmos} {reg : BitVec 8} {binary : Bool} {v : ℕ} (h : v ≤ if binary then 255 else 99)
    (hreg : c.registers reg = encode binary v) : (cmosRead c reg).toNat = shown c.bcdMode binary v := by
  unfold cmosRead
  rw [hreg, encode, shown]
  cases c.bcdMode <;> cases binary <;> simp [bcdToBin_toNat] at h ⊢ <;> omega

def hourRead (raw xxivHrMode binary xxiv : Bool) (hour : ℕ) : ℕ :=
  (rtcHour xxivHrMode (if raw then encodeHour binary xxiv hour else bcdToBin (encodeHour binary xxiv hour))).toNat

lemma hourRead_same : ∀ binary xxivHrMode xxiv : Bool, ∀ hour < 24,
    (hourRead binary xxivHrMode binary xxiv hour = hour ↔
      xxiv ∨ hour % 12 ≠ 0 ∧ (hour < 12 ∨ binary ∧ ¬ xxivHrMode)) := by
  decide +kernel

/-- Binary taken for BCD. -/
lemma hourRead_misread : ∀ xxivHrMode xxiv : Bool, ∀ hour < 24,
    if if xxiv then hour < 16 else 0 < hour ∧ hour < 12 then hourRead false xxivHrMode true xxiv hour = hour
    else hourRead false xxivHrMode true xxiv hour + 6 = hour ∨ hourRead false xxivHrMode true xxiv hour = hour + 12 ∨
      hourRead false xxivHrMode true xxiv hour = hour + 68 ∨ hourRead false xxivHrMode true xxiv hour = hour + 80 := by
  decide +kernel

end Registers

section Loops
variable {year : ℕ}

lemma isLeap_iff (year : ℕ) : isLeap year = true ↔ Leap year := by
  rw [isLeap, decide_eq_true_eq, Leap]
  omega

lemma monthToDays_eq (year : ℕ) {n : ℕ} (hn : n < 12) :
    (monthToDays (1 + n) year).map (fun k : ℕ => (k : ℤ)) = some (monthDays year n) := by
  interval_cases n <;> simp [monthToDays, monthDays, isLeap_iff]

lemma monthLoop_eq (year n : ℕ) (days : ℤ) :
    monthLoop year n days = if n ≤ 12 then some (days + daysToMonth year n) else none := by
  induction n with
  | zero => simp [monthLoop]
  | succ n ih =>
    have hstep : monthLoop year (n + 1) days = (monthLoop year n days).bind fun days =>
        (monthToDays (1 + n) year).map fun k : ℕ => days + k := by
      rw [monthLoop, List.range'_concat, List.foldlM_append, Nat.one_mul]
      simp only [List.foldlM_cons, List.foldlM_nil, bind_pure]
      rfl
    rw [hstep, ih]
    rcases Nat.lt_or_ge n 12 with hlt | hge
    · have hmonth := monthToDays_eq year hlt
      obtain ⟨k, hk, hdays⟩ := Option.map_eq_some_iff.mp hmonth
      rw [if_pos (by omega), if_pos (by omega), Option.bind_some, hk, Option.map_some, daysToMonth_succ, ← hdays]
      ring_nf
    · rw [if_neg (show ¬ n + 1 ≤ 12 by omega)]
      split_ifs with h12
      · obtain rfl : n = 12 := by omega
        rfl
      · rfl

lemma yearLoop_eq (n : ℕ) (days : ℤ) : yearLoop n days = days + daysToYear (1970 + n) := by
  induction n with
  | zero => simp [yearLoop]
  | succ n ih =>
    have hstep : yearLoop (n + 1) days = yearLoop n days + if isLeap (1970 + n) then 366 else 365 := by
      rw [yearLoop, List.range'_concat, List.foldl_append, Nat.one_mul]
      rfl
    have hyear := daysToYear_succ (1970 + n)
    have hdays : (if isLeap (1970 + n) then 366 else 365 : ℤ) = yearDays (1970 + n) := by
      simp [yearDays, isLeap_iff]
    rw [hstep, ih, hdays]
    push_cast
    rw [← add_assoc 1970, hyear]
    ring

end Loops

section Reading
variable {registers : BitVec 8 → BitVec 8} {century : BitVec 8} {d : DateTime} {c : Cmos}

lemma cmosWait_eq (c : Cmos) : cmosWait c = { c with updating := 0 } := by
  induction c using cmosWait.induct with
  | case1 c h ih =>
    rw [cmosWait, if_pos h, ih]
    rfl
  | case2 c h =>
    have h0 : c.updating - 1 = 0 := by
      simp only [isCmosUpdating, decide_eq_true_eq] at h
      omega
    rw [cmosWait, if_neg h, isCmosUpdating]
    simp only [h0]

lemma cmosInit_eq {table : ℕ → BitVec 8} (h : table 108 = century) (h0 : century ≠ 0) (j : ℕ) :
    cmosInit (some table) (Cmos.reset registers j) =
      ⟨registers, 0, announcesBinary (bcdToBin (registers 0x0b)), announcesXxiv (bcdToBin (registers 0x0b)), century⟩ := by
  have hbits : ∀ status : BitVec 8, ((status &&& (1 <<< 1) ≠ 0) = announcesXxiv status) ∧
      ((status &&& (1 <<< 2) ≠ 0) = announcesBinary status) := by
    decide +kernel
  obtain ⟨hxxiv, hbinary⟩ := hbits (bcdToBin (registers 0x0b))
  unfold cmosInit
  simp only [h, if_pos h0, cmosWait_eq]
  have hstatus : cmosRead ⟨registers, 0, false, false, century⟩ 0x0b = bcdToBin (registers 0x0b) := rfl
  rw [Cmos.reset]
  simp only [hstatus, hxxiv, hbinary]
  split_ifs with hx hb hb <;> simp_all

/-- What the fields of the clock amount to as they are read. -/
def clockSeconds (year month day hour minute second : ℕ) : ℤ :=
  (daysToYear (max 1970 year) + daysToMonth year (month - 1) + (day - 1)) * 86400 + hour * 3600 + minute * 60 + second

lemma cmosGetRtcTime_eq {year : ℕ} (h0 : c.centuryRegister ≠ 0)
    (hyear : (cmosRead c 0x09).toNat + (cmosRead c c.centuryRegister).toNat * 100 = year) :
    cmosGetRtcTime c = if (cmosRead c 0x08).toNat ≤ 13 then
      some ⟨BitVec.ofInt 64 (clockSeconds year (cmosRead c 0x08).toNat (cmosRead c 0x07).toNat
        (rtcHour c.xxivHrMode (cmosRead c 0x04)).toNat (cmosRead c 0x02).toNat (cmosRead c 0x00).toNat), 0⟩
    else none := by
  have hread : ∀ reg, cmosRead { c with updating := 0 } reg = cmosRead c reg := fun _ => rfl
  unfold cmosGetRtcTime
  rw [cmosWait_eq]
  dsimp only
  simp only [hread, if_pos h0, hyear, monthLoop_eq, yearLoop_eq]
  have hmonth : (cmosRead c 0x08).toNat - 1 ≤ 12 ↔ (cmosRead c 0x08).toNat ≤ 13 := by omega
  have hmax : (1970 + (year - 1970 : ℕ) : ℤ) = max 1970 (year : ℤ) := by omega
  simp only [hmonth, hmax, clockSeconds]
  split_ifs
  · rw [Option.map_some]
    congr 3
    ring
  · rfl

/-- The year as the century and the year register read. -/
def yearShown (raw binary : Bool) (year : ℕ) : ℕ := shown raw binary (year % 100) + shown raw binary (year / 100) * 100

/-- Everything as it reads. -/
def secondsShown (raw xxivHrMode binary xxiv : Bool) (d : DateTime) : ℤ :=
  clockSeconds (yearShown raw binary d.year) (shown raw binary d.month) (shown raw binary d.day)
    (hourRead raw xxivHrMode binary xxiv d.hour) (shown raw binary d.minute) (shown raw binary d.second)

def DateTime.seconds (d : DateTime) : ℤ := clockSeconds d.year d.month d.day d.hour d.minute d.second

lemma shown_same (binary : Bool) (v : ℕ) : shown binary binary v = v := if_pos rfl

lemma secondsShown_same (xxivHrMode binary xxiv : Bool) (hd : d.Valid) :
    secondsShown binary xxivHrMode binary xxiv d = d.seconds ↔
      xxiv ∨ d.hour % 12 ≠ 0 ∧ (d.hour < 12 ∨ binary ∧ ¬ xxivHrMode) := by
  rw [← hourRead_same binary xxivHrMode xxiv d.hour hd.hour, secondsShown, DateTime.seconds, yearShown]
  simp only [shown_same, Nat.mod_add_div', clockSeconds]
  omega

/-- BCD taken for binary is some centuries late, or no month at all. -/
lemma secondsShown_late (xxivHrMode xxiv : Bool) (hd : d.Valid) (hmonth : shown true false d.month ≤ 13) :
    secondsShown true xxivHrMode false xxiv d ≠ d.seconds := by
  obtain ⟨hyear, hm, hday, hhour, hminute, hsecond⟩ := hd
  have hshown : ∀ v, shown true false v = v + 6 * (v / 10) := fun _ => rfl
  rw [hshown] at hmonth
  have hsame : shown true false d.month = d.month := by
    rw [hshown]
    omega
  have hlate : d.year + 600 ≤ yearShown true false d.year := by
    rw [yearShown, hshown, hshown]
    omega
  have hyears := (daysToYear_gap (y := max 1970 (d.year : ℤ)) (z := max 1970 (yearShown true false d.year : ℤ)) (by omega)).1
  have hmonths := daysToMonth_close d.year (yearShown true false d.year) (d.month - 1)
  rw [secondsShown, DateTime.seconds, clockSeconds, clockSeconds, hsame, hshown, hshown, hshown]
  omega

/-- Binary taken for BCD is too early, but for some times in 1970. -/
lemma secondsShown_early (xxivHrMode xxiv : Bool) (hd : d.Valid) :
    secondsShown false xxivHrMode true xxiv d = d.seconds ↔ d.year = 1970 ∧ d.day < 16 ∧ d.minute < 16 ∧
      d.second < 16 ∧ if xxiv then d.hour < 16 else 0 < d.hour ∧ d.hour < 12 := by
  have hhours := hourRead_misread xxivHrMode xxiv d.hour hd.hour
  obtain ⟨hyear, hm, hday, hhour, hminute, hsecond⟩ := hd
  have hmdays := monthDays_bounds d.year (d.month - 1)
  have hshown : ∀ v, shown false true v = v - 6 * (v / 16) := fun _ => rfl
  have hmonth : shown false true d.month = d.month := by
    rw [hshown]
    omega
  rw [secondsShown, DateTime.seconds, clockSeconds, clockSeconds, hmonth, hshown, hshown, hshown]
  by_cases h70 : d.year = 1970
  · have hearly : yearShown false true d.year = 1346 := by
      rw [h70]
      rfl
    have hmonths : daysToMonth (1346 : ℕ) (d.month - 1) = daysToMonth (1970 : ℕ) (d.month - 1) :=
      daysToMonth_congr (by decide) _
    rw [hearly, h70, hmonths, max_eq_left (by decide), max_eq_left (by decide)]
    split_ifs at hhours ⊢ <;> omega
  · refine iff_of_false (fun heq => ?_) fun h => h70 h.1
    have hless : yearShown false true d.year < d.year := by
      rw [yearShown, hshown, hshown]
      omega
    have hyears := (daysToYear_gap (y := max 1970 (yearShown false true d.year : ℤ)) (z := max 1970 (d.year : ℤ)) (by omega)).1
    have hmonths := daysToMonth_close (yearShown false true d.year) d.year (d.month - 1)
    have hhours' : hourRead false xxivHrMode true xxiv d.hour ≤ d.hour + 80 := by
      split_ifs at hhours <;> omega
    omega

lemma clockSeconds_fits {y month day hour minute second : ℕ} (hyear : y < 2 ^ 16) (hmonth : month ≤ 13)
    (hday : day < 2 ^ 8) (hhour : hour < 2 ^ 8) (hminute : minute < 2 ^ 8) (hsecond : second < 2 ^ 8) :
    (BitVec.ofInt 64 (clockSeconds y month day hour minute second)).toInt =
      clockSeconds y month day hour minute second := by
  have hyears := daysToYear_gap (y := 1970) (z := max 1970 (y : ℤ)) (le_max_left ..)
  have hmonths := daysToMonth_inInt (y := y) (show month - 1 ≤ 12 by omega)
  rw [daysToYear_epoch] at hyears
  have hbound : -2 ^ 62 ≤ clockSeconds y month day hour minute second ∧
      clockSeconds y month day hour minute second < 2 ^ 62 := by
    unfold clockSeconds
    omega
  rw [BitVec.toInt_ofInt, Int.bmod_eq_of_le] <;> omega

lemma DateTime.Valid.normal (hd : d.Valid) (hy : d.year < 2 ^ 16) (wday yday : ℤ) :
    (d.tm wday yday).Normal ∧ (d.tm wday yday).instant = d.seconds := by
  obtain ⟨hyear, hm, hday, hhour, hminute, hsecond⟩ := hd
  have hcentury : (1900 : ℤ) + (d.year - 1900) = d.year := by ring
  have hmonth : ((d.month : ℤ) - 1).toNat = d.month - 1 := by omega
  have hnormal : (d.tm wday yday).Normal := by
    constructor
    case mday =>
      simp only [DateTime.tm, hcentury, hmonth]
      omega
    all_goals
      simp only [DateTime.tm, InInt]
      omega
  refine ⟨hnormal, ?_⟩
  rw [hnormal.instant_eq, DateTime.seconds, clockSeconds]
  simp only [DateTime.tm, hcentury, hmonth]
  rw [max_eq_right (by omega)]

/-- What the kernel makes of the registers. -/
lemma cmosGetRtcTime_holds (hd : d.Valid) (h : Holds c.registers c.centuryRegister d) (h0 : c.centuryRegister ≠ 0) :
    (cmosGetRtcTime c).map (fun tp => tp.tvSec.toInt) =
      if shown c.bcdMode (announcesBinary (c.registers 0x0b)) d.month ≤ 13 then
        some (secondsShown c.bcdMode c.xxivHrMode (announcesBinary (c.registers 0x0b))
          (announcesXxiv (c.registers 0x0b)) d)
      else none := by
  obtain ⟨hyear, hm, hday, hhour, hminute, hsecond⟩ := hd
  have hmdays := monthDays_bounds d.year (d.month - 1)
  have hread : ∀ {reg : BitVec 8} {v : ℕ}, v ≤ 99 → c.registers reg = encode (announcesBinary (c.registers 0x0b)) v →
      (cmosRead c reg).toNat = shown c.bcdMode (announcesBinary (c.registers 0x0b)) v := by
    intro reg v hv hreg
    refine cmosRead_encode ?_ hreg
    split_ifs <;> omega
  have hhours : (rtcHour c.xxivHrMode (cmosRead c 0x04)).toNat =
      hourRead c.bcdMode c.xxivHrMode (announcesBinary (c.registers 0x0b)) (announcesXxiv (c.registers 0x0b)) d.hour := by
    rw [hourRead, ← h.hour]
    rfl
  have hlt : ∀ reg, (cmosRead c reg).toNat < 2 ^ 8 := fun _ => BitVec.isLt _
  have hfits : (cmosRead c 0x08).toNat ≤ 13 → _ := fun hmonth =>
    clockSeconds_fits (y := (cmosRead c 0x09).toNat + (cmosRead c c.centuryRegister).toNat * 100) (by
      have h1 := hlt 0x09
      have h2 := hlt c.centuryRegister
      omega) hmonth (hlt 0x07) (rtcHour c.xxivHrMode (cmosRead c 0x04)).isLt (hlt 0x02) (hlt 0x00)
  rw [cmosGetRtcTime_eq h0 rfl, ← hread (by omega) h.month, secondsShown, yearShown, ← cmosRead_encode h.fits h.century,
    ← hread (show d.year % 100 ≤ 99 by omega) h.year, ← hread (by omega) h.month, ← hread (by omega) h.day,
    ← hread (by omega) h.minute, ← hread (by omega) h.second, ← hhours]
  split_ifs with hmonth
  · rw [Option.map_some, hfits hmonth]
  · rfl

/-- The time that the kernel reads is the one of `timegm` on exactly the readable registers. -/
theorem cmosGetRtcTime_timegm_iff {table : ℕ → BitVec 8} (hcentury : table 108 = century) (h0 : century ≠ 0)
    (hd : d.Valid) (h : Holds registers century d) (wday yday : ℤ) (j k : ℕ) :
    (∃ t out, timegm (d.tm wday yday) = .ok (t, out) ∧
      (cmosGetRtcTime { cmosInit (some table) (Cmos.reset registers j) with updating := k }).map
        (fun tp => tp.tvSec.toInt) = some t) ↔ Readable (registers 0x0b) d := by
  have hfar : d.year < 2 ^ 16 := by
    have := h.fits
    split_ifs at this <;> omega
  obtain ⟨hnormal, hinstant⟩ := hd.normal hfar wday yday
  obtain ⟨out, hok, -⟩ := timegm_normal (normalizeEntries_normal hnormal) hnormal
  rw [hinstant] at hok
  have hiff : ∀ r : Option ℤ, (∃ t out, timegm (d.tm wday yday) = .ok (t, out) ∧ r = some t) ↔ r = some d.seconds := by
    intro r
    constructor
    · rintro ⟨t, out', hok', rfl⟩
      rw [hok] at hok'
      rw [(Prod.mk.inj (Except.ok.inj hok')).1]
    · rintro rfl
      exact ⟨_, out, hok, rfl⟩
  refine (hiff _).trans ?_
  rw [cmosInit_eq hcentury h0, cmosGetRtcTime_holds hd h h0, Readable]
  dsimp only
  generalize announcesBinary (bcdToBin (registers 0x0b)) = raw
  generalize announcesXxiv (bcdToBin (registers 0x0b)) = x
  generalize announcesBinary (registers 0x0b) = binary
  generalize announcesXxiv (registers 0x0b) = xxiv
  have hm := hd.month
  by_cases hsame : raw = binary
  · subst hsame
    rw [if_pos rfl, if_pos (by rw [shown_same]; omega), Option.some.injEq, secondsShown_same x raw xxiv hd]
  · rw [if_neg hsame]
    cases binary with
    | false =>
      obtain rfl : raw = true := by simpa using hsame
      refine iff_of_false (fun heq => ?_) (by simp)
      split_ifs at heq with hmonth
      exact secondsShown_late x xxiv hd hmonth (Option.some.inj heq)
    | true =>
      obtain rfl : raw = false := by simpa using hsame
      have hmonth : shown false true d.month ≤ 13 := by
        rw [show shown false true d.month = d.month - 6 * (d.month / 16) from rfl]
        omega
      rw [if_pos hmonth, Option.some.injEq, secondsShown_early x xxiv hd]
      simp

/-- One in the afternoon, in the 12-hour format and BCD. -/
def afternoon : DateTime := ⟨2024, 2, 29, 13, 0, 0⟩

/-- The registers of `d` in the format of `status`, with the century in register 50. -/
def registersOf (status : BitVec 8) (d : DateTime) (reg : BitVec 8) : BitVec 8 :=
  if reg = 0x0b then status
  else if reg = 0x00 then encode (announcesBinary status) d.second
  else if reg = 0x02 then encode (announcesBinary status) d.minute
  else if reg = 0x04 then encodeHour (announcesBinary status) (announcesXxiv status) d.hour
  else if reg = 0x07 then encode (announcesBinary status) d.day
  else if reg = 0x08 then encode (announcesBinary status) d.month
  else if reg = 0x09 then encode (announcesBinary status) (d.year % 100)
  else encode (announcesBinary status) (d.year / 100)

lemma afternoon_valid : afternoon.Valid := by constructor <;> decide

lemma afternoon_holds (status : BitVec 8) : Holds (registersOf status afternoon) 50 afternoon := by
  refine ⟨rfl, rfl, rfl, rfl, rfl, rfl, rfl, ?_⟩
  split_ifs <;> decide

/-- The PM bit goes into the tens before the kernel looks for it. -/
theorem cmosGetRtcTime_afternoon : ∃ t out, timegm (afternoon.tm 0 0) = .ok (t, out) ∧
    (cmosGetRtcTime (cmosInit (some fun _ => 50) (Cmos.reset (registersOf 0 afternoon) 0))).map
      (fun tp => tp.tvSec.toInt) = some (t + 68 * 3600) := by
  obtain ⟨hnormal, hinstant⟩ := afternoon_valid.normal (by decide) 0 0
  obtain ⟨out, hok, -⟩ := timegm_normal (normalizeEntries_normal hnormal) hnormal
  have hhold : Holds (registersOf 0 afternoon) 50 afternoon := afternoon_holds 0
  refine ⟨_, out, hok, ?_⟩
  rw [hinstant, cmosInit_eq rfl (by decide), cmosGetRtcTime_holds afternoon_valid hhold (by decide)]
  decide +kernel

theorem cmosGetRtcTime_timegm_binary : (∃ t out, timegm (afternoon.tm 4 59) = .ok (t, out) ∧
    (cmosGetRtcTime { cmosInit (some fun _ => 50) (Cmos.reset (registersOf 4 afternoon) 1) with updating := 2 }).map
      (fun tp => tp.tvSec.toInt) = some t) ↔ Readable (registersOf 4 afternoon 0x0b) afternoon :=
  cmosGetRtcTime_timegm_iff rfl (by decide) afternoon_valid (afternoon_holds 4) 4 59 1 2

end Reading

end PiggyOs.Rtc
