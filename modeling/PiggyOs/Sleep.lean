import PiggyOs.Sched

/-! Sleeping. The duration is converted to nanoseconds and to femtoseconds in 64 bits before it is divided by
the period of the counter. -/
namespace PiggyOs.Sleep
open Sched Fork Transition Filter

structure Timespec where
  tvSec : BitVec 64
  tvNsec : BitVec 64

/-- `time_t` is signed. -/
def Timespec.refused (d : Timespec) : Bool :=
  d.tvNsec.slt 0 || BitVec.slt 999999999 d.tvNsec || d.tvSec.slt 0

def Timespec.durationNs (d : Timespec) : BitVec 64 := d.tvNsec + d.tvSec * 1000000000

/-- The macro `HPET_CALC_SLEEP_NS`; `count` is what `hpet_count` returns. -/
def hpetCalcSleepNs (ns count : BitVec 64) (hpetClockPeriod : BitVec 32) : BitVec 64 :=
  count + ns * 1000000 / hpetClockPeriod.setWidth 64

def efault : BitVec 64 := 14
def einval : BitVec 64 := 22

/-- Up to `sched_yield`, with the value for `rax`; `duration` is what `copy_from_user` gets. -/
def syscallSleep (fuel : ℕ) (s : Scheduler) (t : ℕ) (duration : Option Timespec) (count : BitVec 64)
    (hpetClockPeriod : BitVec 32) : Option (BitVec 64 × Scheduler) :=
  match duration with
  | none => some (-efault, s)
  | some d =>
      if d.refused then some (-einval, s)
      else (schedThreadSleep fuel s t (hpetCalcSleepNs d.durationNs count hpetClockPeriod).toNat).map fun s => (0, s)

/-- `apply_suffix` of the program `sleep`. -/
def applySuffix (seconds : BitVec 64) (suffix : Char) : Option (BitVec 64) :=
  if suffix = '\x00' ∨ suffix = 's' then some seconds
  else if suffix = 'm' then some (seconds * 60)
  else if suffix = 'h' then some (seconds * 3600)
  else if suffix = 'd' then some (seconds * 86400)
  else none

/-- The duration in femtoseconds. -/
def Timespec.requested (d : Timespec) : ℕ := (d.tvSec.toNat * 10 ^ 9 + d.tvNsec.toNat) * 10 ^ 6

/-- An event that is not about thread `t` itself, and reads the counter, if it does, before `requested`
femtoseconds have passed since it was `count`. -/
def TooEarly (t count period requested : ℕ) : Event → Prop
  | .enqueue x => x ≠ t
  | .dequeue x => x ≠ t
  | .sleep _ _ => True
  | .schedule _ _ hpet => hpet t * period < count * period + requested

/-- The time to wake up is at most one period early, and the scheduler does not wake the thread before. -/
structure NeverEarly (d : Timespec) (count : BitVec 64) (period : BitVec 32) : Prop where
  target : ∀ fuel s t s', syscallSleep fuel s t (some d) count period = some (0, s') →
    (d.requested : ℤ) - period.toNat ≤ ((s'.sleepUntil t : ℤ) - count.toNat) * period.toNat
  asleep : ∀ fuel s t s', syscallSleep fuel s t (some d) count period = some (0, s') →
    ∀ events s'', Run Step s' events s'' → (∀ e ∈ events, TooEarly t count.toNat period.toNat d.requested e) →
      s''.state t = .sleeping

section Frames
variable {s s' : Scheduler} {t x w fuel : ℕ} {k : ListName}

lemma addThreadToList_same (h : addThreadToList fuel s k x = some s') : SameThreads s s' := by
  obtain ⟨r, -, rfl⟩ := Option.map_eq_some_iff.mp h
  exact ⟨rfl, rfl, rfl, rfl, rfl, rfl⟩

lemma removeThreadFromList_same (h : removeThreadFromList fuel s k x = some s') : SameThreads s s' := by
  obtain ⟨r, -, rfl⟩ := Option.map_eq_some_iff.mp h
  exact ⟨rfl, rfl, rfl, rfl, rfl, rfl⟩

/-- The thread sleeps until the counter is above `w`. -/
structure Asleep (s : Scheduler) (t w : ℕ) : Prop where
  state : s.state t = .sleeping
  sleepUntil : s.sleepUntil t = w

lemma Asleep.same (h : Asleep s t w) (hs : SameThreads s s') : Asleep s' t w :=
  ⟨by rw [hs.state, h.state], by rw [hs.sleepUntil, h.sleepUntil]⟩

lemma Asleep.congr (h : Asleep s t w) (hstate : s'.state t = s.state t) (huntil : s'.sleepUntil t = s.sleepUntil t) :
    Asleep s' t w := ⟨hstate.trans h.state, huntil.trans h.sleepUntil⟩

lemma schedThreadSleep_asleep (h : schedThreadSleep fuel s t w = some s') : Asleep s' t w := by
  obtain ⟨s1, -, hadd⟩ := Option.bind_eq_some_iff.mp h
  refine Asleep.same ⟨?_, ?_⟩ (addThreadToList_same hadd)
  · simp [Scheduler.setState]
  · simp

lemma Asleep.schedThreadSleep {w' : ℕ} (h : Asleep s t w) (hx : t ≠ x)
    (hstep : schedThreadSleep fuel s x w' = some s') : Asleep s' t w := by
  obtain ⟨s1, hrem, hadd⟩ := Option.bind_eq_some_iff.mp hstep
  refine Asleep.same (Asleep.congr (h.same (removeThreadFromList_same hrem)) ?_ ?_) (addThreadToList_same hadd)
  · simp [Scheduler.setState, hx]
  · simp [hx]

lemma Asleep.schedThreadDequeue (h : Asleep s t w) (hx : t ≠ x)
    (hstep : schedThreadDequeue fuel s x = some s') : Asleep s' t w := by
  obtain ⟨s1, hrem, hadd⟩ := Option.bind_eq_some_iff.mp hstep
  refine Asleep.same (Asleep.congr (h.same (removeThreadFromList_same hrem)) ?_ ?_) (addThreadToList_same hadd)
  · simp [Scheduler.setState, hx]
  · rfl

lemma Asleep.enqueue (h : Asleep s t w) (hx : t ≠ x)
    (hstep : schedThreadEnqueue fuel (threadCreate s x) x = some s') : Asleep s' t w := by
  refine Asleep.same (h.congr ?_ ?_) (addThreadToList_same hstep)
  · simp [threadCreate, hx]
  · simp [threadCreate, hx]

/-- The first loop of `schedule` wakes no thread before its time. -/
lemma Asleep.wakeSleepers {hpet : ℕ → ℕ} {n : ℕ} {iter : Option ℕ} (h : Asleep s t w) (hw : hpet t ≤ w)
    (hstep : wakeSleepers fuel hpet n s iter = some s') : Asleep s' t w := by
  induction n generalizing s iter with
  | zero => cases hstep
  | succ n ih =>
    cases iter with
    | none =>
      cases hstep
      exact h
    | some x =>
      rw [Sched.wakeSleepers] at hstep
      split at hstep
      · next hexp =>
        have hx : t ≠ x := by
          rintro rfl
          have := h.sleepUntil
          omega
        obtain ⟨s1, hrem, hstep⟩ := Option.bind_eq_some_iff.mp hstep
        obtain ⟨s2, hadd, hstep⟩ := Option.bind_eq_some_iff.mp hstep
        refine ih (Asleep.same (Asleep.same (h.congr ?_ ?_) (removeThreadFromList_same hrem))
          (addThreadToList_same hadd)) hstep
        · simp [Scheduler.setState, hx]
        · simp [hx]
      · exact ih h hstep

lemma Asleep.reapZombies {n : ℕ} {iter : Option ℕ} (h : Asleep s t w)
    (hstep : reapZombies fuel n s iter = some s') : Asleep s' t w := by
  induction n generalizing s iter with
  | zero => cases hstep
  | succ n ih =>
    cases iter with
    | none =>
      cases hstep
      exact h
    | some x =>
      obtain ⟨s1, hrem, hstep⟩ := Option.bind_eq_some_iff.mp hstep
      have hkill : Asleep (threadDestroy s x) t w := h.congr rfl rfl
      exact ih (hkill.same (removeThreadFromList_same hrem)) hstep

lemma getNextThread_ready {n : ℕ} {iter : Option ℕ} (h : getNextThread s n iter = some (some x)) :
    s.state x = .readyToRun := by
  induction n generalizing iter with
  | zero => cases h
  | succ n ih =>
    cases iter with
    | none => cases h
    | some y =>
      rw [getNextThread] at h
      split_ifs at h with hstate hlock
      · exact ih h
      · cases h
        exact not_not.mp hstate
      · exact ih h

lemma Asleep.switch {current next : Option ℕ} {cpu : ℕ} (h : Asleep s t w)
    (hready : ∀ x ∈ next, s.state x = .readyToRun) :
    Asleep (enterThread (leaveThread (lockThread s next) current) cpu next) t w := by
  have h1 : Asleep (lockThread s next) t w := by
    cases next with
    | none => exact h
    | some x => exact h.congr rfl rfl
  have h2 : Asleep (leaveThread (lockThread s next) current) t w := by
    cases current with
    | none => exact h1
    | some c =>
      refine h1.congr ?_ rfl
      dsimp only [leaveThread]
      split_ifs with hc
      · have hne : t ≠ c := by
          rintro rfl
          rw [h1.state] at hc
          cases hc
        rw [Function.update_of_ne hne]
      · rfl
  cases next with
  | none => exact h2.congr rfl rfl
  | some x =>
    have hne : t ≠ x := by
      rintro rfl
      have := hready t rfl
      rw [h.state] at this
      cases this
    refine h2.congr ?_ rfl
    dsimp only [enterThread]
    rw [Function.update_of_ne hne]

lemma Asleep.schedule {cpu : ℕ} {managed : Bool} {hpet : ℕ → ℕ} (h : Asleep s t w) (hw : hpet t ≤ w)
    (hstep : schedule fuel s cpu managed hpet = some s') : Asleep s' t w := by
  obtain ⟨s1, hlists, hstep⟩ := Option.bind_eq_some_iff.mp hstep
  have h1 : Asleep s1 t w := by
    split_ifs at hlists
    · obtain ⟨s2, hwake, hreap⟩ := Option.bind_eq_some_iff.mp hlists
      exact (h.wakeSleepers hw hwake).reapZombies hreap
    · cases hlists
      exact h
  obtain ⟨next, hnext, rfl⟩ := Option.map_eq_some_iff.mp hstep
  apply h1.switch
  rintro x rfl
  exact getNextThread_ready hnext

lemma Asleep.step {e : Event} {count period requested : ℕ} (h : Asleep s t w)
    (hw : count * period + requested ≤ (w + 1) * period) (he : TooEarly t count period requested e)
    (hstep : Step s e s') : Asleep s' t w := by
  obtain ⟨hpos, hev⟩ := hstep
  obtain ⟨fuel, hstep⟩ := hev.exists
  cases e with
  | enqueue x => exact h.enqueue (Ne.symm he) hstep
  | dequeue x => exact h.schedThreadDequeue (Ne.symm he) hstep
  | sleep x wakeAt =>
    refine h.schedThreadSleep ?_ hstep
    rintro rfl
    have := hpos.2
    rw [h.state] at this
    cases this
  | schedule cpu managed hpet =>
    refine h.schedule ?_ hstep
    exact Nat.le_of_lt_succ (Nat.lt_of_mul_lt_mul_right (he.trans_le hw))

lemma Asleep.run {events : List Event} {count period requested : ℕ} (h : Asleep s t w)
    (hw : count * period + requested ≤ (w + 1) * period)
    (he : ∀ e ∈ events, TooEarly t count period requested e) (hrun : Run Step s events s') : Asleep s' t w := by
  induction hrun with
  | nil s => exact h
  | cons hstep _ ih =>
    rw [List.forall_mem_cons] at he
    exact ih (h.step hw he.1 hstep) he.2

end Frames

section Arithmetic
variable {d : Timespec} {count : BitVec 64} {period : BitVec 32}

/-- The product with the femtoseconds of a nanosecond is taken modulo `2 ^ 64`. -/
lemma toNat_femtoseconds (d : Timespec) : (d.durationNs * 1000000).toNat = d.requested % 2 ^ 64 := by
  have hsec : (1000000000 : BitVec 64).toNat = 10 ^ 9 := rfl
  have hns : (1000000 : BitVec 64).toNat = 10 ^ 6 := rfl
  rw [BitVec.toNat_mul, Timespec.durationNs, BitVec.toNat_add, BitVec.toNat_mul, hsec, hns, Nat.add_mod_mod,
    Nat.mod_mul_mod, Nat.add_comm, Timespec.requested]

lemma toNat_hpetCalcSleepNs (d : Timespec) (hroom : count.toNat + d.requested / period.toNat < 2 ^ 64) :
    (hpetCalcSleepNs d.durationNs count period).toNat = count.toNat + d.requested % 2 ^ 64 / period.toNat := by
  have hle : d.requested % 2 ^ 64 / period.toNat ≤ d.requested / period.toNat :=
    Nat.div_le_div_right (Nat.mod_le _ _)
  have hperiod : (period.setWidth 64).toNat = period.toNat := by
    rw [BitVec.toNat_setWidth, Nat.mod_eq_of_lt (period.isLt.trans (by norm_num))]
  rw [hpetCalcSleepNs, BitVec.toNat_add, BitVec.toNat_udiv, toNat_femtoseconds, hperiod]
  exact Nat.mod_eq_of_lt (by omega)

/-- What an accepted call stores. -/
lemma syscallSleep_asleep {fuel t : ℕ} {s s' : Scheduler} (haccepted : d.refused = false)
    (h : syscallSleep fuel s t (some d) count period = some (0, s')) :
    Asleep s' t (hpetCalcSleepNs d.durationNs count period).toNat := by
  rw [syscallSleep] at h
  simp only [haccepted, Bool.false_eq_true, if_false] at h
  obtain ⟨s1, hsleep, heq⟩ := Option.map_eq_some_iff.mp h
  cases heq
  exact schedThreadSleep_asleep hsleep

/-- There is a state in which the call ends. -/
lemma syscallSleep_ends (haccepted : d.refused = false) :
    ∃ s', syscallSleep 1 empty 0 (some d) count period = some (0, s') := by
  rw [syscallSleep]
  simp only [haccepted, Bool.false_eq_true, if_false]
  exact ⟨_, rfl⟩

/-- A thread never sleeps too short just if its duration in femtoseconds fits in 64 bits. -/
theorem neverEarly_iff (d : Timespec) (count : BitVec 64) (period : BitVec 32) (haccepted : d.refused = false)
    (hperiod : period ≠ 0) (hroom : count.toNat + d.requested / period.toNat < 2 ^ 64) :
    NeverEarly d count period ↔ d.requested < 2 ^ 64 := by
  have htarget := toNat_hpetCalcSleepNs d hroom
  have hpos : 0 < period.toNat := Nat.pos_of_ne_zero fun h => hperiod (BitVec.eq_of_toNat_eq h)
  have hlt := period.isLt
  constructor
  · intro h
    obtain ⟨s', hs'⟩ := @syscallSleep_ends d count period haccepted
    have hle := h.target 1 empty 0 s' hs'
    rw [(syscallSleep_asleep haccepted hs').sleepUntil, htarget] at hle
    have hdiv := Nat.div_mul_le_self (d.requested % 2 ^ 64) period.toNat
    have hmod := Nat.div_add_mod d.requested (2 ^ 64)
    push_cast at hle
    rw [add_sub_cancel_left] at hle
    by_contra hge
    have hone : 1 ≤ d.requested / 2 ^ 64 := Nat.div_pos (not_lt.mp hge) (by norm_num)
    have hcast : (d.requested : ℤ) - period.toNat ≤ ((d.requested % 2 ^ 64 / period.toNat * period.toNat : ℕ) : ℤ) := by
      exact_mod_cast hle
    omega
  · intro hfit
    rw [Nat.mod_eq_of_lt hfit] at htarget
    have hdiv := Nat.lt_div_mul_add hpos (a := d.requested)
    refine ⟨fun fuel s t s' hs' => ?_, fun fuel s t s' hs' events s'' hrun hearly => ?_⟩
    · rw [(syscallSleep_asleep haccepted hs').sleepUntil, htarget]
      push_cast
      rw [add_sub_cancel_left]
      have hcast : (d.requested : ℤ) ≤ ((d.requested / period.toNat * period.toNat + period.toNat : ℕ) : ℤ) := by
        exact_mod_cast hdiv.le
      push_cast at hcast
      linarith
    · refine ((syscallSleep_asleep haccepted hs').run ?_ hearly hrun).state
      rw [htarget, Nat.add_assoc, Nat.add_mul, Nat.add_mul, Nat.one_mul]
      omega

end Arithmetic

/-- One second with a period of ten nanoseconds. -/
theorem neverEarly_second : NeverEarly ⟨1, 0⟩ 5 10000000 :=
  (neverEarly_iff ⟨1, 0⟩ 5 10000000 (by decide) (by decide) (by decide)).mpr (by decide)

/-- Six hours: the target is less than an hour away. -/
theorem six_hours_early : ∃ seconds, applySuffix 6 'h' = some seconds ∧ Timespec.refused ⟨seconds, 0⟩ = false ∧
    (hpetCalcSleepNs (Timespec.durationNs ⟨seconds, 0⟩) 5 10000000).toNat - 5 < 3600 * 10 ^ 8 ∧
    ¬ NeverEarly ⟨seconds, 0⟩ 5 10000000 := by
  refine ⟨21600, by decide, by decide, by decide, fun h => ?_⟩
  obtain ⟨s', hs'⟩ := @syscallSleep_ends ⟨21600, 0⟩ 5 10000000 (by decide)
  have hle := h.target 1 empty 0 s' hs'
  rw [(syscallSleep_asleep (by decide) hs').sleepUntil] at hle
  revert hle
  decide

end PiggyOs.Sleep
