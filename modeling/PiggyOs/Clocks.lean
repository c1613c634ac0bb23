import PiggyOs.Transition

/-! The clocks of the kernel: the realtime and the monotonic clock, and the processor time of threads
and processes, all advanced by the same timer interrupt. -/
namespace PiggyOs.Clocks
open Transition

structure Timespec where
  tvSec : BitVec 64
  tvNsec : BitVec 64
  deriving DecidableEq, Repr

def timespecAdd (a b : Timespec) : Timespec :=
  if (999999999#64).slt (a.tvNsec + b.tvNsec) then
    ⟨a.tvSec + 1 + b.tvSec, a.tvNsec + b.tvNsec - 1000000000⟩
  else ⟨a.tvSec + b.tvSec, a.tvNsec + b.tvNsec⟩

def timerFrequency : BitVec 64 := 1000

def interval : Timespec := ⟨0, 1000000000 / timerFrequency⟩

structure Thread where
  process : ℕ
  ticks : Timespec
  deriving DecidableEq, Repr

/-- Threads and processes are numbered in the order of their creation; of a process only `ticks` is
kept. `runningThread` lists the processors. -/
structure State where
  timeRealtime : Timespec
  timeMonotonic : Timespec
  threads : List Thread
  processes : List Timespec
  runningThread : List (Option ℕ)
  deriving DecidableEq, Repr

/-- The timer interrupt on one processor. -/
def timeUpdateTimers (s : State) (cpu : ℕ) : State :=
  let s1 := { s with
    timeMonotonic := timespecAdd s.timeMonotonic interval
    timeRealtime := timespecAdd s.timeRealtime interval }
  match s.runningThread[cpu]?.join with
  | none => s1
  | some t => { s1 with
      threads := s.threads.modify t fun th => { th with ticks := timespecAdd th.ticks interval }
      processes := match s.threads[t]? with
        | none => s.processes
        | some th => s.processes.modify th.process fun ticks => timespecAdd ticks interval }

def clockRealtime : BitVec 32 := 0
def clockMonotonic : BitVec 32 := 1
def clockProcessCputimeId : BitVec 32 := 2
def clockThreadCputimeId : BitVec 32 := 3

inductive Errno
  | efault | eperm | einval
  deriving DecidableEq, Repr

/-- `ts` is what `copy_from_user` finds, if it accepts the pointer. -/
def syscallClockSettime (s : State) (clkId : BitVec 32) (ts : Option Timespec) : Option Errno × State :=
  if clkId = clockRealtime then
    match ts with
    | none => (some .efault, s)
    | some ts => (none, { s with timeRealtime := ts })
  else if clkId = clockMonotonic ∨ clkId = clockProcessCputimeId ∨ clkId = clockThreadCputimeId then
    (some .eperm, s)
  else (some .einval, s)

inductive Event
  | tick (cpu : ℕ)
  | settime (clkId : BitVec 32) (ts : Option Timespec)
  | schedule (cpu : ℕ) (next : Option ℕ)
  | processCreate
  | threadCreate (process : ℕ)
  deriving DecidableEq, Repr

/-- Objects of threads and processes come zeroed from their caches. -/
def State.apply (s : State) : Event → State
  | .tick cpu => timeUpdateTimers s cpu
  | .settime clkId ts => (syscallClockSettime s clkId ts).2
  | .schedule cpu next => { s with runningThread := s.runningThread.set cpu next }
  | .processCreate => { s with processes := s.processes ++ [⟨0, 0⟩] }
  | .threadCreate process => { s with threads := s.threads ++ [⟨process, ⟨0, 0⟩⟩] }

/-- Only threads that exist are run, and only processes that exist get threads. -/
def State.Admits (s : State) : Event → Prop
  | .schedule _ next => ∀ t ∈ next, t < s.threads.length
  | .threadCreate process => process < s.processes.length
  | _ => True

inductive Step : State → Event → State → Prop
  | mk {s : State} {e : Event} : s.Admits e → Step s e (s.apply e)

def boot (cpus : ℕ) (rtc : Timespec) : State := ⟨rtc, ⟨0, 0⟩, [], [], List.replicate cpus none⟩

/-- So many milliseconds, in normal form. -/
def ofMillis (n : ℕ) : Timespec := ⟨BitVec.ofNat 64 (n / 1000), BitVec.ofNat 64 (n % 1000 * 1000000)⟩

def Event.IsTick : Event → Bool
  | .tick _ => true
  | _ => false

def ticksTaken (es : List Event) : ℕ := es.countP Event.IsTick

/-- Whether the event is a tick on the processor that runs thread `i`. -/
def State.Charges (s : State) (i : ℕ) : Event → Prop
  | .tick cpu => s.runningThread[cpu]?.join = some i
  | _ => False

instance (s : State) (i : ℕ) (e : Event) : Decidable (s.Charges i e) := by
  cases e <;> unfold State.Charges <;> infer_instance

/-- The ticks on the processor that ran thread `i` at the time. -/
def ticksOn (i : ℕ) : State → List Event → ℕ
  | _, [] => 0
  | s, e :: es => (if s.Charges i e then 1 else 0) + ticksOn i (s.apply e) es

/-- The ticks that were taken, on any processor, while some processor ran thread `i`. -/
def ticksWhileRunning (i : ℕ) : State → List Event → ℕ
  | _, [] => 0
  | s, e :: es => (if e.IsTick ∧ some i ∈ s.runningThread then 1 else 0) + ticksWhileRunning i (s.apply e) es

/-- What the threads of process `p` have together. -/
def share (owners : List ℕ) (c : ℕ → ℕ) (p : ℕ) : ℕ :=
  ∑ i ∈ Finset.range owners.length, if owners[i]? = some p then c i else 0

section Arithmetic

lemma toInt_ofNat_of_lt {n : ℕ} (h : n < 2 ^ 63) : (BitVec.ofNat 64 n).toInt = n := by
  rw [BitVec.toInt_eq_toNat_of_lt]
  · rw [BitVec.toNat_ofNat, Nat.mod_eq_of_lt (by omega)]
  · rw [BitVec.toNat_ofNat]
    omega

/-- A millisecond more. -/
lemma timespecAdd_ofMillis (n : ℕ) : timespecAdd (ofMillis n) interval = ofMillis (n + 1) := by
  have hlt : n % 1000 < 1000 := Nat.mod_lt _ (by decide)
  have hmilli : (1000000000 / timerFrequency : BitVec 64) = BitVec.ofNat 64 1000000 := by decide
  have hsum : (ofMillis n).tvNsec + interval.tvNsec = BitVec.ofNat 64 (n % 1000 * 1000000 + 1000000) := by
    rw [interval, hmilli, ofMillis, BitVec.ofNat_add]
  have hslt : (999999999#64).slt ((ofMillis n).tvNsec + interval.tvNsec) = decide (n % 1000 = 999) := by
    rw [hsum, BitVec.slt_eq_decide, toInt_ofNat_of_lt (by decide), toInt_ofNat_of_lt (by omega)]
    apply decide_eq_decide.mpr
    omega
  rw [timespecAdd, hslt]
  by_cases h : n % 1000 = 999
  · have hsec : (n + 1) / 1000 = n / 1000 + 1 := by omega
    have hnsec : (n + 1) % 1000 = 0 := by omega
    have hcarry : BitVec.ofNat 64 (n / 1000 + 1) = BitVec.ofNat 64 (n / 1000) + 1 := BitVec.ofNat_add ..
    rw [if_pos (by simpa using h), hsum, h, ofMillis, ofMillis, hsec, hnsec, hcarry, interval]
    simp
  · have hsec : (n + 1) / 1000 = n / 1000 := by omega
    have hnsec : (n + 1) % 1000 * 1000000 = n % 1000 * 1000000 + 1000000 := by omega
    rw [if_neg (by simpa using h), hsum, ofMillis, ofMillis, hsec, hnsec, interval]
    simp

end Arithmetic

section Shares
variable {owners : List ℕ} {c : ℕ → ℕ} {p t : ℕ}

/-- One tick for thread `t`. -/
lemma share_tick (ht : t < owners.length) :
    share owners (fun i => c i + if t = i then 1 else 0) p =
      share owners c p + if owners[t]? = some p then 1 else 0 := by
  have hterm : ∀ i, (if owners[i]? = some p then c i + (if t = i then 1 else 0) else 0) =
      (if owners[i]? = some p then c i else 0) + if t = i then (if owners[t]? = some p then 1 else 0) else 0 := by
    intro i
    by_cases hi : t = i
    · subst hi
      split_ifs <;> simp
    · split_ifs <;> simp
  rw [share, Finset.sum_congr rfl fun i _ => hterm i, Finset.sum_add_distrib, Finset.sum_ite_eq,
    if_pos (Finset.mem_range.mpr ht), share]

/-- A new thread has no ticks yet. -/
lemma share_append (q : ℕ) (h0 : c owners.length = 0) : share (owners ++ [q]) c p = share owners c p := by
  rw [share, List.length_append, List.length_singleton, Finset.sum_range_succ, h0, share]
  rw [show (if (owners ++ [q])[owners.length]? = some p then 0 else 0) = 0 by simp, Nat.add_zero]
  refine Finset.sum_congr rfl fun i hi => ?_
  rw [List.getElem?_append_left (Finset.mem_range.mp hi)]

lemma share_none (h : ∀ q ∈ owners, q ≠ p) : share owners c p = 0 := by
  refine Finset.sum_eq_zero fun i _ => if_neg fun hi => ?_
  exact h p (List.mem_of_getElem? hi) rfl

end Shares

section Counting
variable {s s' : State} {e : Event} {n : ℕ} {c : ℕ → ℕ}

def State.owners (s : State) : List ℕ := s.threads.map Thread.process

/-- After `n` ticks, of which `c i` went to thread `i`. -/
structure Counted (s : State) (n : ℕ) (c : ℕ → ℕ) : Prop where
  monotonic : s.timeMonotonic = ofMillis n
  threads : ∀ i th, s.threads[i]? = some th → th.ticks = ofMillis (c i)
  processes : ∀ p ticks, s.processes[p]? = some ticks → ticks = ofMillis (share s.owners c p)
  unborn : ∀ i, s.threads.length ≤ i → c i = 0
  running : ∀ i, some i ∈ s.runningThread → i < s.threads.length
  owned : ∀ th ∈ s.threads, th.process < s.processes.length

lemma boot_counted (cpus : ℕ) (rtc : Timespec) : Counted (boot cpus rtc) 0 (fun _ => 0) := by
  refine ⟨rfl, ?_, ?_, fun _ _ => rfl, ?_, ?_⟩ <;> simp [boot]

lemma owners_modify (threads : List Thread) (t : ℕ) (f : Timespec → Timespec) :
    (threads.modify t fun th => { th with ticks := f th.ticks }).map Thread.process = threads.map Thread.process := by
  refine List.ext_getElem? fun i => ?_
  rw [List.getElem?_map, List.getElem?_map, List.getElem?_modify]
  cases threads[i]? with
  | none => rfl
  | some th =>
    by_cases h : t = i <;> simp [h]

/-- What the interrupt changes on a processor that runs `running`. -/
structure Ticked (s s' : State) (running : Option ℕ) : Prop where
  monotonic : s'.timeMonotonic = timespecAdd s.timeMonotonic interval
  realtime : s'.timeRealtime = timespecAdd s.timeRealtime interval
  owners : s'.owners = s.owners
  count : s'.processes.length = s.processes.length
  processors : s'.runningThread = s.runningThread
  thread : ∀ i, s'.threads[i]? = s.threads[i]?.map fun th =>
    if running = some i then { th with ticks := timespecAdd th.ticks interval } else th
  process : ∀ p, s'.processes[p]? = s.processes[p]?.map fun ticks =>
    if ∃ t, running = some t ∧ s.owners[t]? = some p then timespecAdd ticks interval else ticks

/-- Proved for any lists and any clocks: a check of the fields of the state itself would compute the sums. -/
lemma Ticked.of_fields {mono real : Timespec} {threads : List Thread} {processes : List Timespec} {running : Option ℕ}
    (hmono : mono = timespecAdd s.timeMonotonic interval) (hreal : real = timespecAdd s.timeRealtime interval)
    (howners : threads.map Thread.process = s.owners) (hcount : processes.length = s.processes.length)
    (hthread : ∀ i, threads[i]? = s.threads[i]?.map fun th =>
      if running = some i then { th with ticks := timespecAdd th.ticks interval } else th)
    (hprocess : ∀ p, processes[p]? = s.processes[p]?.map fun ticks =>
      if ∃ t, running = some t ∧ s.owners[t]? = some p then timespecAdd ticks interval else ticks) :
    Ticked s ⟨real, mono, threads, processes, s.runningThread⟩ running :=
  ⟨hmono, hreal, howners, hcount, rfl, hthread, hprocess⟩

lemma timeUpdateTimers_ticked (s : State) (cpu : ℕ) :
    Ticked s (timeUpdateTimers s cpu) s.runningThread[cpu]?.join := by
  unfold timeUpdateTimers
  cases hrun : s.runningThread[cpu]?.join with
  | none =>
    dsimp only
    refine Ticked.of_fields rfl rfl rfl rfl (fun i => ?_) (fun p => ?_)
    · simp
    · simp
  | some t =>
    dsimp only
    refine Ticked.of_fields rfl rfl (owners_modify s.threads t fun ticks => timespecAdd ticks interval) ?_
      (fun i => ?_) (fun p => ?_)
    · cases s.threads[t]? with
      | none => rfl
      | some th => exact List.length_modify ..
    · simp only [List.getElem?_modify, Option.some.injEq, Option.map_eq_map]
    · simp only [State.owners, List.getElem?_map, Option.some.injEq, exists_eq_left']
      cases s.threads[t]? with
      | none => simp
      | some th => simp only [List.getElem?_modify, Option.map_some, Option.some.injEq, Option.map_eq_map]

lemma Counted.ticked {running : Option ℕ} (h : Counted s n c) (hrun : ∀ t ∈ running, t < s.threads.length)
    (ht : Ticked s s' running) : Counted s' (n + 1) (fun i => c i + if running = some i then 1 else 0) := by
  have hlen : s'.threads.length = s.threads.length := by
    simpa only [State.owners, List.length_map] using congrArg List.length ht.owners
  refine ⟨?_, fun i th hi => ?_, fun p ticks hp => ?_, fun i hi => ?_, fun i hi => ?_, fun th hth => ?_⟩
  · rw [ht.monotonic, h.monotonic, timespecAdd_ofMillis]
  · rw [ht.thread] at hi
    obtain ⟨th0, h0, rfl⟩ := Option.map_eq_some_iff.mp hi
    by_cases hti : running = some i
    · rw [if_pos hti, if_pos hti, h.threads i th0 h0, timespecAdd_ofMillis]
    · rw [if_neg hti, if_neg hti, h.threads i th0 h0, Nat.add_zero]
  · rw [ht.process] at hp
    obtain ⟨ticks0, h0, rfl⟩ := Option.map_eq_some_iff.mp hp
    rw [ht.owners]
    cases running with
    | none => simpa using h.processes p ticks0 h0
    | some t =>
      have hshare := share_tick (c := c) (p := p) (show t < s.owners.length by
        rw [State.owners, List.length_map]
        exact hrun t rfl)
      simp only [Option.some.injEq, exists_eq_left'] at hshare ⊢
      rw [hshare]
      by_cases hp' : s.owners[t]? = some p
      · rw [if_pos hp', if_pos hp', h.processes p ticks0 h0, timespecAdd_ofMillis]
      · rw [if_neg hp', if_neg hp', h.processes p ticks0 h0, Nat.add_zero]
  · rw [hlen] at hi
    have hne : running ≠ some i := fun heq => absurd (hrun i heq) (Nat.not_lt.mpr hi)
    rw [h.unborn i hi, if_neg hne]
  · rw [ht.processors] at hi
    rw [hlen]
    exact h.running i hi
  · have hmem : th.process ∈ s.owners := by
      rw [← ht.owners]
      exact List.mem_map_of_mem hth
    obtain ⟨th0, h0, heq⟩ := List.mem_map.mp hmem
    rw [ht.count, ← heq]
    exact h.owned th0 h0

/-- One event. -/
lemma Counted.step (h : Counted s n c) (hs : Step s e s') :
    Counted s' (n + if e.IsTick then 1 else 0) (fun i => c i + if s.Charges i e then 1 else 0) := by
  obtain ⟨hok⟩ := hs
  cases e with
  | tick cpu =>
    refine h.ticked (fun t ht => h.running t ?_) (timeUpdateTimers_ticked s cpu)
    exact List.mem_of_getElem? (Option.join_eq_some_iff.mp ht)
  | settime clkId ts =>
    have hkeep : (syscallClockSettime s clkId ts).2 = { s with timeRealtime := (syscallClockSettime s clkId ts).2.timeRealtime } := by
      unfold syscallClockSettime
      split_ifs
      · cases ts <;> rfl
      · rfl
      · rfl
    rw [State.apply, hkeep]
    exact ⟨h.monotonic, h.threads, h.processes, h.unborn, h.running, h.owned⟩
  | schedule cpu next =>
    refine ⟨h.monotonic, h.threads, h.processes, h.unborn, fun i hi => ?_, h.owned⟩
    rcases List.mem_or_eq_of_mem_set hi with hi | hi
    · exact h.running i hi
    · exact hok i hi.symm
  | processCreate =>
    refine ⟨h.monotonic, h.threads, fun p ticks hp => ?_, h.unborn, h.running, fun th hth => ?_⟩
    · rw [show (s.apply .processCreate).processes = s.processes ++ [⟨0, 0⟩] from rfl, List.getElem?_append] at hp
      split_ifs at hp with hlt
      · exact h.processes p ticks hp
      · have hnew : share s.owners c p = 0 := share_none fun q hq hqp => by
          obtain ⟨th, hth, rfl⟩ := List.mem_map.mp hq
          exact hlt (hqp ▸ h.owned th hth)
        obtain rfl : ticks = ⟨0, 0⟩ := by simpa using List.mem_of_getElem? hp
        exact (congrArg ofMillis hnew).symm
    · have := h.owned th hth
      simp only [State.apply, List.length_append, List.length_singleton]
      omega
  | threadCreate process =>
    have hnew : c s.threads.length = 0 := h.unborn _ le_rfl
    have howners : (s.apply (.threadCreate process)).owners = s.owners ++ [process] := by simp [State.owners, State.apply]
    refine ⟨h.monotonic, fun i th hi => ?_, fun p ticks hp => ?_, fun i hi => ?_, fun i hi => ?_, fun th hth => ?_⟩
    · rw [show (s.apply (.threadCreate process)).threads = s.threads ++ [⟨process, ⟨0, 0⟩⟩] from rfl,
        List.getElem?_append] at hi
      split_ifs at hi with hlt
      · exact h.threads i th hi
      · obtain rfl : th = ⟨process, ⟨0, 0⟩⟩ := by simpa using List.mem_of_getElem? hi
        exact (congrArg ofMillis (h.unborn i (Nat.le_of_not_lt hlt))).symm
    · have hshare : share (s.owners ++ [process]) c p = share s.owners c p := share_append process (by
        rw [State.owners, List.length_map, hnew])
      rw [howners]
      exact (h.processes p ticks hp).trans (congrArg ofMillis hshare.symm)
    · simp only [State.apply, List.length_append, List.length_singleton] at hi
      exact h.unborn i (by omega)
    · have := h.running i hi
      simp only [State.apply, List.length_append, List.length_singleton]
      omega
    · rcases List.mem_append.mp hth with hth | hth
      · exact h.owned th hth
      · obtain rfl := List.mem_singleton.mp hth
        exact hok

/-- Any number of events. -/
lemma Counted.run {es : List Event} (h : Counted s n c) (hrun : Run Step s es s') :
    Counted s' (n + ticksTaken es) (fun i => c i + ticksOn i s es) := by
  induction hrun generalizing n c with
  | nil s => exact h
  | @cons s s1 s2 e es hstep _ ih =>
    have hnext := ih (h.step hstep)
    obtain ⟨-⟩ := hstep
    have htaken : n + ticksTaken (e :: es) = (n + if e.IsTick then 1 else 0) + ticksTaken es := by
      rw [ticksTaken, List.countP_cons, Nat.add_comm (es.countP _), ← Nat.add_assoc]
      rfl
    rw [htaken]
    simpa only [ticksOn, Nat.add_assoc] using hnext

/-- After every run from boot the monotonic clock shows the ticks, every thread those on the processor that
ran it, and every process those of its threads. -/
theorem clocks_count {cpus : ℕ} {rtc : Timespec} {es : List Event} (hrun : Run Step (boot cpus rtc) es s) :
    s.timeMonotonic = ofMillis (ticksTaken es) ∧
      (∀ i th, s.threads[i]? = some th → th.ticks = ofMillis (ticksOn i (boot cpus rtc) es)) ∧
      ∀ p ticks, s.processes[p]? = some ticks →
        ticks = ofMillis (share s.owners (fun i => ticksOn i (boot cpus rtc) es) p) := by
  have h := (boot_counted cpus rtc).run hrun
  simp only [Nat.zero_add] at h
  exact ⟨h.monotonic, h.threads, h.processes⟩

/-- A thread starts on the second processor. -/
def secondProcessor : List Event := [.processCreate, .threadCreate 0, .schedule 1 (some 0)]

lemma secondProcessor_run (rtc : Timespec) : Run Step (boot 2 rtc) secondProcessor
    ⟨rtc, ⟨0, 0⟩, [⟨0, ⟨0, 0⟩⟩], [⟨0, 0⟩], [none, some 0]⟩ := by
  refine .cons (.mk trivial) (.cons (.mk (Nat.lt_succ_self 0)) (.single (.mk fun t ht => ?_)))
  obtain rfl := Option.mem_some_iff.mp ht
  exact Nat.lt_succ_self 0

/-- A tick on the first processor is not charged to the thread that runs on the second. -/
theorem clocks_count_otherProcessor : ∃ s th, Run Step (boot 2 ⟨0, 0⟩) (secondProcessor ++ [.tick 0]) s ∧
    s.threads[0]? = some th ∧ ticksWhileRunning 0 (boot 2 ⟨0, 0⟩) (secondProcessor ++ [.tick 0]) = 1 ∧
    th.ticks ≠ ofMillis 1 :=
  ⟨_, ⟨0, ⟨0, 0⟩⟩, (secondProcessor_run _).append (.single (.mk trivial)), rfl, by decide, by decide⟩

theorem clocks_count_secondProcessor : ∃ s,
    Run Step (boot 2 ⟨0, 0⟩) (secondProcessor ++ [.settime clockRealtime (some ⟨5, 7⟩), .tick 1]) s ∧
    s.timeMonotonic = ofMillis 1 ∧ ∀ th, s.threads[0]? = some th → th.ticks = ofMillis 1 := by
  have hrun := (secondProcessor_run ⟨0, 0⟩).append (.cons (.mk (e := .settime clockRealtime (some ⟨5, 7⟩)) trivial)
    (.single (.mk (e := .tick 1) trivial)))
  obtain ⟨hmono, hthreads, -⟩ := clocks_count hrun
  exact ⟨_, hrun, hmono, hthreads 0⟩

end Counting

section Realtime
variable {t : Timespec} {s s' : State} {e : Event}

def Timespec.Normal (t : Timespec) : Prop := 0 ≤ t.tvNsec.toInt ∧ t.tvNsec.toInt < 1000000000

/-- In nanoseconds. -/
def Timespec.instant (t : Timespec) : ℤ := t.tvSec.toInt * 1000000000 + t.tvNsec.toInt

/-- Within the last millisecond that `time_t` can show. -/
def Timespec.Last (t : Timespec) : Prop := t.tvSec.toInt = 2 ^ 63 - 1 ∧ 998999999 < t.tvNsec.toInt

lemma Timespec.Normal.lt (h : t.Normal) : t.tvNsec.toNat < 1000000000 ∧ t.tvNsec.toInt = t.tvNsec.toNat := by
  obtain ⟨h0, h1⟩ := h
  rw [BitVec.toInt_eq_toNat_cond] at h0 h1 ⊢
  split_ifs at * <;> omega

lemma Timespec.Normal.of_toNat (h : t.tvNsec.toNat < 1000000000) : t.Normal := by
  rw [Normal, BitVec.toInt_eq_toNat_of_lt (by omega)]
  omega

lemma toInt_succ (x : BitVec 64) : (x + 1#64).toInt = if x.toInt = 2 ^ 63 - 1 then -2 ^ 63 else x.toInt + 1 := by
  have hx := x.isLt
  rw [BitVec.toInt_eq_toNat_cond, BitVec.toInt_eq_toNat_cond, BitVec.toNat_add, BitVec.toNat_ofNat]
  split_ifs <;> omega

/-- A tick keeps a clock normal, and advances it by a millisecond but at the very end. -/
lemma timespecAdd_normal (h : t.Normal) : (timespecAdd t interval).Normal ∧
    ((timespecAdd t interval).instant = t.instant + 1000000 ↔ ¬ t.Last) := by
  have hmilli : interval = ⟨0, 1000000#64⟩ := by decide
  obtain ⟨hlt, hint⟩ := h.lt
  have hsum : (t.tvNsec + 1000000#64).toNat = t.tvNsec.toNat + 1000000 := by
    rw [BitVec.toNat_add, BitVec.toNat_ofNat]
    omega
  have hsumInt : (t.tvNsec + 1000000#64).toInt = t.tvNsec.toNat + 1000000 := by
    rw [BitVec.toInt_eq_toNat_of_lt (by omega), hsum, Nat.cast_add, Nat.cast_ofNat]
  have hslt : (999999999#64).slt (t.tvNsec + 1000000#64) = decide (998999999 < t.tvNsec.toNat) := by
    rw [BitVec.slt_eq_decide, hsumInt, toInt_ofNat_of_lt (by decide)]
    apply decide_eq_decide.mpr
    omega
  have hadd : timespecAdd t interval = if 998999999 < t.tvNsec.toNat then
      ⟨t.tvSec + 1#64, t.tvNsec + 1000000#64 - 1000000000#64⟩ else ⟨t.tvSec, t.tvNsec + 1000000#64⟩ := by
    rw [timespecAdd, hmilli]
    simp only [hslt, decide_eq_true_eq, BitVec.ofNat_eq_ofNat, BitVec.add_zero]
  rw [hadd, Timespec.Last, Timespec.instant, Timespec.instant, hint]
  by_cases hcarry : 998999999 < t.tvNsec.toNat
  · have hnsec : (t.tvNsec + 1000000#64 - 1000000000#64).toNat = t.tvNsec.toNat - 999000000 := by
      rw [BitVec.toNat_sub, hsum, BitVec.toNat_ofNat]
      omega
    have hnormal : Timespec.Normal ⟨t.tvSec + 1#64, t.tvNsec + 1000000#64 - 1000000000#64⟩ := .of_toNat (by
      rw [hnsec]
      omega)
    rw [if_pos hcarry, hnormal.lt.2, hnsec, toInt_succ]
    refine ⟨hnormal, ?_⟩
    split_ifs <;> omega
  · rw [if_neg hcarry, hsumInt]
    refine ⟨.of_toNat (by
      rw [hsum]
      omega), ?_⟩
    dsimp only
    omega

/-- The clock is normal after the event, and a tick advances it by a millisecond. -/
def KeepsRealtime (s : State) (e : Event) (s' : State) : Prop :=
  s'.timeRealtime.Normal ∧ (e.IsTick → s'.timeRealtime.instant = s.timeRealtime.instant + 1000000)

/-- What is stored is normal, and there is time left. -/
def State.Acceptable (s : State) : Event → Prop
  | .tick _ => ¬ s.timeRealtime.Last
  | .settime clkId ts => clkId = clockRealtime → ∀ t ∈ ts, t.Normal
  | _ => True

lemma keepsRealtime_iff (h : s.timeRealtime.Normal) (hs : Step s e s') :
    KeepsRealtime s e s' ↔ s.Acceptable e := by
  obtain ⟨hok⟩ := hs
  cases e with
  | tick cpu =>
    have hnext := timespecAdd_normal h
    rw [KeepsRealtime, State.apply, (timeUpdateTimers_ticked s cpu).realtime, State.Acceptable]
    exact ⟨fun hkeep => hnext.2.mp (hkeep.2 rfl), fun hlast => ⟨hnext.1, fun _ => hnext.2.mpr hlast⟩⟩
  | settime clkId ts =>
    have htick : ¬ (Event.settime clkId ts).IsTick := Bool.false_ne_true
    rw [KeepsRealtime, and_iff_left fun hno => absurd hno htick, State.apply, State.Acceptable]
    unfold syscallClockSettime
    by_cases hclk : clkId = clockRealtime
    · cases ts <;> simp [hclk, h]
    · split_ifs <;> simp [h, hclk]
  | schedule cpu next => exact iff_of_true ⟨h, Bool.noConfusion⟩ trivial
  | processCreate => exact iff_of_true ⟨h, Bool.noConfusion⟩ trivial
  | threadCreate process => exact iff_of_true ⟨h, Bool.noConfusion⟩ trivial

/-- The realtime clock stays normal and advances with the ticks along exactly the runs in which every timespec
stored is normal and no tick comes in the last millisecond. -/
theorem realtime_normal (cpus : ℕ) (sec : BitVec 64) (es : List Event) (s : State) :
    Run (fun s e s' => Step s e s' ∧ KeepsRealtime s e s') (boot cpus ⟨sec, 0⟩) es s ↔
      Run (fun s e s' => Step s e s' ∧ s.Acceptable e) (boot cpus ⟨sec, 0⟩) es s := by
  have hkeep : ∀ s e s', s.timeRealtime.Normal → Step s e s' → s.Acceptable e → s'.timeRealtime.Normal :=
    fun s e s' h hs hok => ((keepsRealtime_iff h hs).mpr hok).1
  have hzero : (0 : BitVec 64).toInt = 0 := rfl
  refine Run.congr hkeep (fun s e s' h hs => keepsRealtime_iff h hs) ?_
  rw [boot, Timespec.Normal, hzero]
  decide

/-- The system call stores whatever it is given. -/
theorem realtime_negative : ∃ s, Run Step (boot 1 ⟨0, 0⟩) [.settime clockRealtime (some ⟨0, -1⟩)] s ∧
    ¬ s.timeRealtime.Normal :=
  ⟨_, .single (.mk trivial), fun h => absurd h.1 (by decide)⟩

end Realtime

end PiggyOs.Clocks
