import PiggyOs.IntrusiveList
import PiggyOs.ProcessFork
import PiggyOs.Transition

/-! The scheduler. The three lists of threads share the link inside `struct thread`, and every list
operation follows links until there is none. `none` is a loop that does not end within the fuel. -/
namespace PiggyOs.Sched
open IntrusiveList Fork Transition Filter

inductive ListName
  | runnable | blocking | zombie
  deriving DecidableEq, Repr

/-- `alive` are the objects of `thread_cache` that are in use. `dequeued` records the calls of
`sched_thread_dequeue`; the code does not read it. -/
structure Scheduler where
  next : ℕ → Option ℕ
  state : ℕ → ThreadState
  sleepUntil : ℕ → ℕ
  locked : ℕ → Bool
  alive : ℕ → Bool
  head : ListName → Option ℕ
  runningThread : ℕ → Option ℕ
  dequeued : ℕ → Bool

def addThreadToList (fuel : ℕ) (s : Scheduler) (k : ListName) (t : ℕ) : Option Scheduler :=
  (pushBack s.next fuel (s.head k) t).map fun r => { s with next := r.1, head := Function.update s.head k r.2 }

def removeThreadFromList (fuel : ℕ) (s : Scheduler) (k : ListName) (t : ℕ) : Option Scheduler :=
  (remove s.next fuel (s.head k) t).map fun r => { s with next := r.1, head := Function.update s.head k r.2 }

def Scheduler.setState (s : Scheduler) (t : ℕ) (state : ThreadState) : Scheduler :=
  { s with state := Function.update s.state t state }

/-- A cleared object of `thread_cache` becomes a thread. -/
def threadCreate (s : Scheduler) (t : ℕ) : Scheduler where
  next := Function.update s.next t none
  state := Function.update s.state t .readyToRun
  sleepUntil := Function.update s.sleepUntil t 0
  locked := Function.update s.locked t false
  alive := Function.update s.alive t true
  head := s.head
  runningThread := s.runningThread
  dequeued := Function.update s.dequeued t false

/-- The object goes back to `thread_cache`, which does not touch its bytes. -/
def threadDestroy (s : Scheduler) (t : ℕ) : Scheduler := { s with alive := Function.update s.alive t false }

def schedThreadEnqueue (fuel : ℕ) (s : Scheduler) (t : ℕ) : Option Scheduler := addThreadToList fuel s .runnable t

def schedThreadDequeue (fuel : ℕ) (s : Scheduler) (t : ℕ) : Option Scheduler :=
  (removeThreadFromList fuel s .runnable t).bind fun s =>
    addThreadToList fuel { s.setState t .zombie with dequeued := Function.update s.dequeued t true } .zombie t

/-- Up to the call of `sched_yield`. -/
def schedThreadSleep (fuel : ℕ) (s : Scheduler) (t sleepUntil : ℕ) : Option Scheduler :=
  (removeThreadFromList fuel s .runnable t).bind fun s =>
    addThreadToList fuel
      { s.setState t .sleeping with sleepUntil := Function.update s.sleepUntil t sleepUntil } .blocking t

/-- The first loop of `schedule`; `hpet t` is the counter when thread `t` is looked at. -/
def wakeSleepers (fuel : ℕ) (hpet : ℕ → ℕ) : ℕ → Scheduler → Option ℕ → Option Scheduler
  | 0, _, _ => none
  | _ + 1, s, none => some s
  | n + 1, s, some t =>
      if s.state t = .sleeping ∧ s.sleepUntil t < hpet t then
        (removeThreadFromList fuel
          { s.setState t .readyToRun with sleepUntil := Function.update s.sleepUntil t 0 } .blocking t).bind fun s =>
        (addThreadToList fuel s .runnable t).bind fun s => wakeSleepers fuel hpet n s (s.next t)
      else wakeSleepers fuel hpet n s (s.next t)

/-- The second loop of `schedule`. Destroying a process changes none of its threads. -/
def reapZombies (fuel : ℕ) : ℕ → Scheduler → Option ℕ → Option Scheduler
  | 0, _, _ => none
  | _ + 1, s, none => some s
  | n + 1, s, some t =>
      (removeThreadFromList fuel (threadDestroy s t) .zombie t).bind fun s => reapZombies fuel n s (s.next t)

def getNextThread (s : Scheduler) : ℕ → Option ℕ → Option (Option ℕ)
  | 0, _ => none
  | _ + 1, none => some none
  | n + 1, some t =>
      if s.state t ≠ .readyToRun then getNextThread s n (s.next t)
      else if s.locked t = false then some (some t)
      else getNextThread s n (s.next t)

/-- `get_next_thread` takes the lock of the thread it returns. -/
def lockThread (s : Scheduler) : Option ℕ → Scheduler
  | none => s
  | some t => { s with locked := Function.update s.locked t true }

def leaveThread (s : Scheduler) : Option ℕ → Scheduler
  | none => s
  | some c =>
      { s with
        state := if s.state c = .running then Function.update s.state c .readyToRun else s.state
        locked := Function.update s.locked c false }

def enterThread (s : Scheduler) (cpu : ℕ) : Option ℕ → Scheduler
  | none => { s with runningThread := Function.update s.runningThread cpu none }
  | some t =>
      { s with
        state := Function.update s.state t .running
        runningThread := Function.update s.runningThread cpu (some t) }

/-- One pass on a processor; `managed` says whether it got `thread_management_lock`. -/
def schedule (fuel : ℕ) (s : Scheduler) (cpu : ℕ) (managed : Bool) (hpet : ℕ → ℕ) : Option Scheduler :=
  (if managed then
    (wakeSleepers fuel hpet fuel s (s.head .blocking)).bind fun s => reapZombies fuel fuel s (s.head .zombie)
  else some s).bind fun s =>
    let start := match s.runningThread cpu with
      | some c => s.next c
      | none => s.head .runnable
    (getNextThread s fuel start).map fun next =>
      enterThread (leaveThread (lockThread s next) (s.runningThread cpu)) cpu next

inductive Event
  | enqueue (t : ℕ)
  | dequeue (t : ℕ)
  | sleep (t sleepUntil : ℕ)
  | schedule (cpu : ℕ) (managed : Bool) (hpet : ℕ → ℕ)

def perform (fuel : ℕ) (s : Scheduler) : Event → Option Scheduler
  | .enqueue t => schedThreadEnqueue fuel (threadCreate s t) t
  | .dequeue t => schedThreadDequeue fuel s t
  | .sleep t sleepUntil => schedThreadSleep fuel s t sleepUntil
  | .schedule cpu managed hpet => schedule fuel s cpu managed hpet

/-- New threads are enqueued, existing threads dequeued, and running threads put to sleep. -/
def Possible (s : Scheduler) : Event → Prop
  | .enqueue t => s.alive t = false
  | .dequeue t => s.alive t = true
  | .sleep t _ => s.alive t = true ∧ s.state t = .running
  | .schedule .. => True

/-- The event ends and leads to `s'`. -/
def Step (s : Scheduler) (e : Event) (s' : Scheduler) : Prop :=
  Possible s e ∧ ∀ᶠ fuel in atTop, perform fuel s e = some s'

/-- A thread that is dequeued is not asleep and was not dequeued before. -/
def InTurn (s : Scheduler) : Event → Prop
  | .dequeue t => s.state t = .running ∨ s.state t = .readyToRun
  | _ => True

def empty : Scheduler where
  next _ := none
  state _ := .running
  sleepUntil _ := 0
  locked _ := false
  alive _ := false
  head _ := none
  runningThread _ := none
  dequeued _ := false

def listOf : ThreadState → ListName
  | .running => .runnable
  | .readyToRun => .runnable
  | .sleeping => .blocking
  | .zombie => .zombie

/-- The links form three lists, and the state of a thread says on which of them it is. -/
structure Lists (s : Scheduler) (lists : ListName → List ℕ) : Prop where
  seg : ∀ k, Seg s.next (s.head k) (lists k) none
  nodup : ∀ k, (lists k).Nodup
  mem : ∀ k t, t ∈ lists k ↔ s.alive t = true ∧ listOf (s.state t) = k
  free : ∀ t, s.alive t = false → s.next t = none
  dequeued : ∀ t, s.alive t = true → s.state t = .zombie → s.dequeued t = true

/-- The same for all threads but one, which is on the list `place`, or on none and has no link. -/
structure ListsBut (s : Scheduler) (lists : ListName → List ℕ) (t : ℕ) (place : Option ListName) : Prop where
  seg : ∀ k, Seg s.next (s.head k) (lists k) none
  nodup : ∀ k, (lists k).Nodup
  mem : ∀ k, ∀ x ≠ t, x ∈ lists k ↔ s.alive x = true ∧ listOf (s.state x) = k
  free : ∀ x ≠ t, s.alive x = false → s.next x = none
  dequeued : ∀ x ≠ t, s.alive x = true → s.state x = .zombie → s.dequeued x = true
  on : ∀ k, t ∈ lists k ↔ place = some k
  loose : place = none → s.next t = none

section Lists
variable {s s' : Scheduler} {lists : ListName → List ℕ} {t : ℕ} {k : ListName} {place : Option ListName}

lemma empty_lists : Lists empty fun _ => [] where
  seg _ := rfl
  nodup _ := List.nodup_nil
  mem _ _ := by simp [empty]
  free _ _ := rfl
  dequeued _ h := by simp [empty] at h

lemma Lists.but (h : Lists s lists) (ht : t ∈ lists k) : ListsBut s lists t (some k) where
  seg := h.seg
  nodup := h.nodup
  mem k x _ := h.mem k x
  free x _ := h.free x
  dequeued x _ := h.dequeued x
  on j := by
    rw [h.mem, Option.some.injEq, ((h.mem k t).mp ht).2]
    exact and_iff_right ((h.mem k t).mp ht).1
  loose h := by simp at h

lemma Lists.new (h : Lists s lists) (ht : s.alive t = false) : ListsBut s lists t none where
  seg := h.seg
  nodup := h.nodup
  mem k x _ := h.mem k x
  free x _ := h.free x
  dequeued x _ := h.dequeued x
  on j := by simp [h.mem, ht]
  loose _ := h.free t ht

/-- What happens to the thread that is left out does not matter. -/
lemma ListsBut.congr (h : ListsBut s lists t place) (hn : s'.next = s.next) (hh : s'.head = s.head)
    (hx : ∀ x ≠ t, s'.alive x = s.alive x ∧ s'.state x = s.state x ∧ s'.dequeued x = s.dequeued x) :
    ListsBut s' lists t place where
  seg k := by rw [hn, hh]; exact h.seg k
  nodup := h.nodup
  mem k x hne := by rw [(hx x hne).1, (hx x hne).2.1]; exact h.mem k x hne
  free x hne := by rw [(hx x hne).1, hn]; exact h.free x hne
  dequeued x hne := by rw [(hx x hne).1, (hx x hne).2.1, (hx x hne).2.2]; exact h.dequeued x hne
  on := h.on
  loose := by rw [hn]; exact h.loose

/-- The links and heads are the only thing in which the two differ. -/
structure SameThreads (s s' : Scheduler) : Prop where
  state : s'.state = s.state
  sleepUntil : s'.sleepUntil = s.sleepUntil
  locked : s'.locked = s.locked
  alive : s'.alive = s.alive
  runningThread : s'.runningThread = s.runningThread
  dequeued : s'.dequeued = s.dequeued

lemma ListsBut.remove (h : ListsBut s lists t (some k)) :
    ∃ s', (∀ᶠ fuel in atTop, removeThreadFromList fuel s k t = some s') ∧
      ListsBut s' (Function.update lists k ((lists k).erase t)) t none ∧ SameThreads s s' := by
  have htk : t ∈ lists k := (h.on k).mpr rfl
  obtain ⟨next', head', hrem, hseg, hnone, hout⟩ := remove_seg (h.seg k) (h.nodup k) htk
  refine ⟨{ s with next := next', head := Function.update s.head k head' }, ?_, ?_, ⟨rfl, rfl, rfl, rfl, rfl, rfl⟩⟩
  · filter_upwards [hrem] with fuel hf
    rw [removeThreadFromList, hf, Option.map_some]
  · have hdisj : ∀ j ≠ k, ∀ x ∈ lists j, x ∉ lists k := by
      intro j hj x hxj hxk
      by_cases hx : x = t
      · subst hx
        exact hj (Option.some.inj ((h.on j).mp hxj)).symm
      · exact hj (((h.mem j x hx).mp hxj).2.symm.trans ((h.mem k x hx).mp hxk).2)
    refine ⟨fun j => ?_, fun j => ?_, fun j x hx => ?_, fun x hx ha => ?_, h.dequeued, fun j => ?_, fun _ => hnone⟩
    · by_cases hj : j = k
      · subst hj
        simpa using hseg
      · rw [Function.update_of_ne hj]
        dsimp only
        rw [Function.update_of_ne hj]
        exact (h.seg j).congr fun x hx => hout x (hdisj j hj x hx)
    · by_cases hj : j = k
      · subst hj
        simpa using (h.nodup j).erase t
      · rw [Function.update_of_ne hj]
        exact h.nodup j
    · rw [← h.mem j x hx]
      by_cases hj : j = k
      · subst hj
        rw [Function.update_self, List.mem_erase_of_ne hx]
      · rw [Function.update_of_ne hj]
    · have hxk : x ∉ lists k := fun hin => by
        rw [h.mem k x hx] at hin
        exact absurd (ha.symm.trans hin.1) (by decide)
      exact (hout x hxk).trans (h.free x hx ha)
    · by_cases hj : j = k
      · subst hj
        rw [Function.update_self]
        exact iff_of_false (h.nodup j).not_mem_erase (by simp)
      · rw [Function.update_of_ne hj, h.on j]
        simp [Ne.symm hj]

lemma ListsBut.add (h : ListsBut s lists t none) (ha : s.alive t = true) (hk : listOf (s.state t) = k)
    (hd : s.state t = .zombie → s.dequeued t = true) :
    ∃ s', (∀ᶠ fuel in atTop, addThreadToList fuel s k t = some s') ∧
      Lists s' (Function.update lists k (lists k ++ [t])) ∧ SameThreads s s' ∧ s'.next t = none := by
  have hout : ∀ j, t ∉ lists j := fun j hin => by
    rw [h.on j] at hin
    simp at hin
  obtain ⟨next', head', hadd, hseg, hother⟩ := pushBack_seg (h.seg k) (h.nodup k) (hout k) (h.loose rfl)
  refine ⟨{ s with next := next', head := Function.update s.head k head' },
    ?_, ⟨fun j => ?_, fun j => ?_, fun j x => ?_, fun x hx => ?_, fun x => ?_⟩, ⟨rfl, rfl, rfl, rfl, rfl, rfl⟩,
    (hother t (hout k)).trans (h.loose rfl)⟩
  · filter_upwards [hadd] with fuel hf
    rw [addThreadToList, hf, Option.map_some]
  · by_cases hj : j = k
    · subst hj
      simpa using hseg
    · rw [Function.update_of_ne hj]
      dsimp only
      rw [Function.update_of_ne hj]
      refine (h.seg j).congr fun x hx => hother x fun hxk => ?_
      have hxt : x ≠ t := ne_of_mem_of_not_mem hx (hout j)
      exact hj (((h.mem j x hxt).mp hx).2.symm.trans ((h.mem k x hxt).mp hxk).2)
  · by_cases hj : j = k
    · subst hj
      rw [Function.update_self, List.nodup_append]
      exact ⟨h.nodup j, List.nodup_singleton t, fun x hx y hy hxy => hout j (by
        rw [List.mem_singleton] at hy
        rwa [← hy, ← hxy])⟩
    · rw [Function.update_of_ne hj]
      exact h.nodup j
  · by_cases hx : x = t
    · subst hx
      dsimp only
      rw [hk, and_iff_right ha]
      by_cases hj : j = k
      · subst hj
        simp
      · rw [Function.update_of_ne hj]
        exact iff_of_false (hout j) (Ne.symm hj)
    · dsimp only
      rw [← h.mem j x hx]
      by_cases hj : j = k
      · subst hj
        simp [hx]
      · rw [Function.update_of_ne hj]
  · have hxt : x ≠ t := by
      rintro rfl
      exact absurd (hx.symm.trans ha) (by decide)
    refine (hother x fun hin => ?_).trans (h.free x hxt hx)
    exact absurd (hx.symm.trans ((h.mem k x hxt).mp hin).1) (by decide)
  · by_cases hx : x = t
    · subst hx
      exact fun _ => hd
    · exact h.dequeued x hx

/-- A thread on no list may be destroyed. -/
lemma ListsBut.freed (h : ListsBut s lists t none) (ha : s.alive t = false) : Lists s lists where
  seg := h.seg
  nodup := h.nodup
  mem k x := by
    by_cases hx : x = t
    · subst hx
      rw [h.on k, ha]
      simp
    · exact h.mem k x hx
  free x hx := by
    by_cases hxt : x = t
    · subst hxt
      exact h.loose rfl
    · exact h.free x hxt hx
  dequeued x hx := by
    by_cases hxt : x = t
    · subst hxt
      exact absurd (ha.symm.trans hx) (by decide)
    · exact h.dequeued x hxt hx

lemma listOf_runnable {state : ThreadState} (h : state = .running ∨ state = .readyToRun) : listOf state = .runnable := by
  rcases h with rfl | rfl <;> rfl

lemma listOf_zombie {state : ThreadState} : listOf state = .zombie ↔ state = .zombie := by
  cases state <;> simp [listOf]

lemma Lists.enqueue (h : Lists s lists) (ha : s.alive t = false) : ∃ s',
    (∀ᶠ fuel in atTop, schedThreadEnqueue fuel (threadCreate s t) t = some s') ∧
      Lists s' (Function.update lists .runnable (lists .runnable ++ [t])) ∧ s'.runningThread = s.runningThread := by
  have hnext : (threadCreate s t).next = s.next := Function.update_eq_self_iff.mpr (h.free t ha).symm
  have hbut : ListsBut (threadCreate s t) lists t none :=
    (h.new ha).congr hnext rfl fun x hx => by simp [threadCreate, hx]
  obtain ⟨s', hadd, hl, hsame, -⟩ := hbut.add (k := .runnable) (by simp [threadCreate]) (by simp [threadCreate, listOf])
    (by simp [threadCreate])
  exact ⟨s', hadd, hl, hsame.runningThread⟩

/-- The lists after a thread has gone from one that it was on to another. -/
def transfer (lists : ListName → List ℕ) (j k : ListName) (t : ℕ) : ListName → List ℕ :=
  Function.update (Function.update lists j ((lists j).erase t)) k
    (Function.update lists j ((lists j).erase t) k ++ [t])

lemma Lists.dequeue (h : Lists s lists) (ha : s.alive t = true) (hs : s.state t = .running ∨ s.state t = .readyToRun) :
    ∃ s', (∀ᶠ fuel in atTop, schedThreadDequeue fuel s t = some s') ∧ Lists s' (transfer lists .runnable .zombie t) ∧
      s'.runningThread = s.runningThread ∧ s'.state t = .zombie := by
  have hbut := h.but ((h.mem .runnable t).mpr ⟨ha, listOf_runnable hs⟩)
  obtain ⟨s1, hrem, hbut1, hsame⟩ := hbut.remove
  have hbut2 : ListsBut { s1.setState t .zombie with dequeued := Function.update s1.dequeued t true } _ t none :=
    hbut1.congr rfl rfl fun x hx => by simp [Scheduler.setState, hx]
  obtain ⟨s', hadd, hl, hsame2, -⟩ := hbut2.add (k := .zombie) (hsame.alive ▸ ha) (by simp [Scheduler.setState, listOf])
    (by simp)
  refine ⟨s', ?_, hl, hsame2.runningThread.trans hsame.runningThread, ?_⟩
  case refine_2 => simp [hsame2.state, Scheduler.setState]
  filter_upwards [hrem, hadd] with fuel h1 h2
  rw [schedThreadDequeue, h1, Option.bind_some, h2]

lemma Lists.sleep (h : Lists s lists) (ha : s.alive t = true) (hs : s.state t = .running) (wakeAt : ℕ) :
    ∃ s', (∀ᶠ fuel in atTop, schedThreadSleep fuel s t wakeAt = some s') ∧
      Lists s' (transfer lists .runnable .blocking t) ∧ s'.runningThread = s.runningThread ∧ s'.state t = .sleeping := by
  have hbut := h.but ((h.mem .runnable t).mpr ⟨ha, listOf_runnable (Or.inl hs)⟩)
  obtain ⟨s1, hrem, hbut1, hsame⟩ := hbut.remove
  have hbut2 : ListsBut { s1.setState t .sleeping with sleepUntil := Function.update s1.sleepUntil t wakeAt } _ t none :=
    hbut1.congr rfl rfl fun x hx => by simp [Scheduler.setState, hx]
  obtain ⟨s', hadd, hl, hsame2, -⟩ := hbut2.add (k := .blocking) (hsame.alive ▸ ha)
    (by simp [Scheduler.setState, listOf]) (by simp [Scheduler.setState])
  refine ⟨s', ?_, hl, hsame2.runningThread.trans hsame.runningThread, ?_⟩
  case refine_2 => simp [hsame2.state, Scheduler.setState]
  filter_upwards [hrem, hadd] with fuel h1 h2
  rw [schedThreadSleep, h1, Option.bind_some, h2]

/-- The loop stops after the first thread that it wakes, because that thread is now the last one. -/
lemma Lists.wake (hpet : ℕ → ℕ) (h : Lists s lists) {l : List ℕ} {iter : Option ℕ} (hl : Seg s.next iter l none)
    (hin : ∀ x ∈ l, x ∈ lists .blocking) : ∃ s' lists',
      (∀ᶠ fuel in atTop, ∀ n > l.length, wakeSleepers fuel hpet n s iter = some s') ∧ Lists s' lists' ∧
      s'.alive = s.alive ∧ s'.dequeued = s.dequeued ∧ s'.runningThread = s.runningThread ∧ s'.locked = s.locked ∧
      (∀ x, s.state x ≠ .sleeping → s'.state x = s.state x) ∧
      (lists' = lists ∨ ∃ t ∈ lists .blocking, lists' = transfer lists .blocking .runnable t) := by
  induction l generalizing iter with
  | nil =>
    obtain rfl : iter = none := hl
    refine ⟨s, lists, .of_forall fun fuel n hn => ?_, h, rfl, rfl, rfl, rfl, fun _ _ => rfl, Or.inl rfl⟩
    obtain ⟨n, rfl⟩ := Nat.exists_eq_succ_of_ne_zero hn.ne'
    rfl
  | cons t l ih =>
    obtain ⟨rfl, hl⟩ := hl
    have ht : t ∈ lists .blocking := hin t List.mem_cons_self
    by_cases hexp : s.state t = .sleeping ∧ s.sleepUntil t < hpet t
    · have hbut : ListsBut { s.setState t .readyToRun with sleepUntil := Function.update s.sleepUntil t 0 } lists t
          (some .blocking) := (h.but ht).congr rfl rfl fun x hx => by simp [Scheduler.setState, hx]
      obtain ⟨s1, hrem, hbut1, hsame1⟩ := hbut.remove
      have hready : s1.state t = .readyToRun := by
        rw [hsame1.state]
        simp [Scheduler.setState]
      obtain ⟨s', hadd, hl', hsame2, hnext⟩ := hbut1.add (k := .runnable)
        (hsame1.alive ▸ ((h.mem _ t).mp ht).1) (by rw [hready]; rfl) (by simp [hready])
      refine ⟨s', _, ?_, hl', hsame2.alive.trans hsame1.alive, hsame2.dequeued.trans hsame1.dequeued,
        hsame2.runningThread.trans hsame1.runningThread, hsame2.locked.trans hsame1.locked, fun x hx => ?_,
        Or.inr ⟨t, ht, rfl⟩⟩
      case refine_2 =>
        have hxt : x ≠ t := by
          rintro rfl
          exact hx hexp.1
        rw [hsame2.state, hsame1.state]
        exact Function.update_of_ne hxt ..
      filter_upwards [hrem, hadd] with fuel h1 h2 n hn
      obtain ⟨n, rfl⟩ : ∃ m, n = m + 2 := ⟨n - 2, by simp at hn; omega⟩
      rw [wakeSleepers, if_pos hexp, h1, Option.bind_some, h2, Option.bind_some, hnext]
      rfl
    · obtain ⟨s', lists', hev, hl', hrest⟩ := ih hl fun x hx => hin x (List.mem_cons_of_mem _ hx)
      refine ⟨s', lists', ?_, hl', hrest⟩
      filter_upwards [hev] with fuel h1 n hn
      obtain ⟨n, rfl⟩ : ∃ m, n = m + 1 := ⟨n - 1, by omega⟩
      rw [wakeSleepers, if_neg hexp]
      exact h1 n (by simpa using hn)

/-- The loop stops after the first thread that it destroys. -/
lemma Lists.reap (h : Lists s lists) : ∃ s' lists',
    (∀ᶠ fuel in atTop, reapZombies fuel fuel s (s.head .zombie) = some s') ∧ Lists s' lists' ∧
    (∀ t, s.alive t = true → s'.alive t = false → s.state t = .zombie) ∧ s'.runningThread = s.runningThread ∧
    s'.locked = s.locked ∧ s'.state = s.state ∧ ∀ k ≠ .zombie, lists' k = lists k := by
  have hseg := h.seg .zombie
  cases hz : lists .zombie with
  | nil =>
    rw [hz] at hseg
    have hhead : s.head .zombie = none := hseg
    refine ⟨s, lists, ?_, h, fun t h1 h2 => absurd (h1.symm.trans h2) (by decide), rfl, rfl, rfl, fun _ _ => rfl⟩
    filter_upwards [eventually_gt_atTop 0] with fuel hf
    obtain ⟨n, rfl⟩ := Nat.exists_eq_succ_of_ne_zero hf.ne'
    rw [hhead]
    rfl
  | cons t l =>
    rw [hz] at hseg
    have ht : t ∈ lists .zombie := by simp [hz]
    have hbut : ListsBut (threadDestroy s t) lists t (some .zombie) :=
      (h.but ht).congr rfl rfl fun x hx => by simp [threadDestroy, hx]
    obtain ⟨s', hrem, hbut1, hsame⟩ := hbut.remove
    have halive : s'.alive = Function.update s.alive t false := hsame.alive
    refine ⟨s', _, ?_, hbut1.freed (by rw [halive, Function.update_self]), fun x h1 h2 => ?_, hsame.runningThread,
      hsame.locked, hsame.state, fun k hk => Function.update_of_ne hk ..⟩
    · filter_upwards [hrem, eventually_gt_atTop 1] with fuel h1 hf
      obtain ⟨n, rfl⟩ : ∃ m, fuel = m + 2 := ⟨fuel - 2, by omega⟩
      rw [hseg.1, reapZombies, h1, Option.bind_some, hbut1.loose rfl]
      rfl
    · by_cases hx : x = t
      · subst hx
        exact listOf_zombie.mp ((h.mem _ x).mp ht).2
      · rw [halive, Function.update_of_ne hx] at h2
        exact absurd (h1.symm.trans h2) (by decide)

lemma getNextThread_seg {l : List ℕ} {iter : Option ℕ} (hl : Seg s.next iter l none) : ∃ r,
    (∀ᶠ fuel in atTop, getNextThread s fuel iter = some r) ∧ ∀ t ∈ r, t ∈ l ∧ s.state t = .readyToRun := by
  induction l generalizing iter with
  | nil =>
    obtain rfl : iter = none := hl
    refine ⟨none, ?_, by simp⟩
    filter_upwards [eventually_gt_atTop 0] with fuel hf
    obtain ⟨n, rfl⟩ := Nat.exists_eq_succ_of_ne_zero hf.ne'
    rfl
  | cons t l ih =>
    obtain ⟨rfl, hl⟩ := hl
    obtain ⟨r, hr, hin⟩ := ih hl
    have hr1 : ∀ᶠ fuel in atTop, getNextThread s (fuel - 1) (s.next t) = some r := (tendsto_sub_atTop_nat 1).eventually hr
    by_cases hready : s.state t = .readyToRun ∧ s.locked t = false
    · refine ⟨some t, ?_, ?_⟩
      · filter_upwards [eventually_gt_atTop 0] with fuel hf
        obtain ⟨n, rfl⟩ := Nat.exists_eq_succ_of_ne_zero hf.ne'
        rw [getNextThread, if_neg (not_not.mpr hready.1), if_pos hready.2]
      · intro x hx
        obtain rfl := Option.some.inj hx
        exact ⟨List.mem_cons_self, hready.1⟩
    · refine ⟨r, ?_, fun x hx => ⟨List.mem_cons_of_mem _ (hin x hx).1, (hin x hx).2⟩⟩
      filter_upwards [hr1, eventually_gt_atTop 0] with fuel h1 hf
      obtain ⟨n, rfl⟩ := Nat.exists_eq_succ_of_ne_zero hf.ne'
      rw [getNextThread]
      split_ifs with h2 h3
      · exact h1
      · exact absurd ⟨not_not.mp h2, h3⟩ hready
      · exact h1

/-- Only the difference between running and ready to run may change. -/
lemma Lists.restate (h : Lists s lists) (hn : s'.next = s.next) (hh : s'.head = s.head) (ha : s'.alive = s.alive)
    (hd : s'.dequeued = s.dequeued)
    (hs : ∀ x, s.alive x = true → listOf (s'.state x) = listOf (s.state x)) : Lists s' lists where
  seg k := by rw [hn, hh]; exact h.seg k
  nodup := h.nodup
  mem k x := by
    rw [h.mem k x, ha]
    exact and_congr_right fun hx => by rw [hs x hx]
  free x := by rw [ha, hn]; exact h.free x
  dequeued x hx hz := by
    rw [ha] at hx
    rw [← listOf_zombie, hs x hx, listOf_zombie] at hz
    rw [hd]
    exact h.dequeued x hx hz

lemma Lists.switch (h : Lists s lists) (cpu : ℕ) (current next : Option ℕ) (hnext : ∀ t ∈ next, s.state t = .readyToRun) :
    Lists (enterThread (leaveThread (lockThread s next) current) cpu next) lists := by
  have h1 : Lists (lockThread s next) lists := by
    cases next with
    | none => exact h
    | some t => exact h.restate rfl rfl rfl rfl fun _ _ => rfl
  have hleave : ∀ x, listOf ((leaveThread (lockThread s next) current).state x) = listOf ((lockThread s next).state x) := by
    intro x
    cases current with
    | none => rfl
    | some c =>
      dsimp only [leaveThread]
      split_ifs with hc
      · by_cases hx : x = c
        · rw [hx, Function.update_self, hc]
          rfl
        · rw [Function.update_of_ne hx]
      · rfl
  have h2 : Lists (leaveThread (lockThread s next) current) lists := by
    refine h1.restate ?_ ?_ ?_ ?_ fun x _ => hleave x
    · cases current <;> rfl
    · cases current <;> rfl
    · cases current <;> rfl
    · cases current <;> rfl
  cases next with
  | none => exact h2.restate rfl rfl rfl rfl fun _ _ => rfl
  | some t =>
    refine h2.restate rfl rfl rfl rfl fun x _ => ?_
    by_cases hx : x = t
    · subst hx
      have hready : (lockThread s (some x)).state x = .readyToRun := hnext x rfl
      rw [hleave x, hready, enterThread]
      dsimp only
      rw [Function.update_self]
      rfl
    · rw [enterThread]
      dsimp only
      rw [Function.update_of_ne hx]

@[simp] lemma switch_alive (s : Scheduler) (cpu : ℕ) (current next : Option ℕ) :
    (enterThread (leaveThread (lockThread s next) current) cpu next).alive = s.alive := by
  cases current <;> cases next <;> rfl

/-- What a processor does after the lists are in order. -/
lemma Lists.pick (h : Lists s lists) (cpu : ℕ) : ∃ next,
    (∀ᶠ fuel in atTop, getNextThread s fuel
      (match s.runningThread cpu with
        | some c => s.next c
        | none => s.head .runnable) = some next) ∧
    Lists (enterThread (leaveThread (lockThread s next) (s.runningThread cpu)) cpu next) lists := by
  have hstart : ∃ l, Seg s.next (match s.runningThread cpu with
      | some c => s.next c
      | none => s.head .runnable) l none := by
    cases s.runningThread cpu with
    | none => exact ⟨_, h.seg .runnable⟩
    | some c =>
      cases hc : s.alive c with
      | false => exact ⟨[], h.free c hc⟩
      | true =>
        obtain ⟨l, -, hl⟩ := (h.seg _).suffix ((h.mem _ c).mpr ⟨hc, rfl⟩)
        exact ⟨l, hl⟩
  obtain ⟨l, hl⟩ := hstart
  obtain ⟨next, hnext, hready⟩ := getNextThread_seg hl
  exact ⟨next, hnext, h.switch cpu _ next fun t ht => (hready t ht).2⟩

lemma Lists.schedule (h : Lists s lists) (cpu : ℕ) (managed : Bool) (hpet : ℕ → ℕ) : ∃ s' lists',
    (∀ᶠ fuel in atTop, schedule fuel s cpu managed hpet = some s') ∧ Lists s' lists' ∧
    ∀ t, s.alive t = true → s'.alive t = false → s.dequeued t = true := by
  cases managed with
  | false =>
    obtain ⟨next, hnext, hl⟩ := h.pick cpu
    refine ⟨_, lists, ?_, hl, fun t h1 h2 => ?_⟩
    · filter_upwards [hnext] with fuel h1
      rw [Sched.schedule, if_neg Bool.false_ne_true, Option.bind_some]
      dsimp only
      rw [h1, Option.map_some]
    · rw [switch_alive] at h2
      exact absurd (h1.symm.trans h2) (by decide)
  | true =>
    obtain ⟨s1, lists1, hwake, h1, ha1, hd1, -⟩ := h.wake hpet (h.seg .blocking) fun _ hx => hx
    obtain ⟨s2, lists2, hreap, h2, hz, -⟩ := h1.reap
    obtain ⟨next, hnext, hl⟩ := h2.pick cpu
    refine ⟨_, lists2, ?_, hl, fun t h3 h4 => ?_⟩
    · filter_upwards [hwake, hreap, hnext, eventually_gt_atTop (lists .blocking).length] with fuel e1 e2 e3 e4
      rw [Sched.schedule, if_pos rfl, e1 fuel e4, Option.bind_some, e2, Option.bind_some]
      dsimp only
      rw [e3, Option.map_some]
    · rw [switch_alive] at h4
      rw [← ha1] at h3
      rw [← hd1]
      exact h1.dequeued t h3 (hz t h3 h4)

/-- Every event that comes in turn ends and keeps the lists in order. -/
lemma Lists.perform {e : Event} (h : Lists s lists) (hp : Possible s e) (ht : InTurn s e) : ∃ s' lists',
    (∀ᶠ fuel in atTop, perform fuel s e = some s') ∧ Lists s' lists' := by
  cases e with
  | enqueue t =>
    obtain ⟨s', hev, hl, -⟩ := h.enqueue hp
    exact ⟨s', _, hev, hl⟩
  | dequeue t =>
    obtain ⟨s', hev, hl, -⟩ := h.dequeue hp ht
    exact ⟨s', _, hev, hl⟩
  | sleep t wakeAt =>
    obtain ⟨s', hev, hl, -⟩ := h.sleep hp.1 hp.2 wakeAt
    exact ⟨s', _, hev, hl⟩
  | schedule cpu managed hpet =>
    obtain ⟨s', lists', hev, hl, -⟩ := h.schedule cpu managed hpet
    exact ⟨s', lists', hev, hl⟩

lemma eventually_some_unique {f : ℕ → Option Scheduler} (h : ∀ᶠ fuel in atTop, f fuel = some s)
    (h' : ∀ᶠ fuel in atTop, f fuel = some s') : s' = s := by
  obtain ⟨fuel, h1, h2⟩ := (h.and h').exists
  exact Option.some.inj (h2.symm.trans h1)

end Lists

/-- If every thread is dequeued in turn, the three lists are finite and disjoint and agree with the
states of the threads, every further event ends, and only dequeued threads are destroyed. -/
theorem sched_lists {s : Scheduler} {events : List Event}
    (hrun : Run (fun s e s' => Step s e s' ∧ InTurn s e) empty events s) :
    (∃ lists : ListName → List ℕ, (∀ k, Seg s.next (s.head k) (lists k) none ∧ (lists k).Nodup) ∧
      (∀ j k, j ≠ k → (lists j).Disjoint (lists k)) ∧ (∀ k, ∀ t ∈ lists k, s.alive t = true) ∧
      ∀ t, s.alive t = true →
        (t ∈ lists .blocking ↔ s.state t = .sleeping) ∧ (t ∈ lists .zombie ↔ s.state t = .zombie) ∧
        (t ∈ lists .runnable ↔ s.state t = .running ∨ s.state t = .readyToRun)) ∧
    (∀ e, Possible s e → InTurn s e → ∃ s', Step s e s') ∧
    ∀ cpu managed hpet s', Step s (.schedule cpu managed hpet) s' →
      ∀ t, s.alive t = true → s'.alive t = false → s.dequeued t = true := by
  have hkeep : ∀ s e s', (∃ lists, Lists s lists) → Step s e s' ∧ InTurn s e → ∃ lists, Lists s' lists := by
    rintro s e s' ⟨lists, h⟩ ⟨hstep, hturn⟩
    obtain ⟨s1, lists', hev, hl⟩ := h.perform hstep.1 hturn
    obtain rfl := eventually_some_unique hev hstep.2
    exact ⟨lists', hl⟩
  obtain ⟨lists, h⟩ := hrun.invariant hkeep ⟨_, empty_lists⟩
  refine ⟨⟨lists, fun k => ⟨h.seg k, h.nodup k⟩, fun j k hjk t hj hk => ?_, fun k t ht => ((h.mem k t).mp ht).1,
    fun t ha => ?_⟩, fun e hp ht => ?_, fun cpu managed hpet s' hstep => ?_⟩
  · exact hjk (((h.mem j t).mp hj).2.symm.trans ((h.mem k t).mp hk).2)
  · rw [h.mem, h.mem, h.mem, ha]
    cases s.state t <;> simp [listOf]
  · obtain ⟨s', -, hev, -⟩ := h.perform hp ht
    exact ⟨s', hp, hev⟩
  · obtain ⟨s1, -, hev, -, hdead⟩ := h.schedule cpu managed hpet
    obtain rfl := eventually_some_unique hev hstep.2
    exact hdead

lemma settled {s s' : Scheduler} {e : Event} (h : ∀ n, perform (n + 3) s e = some s') :
    ∀ᶠ fuel in atTop, perform fuel s e = some s' := by
  filter_upwards [eventually_ge_atTop 3] with fuel hf
  obtain ⟨n, rfl⟩ := Nat.exists_eq_add_of_le' hf
  exact h n

def oneThread : Scheduler := { threadCreate empty 1 with head := Function.update empty.head .runnable (some 1) }

def oneRunning : Scheduler := enterThread (lockThread oneThread (some 1)) 0 (some 1)

def oneAsleep : Scheduler :=
  { oneRunning with
    next := Function.update oneRunning.next 1 none
    state := Function.update oneRunning.state 1 .sleeping
    sleepUntil := Function.update oneRunning.sleepUntil 1 100
    head := Function.update (Function.update oneRunning.head .runnable none) .blocking (some 1) }

/-- A thread is created, runs and goes to sleep. -/
def toSleep : List Event := [.enqueue 1, .schedule 0 true fun _ => 0, .sleep 1 100]

lemma toSleep_run : Run (fun s e s' => Step s e s' ∧ InTurn s e) empty toSleep oneAsleep :=
  .cons ⟨⟨rfl, settled fun _ => (rfl : _ = some oneThread)⟩, trivial⟩
    (.cons ⟨⟨trivial, settled fun _ => (rfl : _ = some oneRunning)⟩, trivial⟩
      (.single ⟨⟨⟨rfl, rfl⟩, settled fun _ => rfl⟩, trivial⟩))

theorem sched_lists_toSleep : Run (fun s e s' => Step s e s' ∧ InTurn s e) empty toSleep oneAsleep ∧
    ∃ lists : ListName → List ℕ, (∀ k, Seg oneAsleep.next (oneAsleep.head k) (lists k) none) ∧ 1 ∈ lists .blocking := by
  obtain ⟨⟨lists, hseg, -, -, hstate⟩, -⟩ := sched_lists toSleep_run
  exact ⟨toSleep_run, lists, fun k => (hseg k).1, (hstate 1 rfl).1.mpr rfl⟩

/-- A sleeping thread that is dequeued is on two lists, and a thread that is dequeued twice follows
itself. -/
theorem sched_lists_broken :
    (∃ s, Run Step empty (toSleep ++ [.dequeue 1]) s ∧
      ¬ ∃ lists : ListName → List ℕ, (∀ k, Seg s.next (s.head k) (lists k) none) ∧
        ∀ j k, j ≠ k → (lists j).Disjoint (lists k)) ∧
    ∃ s, Run Step empty [.enqueue 1, .dequeue 1, .dequeue 1] s ∧ ¬ ∃ l, Seg s.next (s.head .zombie) l none := by
  constructor
  · let s : Scheduler :=
      { oneAsleep with
        state := Function.update oneAsleep.state 1 .zombie
        dequeued := Function.update oneAsleep.dequeued 1 true
        head := Function.update (Function.update oneAsleep.head .runnable none) .zombie (some 1) }
    refine ⟨s, (toSleep_run.mono fun _ _ _ h => h.1).append (.single ⟨rfl, settled fun _ => rfl⟩), ?_⟩
    rintro ⟨lists, hseg, hdisj⟩
    have hmem : ∀ k, s.head k = some 1 → 1 ∈ lists k := by
      intro k hk
      have hk' := hseg k
      cases hl : lists k with
      | nil =>
        rw [hl, hk] at hk'
        exact absurd hk' (by simp)
      | cons x l =>
        rw [hl, hk] at hk'
        simp [Option.some.inj hk'.1]
    exact hdisj .blocking .zombie (by decide) (hmem _ rfl) (hmem _ rfl)
  · let s1 : Scheduler :=
      { oneThread with
        next := Function.update oneThread.next 1 none
        state := Function.update oneThread.state 1 .zombie
        dequeued := Function.update oneThread.dequeued 1 true
        head := Function.update (Function.update oneThread.head .runnable none) .zombie (some 1) }
    let s2 : Scheduler :=
      { s1 with
        next := Function.update s1.next 1 (some 1)
        state := Function.update s1.state 1 .zombie
        dequeued := Function.update s1.dequeued 1 true
        head := Function.update (Function.update s1.head .runnable none) .zombie (some 1) }
    refine ⟨s2, .cons ⟨rfl, settled fun _ => (rfl : _ = some oneThread)⟩
      (.cons ⟨rfl, settled fun _ => (rfl : _ = some s1)⟩ (.single ⟨rfl, settled fun _ => rfl⟩)), ?_⟩
    rintro ⟨l, hl⟩
    have hcycle : ∀ l : List ℕ, ¬ Seg s2.next (some 1) l none := by
      intro l
      induction l with
      | nil => simp
      | cons x l ih =>
        rintro ⟨hx, hl⟩
        obtain rfl := Option.some.inj hx
        exact ih hl
    exact hcycle l hl

end PiggyOs.Sched
