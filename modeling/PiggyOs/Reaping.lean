import PiggyOs.Sched

/-! When the stack of a thread that a processor still executes is freed. A pass of `schedule` is taken
apart into what is done under `thread_management_lock` and the switch to the next thread. -/
namespace PiggyOs.Sched
open IntrusiveList Fork Transition Filter

/-- The part of `schedule` under `thread_management_lock`. -/
def manage (fuel : ℕ) (s : Scheduler) (hpet : ℕ → ℕ) : Option Scheduler :=
  (wakeSleepers fuel hpet fuel s (s.head .blocking)).bind fun s => reapZombies fuel fuel s (s.head .zombie)

/-- The rest of `schedule`. -/
def switch (fuel : ℕ) (s : Scheduler) (cpu : ℕ) : Option Scheduler :=
  let start := match s.runningThread cpu with
    | some c => s.next c
    | none => s.head .runnable
  (getNextThread s fuel start).map fun next =>
    enterThread (leaveThread (lockThread s next) (s.runningThread cpu)) cpu next

lemma schedule_eq (fuel : ℕ) (s : Scheduler) (cpu : ℕ) (managed : Bool) (hpet : ℕ → ℕ) :
    schedule fuel s cpu managed hpet = (if managed then manage fuel s hpet else some s).bind fun s => switch fuel s cpu := rfl

/-- `executing` is the thread from which a processor has not switched away, also after
`running_thread` has been cleared. The code does not know it. -/
structure Machine where
  sched : Scheduler
  executing : ℕ → Option ℕ

inductive CpuEvent
  | enqueue (t : ℕ)
  | dequeue (t : ℕ)
  | sleep (t sleepUntil : ℕ)
  | clearRunning (cpu : ℕ)
  | manage (hpet : ℕ → ℕ)
  | switch (cpu : ℕ)

def performCpu (fuel : ℕ) (m : Machine) : CpuEvent → Option Machine
  | .enqueue t => (schedThreadEnqueue fuel (threadCreate m.sched t) t).map fun s => { m with sched := s }
  | .dequeue t => (schedThreadDequeue fuel m.sched t).map fun s => { m with sched := s }
  | .sleep t sleepUntil => (schedThreadSleep fuel m.sched t sleepUntil).map fun s => { m with sched := s }
  | .clearRunning cpu =>
      some { m with sched := { m.sched with runningThread := Function.update m.sched.runningThread cpu none } }
  | .manage hpet => (manage fuel m.sched hpet).map fun s => { m with sched := s }
  | .switch cpu => (switch fuel m.sched cpu).map fun s =>
      ⟨s, Function.update m.executing cpu (s.runningThread cpu)⟩

/-- Threads are dequeued by themselves or by another thread of their process, on any processor. -/
def CpuPossible (m : Machine) : CpuEvent → Prop
  | .enqueue t => m.sched.alive t = false
  | .dequeue t => m.sched.alive t = true
  | .sleep t _ => m.sched.alive t = true ∧ m.sched.state t = .running
  | _ => True

def CpuStep (m : Machine) (e : CpuEvent) (m' : Machine) : Prop :=
  CpuPossible m e ∧ ∀ᶠ fuel in atTop, performCpu fuel m e = some m'

/-- The threads that the second loop of `schedule` passes to `thread_destroy`. -/
def reaped (fuel : ℕ) : ℕ → Scheduler → Option ℕ → List ℕ
  | 0, _, _ => []
  | _ + 1, _, none => []
  | n + 1, s, some t => t :: match removeThreadFromList fuel (threadDestroy s t) .zombie t with
      | none => []
      | some s => reaped fuel n s (s.next t)

def destroyed (fuel : ℕ) (m : Machine) : CpuEvent → List ℕ
  | .manage hpet => match wakeSleepers fuel hpet fuel m.sched (m.sched.head .blocking) with
      | none => []
      | some s => reaped fuel fuel s (s.head .zombie)
  | _ => []

/-- No thread is destroyed that a processor still executes. -/
def SparesRunning (m : Machine) (e : CpuEvent) : Prop :=
  ∀ fuel, ∀ t ∈ destroyed fuel m e, ∀ cpu, m.executing cpu ≠ some t

/-- Whoever gets `thread_management_lock` finds the first thread on the zombie list off all processors. -/
def FirstZombieLeft (m : Machine) : CpuEvent → Prop
  | .manage _ => ∀ t, m.sched.head .zombie = some t → ∀ cpu, m.executing cpu ≠ some t
  | _ => True

def machineInit : Machine := ⟨empty, fun _ => none⟩

section Reaping
variable {s s' : Scheduler} {m m' : Machine} {e : CpuEvent} {t : ℕ} {hpet : ℕ → ℕ}

lemma removeThreadFromList_head {fuel : ℕ} {k j : ListName} (h : removeThreadFromList fuel s k t = some s') (hj : j ≠ k) :
    s'.head j = s.head j := by
  obtain ⟨r, -, rfl⟩ := Option.map_eq_some_iff.mp h
  exact Function.update_of_ne hj ..

lemma addThreadToList_head {fuel : ℕ} {k j : ListName} (h : addThreadToList fuel s k t = some s') (hj : j ≠ k) :
    s'.head j = s.head j := by
  obtain ⟨r, -, rfl⟩ := Option.map_eq_some_iff.mp h
  exact Function.update_of_ne hj ..

/-- Waking threads up does not touch the zombie list. -/
lemma wakeSleepers_head {fuel n : ℕ} {iter : Option ℕ} (h : wakeSleepers fuel hpet n s iter = some s') :
    s'.head .zombie = s.head .zombie := by
  induction n generalizing s iter with
  | zero => simp [wakeSleepers] at h
  | succ n ih =>
    cases iter with
    | none => exact congrArg (Scheduler.head · .zombie) (Option.some.inj h).symm
    | some t =>
      rw [wakeSleepers] at h
      split_ifs at h
      · obtain ⟨s1, hremove, h⟩ := Option.bind_eq_some_iff.mp h
        obtain ⟨s2, hadd, h⟩ := Option.bind_eq_some_iff.mp h
        rw [ih h, addThreadToList_head hadd (by decide), removeThreadFromList_head hremove (by decide)]
        rfl
      · exact ih h

/-- Taking the first thread out of the list clears the link that the loop follows: one thread is
destroyed in a pass. -/
lemma reaped_head (fuel n : ℕ) (s : Scheduler) : reaped fuel (n + 1) s (s.head .zombie) = (s.head .zombie).toList := by
  cases hhead : s.head .zombie with
  | none => rfl
  | some t =>
    have hremove : removeThreadFromList fuel (threadDestroy s t) .zombie t =
        some { threadDestroy s t with
          next := Function.update s.next t none
          head := Function.update s.head .zombie (s.next t) } := by
      have hfirst : (threadDestroy s t).head .zombie = some t := hhead
      rw [removeThreadFromList, remove, if_pos hfirst]
      rfl
    rw [reaped, hremove]
    dsimp only
    rw [Function.update_self]
    cases n with
    | zero => rfl
    | succ n => rfl

lemma destroyed_manage (m : Machine) (fuel : ℕ) (ht : t ∈ destroyed fuel m (.manage hpet)) : m.sched.head .zombie = some t := by
  rw [destroyed] at ht
  cases hwake : wakeSleepers fuel hpet fuel m.sched (m.sched.head .blocking) with
  | none => simp [hwake] at ht
  | some s =>
    rw [hwake] at ht
    cases fuel with
    | zero => simp [wakeSleepers] at hwake
    | succ fuel =>
      dsimp only at ht
      rw [reaped_head] at ht
      exact (wakeSleepers_head hwake).symm.trans (Option.mem_toList.mp ht)

/-- A step destroys no thread that is executed exactly if the lock is not got too early. -/
lemma CpuStep.spares_iff (h : CpuStep m e m') : SparesRunning m e ↔ FirstZombieLeft m e := by
  cases e with
  | manage hpet =>
    constructor
    · intro hspares t ht
      obtain ⟨fuel, hfuel⟩ := h.2.exists
      obtain ⟨s', hmanage, -⟩ := Option.map_eq_some_iff.mp hfuel
      obtain ⟨s, hwake, -⟩ := Option.bind_eq_some_iff.mp hmanage
      refine hspares fuel t ?_
      cases fuel with
      | zero => simp [wakeSleepers] at hwake
      | succ fuel =>
        rw [destroyed, hwake]
        dsimp only
        rw [reaped_head, wakeSleepers_head hwake, ht]
        exact List.mem_singleton_self t
    · intro hleft fuel t ht
      exact hleft t (destroyed_manage m fuel ht)
  | _ => exact iff_of_true (fun fuel t ht => by simp [destroyed] at ht) trivial

lemma settledCpu (h : ∀ n, performCpu (n + 3) m e = some m') : ∀ᶠ fuel in atTop, performCpu fuel m e = some m' := by
  filter_upwards [eventually_ge_atTop 3] with fuel hf
  obtain ⟨n, rfl⟩ := Nat.exists_eq_add_of_le' hf
  exact h n

/-- The only thread has dequeued itself. -/
def oneDequeued : Machine where
  sched := { oneRunning with
    next := Function.update oneRunning.next 1 none
    state := Function.update oneRunning.state 1 .zombie
    dequeued := Function.update oneRunning.dequeued 1 true
    head := Function.update (Function.update oneRunning.head .runnable none) .zombie (some 1) }
  executing := Function.update (fun _ => none) 0 (some 1)

lemma oneDequeued_run : Run CpuStep machineInit [.enqueue 1, .switch 0, .dequeue 1] oneDequeued :=
  .cons ⟨rfl, settledCpu fun _ => (rfl : _ = some (Machine.mk oneThread fun _ => none))⟩
    (.cons ⟨trivial, settledCpu fun _ => (rfl : _ = some (Machine.mk oneRunning (Function.update (fun _ => none) 0 (some 1))))⟩
      (.single ⟨rfl, settledCpu fun _ => rfl⟩))

end Reaping

end PiggyOs.Sched
