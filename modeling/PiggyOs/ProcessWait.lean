import PiggyOs.ProcessFork
import PiggyOs.Transition

/-! How a parent learns the exit status of a child: `process_exit`, `process_destroy`, which the
scheduler calls later, and the steps of `process_wait`, in any order. A process is named by its
object in `process_cache`; freeing an object does not touch its bytes, and allocating it clears them. -/
namespace PiggyOs.ProcessWait
open Fork Transition

def echild : ℤ := 3
def einval : ℤ := 7

structure Proc where
  pid : ℕ
  state : ProcessState
  status : BitVec 32
  parent : Option ℕ
  children : List ℕ

/-- A call of `process_wait` that has not returned: the child it found, or `none` for the pid -1, and
whether it left its loop. -/
structure Wait where
  process : ℕ
  pid : ℤ
  child : Option ℕ
  seen : Bool

inductive Answer
  | error (e : ℤ)
  | child (pid : ℕ) (status : BitVec 32)
  deriving DecidableEq, Repr

structure DeadProcess where
  pid : ℕ
  ppid : ℕ
  status : BitVec 32

/-- The last fields record the history and are not read by the code: where each process was
created and by whom, its exit status, and whether a wait for it was called and has returned. -/
structure System where
  obj : ℕ → Proc
  allocated : ℕ → Bool
  nextPid : ℕ
  dead : List DeadProcess
  waits : ℕ → Option Wait
  answers : List (ℤ × Answer)
  home : ℕ → ℕ
  mother : ℕ → ℕ
  exited : ℕ → Option (BitVec 32)
  waited : ℕ → Bool
  returned : ℕ → Bool

def elemSize : ℕ := 8

/-- The index at which `vector_remove_by_value` stops: it looks at every eighth word only. Behind
the elements it reads `outside`. -/
def foundIndex (outside : ℕ → ℕ) (data : List ℕ) (value : ℕ) : Option ℕ :=
  (List.range data.length).find? fun i => data.getD (elemSize * i) (outside (elemSize * i)) = value

def vectorRemoveByValue (outside : ℕ → ℕ) (data : List ℕ) (value : ℕ) : List ℕ :=
  match foundIndex outside data value with
  | none => data
  | some i => data.eraseIdx i

section Calls

def System.setProc (s : System) (p : ℕ) (proc : Proc) : System := { s with obj := Function.update s.obj p proc }

/-- `process_create` for `fork`. -/
def processCreate (s : System) (p a : ℕ) : System :=
  { s with
    obj := Function.update (Function.update s.obj p { s.obj p with children := (s.obj p).children ++ [a] }) a
      ⟨s.nextPid, .running, 0, some p, []⟩
    allocated := Function.update s.allocated a true
    nextPid := s.nextPid + 1
    home := Function.update s.home s.nextPid a
    mother := Function.update s.mother s.nextPid p }

def processExit (s : System) (c : ℕ) (status : BitVec 32) : System :=
  { s.setProc c { s.obj c with state := .zombie, status := status } with
    exited := Function.update s.exited (s.obj c).pid (some status) }

/-- `none` if the process has children: the code then writes through a pointer into the array of
processes. -/
def processDestroy (s : System) (c : ℕ) (outside : ℕ → ℕ) : Option System :=
  if (s.obj c).children ≠ [] then none
  else some
    { s with
      obj := match (s.obj c).parent with
        | none => s.obj
        | some q => Function.update s.obj q
            { s.obj q with children := vectorRemoveByValue outside (s.obj q).children c }
      allocated := Function.update s.allocated c false
      dead := s.dead ++ [⟨(s.obj c).pid, ((s.obj c).parent.map fun q => (s.obj q).pid).getD 0, (s.obj c).status⟩] }

def System.answer (s : System) (pid : ℤ) (answer : Answer) : System :=
  { s with answers := (pid, answer) :: s.answers }

/-- `process_wait` up to its loop. -/
def processWait (s : System) (w p : ℕ) (pid : ℤ) : System :=
  let s1 := { s.setProc p { s.obj p with state := .waiting } with waited := Function.update s.waited pid.toNat true }
  if pid = -1 then { s1 with waits := Function.update s.waits w (some ⟨p, pid, none, false⟩) }
  else if 0 < pid then
    match (s.obj p).children.find? fun c => ((s.obj c).pid : ℤ) = pid with
    | none => s1.answer pid (.error (-echild))
    | some c => { s1 with waits := Function.update s.waits w (some ⟨p, pid, some c, false⟩) }
  else s1.answer pid (.error (-einval))

/-- One round of the loop. For the pid -1 a dead child is found, but the loop goes on. -/
def waitPoll (s : System) (w : ℕ) (call : Wait) : System :=
  match call.child with
  | none =>
      if (s.obj call.process).children = [] then
        { s with waits := Function.update s.waits w none }.answer call.pid (.error (-echild))
      else s
  | some c =>
      if (s.obj c).state = .zombie then { s with waits := Function.update s.waits w (some { call with seen := true }) }
      else s

/-- The end of `process_wait`. -/
def waitReturn (s : System) (w : ℕ) (call : Wait) (c : ℕ) : System :=
  { s.setProc call.process { s.obj call.process with state := .running } with
    waits := Function.update s.waits w none
    answers := (call.pid, .child (s.obj c).pid (s.obj c).status) :: s.answers
    returned := Function.update s.returned call.pid.toNat true }

end Calls

inductive Event
  | fork (p a : ℕ)
  | exit (c : ℕ) (status : BitVec 32)
  | destroy (c : ℕ) (outside : ℕ → ℕ)
  | wait (w p : ℕ) (pid : ℤ)
  | poll (w : ℕ)
  | finish (w : ℕ)

def perform (s : System) : Event → Option System
  | .fork p a => some (processCreate s p a)
  | .exit c status => some (processExit s c status)
  | .destroy c outside => processDestroy s c outside
  | .wait w p pid => some (processWait s w p pid)
  | .poll w => (s.waits w).map fun call => waitPoll s w call
  | .finish w => (s.waits w).bind fun call => call.child.map fun c => waitReturn s w call c

/-- A process that can take steps. -/
def Alive (s : System) (p : ℕ) : Prop := s.allocated p = true ∧ (s.obj p).state ≠ .zombie

/-- `q` is the pid of a process that was forked. -/
def Forked (s : System) (q : ℕ) : Prop := 2 ≤ q ∧ q < s.nextPid

/-- Which events can happen. A parent waits for children that it forked, and once for each. -/
def Possible (s : System) : Event → Prop
  | .fork p a => Alive s p ∧ s.allocated a = false
  | .exit c _ => Alive s c ∧ 2 ≤ (s.obj c).pid
  | .destroy c _ => s.allocated c = true ∧ (s.obj c).state = .zombie
  | .wait w p pid => Alive s p ∧ s.waits w = none ∧
      ∃ q : ℕ, pid = q ∧ Forked s q ∧ s.mother q = p ∧ s.waited q = false
  | .poll w => ∃ call, s.waits w = some call ∧ call.seen = false ∧ Alive s call.process
  | .finish w => ∃ call, s.waits w = some call ∧ call.seen = true ∧ Alive s call.process

/-- The object of a process is not used again before the wait for it returned. A process is
destroyed without children, and what is taken out of the vector of its parent is the process itself,
for which a wait was called. -/
def Kept (s : System) : Event → Prop
  | .fork _ a => ∀ q, Forked s q → s.returned q = false → s.home q ≠ a
  | .destroy c outside => (s.obj c).children = [] ∧
      ∀ p ∈ (s.obj c).parent, ∀ i ∈ foundIndex outside (s.obj p).children c,
        (s.obj p).children[i]? = some c ∧ s.waited (s.obj c).pid = true
  | _ => True

def Step (s : System) (e : Event) (s' : System) : Prop := Possible s e ∧ perform s e = some s'

/-- The kernel process and `init`. -/
def boot : System where
  obj a := ⟨a, .running, 0, none, []⟩
  allocated a := decide (a < 2)
  nextPid := 2
  dead := []
  waits _ := none
  answers := []
  home q := q
  mother _ := 0
  exited _ := none
  waited _ := false
  returned _ := false

/-- The object is the one in which its process was created. -/
def Known (s : System) (a : ℕ) : Prop := (s.obj a).pid < s.nextPid ∧ s.home (s.obj a).pid = a

/-- The object says whether and how its process exited. -/
def Consistent (s : System) (a : ℕ) : Prop :=
  ∀ status, s.exited (s.obj a).pid = some status ↔ (s.obj a).state = .zombie ∧ (s.obj a).status = status

/-- What a call of `process_wait` holds: the object of the child it asked for. -/
structure Holds (s : System) (call : Wait) (q : ℕ) : Prop where
  pid : call.pid = q
  forked : Forked s q
  waited : s.waited q = true
  returned : s.returned q = false
  child : call.child = some (s.home q)
  seen : call.seen = true → s.exited q ≠ none

structure Inv (s : System) : Prop where
  fresh : ∀ q, s.nextPid ≤ q → s.exited q = none ∧ s.waited q = false ∧ s.returned q = false
  live : ∀ a, s.allocated a = true → Known s a ∧ Consistent s a
  known : ∀ p, ∀ a ∈ (s.obj p).children, Known s a
  pinned : ∀ q, Forked s q → s.returned q = false → (s.obj (s.home q)).pid = q ∧ Consistent s (s.home q)
  listed : ∀ q, Forked s q → s.waited q = false →
    s.allocated (s.mother q) = true ∧ s.home q ∈ (s.obj (s.mother q)).children
  ordered : ∀ q, s.returned q = true → s.waited q = true
  holds : ∀ w, ∀ call ∈ s.waits w, ∃ q, Holds s call q
  distinct : ∀ w w', ∀ call ∈ s.waits w, ∀ call' ∈ s.waits w', call.pid = call'.pid → w = w'
  answered : ∀ r ∈ s.answers, ∃ q : ℕ, ∃ status, r = ((q : ℤ), Answer.child q status) ∧ s.exited q = some status ∧
    s.returned q = true
  once : (s.answers.map Prod.fst).Nodup

lemma boot_inv : Inv boot where
  fresh _ _ := ⟨rfl, rfl, rfl⟩
  live a ha := by
    have ha' : a < 2 := by simpa [boot] using ha
    exact ⟨⟨ha', rfl⟩, by simp [Consistent, boot]⟩
  known p a ha := by simp [boot] at ha
  pinned q hq := by
    have : 2 ≤ q ∧ q < 2 := hq
    omega
  listed q hq := by
    have : 2 ≤ q ∧ q < 2 := hq
    omega
  ordered q hq := by simp [boot] at hq
  holds w call hc := by simp [boot] at hc
  distinct w w' call hc := by simp [boot] at hc
  answered r hr := by simp [boot] at hr
  once := List.nodup_nil

section Steps
variable {s s' : System} {p a c w q : ℕ}

lemma mem_vectorRemoveByValue {outside : ℕ → ℕ} {data : List ℕ} {x : ℕ}
    (hx : x ∈ vectorRemoveByValue outside data c) : x ∈ data := by
  unfold vectorRemoveByValue at hx
  split at hx
  · exact hx
  · exact List.mem_of_mem_eraseIdx hx

/-- If the element that is taken out is the value, the others stay. -/
lemma mem_vectorRemoveByValue_of_ne {outside : ℕ → ℕ} {data : List ℕ} {x : ℕ}
    (hfound : ∀ i ∈ foundIndex outside data c, data[i]? = some c) (hx : x ∈ data) (hne : x ≠ c) :
    x ∈ vectorRemoveByValue outside data c := by
  unfold vectorRemoveByValue
  split
  · exact hx
  · next i hi =>
    obtain ⟨j, hj⟩ := List.mem_iff_getElem?.mp hx
    refine List.mem_eraseIdx_iff_getElem?.mpr ⟨j, ?_, hj⟩
    rintro rfl
    exact hne (Option.some.inj (hj.symm.trans (hfound j hi)))

lemma Inv.fork (h : Inv s) (hp : Possible s (.fork p a)) (hk : Kept s (.fork p a)) : Inv (processCreate s p a) := by
  obtain ⟨⟨hpa, -⟩, ha⟩ := hp
  have hne : p ≠ a := by
    rintro rfl
    exact absurd (hpa.symm.trans ha) (by decide)
  have hself : (processCreate s p a).obj a = ⟨s.nextPid, .running, 0, some p, []⟩ := Function.update_self ..
  have hobj : ∀ b ≠ a, ((processCreate s p a).obj b).pid = (s.obj b).pid ∧
      ((processCreate s p a).obj b).state = (s.obj b).state ∧
      ((processCreate s p a).obj b).status = (s.obj b).status ∧
      ∀ x ∈ (s.obj b).children, x ∈ ((processCreate s p a).obj b).children := by
    intro b hb
    dsimp only [processCreate]
    rw [Function.update_of_ne hb]
    by_cases hbp : b = p
    · subst hbp
      rw [Function.update_self]
      exact ⟨rfl, rfl, rfl, fun x hx => List.mem_append_left _ hx⟩
    · rw [Function.update_of_ne hbp]
      exact ⟨rfl, rfl, rfl, fun x hx => hx⟩
  have hhome : ∀ q < s.nextPid, (processCreate s p a).home q = s.home q :=
    fun q hq => Function.update_of_ne hq.ne _ _
  have hknown_self : Known (processCreate s p a) a := by
    rw [Known, hself]
    exact ⟨Nat.lt_succ_self _, Function.update_self ..⟩
  have hknown : ∀ b, Known s b → Known (processCreate s p a) b := by
    intro b hb
    by_cases hba : b = a
    · exact hba ▸ hknown_self
    · rw [Known, (hobj b hba).1, hhome _ hb.1]
      exact ⟨Nat.lt_succ_of_lt hb.1, hb.2⟩
  have hcons_self : Consistent (processCreate s p a) a := by
    intro status
    rw [hself]
    exact iff_of_false (by simp [processCreate, (h.fresh s.nextPid le_rfl).1]) (by simp)
  have hcons : ∀ b ≠ a, Consistent s b → Consistent (processCreate s p a) b := by
    intro b hb hc status
    rw [(hobj b hb).1, (hobj b hb).2.1, (hobj b hb).2.2.1]
    exact hc status
  have hforked : ∀ q, Forked (processCreate s p a) q → Forked s q ∨ q = s.nextPid := by
    intro q hq
    rcases Nat.lt_succ_iff_lt_or_eq.mp hq.2 with hlt | heq
    · exact Or.inl ⟨hq.1, hlt⟩
    · exact Or.inr heq
  refine ⟨fun q hq => h.fresh q (Nat.le_of_succ_le hq), fun b hb => ?_, fun r b hb => ?_, fun q hq hr => ?_,
    fun q hq hwait => ?_, h.ordered, fun w call hcall => ?_, h.distinct, h.answered, h.once⟩
  · by_cases hba : b = a
    · subst hba
      exact ⟨hknown_self, hcons_self⟩
    · have hb' : s.allocated b = true := by
        have hb' : Function.update s.allocated a true b = true := hb
        rwa [Function.update_of_ne hba] at hb'
      exact ⟨hknown b (h.live b hb').1, hcons b hba (h.live b hb').2⟩
  · by_cases hra : r = a
    · rw [hra, hself] at hb
      simp at hb
    · dsimp only [processCreate] at hb
      rw [Function.update_of_ne hra] at hb
      by_cases hrp : r = p
      · subst hrp
        rw [Function.update_self, List.mem_append, List.mem_singleton] at hb
        rcases hb with hb | rfl
        · exact hknown b (h.known r b hb)
        · exact hknown_self
      · rw [Function.update_of_ne hrp] at hb
        exact hknown b (h.known r b hb)
  · rcases hforked q hq with hq | rfl
    · have hqa := hk q hq hr
      rw [hhome q hq.2, (hobj _ hqa).1]
      exact ⟨(h.pinned q hq hr).1, hcons _ hqa (h.pinned q hq hr).2⟩
    · have hhere : (processCreate s p a).home s.nextPid = a := Function.update_self ..
      rw [hhere, hself]
      exact ⟨rfl, hcons_self⟩
  · rcases hforked q hq with hq | rfl
    · obtain ⟨hm, hin⟩ := h.listed q hq hwait
      have hma : s.mother q ≠ a := by
        intro he
        rw [he] at hm
        exact absurd (hm.symm.trans ha) (by decide)
      have hmother : (processCreate s p a).mother q = s.mother q := Function.update_of_ne hq.2.ne _ _
      rw [hmother, hhome q hq.2]
      refine ⟨?_, (hobj _ hma).2.2.2 _ hin⟩
      exact (Function.update_of_ne hma _ _).trans hm
    · have hmother : (processCreate s p a).mother s.nextPid = p := Function.update_self ..
      have hhere : (processCreate s p a).home s.nextPid = a := Function.update_self ..
      rw [hmother, hhere]
      refine ⟨(Function.update_of_ne hne _ _).trans hpa, ?_⟩
      dsimp only [processCreate]
      rw [Function.update_of_ne hne, Function.update_self]
      simp
  · obtain ⟨q, hq⟩ := h.holds w call hcall
    exact ⟨q, hq.pid, ⟨hq.forked.1, Nat.lt_succ_of_lt hq.forked.2⟩, hq.waited, hq.returned,
      by rw [hhome q hq.forked.2]; exact hq.child, hq.seen⟩

lemma Alive.not_exited (h : Inv s) (ha : Alive s p) : s.exited (s.obj p).pid = none := by
  by_contra hne
  obtain ⟨status, hs⟩ := Option.ne_none_iff_exists'.mp hne
  exact ha.2 (((h.live p ha.1).2 status).mp hs).1

lemma Inv.exit {status : BitVec 32} (h : Inv s) (hp : Possible s (.exit c status)) : Inv (processExit s c status) := by
  obtain ⟨hc, -⟩ := hp
  have hnone := hc.not_exited h
  have hobj : ∀ b, ((processExit s c status).obj b).pid = (s.obj b).pid ∧
      ((processExit s c status).obj b).children = (s.obj b).children := by
    intro b
    dsimp only [processExit, System.setProc]
    by_cases hb : b = c
    · subst hb
      rw [Function.update_self]
      exact ⟨rfl, rfl⟩
    · rw [Function.update_of_ne hb]
      exact ⟨rfl, rfl⟩
  have hknown : ∀ b, Known s b → Known (processExit s c status) b := by
    intro b hb
    rw [Known, (hobj b).1]
    exact hb
  have hexited : ∀ q ≠ (s.obj c).pid, (processExit s c status).exited q = s.exited q :=
    fun q hq => Function.update_of_ne hq _ _
  have hcons : ∀ b, s.home (s.obj b).pid = b → Consistent s b → Consistent (processExit s c status) b := by
    intro b hb hcb st
    by_cases hbc : b = c
    · subst hbc
      dsimp only [processExit, System.setProc]
      rw [Function.update_self, Function.update_self]
      simp
    · have hpid : (s.obj b).pid ≠ (s.obj c).pid := by
        intro he
        exact hbc (hb.symm.trans (by rw [he]; exact (h.live c hc.1).1.2))
      rw [(hobj b).1, hexited _ hpid]
      dsimp only [processExit, System.setProc]
      rw [Function.update_of_ne hbc]
      exact hcb st
  refine ⟨fun q hq => ⟨?_, (h.fresh q hq).2⟩, fun b hb => ⟨hknown b (h.live b hb).1, hcons b (h.live b hb).1.2 (h.live b hb).2⟩,
    fun r b hb => hknown b (h.known r b (by rwa [(hobj r).2] at hb)), fun q hq hr => ?_, fun q hq hwait => ?_, h.ordered,
    fun w call hcall => ?_, h.distinct, fun r hr => ?_, h.once⟩
  · have hpid : (s.obj c).pid < q := (h.live c hc.1).1.1.trans_le hq
    rw [hexited q hpid.ne']
    exact (h.fresh q hq).1
  · obtain ⟨hpid, hcq⟩ := h.pinned q hq hr
    exact ⟨(hobj _).1.trans hpid, hcons _ (congrArg s.home hpid) hcq⟩
  · obtain ⟨hm, hin⟩ := h.listed q hq hwait
    exact ⟨hm, by rw [(hobj _).2]; exact hin⟩
  · obtain ⟨q, hq⟩ := h.holds w call hcall
    refine ⟨q, hq.pid, hq.forked, hq.waited, hq.returned, hq.child, fun hs => ?_⟩
    by_cases hqc : q = (s.obj c).pid
    · rw [hqc]
      simp [processExit]
    · rw [hexited q hqc]
      exact hq.seen hs
  · obtain ⟨q, st, rfl, hst, hret⟩ := h.answered r hr
    refine ⟨q, st, rfl, ?_, hret⟩
    rw [hexited q, hst]
    rintro rfl
    exact absurd (hnone.symm.trans hst) (by simp)

lemma Inv.destroy {outside : ℕ → ℕ} (h : Inv s) (hk : Kept s (.destroy c outside))
    (hs : processDestroy s c outside = some s') : Inv s' := by
  obtain ⟨hnil, hfound⟩ := hk
  rw [processDestroy, if_neg (not_not.mpr hnil)] at hs
  obtain rfl := Option.some.inj hs
  generalize hobj' : (match (s.obj c).parent with
    | none => s.obj
    | some q => Function.update s.obj q
        { s.obj q with children := vectorRemoveByValue outside (s.obj q).children c }) = obj'
  have hobj : ∀ b, (obj' b).pid = (s.obj b).pid ∧ (obj' b).state = (s.obj b).state ∧
      (obj' b).status = (s.obj b).status ∧ (∀ x ∈ (obj' b).children, x ∈ (s.obj b).children) ∧
      ∀ x ∈ (s.obj b).children, (x ≠ c ∨ s.waited (s.obj c).pid = false) → x ∈ (obj' b).children := by
    intro b
    rw [← hobj']
    cases hpar : (s.obj c).parent with
    | none => exact ⟨rfl, rfl, rfl, fun x hx => hx, fun x hx _ => hx⟩
    | some p =>
      dsimp only
      by_cases hb : b = p
      · subst hb
        rw [Function.update_self]
        refine ⟨rfl, rfl, rfl, fun x hx => mem_vectorRemoveByValue hx, fun x hx hne => ?_⟩
        have hfound' := hfound b hpar
        rcases hne with hne | hwait
        · exact mem_vectorRemoveByValue_of_ne (fun i hi => (hfound' i hi).1) hx hne
        · have hnone : foundIndex outside (s.obj b).children c = none := by
            by_contra hsome
            obtain ⟨i, hi⟩ := Option.ne_none_iff_exists'.mp hsome
            exact absurd (hwait.symm.trans (hfound' i hi).2) (by decide)
          dsimp only
          rw [vectorRemoveByValue, hnone]
          exact hx
      · rw [Function.update_of_ne hb]
        exact ⟨rfl, rfl, rfl, fun x hx => hx, fun x hx _ => hx⟩
  have hknown : ∀ b, Known s b → (obj' b).pid < s.nextPid ∧ s.home (obj' b).pid = b := by
    intro b hb
    rw [(hobj b).1]
    exact hb
  have hcons : ∀ b, Consistent s b →
      ∀ st, s.exited (obj' b).pid = some st ↔ (obj' b).state = .zombie ∧ (obj' b).status = st := by
    intro b hb st
    rw [(hobj b).1, (hobj b).2.1, (hobj b).2.2.1]
    exact hb st
  refine ⟨h.fresh, fun b hb => ?_, fun r b hb => hknown b (h.known r b ((hobj r).2.2.2.1 b hb)), fun q hq hr => ?_,
    fun q hq hwait => ?_, h.ordered, fun w call hcall => ?_, h.distinct, h.answered, h.once⟩
  · have hb' : s.allocated b = true := by
      by_cases hbc : b = c
      · subst hbc
        simp at hb
      · simpa [hbc] using hb
    exact ⟨hknown b (h.live b hb').1, hcons b (h.live b hb').2⟩
  · obtain ⟨hpid, hcq⟩ := h.pinned q hq hr
    exact ⟨(hobj _).1.trans hpid, hcons _ hcq⟩
  · obtain ⟨hm, hin⟩ := h.listed q hq hwait
    have hmc : s.mother q ≠ c := by
      intro he
      rw [he, hnil] at hin
      simp at hin
    refine ⟨(Function.update_of_ne hmc _ _).trans hm, (hobj _).2.2.2.2 _ hin ?_⟩
    by_cases hqc : s.home q = c
    · right
      have hret : s.returned q = false := by
        by_contra hret
        exact absurd (hwait.symm.trans (h.ordered q (by simpa using hret))) (by decide)
      have hpid := (h.pinned q hq hret).1
      rw [hqc] at hpid
      rw [hpid]
      exact hwait
    · exact Or.inl hqc
  · obtain ⟨q, hq⟩ := h.holds w call hcall
    exact ⟨q, hq.pid, hq.forked, hq.waited, hq.returned, hq.child, hq.seen⟩

/-- A process that has not exited may move between running and waiting. -/
lemma Inv.setState {state : ProcessState} (h : Inv s) (ha : Alive s p) (hst : state ≠ .zombie) :
    Inv (s.setProc p { s.obj p with state := state }) := by
  have hnone := ha.not_exited h
  have hobj : ∀ b, ((s.setProc p { s.obj p with state := state }).obj b).pid = (s.obj b).pid ∧
      ((s.setProc p { s.obj p with state := state }).obj b).children = (s.obj b).children := by
    intro b
    dsimp only [System.setProc]
    by_cases hb : b = p
    · subst hb
      rw [Function.update_self]
      exact ⟨rfl, rfl⟩
    · rw [Function.update_of_ne hb]
      exact ⟨rfl, rfl⟩
  have hknown : ∀ b, Known s b → Known (s.setProc p { s.obj p with state := state }) b := by
    intro b hb
    rw [Known, (hobj b).1]
    exact hb
  have hcons : ∀ b, Consistent s b → Consistent (s.setProc p { s.obj p with state := state }) b := by
    intro b hcb st
    rw [(hobj b).1]
    dsimp only [System.setProc]
    by_cases hb : b = p
    · subst hb
      rw [Function.update_self, hnone]
      exact iff_of_false (by simp) fun hz => hst hz.1
    · rw [Function.update_of_ne hb]
      exact hcb st
  refine ⟨h.fresh, fun b hb => ⟨hknown b (h.live b hb).1, hcons b (h.live b hb).2⟩,
    fun r b hb => hknown b (h.known r b (by rwa [(hobj r).2] at hb)), fun q hq hr => ?_, fun q hq hwait => ?_, h.ordered,
    fun w call hcall => ?_, h.distinct, h.answered, h.once⟩
  · exact ⟨(hobj _).1.trans (h.pinned q hq hr).1, hcons _ (h.pinned q hq hr).2⟩
  · obtain ⟨hm, hin⟩ := h.listed q hq hwait
    exact ⟨hm, by rw [(hobj _).2]; exact hin⟩
  · obtain ⟨q, hq⟩ := h.holds w call hcall
    exact ⟨q, hq.pid, hq.forked, hq.waited, hq.returned, hq.child, hq.seen⟩

/-- A parent finds the child that it asks for. -/
lemma Inv.lookup (h : Inv s) (hq : Forked s q) (hwait : s.waited q = false) :
    ((s.obj (s.mother q)).children.find? fun c => ((s.obj c).pid : ℤ) = q) = some (s.home q) := by
  have hret : s.returned q = false := by
    by_contra hret
    exact absurd (hwait.symm.trans (h.ordered q (by simpa using hret))) (by decide)
  have hin := (h.listed q hq hwait).2
  cases hfind : (s.obj (s.mother q)).children.find? fun c => ((s.obj c).pid : ℤ) = q with
  | none =>
    have hnot := List.find?_eq_none.mp hfind _ hin
    simp [(h.pinned q hq hret).1] at hnot
  | some c =>
    have hpid : (s.obj c).pid = q := by simpa using List.find?_some hfind
    have hhome := (h.known _ c (List.mem_of_find?_eq_some hfind)).2
    rw [← hhome, hpid]

lemma processWait_eq (h : Inv s) (hq : Forked s q) (hm : s.mother q = p) (hwait : s.waited q = false) :
    processWait s w p q =
      { s.setProc p { s.obj p with state := .waiting } with
        waited := Function.update s.waited q true
        waits := Function.update s.waits w (some ⟨p, q, some (s.home q), false⟩) } := by
  have hfind := h.lookup hq hwait
  have htwo := hq.1
  subst hm
  rw [processWait, if_neg (by omega), if_pos (by omega), hfind]
  rfl

lemma Inv.wait (h : Inv s) (ha : Alive s p) (hq : Forked s q) (hm : s.mother q = p)
    (hwait : s.waited q = false) : Inv (processWait s w p q) := by
  have h1 := h.setState ha (show ProcessState.waiting ≠ .zombie by decide)
  have hret : s.returned q = false := by
    by_contra hret
    exact absurd (hwait.symm.trans (h.ordered q (by simpa using hret))) (by decide)
  rw [processWait_eq h hq hm hwait]
  have hold : ∀ w', ∀ call ∈ s.waits w', call.pid ≠ q := by
    intro w' call hcall he
    obtain ⟨q', hq'⟩ := h.holds w' call hcall
    have : q' = q := by exact_mod_cast hq'.pid.symm.trans he
    subst this
    exact absurd (hwait.symm.trans hq'.waited) (by decide)
  have hgrow : ∀ q', s.waited q' = true → Function.update s.waited q true q' = true := by
    intro q' hq'
    by_cases he : q' = q
    · rw [he, Function.update_self]
    · rwa [Function.update_of_ne he]
  have hshrink : ∀ q', Function.update s.waited q true q' = false → s.waited q' = false := by
    intro q' hq'
    by_contra hne
    exact absurd (hq'.symm.trans (hgrow q' (by simpa using hne))) (by decide)
  refine ⟨fun q' hq' => ⟨(h.fresh q' hq').1, ?_, (h.fresh q' hq').2.2⟩, h1.live, h1.known, h1.pinned,
    fun q' hq' hw => h1.listed q' hq' (hshrink q' hw), fun q' hr => hgrow q' (h.ordered q' hr), fun w' call hcall => ?_,
    fun w' w'' call hc call' hc' he => ?_, h.answered, h.once⟩
  · have hqq : q < q' := hq.2.trans_le hq'
    dsimp only
    rw [Function.update_of_ne hqq.ne']
    exact (h.fresh q' hq').2.1
  · dsimp only at hcall
    by_cases hw : w' = w
    · subst hw
      rw [Function.update_self] at hcall
      obtain rfl := Option.some.inj hcall
      exact ⟨q, rfl, hq, Function.update_self .., hret, rfl, fun hs => by simp at hs⟩
    · rw [Function.update_of_ne hw] at hcall
      obtain ⟨q', hq'⟩ := h.holds w' call hcall
      exact ⟨q', hq'.pid, hq'.forked, hgrow q' hq'.waited, hq'.returned, hq'.child, hq'.seen⟩
  · dsimp only at hc hc'
    by_cases hw : w' = w
    · by_cases hw' : w'' = w
      · rw [hw, hw']
      · rw [hw, Function.update_self] at hc
        rw [Function.update_of_ne hw'] at hc'
        obtain rfl := Option.some.inj hc
        exact absurd he.symm (hold w'' call' hc')
    · rw [Function.update_of_ne hw] at hc
      by_cases hw' : w'' = w
      · rw [hw', Function.update_self] at hc'
        obtain rfl := Option.some.inj hc'
        exact absurd he (hold w' call hc)
      · rw [Function.update_of_ne hw'] at hc'
        exact h.distinct w' w'' call hc call' hc' he

/-- The waiting parent leaves its loop exactly if the child exited. -/
lemma Inv.waitPoll_eq {call : Wait} (h : Inv s) (hq : Holds s call q) : waitPoll s w call =
    if s.exited q = none then s else { s with waits := Function.update s.waits w (some { call with seen := true }) } := by
  obtain ⟨hpid, hcons⟩ := h.pinned q hq.forked hq.returned
  have hzombie : (s.obj (s.home q)).state = .zombie ↔ s.exited q ≠ none := by
    have hiff := hcons (s.obj (s.home q)).status
    rw [hpid] at hiff
    constructor
    · intro hz
      rw [hiff.mpr ⟨hz, rfl⟩]
      simp
    · intro hne
      obtain ⟨st, hst⟩ := Option.ne_none_iff_exists'.mp hne
      rw [← hpid] at hst
      exact ((hcons st).mp hst).1
  simp only [waitPoll, hq.child, hzombie, ne_eq, ite_not]

lemma Inv.poll {call : Wait} (h : Inv s) (hw : s.waits w = some call) : Inv (waitPoll s w call) := by
  obtain ⟨q, hq⟩ := h.holds w call hw
  rw [h.waitPoll_eq hq]
  split_ifs with hex
  · exact h
  refine ⟨h.fresh, h.live, h.known, h.pinned, h.listed, h.ordered, fun w' call' hcall => ?_,
    fun w' w'' c1 hc1 c2 hc2 he => ?_, h.answered, h.once⟩
  · dsimp only at hcall
    by_cases hww : w' = w
    · rw [hww, Function.update_self] at hcall
      obtain rfl := Option.some.inj hcall
      exact ⟨q, hq.pid, hq.forked, hq.waited, hq.returned, hq.child, fun _ => hex⟩
    · rw [Function.update_of_ne hww] at hcall
      obtain ⟨q', hq'⟩ := h.holds w' call' hcall
      exact ⟨q', hq'.pid, hq'.forked, hq'.waited, hq'.returned, hq'.child, hq'.seen⟩
  · have hpid : ∀ v, ∀ c ∈ Function.update s.waits w (some { call with seen := true }) v, ∃ c' ∈ s.waits v, c'.pid = c.pid := by
      intro v c hc
      by_cases hv : v = w
      · rw [hv, Function.update_self] at hc
        obtain rfl := Option.some.inj hc
        exact ⟨call, hv ▸ hw, rfl⟩
      · rw [Function.update_of_ne hv] at hc
        exact ⟨c, hc, rfl⟩
    obtain ⟨d1, hd1, he1⟩ := hpid w' c1 hc1
    obtain ⟨d2, hd2, he2⟩ := hpid w'' c2 hc2
    exact h.distinct w' w'' d1 hd1 d2 hd2 (by rw [he1, he2, he])

/-- The status and the pid that the parent reads. -/
lemma Inv.status {call : Wait} {status : BitVec 32} (h : Inv s) (hq : Holds s call q) (hex : s.exited q = some status) :
    (s.obj (s.home q)).pid = q ∧ (s.obj (s.home q)).status = status := by
  obtain ⟨hpid, hcons⟩ := h.pinned q hq.forked hq.returned
  exact ⟨hpid, ((hcons status).mp (by rw [hpid]; exact hex)).2⟩

lemma Inv.finish {call : Wait} (h : Inv s) (hw : s.waits w = some call) (hq : Holds s call q) (hs : call.seen = true)
    (ha : Alive s call.process) : Inv (waitReturn s w call (s.home q)) := by
  have h1 := h.setState ha (show ProcessState.running ≠ .zombie by decide)
  obtain ⟨st, hst⟩ := Option.ne_none_iff_exists'.mp (hq.seen hs)
  obtain ⟨hpid, hstatus⟩ := h.status hq hst
  have hnat : call.pid.toNat = q := by
    rw [hq.pid]
    exact Int.toNat_natCast q
  have hret : ∀ q', q' ≠ q → (waitReturn s w call (s.home q)).returned q' = s.returned q' := by
    intro q' hne
    dsimp only [waitReturn]
    rw [hnat, Function.update_of_ne hne]
  have hself : (waitReturn s w call (s.home q)).returned q = true := by
    dsimp only [waitReturn]
    rw [hnat, Function.update_self]
  have hold : ∀ q', (waitReturn s w call (s.home q)).returned q' = false → s.returned q' = false := by
    intro q' hr
    by_cases hqq : q' = q
    · subst hqq
      exact absurd (hr.symm.trans hself) (by decide)
    · rwa [hret q' hqq] at hr
  have hwaits : ∀ v, ∀ c ∈ (waitReturn s w call (s.home q)).waits v, v ≠ w ∧ c ∈ s.waits v := by
    intro v c hc
    dsimp only [waitReturn] at hc
    by_cases hv : v = w
    · rw [hv, Function.update_self] at hc
      simp at hc
    · rw [Function.update_of_ne hv] at hc
      exact ⟨hv, hc⟩
  refine ⟨fun q' hq' => ⟨(h.fresh q' hq').1, (h.fresh q' hq').2.1, ?_⟩, h1.live, h1.known,
    fun q' hq' hr => h1.pinned q' hq' (hold q' hr), h1.listed, fun q' hr => ?_, fun v c hc => ?_,
    fun v v' c hc c' hc' => h.distinct v v' c (hwaits v c hc).2 c' (hwaits v' c' hc').2, fun r hr => ?_, ?_⟩
  · have hqq : q < q' := hq.forked.2.trans_le hq'
    rw [hret q' hqq.ne']
    exact (h.fresh q' hq').2.2
  · by_cases hqq : q' = q
    · rw [hqq]
      exact hq.waited
    · exact h.ordered q' (by rwa [hret q' hqq] at hr)
  · obtain ⟨hv, hcall⟩ := hwaits v c hc
    obtain ⟨q', hq'⟩ := h.holds v c hcall
    have hqq : q' ≠ q := by
      rintro rfl
      exact hv (h.distinct v w c hcall call hw (hq'.pid.trans hq.pid.symm))
    exact ⟨q', hq'.pid, hq'.forked, hq'.waited, (hret q' hqq).trans hq'.returned, hq'.child, hq'.seen⟩
  · rcases List.mem_cons.mp hr with rfl | hr
    · refine ⟨q, st, ?_, hst, hself⟩
      rw [hq.pid, hpid, hstatus]
    · obtain ⟨q', st', rfl, hst', hret'⟩ := h.answered r hr
      refine ⟨q', st', rfl, hst', ?_⟩
      by_cases hqq : q' = q
      · rw [hqq]
        exact hself
      · rw [hret q' hqq]
        exact hret'
  · refine List.nodup_cons.mpr ⟨fun hin => ?_, h.once⟩
    obtain ⟨r, hr, he⟩ := List.mem_map.mp hin
    obtain ⟨q', st', rfl, -, hret'⟩ := h.answered r hr
    have hqq : q' = q := Int.ofNat.inj (he.trans hq.pid)
    subst hqq
    exact absurd (hq.returned.symm.trans hret') (by decide)

lemma Inv.step {e : Event} (h : Inv s) (hstep : Step s e s') (hk : Kept s e) : Inv s' := by
  obtain ⟨hp, he⟩ := hstep
  cases e with
  | fork p a =>
    obtain rfl := Option.some.inj he
    exact h.fork hp hk
  | exit c status =>
    obtain rfl := Option.some.inj he
    exact h.exit hp
  | destroy c outside => exact h.destroy hk he
  | wait w p pid =>
    obtain rfl := Option.some.inj he
    obtain ⟨ha, -, q, rfl, hq, hm, hwait⟩ := hp
    exact h.wait ha hq hm hwait
  | poll w =>
    obtain ⟨call, hw, -⟩ := hp
    rw [perform, hw] at he
    obtain rfl := Option.some.inj he
    exact h.poll hw
  | finish w =>
    obtain ⟨call, hw, hs, ha⟩ := hp
    obtain ⟨q, hq⟩ := h.holds w call hw
    rw [perform, hw, Option.bind_some, hq.child] at he
    obtain rfl := Option.some.inj he
    exact h.finish hw hq hs ha

end Steps

/-- As long as no status is thrown away, every wait that returned gave the pid it asked for and the
status with which that process exited, and only once. A wait for a child finds it, and a step of the
waiting parent after the exit of the child leads out of the loop and then to that answer. -/
theorem wait_keeps_status {s : System} {events : List Event}
    (hrun : Run (fun s e s' => Step s e s' ∧ Kept s e) boot events s) :
    ((∀ r ∈ s.answers, ∃ q : ℕ, ∃ status, r = ((q : ℤ), Answer.child q status) ∧ s.exited q = some status) ∧
      (s.answers.map Prod.fst).Nodup) ∧
    (∀ (w p q : ℕ), Possible s (.wait w p q) → ∃ s', perform s (.wait w p q) = some s' ∧ s'.answers = s.answers ∧
      s'.waits w = some ⟨p, q, some (s.home q), false⟩) ∧
    ∀ w call, s.waits w = some call → ∃ q : ℕ, call.pid = q ∧ ∀ status, s.exited q = some status →
      (∃ s', perform s (.poll w) = some s' ∧ s'.waits w = some { call with seen := true }) ∧
      ∃ s', perform s (.finish w) = some s' ∧ s'.answers = (call.pid, .child q status) :: s.answers := by
  have h : Inv s := hrun.invariant (fun _ _ _ h hstep => h.step hstep.1 hstep.2) boot_inv
  refine ⟨⟨fun r hr => ?_, h.once⟩, fun w p q hp => ?_, fun w call hw => ?_⟩
  · obtain ⟨q, st, hr, hst, -⟩ := h.answered r hr
    exact ⟨q, st, hr, hst⟩
  · obtain ⟨-, -, q', hq', hfq, hm, hwait⟩ := hp
    obtain rfl : q = q' := by exact_mod_cast hq'
    refine ⟨_, rfl, ?_, ?_⟩
    · rw [processWait_eq h hfq hm hwait]
      rfl
    · rw [processWait_eq h hfq hm hwait]
      exact Function.update_self ..
  · obtain ⟨q, hq⟩ := h.holds w call hw
    refine ⟨q, hq.pid, fun st hst => ⟨⟨_, by rw [perform, hw]; rfl, ?_⟩, _, by rw [perform, hw, Option.bind_some, hq.child]; rfl, ?_⟩⟩
    · dsimp only
      rw [h.waitPoll_eq hq, if_neg (by simp [hst])]
      exact Function.update_self ..
    · obtain ⟨hpid, hstatus⟩ := h.status hq hst
      dsimp only [waitReturn]
      rw [hpid, hstatus]

/-- `init` forks a process in object 2, which exits with status 7. -/
def forkExit : List Event := [.fork 1 2, .exit 2 7]

def afterExit : System := processExit (processCreate boot 1 2) 2 7

lemma forkExit_run : Run (fun s e s' => Step s e s' ∧ Kept s e) boot forkExit afterExit := by
  refine .cons ⟨⟨⟨⟨rfl, by decide⟩, rfl⟩, rfl⟩, fun q hq => ?_⟩ (.single ⟨⟨⟨⟨rfl, by decide⟩, by decide⟩, rfl⟩, trivial⟩)
  have : 2 ≤ q ∧ q < 2 := hq
  omega

/-- The parent waits for it, and it is destroyed before the parent looks at it. -/
def waitDestroy : List Event := [.wait 0 1 2, .destroy 2 fun _ => 0, .poll 0, .finish 0]

theorem wait_keeps_status_destroyed : ∃ s, Run (fun s e s' => Step s e s' ∧ Kept s e) boot (forkExit ++ waitDestroy) s ∧
    s.answers = [(2, .child 2 7)] ∧ s.exited 2 = some 7 := by
  have hwait : Possible afterExit (.wait 0 1 2) :=
    ⟨⟨rfl, by decide⟩, rfl, 2, rfl, ⟨le_rfl, by decide⟩, rfl, rfl⟩
  have hdestroy : Kept (processWait afterExit 0 1 2) (.destroy 2 fun _ => 0) := by
    refine ⟨rfl, fun p hp i hi => ?_⟩
    obtain rfl := Option.some.inj hp
    obtain rfl : 0 = i := Option.some.inj hi
    exact ⟨rfl, rfl⟩
  have hrun : ∃ s, Run (fun s e s' => Step s e s' ∧ Kept s e) boot (forkExit ++ waitDestroy) s ∧
      s.answers = [(2, .child 2 7)] := by
    refine ⟨_, forkExit_run.append (.cons ⟨⟨hwait, rfl⟩, trivial⟩ (.cons ⟨⟨⟨rfl, rfl⟩, rfl⟩, hdestroy⟩
      (.cons ⟨⟨⟨_, rfl, rfl, rfl, by decide⟩, rfl⟩, trivial⟩
        (.single ⟨⟨⟨_, rfl, rfl, rfl, by decide⟩, rfl⟩, trivial⟩)))), ?_⟩
    rfl
  obtain ⟨s, hrun, hans⟩ := hrun
  obtain ⟨⟨hanswers, -⟩, -⟩ := wait_keeps_status hrun
  obtain ⟨q, status, hr, hex⟩ := hanswers (2, .child 2 7) (by simp [hans])
  obtain ⟨hq, hst⟩ := Prod.mk.inj hr
  obtain ⟨rfl, rfl⟩ := Answer.child.inj hst
  exact ⟨s, hrun, hans, hex⟩

/-- If the child is destroyed before the parent waits, the parent gets an error. If it is destroyed
during the wait and its object becomes another process, the parent gets the status of that one. -/
theorem wait_loses_status :
    (∃ s, Run Step boot (forkExit ++ [.destroy 2 fun _ => 0, .wait 0 1 2]) s ∧
      s.answers = [(2, .error (-echild))] ∧ s.exited 2 = some 7) ∧
    ∃ s, Run Step boot (forkExit ++ [.wait 0 1 2, .destroy 2 fun _ => 0, .fork 1 2, .exit 2 9, .poll 0, .finish 0]) s ∧
      s.answers = [(2, .child 3 9)] ∧ s.exited 2 = some 7 := by
  have hrun := forkExit_run.mono fun _ _ _ h => h.1
  constructor
  · refine ⟨_, hrun.append (.cons ⟨⟨rfl, rfl⟩, rfl⟩ (.single ⟨⟨⟨rfl, by decide⟩, rfl, 2, rfl, ⟨le_rfl, by decide⟩, rfl, rfl⟩,
      rfl⟩)), ?_, ?_⟩
    · rfl
    · rfl
  · refine ⟨_, hrun.append (.cons ⟨⟨⟨rfl, by decide⟩, rfl, 2, rfl, ⟨le_rfl, by decide⟩, rfl, rfl⟩, rfl⟩
      (.cons ⟨⟨rfl, rfl⟩, rfl⟩ (.cons ⟨⟨⟨rfl, by decide⟩, rfl⟩, rfl⟩ (.cons ⟨⟨⟨rfl, by decide⟩, by decide⟩, rfl⟩
        (.cons ⟨⟨_, rfl, rfl, rfl, by decide⟩, rfl⟩ (.single ⟨⟨_, rfl, rfl, rfl, by decide⟩, rfl⟩)))))), ?_, ?_⟩
    · rfl
    · rfl

end PiggyOs.ProcessWait
