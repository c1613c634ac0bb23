import PiggyOs.ProcessWait

/-! The tree of processes: the parent that a process points to, and the vectors of children. -/
namespace PiggyOs.ProcessTree
open Transition ProcessWait

variable {s s' : System} {a c p q r : ℕ} {outside : ℕ → ℕ} {stray : System → System}

/-- `vector_remove_by_value(p->parent->children, p)` -/
def removeFromParent (s : System) (c : ℕ) (outside : ℕ → ℕ) : System := { s with
  obj := match (s.obj c).parent with
    | none => s.obj
    | some q => Function.update s.obj q
        { s.obj q with children := vectorRemoveByValue outside (s.obj q).children c } }

/-- `process_destroy`. The children are pushed to what `vector_get` takes for `init`, which is an address
inside the array of processes; `stray` is what that does to the processes. -/
def processDestroy (s : System) (c : ℕ) (outside : ℕ → ℕ) (stray : System → System) : System :=
  let s := removeFromParent s c outside
  let s := if (s.obj c).children = [] then s else stray s
  { s with
    allocated := Function.update s.allocated c false
    dead := s.dead ++ [⟨(s.obj c).pid, ((s.obj c).parent.map fun q => (s.obj q).pid).getD 0, (s.obj c).status⟩] }

inductive Event
  | fork (p a : ℕ)
  | exit (c : ℕ) (status : BitVec 32)
  | destroy (c : ℕ) (outside : ℕ → ℕ) (stray : System → System)

def perform (s : System) : Event → System
  | .fork p a => processCreate s p a
  | .exit c status => processExit s c status
  | .destroy c outside stray => processDestroy s c outside stray

/-- The scheduler destroys processes that have exited, and `process_exit` refuses the first two. -/
def Possible (s : System) : Event → Prop
  | .fork p a => s.allocated p = true ∧ s.allocated a = false
  | .exit c _ => s.allocated c = true ∧ 2 ≤ (s.obj c).pid
  | .destroy c _ _ => s.allocated c = true ∧ (s.obj c).state = .zombie

def Step (s : System) (e : Event) (s' : System) : Prop := Possible s e ∧ s' = perform s e

/-- Every process apart from the kernel's and `init` has a parent that exists, and is a child of that
parent once and of no other process. -/
def Linked (s : System) : Prop :=
  ∀ q, s.allocated q = true → 2 ≤ (s.obj q).pid → ∃ p, (s.obj q).parent = some p ∧ s.allocated p = true ∧
    (s.obj p).children.count q = 1 ∧ ∀ r, s.allocated r = true → r ≠ p → q ∉ (s.obj r).children

/-- Who was a child of a process that is destroyed is a child of `init` then. -/
def Reparented (s : System) (e : Event) (s' : System) : Prop :=
  match e with
  | .destroy c _ _ => ∀ q ∈ (s.obj c).children, (s'.obj q).parent = some 1 ∧ q ∈ (s'.obj 1).children
  | _ => True

def Good (s : System) (e : Event) (s' : System) : Prop := Linked s' ∧ Reparented s e s'

/-- A process is destroyed without children, and what is taken out of the vector of its parent is itself
or has been destroyed before. No object is used again that is still in a vector. -/
def Kept (s : System) : Event → Prop
  | .fork _ a => ∀ r, s.allocated r = true → a ∉ (s.obj r).children
  | .exit _ _ => True
  | .destroy c outside _ => (s.obj c).children = [] ∧ ∀ p, (s.obj c).parent = some p →
      ∀ i, foundIndex outside (s.obj p).children c = some i →
        ∀ y, (s.obj p).children[i]? = some y → y = c ∨ s.allocated y = false

/-- What is pushed through the wrong pointer does not hit a process. -/
def Harmless : Event → Prop
  | .destroy _ _ stray => ∀ s, stray s = s
  | _ => True

structure Inv (s : System) : Prop where
  first : ∀ q < 2, s.allocated q = true ∧ (s.obj q).pid = q ∧ (s.obj q).state ≠ .zombie
  later : ∀ q, s.allocated q = true → 2 ≤ q → 2 ≤ (s.obj q).pid
  next : 2 ≤ s.nextPid
  linked : Linked s
  listed : ∀ r, s.allocated r = true → ∀ q ∈ (s.obj r).children, (s.obj q).parent = some r ∧ 2 ≤ q

section Steps

lemma inv_boot : Inv boot where
  first q hq := ⟨decide_eq_true hq, rfl, nofun⟩
  later q hq h2 := by
    have hlt : q < 2 := by simpa [boot] using hq
    omega
  next := le_rfl
  linked q hq h2 := by
    have hlt : q < 2 := by simpa [boot] using hq
    have hpid : 2 ≤ q := h2
    omega
  listed r _ q hq := by simp [boot] at hq

lemma Inv.two_le (h : Inv s) (hpid : 2 ≤ (s.obj q).pid) : 2 ≤ q := by
  by_contra hlt
  have hfirst := (h.first q (by omega)).2.1
  omega

/-- A child of a process is in its vector and in no other one. -/
lemma Inv.parent_unique (h : Inv s) (hq : s.allocated q = true) (hr : s.allocated r = true) (hmem : q ∈ (s.obj r).children) :
    (s.obj q).parent = some r ∧ (s.obj r).children.count q = 1 := by
  obtain ⟨hparent, h2⟩ := h.listed r hr q hmem
  obtain ⟨p, hp, -, hcount, -⟩ := h.linked q hq (h.later q hq h2)
  obtain rfl : r = p := Option.some.inj (hparent.symm.trans hp)
  exact ⟨hparent, hcount⟩

lemma processCreate_parent (hpa : p ≠ a) (q : ℕ) :
    ((processCreate s p a).obj q).parent = if q = a then some p else (s.obj q).parent := by
  by_cases hqa : q = a
  · simp [processCreate, hqa]
  · by_cases hqp : q = p
    · simp [processCreate, hqp, hpa]
    · simp [processCreate, hqa, hqp]

lemma processCreate_children (hpa : p ≠ a) (q : ℕ) : ((processCreate s p a).obj q).children =
    if q = a then [] else if q = p then (s.obj p).children ++ [a] else (s.obj q).children := by
  by_cases hqa : q = a
  · simp [processCreate, hqa]
  · by_cases hqp : q = p
    · simp [processCreate, hqp, hpa]
    · simp [processCreate, hqa, hqp]

lemma processCreate_pid (hpa : p ≠ a) (q : ℕ) :
    ((processCreate s p a).obj q).pid = if q = a then s.nextPid else (s.obj q).pid := by
  by_cases hqa : q = a
  · simp [processCreate, hqa]
  · by_cases hqp : q = p
    · simp [processCreate, hqp, hpa]
    · simp [processCreate, hqa, hqp]

lemma processCreate_state (hpa : p ≠ a) (q : ℕ) :
    ((processCreate s p a).obj q).state = if q = a then .running else (s.obj q).state := by
  by_cases hqa : q = a
  · simp [processCreate, hqa]
  · by_cases hqp : q = p
    · simp [processCreate, hqp, hpa]
    · simp [processCreate, hqa, hqp]

lemma processCreate_allocated (s : System) (p a q : ℕ) :
    (processCreate s p a).allocated q = if q = a then true else s.allocated q := Function.update_apply ..

/-- A new child in a vector without it. -/
lemma Inv.fork (h : Inv s) (hp : s.allocated p = true) (ha : s.allocated a = false)
    (hkept : ∀ r, s.allocated r = true → a ∉ (s.obj r).children) : Inv (processCreate s p a) := by
  have hpa : p ≠ a := by
    rintro rfl
    rw [hp] at ha
    simp at ha
  have ha2 : 2 ≤ a := by
    by_contra hlt
    rw [(h.first a (by omega)).1] at ha
    simp at ha
  refine ⟨fun q hq => ?_, fun q hq h2 => ?_, Nat.le_succ_of_le h.next, fun q hq h2 => ?_, fun r hr q hq => ?_⟩
  · rw [processCreate_allocated, processCreate_pid hpa, processCreate_state hpa, if_neg (by omega), if_neg (by omega),
      if_neg (by omega)]
    exact h.first q hq
  · rw [processCreate_allocated] at hq
    rw [processCreate_pid hpa]
    split_ifs at hq ⊢ with hqa
    · exact h.next
    · exact h.later q hq h2
  · rw [processCreate_allocated] at hq
    rw [processCreate_parent hpa]
    by_cases hqa : q = a
    · subst hqa
      refine ⟨p, if_pos rfl, ?_, ?_, fun r hr hrp => ?_⟩
      · rw [processCreate_allocated, if_neg hpa, hp]
      · rw [processCreate_children hpa, if_neg hpa, if_pos rfl, List.count_append, List.count_eq_zero.mpr (hkept p hp),
          List.count_singleton_self]
      · rw [processCreate_allocated] at hr
        rw [processCreate_children hpa, if_neg hrp]
        split_ifs at hr ⊢ with hrq
        · simp
        · exact hkept r hr
    · rw [if_neg hqa] at hq ⊢
      rw [processCreate_pid hpa, if_neg hqa] at h2
      obtain ⟨p₀, hparent, hp₀, hcount, hother⟩ := h.linked q hq h2
      have hp₀a : p₀ ≠ a := by
        rintro rfl
        rw [hp₀] at ha
        simp at ha
      refine ⟨p₀, hparent, ?_, ?_, fun r hr hrp => ?_⟩
      · rw [processCreate_allocated, if_neg hp₀a, hp₀]
      · rw [processCreate_children hpa, if_neg hp₀a]
        split_ifs with hpp
        · rw [List.count_append, List.count_singleton, if_neg (by simpa using Ne.symm hqa), ← hpp, hcount]
        · exact hcount
      · rw [processCreate_allocated] at hr
        rw [processCreate_children hpa]
        split_ifs at hr ⊢ with hra hrp'
        · simp
        · rw [List.mem_append, List.mem_singleton]
          exact fun hmem => hmem.elim (hother p hp (hrp' ▸ hrp)) hqa
        · exact hother r hr hrp
  · rw [processCreate_allocated] at hr
    rw [processCreate_children hpa] at hq
    rw [processCreate_parent hpa]
    split_ifs at hr hq with hra hrp
    · simp at hq
    · rcases List.mem_append.mp hq with hq | hq
      · have hqa : q ≠ a := fun hqa => hkept p hp (hqa ▸ hq)
        rw [if_neg hqa, hrp]
        exact h.listed p hp q hq
      · rw [List.mem_singleton.mp hq, if_pos rfl, hrp]
        exact ⟨rfl, ha2⟩
    · have hqa : q ≠ a := fun hqa => hkept r hr (hqa ▸ hq)
      rw [if_neg hqa]
      exact h.listed r hr q hq

/-- The new process has nobody else's place. -/
lemma kept_of_linked_fork (h : Inv s) (hp : s.allocated p = true) (ha : s.allocated a = false)
    (hlinked : Linked (processCreate s p a)) (hr : s.allocated r = true) : a ∉ (s.obj r).children := by
  have hne : ∀ x, s.allocated x = true → x ≠ a := by
    rintro x hx rfl
    rw [hx] at ha
    simp at ha
  have hpa := hne p hp
  obtain ⟨p', hparent, -, hcount, hother⟩ := hlinked a (by rw [processCreate_allocated, if_pos rfl])
    (by rw [processCreate_pid hpa, if_pos rfl]; exact h.next)
  rw [processCreate_parent hpa, if_pos rfl] at hparent
  obtain rfl := Option.some.inj hparent
  by_cases hrp : r = p
  · rw [processCreate_children hpa, if_neg hpa, if_pos rfl, List.count_append, List.count_singleton_self] at hcount
    rw [hrp]
    exact List.count_eq_zero.mp (by omega)
  · have hmem := hother r (by rw [processCreate_allocated, if_neg (hne r hr), hr]) hrp
    rwa [processCreate_children hpa, if_neg (hne r hr), if_neg hrp] at hmem

lemma Inv.exit (h : Inv s) (hpid : 2 ≤ (s.obj c).pid) (status : BitVec 32) : Inv (processExit s c status) := by
  have hobj : ∀ q, ((processExit s c status).obj q).parent = (s.obj q).parent ∧
      ((processExit s c status).obj q).children = (s.obj q).children ∧ ((processExit s c status).obj q).pid = (s.obj q).pid := by
    intro q
    by_cases hqc : q = c
    · simp [processExit, System.setProc, hqc]
    · simp [processExit, System.setProc, hqc]
  have hstate : ∀ q, q ≠ c → ((processExit s c status).obj q).state = (s.obj q).state := fun q hqc =>
    congrArg Proc.state (Function.update_of_ne hqc ..)
  refine ⟨fun q hq => ?_, fun q hq h2 => ?_, h.next, fun q hq h2 => ?_, fun r hr q hq => ?_⟩
  · have hqc : q ≠ c := by
      rintro rfl
      rw [(h.first q hq).2.1] at hpid
      omega
    rw [(hobj q).2.2, hstate q hqc]
    exact h.first q hq
  · rw [(hobj q).2.2]
    exact h.later q hq h2
  · rw [(hobj q).2.2] at h2
    obtain ⟨p, hparent, hp, hcount, hother⟩ := h.linked q hq h2
    refine ⟨p, (hobj q).1.trans hparent, hp, ?_, fun r hr hrp => ?_⟩
    · rw [(hobj p).2.1, hcount]
    · rw [(hobj r).2.1]
      exact hother r hr hrp
  · rw [(hobj r).2.1] at hq
    rw [(hobj q).1]
    exact h.listed r hr q hq

lemma removeFromParent_obj (s : System) (c : ℕ) (outside : ℕ → ℕ) (q : ℕ) :
    (removeFromParent s c outside).obj q = if (s.obj c).parent = some q
      then { s.obj q with children := vectorRemoveByValue outside (s.obj q).children c } else s.obj q := by
  rw [removeFromParent]
  cases hparent : (s.obj c).parent with
  | none => rfl
  | some p =>
    by_cases hqp : q = p
    · simp [hqp]
    · simp [hqp, Ne.symm hqp]

lemma vectorRemoveByValue_nil (outside : ℕ → ℕ) (c : ℕ) : vectorRemoveByValue outside [] c = [] := rfl

lemma stray_unused (hstray : (s.obj c).children = [] ∨ ∀ s, stray s = s) :
    (if ((removeFromParent s c outside).obj c).children = [] then removeFromParent s c outside
      else stray (removeFromParent s c outside)) = removeFromParent s c outside := by
  split_ifs with hempty
  · rfl
  · rcases hstray with hchildren | hharmless
    · rw [removeFromParent_obj] at hempty
      split_ifs at hempty
      · dsimp only at hempty
        rw [hchildren] at hempty
        exact absurd (vectorRemoveByValue_nil outside c) hempty
      · exact absurd hchildren hempty
    · exact hharmless _

/-- What the end of a process does to the tree. -/
structure Freed (s s' : System) (c : ℕ) (outside : ℕ → ℕ) : Prop where
  parent : ∀ q, (s'.obj q).parent = (s.obj q).parent
  pid : ∀ q, (s'.obj q).pid = (s.obj q).pid
  state : ∀ q, (s'.obj q).state = (s.obj q).state
  children : ∀ q, (s'.obj q).children =
    if (s.obj c).parent = some q then vectorRemoveByValue outside (s.obj q).children c else (s.obj q).children
  allocated : ∀ q, s'.allocated q = if q = c then false else s.allocated q
  nextPid : s'.nextPid = s.nextPid

lemma processDestroy_freed (hstray : (s.obj c).children = [] ∨ ∀ s, stray s = s) :
    Freed s (processDestroy s c outside stray) c outside := by
  rw [processDestroy, stray_unused hstray]
  refine ⟨fun q => ?_, fun q => ?_, fun q => ?_, fun q => ?_, fun q => Function.update_apply .., rfl⟩
  all_goals
    dsimp only
    rw [removeFromParent_obj]
    split_ifs <;> rfl

lemma count_eraseIdx {data : List ℕ} {i y : ℕ} (hy : data[i]? = some y) (q : ℕ) :
    data.count q = (data.eraseIdx i).count q + if y = q then 1 else 0 := by
  obtain ⟨hi, rfl⟩ := List.getElem?_eq_some_iff.mp hy
  have hsplit : data = data.take i ++ data[i] :: data.drop (i + 1) := by
    rw [List.cons_getElem_drop_succ, List.take_append_drop]
  rw [List.eraseIdx_eq_take_drop_succ]
  conv_lhs => rw [hsplit]
  rw [List.count_append, List.count_append, List.count_cons, ← Nat.add_assoc]
  simp only [beq_iff_eq]

lemma count_vectorRemoveByValue {data : List ℕ} (h : ∀ i, foundIndex outside data c = some i → ∀ y, data[i]? = some y → y ≠ q) :
    (vectorRemoveByValue outside data c).count q = data.count q := by
  rw [vectorRemoveByValue]
  cases hfound : foundIndex outside data c with
  | none => rfl
  | some i =>
    by_cases hi : i < data.length
    · have hy := List.getElem?_eq_getElem hi
      rw [count_eraseIdx hy q, if_neg (h i hfound _ hy), Nat.add_zero]
    · exact congrArg (List.count q) (List.eraseIdx_of_length_le (not_lt.mp hi))

/-- A process goes that has no children, and takes nobody alive out of the vector with it. -/
lemma Inv.destroy (h : Inv s) (hzombie : (s.obj c).state = .zombie) (hkept : Kept s (.destroy c outside stray)) :
    Inv (processDestroy s c outside stray) := by
  obtain ⟨hchildren, hremoved⟩ := hkept
  have hfreed : Freed s (processDestroy s c outside stray) c outside := processDestroy_freed (Or.inl hchildren)
  have halive : ∀ q, (processDestroy s c outside stray).allocated q = true → q ≠ c ∧ s.allocated q = true := by
    intro q hq
    rw [hfreed.allocated] at hq
    split_ifs at hq with hqc
    exact ⟨hqc, hq⟩
  have hsubset : ∀ r, ∀ q ∈ ((processDestroy s c outside stray).obj r).children, q ∈ (s.obj r).children := by
    intro r q hq
    rw [hfreed.children] at hq
    split_ifs at hq
    · exact mem_vectorRemoveByValue hq
    · exact hq
  refine ⟨fun q hq => ?_, fun q hq h2 => ?_, hfreed.nextPid ▸ h.next, fun q hq h2 => ?_, fun r hr q hq => ?_⟩
  · obtain ⟨hallocated, hpid, hstate⟩ := h.first q hq
    have hqc : q ≠ c := by
      rintro rfl
      exact hstate hzombie
    rw [hfreed.allocated, if_neg hqc, hfreed.pid, hfreed.state]
    exact ⟨hallocated, hpid, hstate⟩
  · rw [hfreed.pid]
    exact h.later q (halive q hq).2 h2
  · obtain ⟨hqc, hq⟩ := halive q hq
    rw [hfreed.pid] at h2
    obtain ⟨p, hparent, hp, hcount, hother⟩ := h.linked q hq h2
    have hpc : p ≠ c := by
      rintro rfl
      rw [hchildren] at hcount
      simp at hcount
    refine ⟨p, (hfreed.parent q).trans hparent, ?_, ?_, fun r hr hrp => ?_⟩
    · rw [hfreed.allocated, if_neg hpc, hp]
    · rw [hfreed.children]
      split_ifs with hcp
      · rw [count_vectorRemoveByValue, hcount]
        rintro i hi y hy rfl
        rcases hremoved p hcp i hi y hy with hyc | hfree
        · exact hqc hyc
        · rw [hq] at hfree
          simp at hfree
      · exact hcount
    · exact fun hmem => hother r (halive r hr).2 hrp (hsubset r q hmem)
  · rw [hfreed.parent]
    exact h.listed r (halive r hr).2 q (hsubset r q hq)

/-- Without the two conditions somebody alive loses a place, or a child its parent. -/
lemma kept_of_good_destroy (h : Inv s) (hc : s.allocated c = true) (hzombie : (s.obj c).state = .zombie)
    (hharmless : ∀ s, stray s = s)
    (hgood : Good s (.destroy c outside stray) (processDestroy s c outside stray)) : Kept s (.destroy c outside stray) := by
  have hfreed : Freed s (processDestroy s c outside stray) c outside := processDestroy_freed (Or.inr hharmless)
  obtain ⟨hlinked, hreparented⟩ := hgood
  constructor
  · by_contra hchildren
    obtain ⟨q, hq⟩ := List.exists_mem_of_ne_nil _ hchildren
    have hparent := (hreparented q hq).1
    rw [hfreed.parent, (h.listed c hc q hq).1, Option.some_inj] at hparent
    exact (h.first c (by omega)).2.2 hzombie
  · intro p hp i hi y hy
    by_contra hnot
    push Not at hnot
    obtain ⟨hyc, hyalive⟩ := hnot
    have hy' : s.allocated y = true := by simpa using hyalive
    have hpalive : s.allocated p = true := by
      obtain ⟨p', hp', hp'alive, -⟩ := h.linked c hc (by
        refine h.later c hc ?_
        by_contra hlt
        exact (h.first c (by omega)).2.2 hzombie)
      obtain rfl := Option.some.inj (hp.symm.trans hp')
      exact hp'alive
    have hmem := List.mem_of_getElem? hy
    obtain ⟨hparent, hcount⟩ := h.parent_unique hy' hpalive hmem
    obtain ⟨p', hp', -, hcount', -⟩ := hlinked y (by rw [hfreed.allocated, if_neg hyc, hy'])
      (by rw [hfreed.pid]; exact h.later y hy' (h.listed p hpalive y hmem).2)
    rw [hfreed.parent, hparent] at hp'
    obtain rfl := Option.some.inj hp'
    rw [hfreed.children, if_pos hp, vectorRemoveByValue, hi] at hcount'
    rw [count_eraseIdx hy y, if_pos rfl] at hcount
    dsimp only at hcount'
    omega

end Steps

section Runs
variable {e : Event} {events : List Event}

lemma Inv.step (h : Inv s) (hstep : Step s e s') (hkept : Kept s e) : Inv s' := by
  obtain ⟨hpossible, rfl⟩ := hstep
  cases e with
  | fork p a => exact h.fork hpossible.1 hpossible.2 hkept
  | exit c status => exact h.exit hpossible.2 status
  | destroy c outside stray => exact h.destroy hpossible.2 hkept

lemma good_of_kept (h : Inv s) (hstep : Step s e s') (hkept : Kept s e) : Good s e s' := by
  refine ⟨(h.step hstep hkept).linked, ?_⟩
  cases e with
  | fork p a => trivial
  | exit c status => trivial
  | destroy c outside stray =>
    intro q hq
    rw [hkept.1] at hq
    simp at hq

lemma kept_of_good (h : Inv s) (hstep : Step s e s') (hharmless : Harmless e) (hgood : Good s e s') : Kept s e := by
  obtain ⟨hpossible, rfl⟩ := hstep
  cases e with
  | fork p a => exact fun r hr => kept_of_linked_fork h hpossible.1 hpossible.2 hgood.1 hr
  | exit c status => trivial
  | destroy c outside stray => exact kept_of_good_destroy h hpossible.1 hpossible.2 hharmless hgood

lemma run_good (h : Inv s) (hrun : Run (fun s e s' => Step s e s' ∧ Kept s e) s events s') :
    Run (fun s e s' => Step s e s' ∧ Good s e s') s events s' := by
  induction hrun with
  | nil s => exact .nil s
  | cons hstep _ ih => exact .cons ⟨hstep.1, good_of_kept h hstep.1 hstep.2⟩ (ih (h.step hstep.1 hstep.2))

lemma run_kept (h : Inv s) (hharmless : ∀ e ∈ events, Harmless e)
    (hrun : Run (fun s e s' => Step s e s' ∧ Good s e s') s events s') :
    Run (fun s e s' => Step s e s' ∧ Kept s e) s events s' := by
  induction hrun with
  | nil s => exact .nil s
  | cons hstep _ ih =>
    have hkept := kept_of_good h hstep.1 (hharmless _ List.mem_cons_self) hstep.2
    exact .cons ⟨hstep.1, hkept⟩ (ih (h.step hstep.1 hkept) fun e he => hharmless e (List.mem_cons_of_mem _ he))

/-- If all steps of a run meet the condition, every state is a tree and orphans go to `init`. If what is
pushed through the wrong pointer hits no process, this is so for no other runs. -/
theorem tree_of_run (events : List Event) (s : System) :
    (Run (fun s e s' => Step s e s' ∧ Kept s e) boot events s → Run (fun s e s' => Step s e s' ∧ Good s e s') boot events s) ∧
      ((∀ e ∈ events, Harmless e) → Run (fun s e s' => Step s e s' ∧ Good s e s') boot events s →
        Run (fun s e s' => Step s e s' ∧ Kept s e) boot events s) :=
  ⟨run_good inv_boot, run_kept inv_boot⟩

/-- `init` forks a child, which exits and is destroyed. -/
theorem tree_of_run_child : ∃ s, Run (fun s e s' => Step s e s' ∧ Good s e s') boot
    [.fork 1 2, .exit 2 0, .destroy 2 (fun _ => 0) id] s := by
  refine ⟨_, (tree_of_run _ _).1 (.cons ⟨⟨⟨rfl, rfl⟩, rfl⟩, fun r hr => ?_⟩ (.cons ⟨⟨⟨rfl, le_rfl⟩, rfl⟩, trivial⟩
    (.single ⟨⟨⟨rfl, rfl⟩, rfl⟩, rfl, fun p hp i hi y hy => ?_⟩)))⟩
  · simp [boot]
  · obtain rfl : 1 = p := Option.some.inj hp
    obtain rfl : 0 = i := Option.some.inj hi
    exact Or.inl (Option.some.inj hy).symm

/-- The child of a process that is destroyed keeps it as its parent. -/
theorem orphan_keeps_parent : ∃ s, Run Step boot [.fork 1 2, .fork 2 3, .exit 2 0, .destroy 2 (fun _ => 0) id] s ∧ ¬Linked s := by
  refine ⟨_, .cons ⟨⟨rfl, rfl⟩, rfl⟩ (.cons ⟨⟨rfl, rfl⟩, rfl⟩ (.cons ⟨⟨rfl, le_rfl⟩, rfl⟩ (.single ⟨⟨rfl, rfl⟩, rfl⟩))), fun h => ?_⟩
  obtain ⟨p, hp, hpalive, -⟩ := h 3 rfl (by decide)
  obtain rfl : 2 = p := Option.some.inj hp
  exact Bool.false_ne_true hpalive

end Runs

end PiggyOs.ProcessTree
