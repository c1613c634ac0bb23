import PiggyOs.ProcessWait

/-! A whole call of `process_wait` with its flags: what a wait for any child returns, and the state
in which it leaves the process that called it. -/
namespace PiggyOs.WaitAny
open Fork (ProcessState)
open ProcessWait (Proc echild einval)

def eagain : ℤ := 1
def wnohang : BitVec 32 := 1

abbrev Objects := ℕ → Proc

/-- The value that is returned, the address and the value of what is stored, and the processes then. -/
structure Outcome where
  ret : ℤ
  stored : Option (BitVec 64 × BitVec 32)
  obj : Objects

def setState (obj : Objects) (p : ℕ) (state : ProcessState) : Objects :=
  Function.update obj p { obj p with state := state }

def dead (obj : Objects) (c : ℕ) : Bool := (obj c).state = .zombie

/-- The end of `process_wait`. -/
def reap (obj : Objects) (p c : ℕ) (status : BitVec 64) : Outcome :=
  ⟨(obj c).pid, if status ≠ 0 then some (status, (obj c).status) else none, setState obj p .running⟩

section Code
variable (rest : ℕ → Objects → Objects) (p : ℕ) (status : BitVec 64) (flags : BitVec 32)

/-- The loop for the pid -1. `rest k` is what runs while the call yields for the `k`th time. The
`break` leaves the search only. -/
def waitForAny : ℕ → ℕ → Objects → Option ℕ → Option Outcome
  | 0, _, _, _ => none
  | fuel + 1, k, obj, child =>
      if (obj p).children = [] then some ⟨-echild, none, obj⟩
      else
        let child := ((obj p).children.find? (dead obj)).or child
        if flags &&& wnohang ≠ 0 then some ⟨-eagain, none, obj⟩
        else waitForAny fuel (k + 1) (rest k obj) child

def waitForChild (c : ℕ) : ℕ → ℕ → Objects → Option Outcome
  | 0, _, _ => none
  | fuel + 1, k, obj =>
      if dead obj c then some (reap obj p c status)
      else if flags &&& wnohang ≠ 0 then some ⟨-eagain, none, obj⟩
      else waitForChild c fuel (k + 1) (rest k obj)

def processWait (obj : Objects) (pid : ℤ) (fuel : ℕ) : Option Outcome :=
  let obj := setState obj p .waiting
  if pid = -1 then waitForAny rest p flags fuel 0 obj none
  else if 0 < pid then
    match (obj p).children.find? fun c => ((obj c).pid : ℤ) = pid with
    | none => some ⟨-echild, none, obj⟩
    | some c => waitForChild rest p status flags c fuel 0 obj
  else some ⟨-einval, none, obj⟩

end Code

section Scans
variable (rest : ℕ → Objects → Objects) (obj : Objects) (p : ℕ) (status : BitVec 64) (flags : BitVec 32)

/-- The processes at the scan `k`, if the call gets that far. -/
def scene : ℕ → Objects
  | 0 => setState obj p .waiting
  | k + 1 => rest k (scene k)

/-- The call gets to the scan `k`. -/
def Scans (k : ℕ) : Prop := ∀ j < k, flags &&& wnohang = 0 ∧ (scene rest obj p j p).children ≠ []

/-- The call returns from the scan `k`. -/
def Ends (k : ℕ) : Prop :=
  Scans rest obj p flags k ∧ (flags &&& wnohang ≠ 0 ∨ (scene rest obj p k p).children = [])

/-- What a wait for any child is for. -/
structure WaitsForAny : Prop where
  zombie : ∀ k, Scans rest obj p flags k →
    (∃ c ∈ (scene rest obj p k p).children, (scene rest obj p k c).state = .zombie) →
    ∃ fuel out, processWait rest p status flags obj (-1) fuel = some out ∧
      ∃ c ∈ (scene rest obj p k p).children, (scene rest obj p k c).state = .zombie ∧
        out.ret = (scene rest obj p k c).pid ∧ (status ≠ 0 → out.stored = some (status, (scene rest obj p k c).status))
  again : flags &&& wnohang ≠ 0 →
    (∀ c ∈ (scene rest obj p 0 p).children, (scene rest obj p 0 c).state ≠ .zombie) →
    ∃ fuel out, processWait rest p status flags obj (-1) fuel = some out ∧ out.ret = -eagain
  state : ∀ fuel out, processWait rest p status flags obj (-1) fuel = some out → out.ret < 0 →
    (out.obj p).state = (obj p).state

/-- What a scan that the call returns from makes of it. -/
def failure (k : ℕ) : Outcome :=
  ⟨if (scene rest obj p k p).children = [] then -echild else -eagain, none, scene rest obj p k⟩

end Scans

section Calls
variable {rest : ℕ → Objects → Objects} {obj : Objects} {p fuel k : ℕ} {status : BitVec 64} {flags : BitVec 32}
  {child : Option ℕ} {out : Outcome}

lemma failure_ret_neg (k : ℕ) : (failure rest obj p k).ret < 0 := by
  unfold failure
  split_ifs
  · exact neg_lt_zero.mpr (by norm_num [echild])
  · exact neg_lt_zero.mpr (by norm_num [eagain])

lemma scene_zero_children : (scene rest obj p 0 p).children = (obj p).children := by
  simp [scene, setState]

lemma scans_zero : Scans rest obj p flags 0 := fun j hj => absurd hj (Nat.not_lt_zero j)

/-- From the scan `k` on, the loop only goes on or fails. -/
lemma waitForAny_eq_some (hk : Scans rest obj p flags k) :
    waitForAny rest p flags fuel k (scene rest obj p k) child = some out ↔
      ∃ j, k ≤ j ∧ j < k + fuel ∧ Ends rest obj p flags j ∧ out = failure rest obj p j := by
  induction fuel generalizing k child with
  | zero =>
    simp only [waitForAny, reduceCtorEq, false_iff, not_exists]
    rintro j ⟨hle, hlt, -⟩
    omega
  | succ fuel ih =>
    have hstop : Ends rest obj p flags k → (some (failure rest obj p k) = some out ↔
        ∃ j, k ≤ j ∧ j < k + (fuel + 1) ∧ Ends rest obj p flags j ∧ out = failure rest obj p j) := by
      intro hends
      constructor
      · intro hout
        exact ⟨k, le_rfl, by omega, hends, (Option.some.inj hout).symm⟩
      · rintro ⟨j, hle, -, hj, rfl⟩
        rcases hle.eq_or_lt with rfl | hlt
        · rfl
        · obtain ⟨hflags, hchildren⟩ := hj.1 k hlt
          exact (hends.2.elim (fun h => h hflags) hchildren).elim
    rw [waitForAny]
    by_cases hchildren : (scene rest obj p k p).children = []
    · rw [if_pos hchildren]
      have hends := hstop ⟨hk, Or.inr hchildren⟩
      rwa [failure, if_pos hchildren] at hends
    · rw [if_neg hchildren]
      by_cases hflags : flags &&& wnohang = 0
      · have hnext : Scans rest obj p flags (k + 1) := by
          intro j hj
          rcases Nat.lt_succ_iff_lt_or_eq.mp hj with hlt | rfl
          · exact hk j hlt
          · exact ⟨hflags, hchildren⟩
        have hnot : ¬Ends rest obj p flags k := fun h => h.2.elim (fun hne => hne hflags) hchildren
        simp only [hflags, ne_eq, not_true_eq_false, if_false]
        refine (ih hnext).trans ⟨?_, ?_⟩
        · rintro ⟨j, hle, hlt, hj, hout⟩
          exact ⟨j, by omega, by omega, hj, hout⟩
        · rintro ⟨j, hle, hlt, hj, hout⟩
          rcases hle.eq_or_lt with rfl | hlt'
          · exact absurd hj hnot
          · exact ⟨j, hlt', by omega, hj, hout⟩
      · have hends := hstop ⟨hk, Or.inl hflags⟩
        simp only [hflags, ne_eq, not_false_eq_true, if_true]
        rwa [failure, if_neg hchildren] at hends

/-- A wait for any child never returns one. -/
lemma processWait_any : processWait rest p status flags obj (-1) fuel = some out ↔
    ∃ k < fuel, Ends rest obj p flags k ∧ out = failure rest obj p k := by
  change waitForAny rest p flags fuel 0 (scene rest obj p 0) none = some out ↔ _
  rw [waitForAny_eq_some scans_zero]
  simp

lemma not_waitsForAny_of_zombie {c : ℕ} (hk : Scans rest obj p flags k) (hc : c ∈ (scene rest obj p k p).children)
    (hdead : (scene rest obj p k c).state = .zombie) : ¬WaitsForAny rest obj p status flags := by
  intro h
  obtain ⟨fuel, out, hout, c', -, -, hret, -⟩ := h.zombie k hk ⟨c, hc, hdead⟩
  obtain ⟨j, -, -, rfl⟩ := processWait_any.mp hout
  have hneg : (failure rest obj p j).ret < 0 := failure_ret_neg j
  rw [hret] at hneg
  omega

/-- A wait for any child does what it is for if and only if no scan that it makes finds a dead one, and
the process is, when the call fails, in the state in which it was. -/
theorem waitsForAny_iff (hchildren : (obj p).children ≠ []) : WaitsForAny rest obj p status flags ↔
    (∀ k, Scans rest obj p flags k →
      ∀ c ∈ (scene rest obj p k p).children, (scene rest obj p k c).state ≠ .zombie) ∧
    ∀ k, Ends rest obj p flags k → (scene rest obj p k p).state = (obj p).state := by
  constructor
  · intro h
    refine ⟨fun k hk c hc hdead => not_waitsForAny_of_zombie hk hc hdead h, fun k hk => ?_⟩
    exact h.state (k + 1) (failure rest obj p k) (processWait_any.mpr ⟨k, k.lt_succ_self, hk, rfl⟩) (failure_ret_neg k)
  · rintro ⟨hnone, hstate⟩
    refine ⟨fun k hk hdead => ?_, fun hflags _ => ?_, fun fuel out hout _ => ?_⟩
    · obtain ⟨c, hc, hdead⟩ := hdead
      exact absurd hdead (hnone k hk c hc)
    · refine ⟨1, failure rest obj p 0, processWait_any.mpr ⟨0, one_pos, ⟨scans_zero, Or.inl hflags⟩, rfl⟩, ?_⟩
      exact if_neg (scene_zero_children.trans_ne hchildren)
    · obtain ⟨k, -, hk, rfl⟩ := processWait_any.mp hout
      exact hstate k hk

/-- A process in `state` with one child. -/
def family (state childState : ProcessState) : Objects :=
  fun a => if a = 2 then ⟨2, state, 0, none, [3]⟩ else ⟨a, childState, 7, some 2, []⟩

/-- A second call that does not block, after one that failed. -/
theorem waitsForAny_again : WaitsForAny (fun _ obj => obj) (family .waiting .running) 2 0 wnohang := by
  refine (waitsForAny_iff (by decide)).mpr ⟨fun k hk => ?_, fun k hk => ?_⟩
  · cases k with
    | zero => decide
    | succ k => exact absurd (hk 0 k.succ_pos).1 (by decide)
  · cases k with
    | zero => decide
    | succ k => exact absurd (hk.1 0 k.succ_pos).1 (by decide)

/-- The child is dead at the first scan, and the call that does not block returns `-EAGAIN`. -/
theorem not_waitsForAny_dead : ¬WaitsForAny (fun _ obj => obj) (family .running .zombie) 2 0x1000 wnohang :=
  not_waitsForAny_of_zombie (k := 0) (c := 3) scans_zero (by decide) (by decide)

/-- If nothing else changes the state of the process, it has to be waiting already. -/
theorem state_iff_of_alone (halone : ∀ k obj, (rest k obj p).state = (obj p).state) :
    (∀ k, Ends rest obj p flags k → (scene rest obj p k p).state = (obj p).state) ↔
      (obj p).state = .waiting ∨ ∀ k, ¬Ends rest obj p flags k := by
  have hscene : ∀ k, (scene rest obj p k p).state = .waiting := by
    intro k
    induction k with
    | zero => simp [scene, setState]
    | succ k ih => exact (halone k _).trans ih
  simp only [hscene]
  constructor
  · intro h
    by_contra hno
    obtain ⟨hstate, hends⟩ := not_or.mp hno
    exact hends fun k hk => hstate (h k hk).symm
  · rintro (hstate | hends) k hk
    · exact hstate.symm
    · exact absurd hk (hends k)

end Calls

end PiggyOs.WaitAny
