import PiggyOs.Sched

/-! How often a processor passes over a thread that could run. It goes through the list in one direction, starts again
at the front when it comes to the end, and new threads come in at the back. -/
namespace PiggyOs.Sched
open IntrusiveList Fork Transition Filter

/-- A processor that comes to the thread takes it. -/
def Waiting (s : Scheduler) (t : ℕ) : Prop := s.state t = .readyToRun ∧ s.locked t = false

def ready (s : Scheduler) (t : ℕ) : Bool := s.state t = .readyToRun ∧ s.locked t = false

/-- How many elements there are from `x` on. -/
def placesFrom (x : ℕ) (l : List ℕ) : ℕ := (l.dropWhile (· ≠ x)).length

/-- The places that a processor with thread `current` has to go before it comes to `t`, if the list is `before`, then
`t` and then `behind`. -/
def distance (before behind : List ℕ) (t : ℕ) : Option ℕ → ℕ
  | none => before.length + 1
  | some x =>
      if x ∈ before then placesFrom x before else placesFrom x (t :: behind) + before.length + 2

section Places
variable {x y t : ℕ} {l l' before behind : List ℕ} {current : Option ℕ}

lemma placesFrom_cons_self (x : ℕ) (l : List ℕ) : placesFrom x (x :: l) = l.length + 1 := by
  rw [placesFrom, List.dropWhile_cons_of_neg (by simp), List.length_cons]

lemma placesFrom_cons_of_ne (h : y ≠ x) (l : List ℕ) : placesFrom x (y :: l) = placesFrom x l := by
  rw [placesFrom, List.dropWhile_cons_of_pos (by simpa using h), placesFrom]

lemma placesFrom_append_of_notMem (h : x ∉ l) (l' : List ℕ) : placesFrom x (l ++ l') = placesFrom x l' := by
  induction l with
  | nil => rfl
  | cons y l ih =>
    rw [List.mem_cons, not_or] at h
    rw [List.cons_append, placesFrom_cons_of_ne (Ne.symm h.1), ih h.2]

lemma placesFrom_of_notMem (h : x ∉ l) : placesFrom x l = 0 := by
  rw [← List.append_nil l, placesFrom_append_of_notMem h, placesFrom, List.dropWhile_nil, List.length_nil]

lemma placesFrom_le (x : ℕ) (l : List ℕ) : placesFrom x l ≤ l.length := (List.dropWhile_sublist _).length_le

lemma placesFrom_append_le (x : ℕ) (l l' : List ℕ) : placesFrom x (l ++ l') ≤ placesFrom x l + l'.length := by
  induction l with
  | nil => exact (placesFrom_le x l').trans (Nat.le_add_left ..)
  | cons y l ih =>
    by_cases hy : y = x
    · subst hy
      rw [List.cons_append, placesFrom_cons_self, placesFrom_cons_self, List.length_append]
      omega
    · rw [List.cons_append, placesFrom_cons_of_ne hy, placesFrom_cons_of_ne hy]
      exact ih

/-- Taking out another element brings nothing further away. -/
lemma placesFrom_erase_le (h : y ≠ x) (l : List ℕ) : placesFrom x (l.erase y) ≤ placesFrom x l := by
  induction l with
  | nil => rfl
  | cons z l ih =>
    by_cases hzy : z = y
    · subst hzy
      rw [List.erase_cons_head, placesFrom_cons_of_ne h]
    · rw [List.erase_cons_tail (by simpa using hzy)]
      by_cases hzx : z = x
      · subst hzx
        rw [placesFrom_cons_self, placesFrom_cons_self]
        exact Nat.succ_le_succ (List.length_erase_le ..)
      · rw [placesFrom_cons_of_ne hzx, placesFrom_cons_of_ne hzx]
        exact ih

/-- The place behind an element is nearer than the element. -/
lemma placesFrom_behind (hl : (l ++ x :: l').Nodup) (hy : y ∈ l') :
    placesFrom y (l ++ x :: l') < placesFrom x (l ++ x :: l') := by
  have hx : x ∉ l := by
    rw [List.nodup_append] at hl
    exact fun hin => hl.2.2 x hin x List.mem_cons_self rfl
  have hyl : y ∉ l := by
    rw [List.nodup_append] at hl
    exact fun hin => hl.2.2 y hin y (List.mem_cons_of_mem x hy) rfl
  have hyx : x ≠ y := by
    rintro rfl
    exact (List.nodup_cons.mp (List.nodup_append.mp hl).2.1).1 hy
  rw [placesFrom_append_of_notMem hyl, placesFrom_append_of_notMem hx, placesFrom_cons_self, placesFrom_cons_of_ne hyx]
  exact Nat.lt_succ_of_le (placesFrom_le y l')

end Places

section Patience
variable {x y t : ℕ} {l before behind sleeping : List ℕ} {current : Option ℕ} {p : ℕ → Bool}

/-- What is left of the passes that may go by. A thread that leaves the list in front of `t` makes the processor start
again, which happens at most once for each of them. -/
def patience (before behind : List ℕ) (t : ℕ) (current : Option ℕ) (sleeping : ℕ) : ℕ :=
  before.length * (before.length + 3) + distance before behind t current + 2 * sleeping

lemma patience_append (w : ℕ) (before behind : List ℕ) (t : ℕ) (current : Option ℕ) (n : ℕ) :
    patience before (behind ++ [w]) t current n ≤ patience before behind t current n + 1 := by
  have hdist : distance before (behind ++ [w]) t current ≤ distance before behind t current + 1 := by
    cases current with
    | none => exact Nat.le_succ _
    | some x =>
      have hle : placesFrom x (t :: behind ++ [w]) ≤ placesFrom x (t :: behind) + 1 := placesFrom_append_le x _ [w]
      rw [List.cons_append] at hle
      simp only [distance]
      split_ifs <;> omega
  simp only [patience]
  omega

lemma erase_split (hl : (before ++ t :: behind).Nodup) (hx : x ≠ t) :
    (before ++ t :: behind).erase x = before.erase x ++ t :: behind.erase x := by
  by_cases hin : x ∈ before
  · have hout : x ∉ behind := fun hb => (List.nodup_append.mp hl).2.2 x hin x (List.mem_cons_of_mem t hb) rfl
    rw [List.erase_append_left _ hin, List.erase_of_not_mem hout]
  · rw [List.erase_append_right _ hin, List.erase_cons_tail (by simpa using hx.symm), List.erase_of_not_mem hin]

lemma patience_erase (hl : (before ++ t :: behind).Nodup) (hx : x ≠ t) (current : Option ℕ) (n : ℕ) :
    patience (before.erase x) (behind.erase x) t current n ≤ patience before behind t current n := by
  obtain ⟨hbefore, hrest, hapart⟩ := List.nodup_append.mp hl
  have hbehind := (List.nodup_cons.mp hrest).2
  have hlen : (before.erase x).length ≤ before.length := List.length_erase_le ..
  have hprod := Nat.mul_le_mul hlen (Nat.add_le_add_right hlen 3)
  have hcons : t :: behind.erase x = (t :: behind).erase x := by rw [List.erase_cons_tail (by simpa using hx.symm)]
  rw [patience, patience]
  cases current with
  | none =>
    simp only [distance]
    omega
  | some y =>
    by_cases hyx : y = x
    · subst hyx
      have h1 : y ∉ before.erase y := hbefore.not_mem_erase
      have h2 : placesFrom y (t :: behind.erase y) = 0 := by
        rw [hcons]
        exact placesFrom_of_notMem hrest.not_mem_erase
      simp only [distance, if_neg h1, h2]
      split_ifs with hin
      · obtain ⟨m, hm⟩ : ∃ m, before.length = m + 1 :=
          Nat.exists_eq_succ_of_ne_zero (List.length_pos_of_mem hin).ne'
        rw [List.length_erase_of_mem hin, hm, Nat.add_sub_cancel]
        nlinarith
      · omega
    · have hmem : y ∈ before.erase x ↔ y ∈ before := List.mem_erase_of_ne hyx
      have h1 := placesFrom_erase_le (Ne.symm hyx) before
      have h2 := placesFrom_erase_le (Ne.symm hyx) (t :: behind)
      rw [← hcons] at h2
      simp only [distance, hmem]
      split_ifs <;> omega

lemma find_before (ht : p t = true) (hne : (before ++ t :: behind).find? p ≠ some t) :
    ∃ y ∈ before, (before ++ t :: behind).find? p = some y := by
  rw [List.find?_append] at hne ⊢
  cases hfind : before.find? p with
  | none =>
    rw [hfind, List.find?_cons_of_pos ht] at hne
    exact absurd rfl hne
  | some y => exact ⟨y, List.mem_of_find?_eq_some hfind, rfl⟩

/-- From the front. -/
lemma distance_front (ht : p t = true) (hne : (before ++ t :: behind).find? p ≠ some t) :
    distance before behind t ((before ++ t :: behind).find? p) < distance before behind t none := by
  obtain ⟨y, hy, hfind⟩ := find_before ht hne
  rw [hfind]
  simp only [distance, if_pos hy]
  exact Nat.lt_succ_of_le (placesFrom_le y before)

/-- From a thread in front of `t`. -/
lemma distance_before (hl : (before ++ x :: l).Nodup) (ht : p t = true) (hne : (l ++ t :: behind).find? p ≠ some t) :
    distance (before ++ x :: l) behind t ((l ++ t :: behind).find? p) <
      distance (before ++ x :: l) behind t (some x) := by
  obtain ⟨y, hy, hfind⟩ := find_before ht hne
  have hin : y ∈ before ++ x :: l := by simp [hy]
  rw [hfind]
  simp only [distance, if_pos hin, if_pos (show x ∈ before ++ x :: l by simp)]
  exact placesFrom_behind hl hy

/-- From a thread behind it, or from `t`. -/
lemma distance_behind {front : List ℕ} (hbehind : t :: behind = front ++ x :: l) (hl : (before ++ t :: behind).Nodup) :
    distance before behind t (l.find? p) < distance before behind t (some x) := by
  have hout : ∀ y ∈ t :: behind, y ∉ before := fun y hy hin => (List.nodup_append.mp hl).2.2 y hin y hy rfl
  have hx : x ∉ before := hout x (by simp [hbehind])
  cases hfind : l.find? p with
  | none =>
    simp only [distance, if_neg hx]
    omega
  | some y =>
    have hyl := List.mem_of_find?_eq_some hfind
    have hy : y ∉ before := hout y (by simp [hbehind, hyl])
    have hlt : placesFrom y (t :: behind) < placesFrom x (t :: behind) := by
      rw [hbehind]
      exact placesFrom_behind (hbehind ▸ (List.nodup_append.mp hl).2.1) hyl
    simp only [distance, if_neg hx, if_neg hy]
    omega

lemma patience_le (before behind : List ℕ) (t : ℕ) (current : Option ℕ) (n : ℕ) :
    patience before behind t current n ≤
      (before ++ t :: behind).length * ((before ++ t :: behind).length + 2) + 2 * n := by
  have hdist : distance before behind t current ≤ behind.length + before.length + 3 := by
    cases current with
    | none =>
      simp only [distance]
      omega
    | some x =>
      have h1 := placesFrom_le x before
      have h2 := placesFrom_le x (t :: behind)
      rw [List.length_cons] at h2
      simp only [distance]
      split_ifs <;> omega
  rw [patience, List.length_append, List.length_cons]
  nlinarith

end Patience

section Passes
variable {s s' : Scheduler} {lists : ListName → List ℕ} {t cpu : ℕ} {before behind : List ℕ} {e : Event}
  {events : List Event}

lemma getNextThread_find {l : List ℕ} {iter : Option ℕ} (hl : Seg s.next iter l none) :
    ∀ᶠ fuel in atTop, getNextThread s fuel iter = some (l.find? (ready s)) := by
  induction l generalizing iter with
  | nil =>
    obtain rfl : iter = none := hl
    filter_upwards [eventually_gt_atTop 0] with fuel hf
    obtain ⟨n, rfl⟩ := Nat.exists_eq_succ_of_ne_zero hf.ne'
    rfl
  | cons t l ih =>
    obtain ⟨rfl, hl⟩ := hl
    have hlater := (tendsto_sub_atTop_nat 1).eventually (ih hl)
    filter_upwards [hlater, eventually_gt_atTop 0] with fuel h1 hf
    obtain ⟨n, rfl⟩ := Nat.exists_eq_succ_of_ne_zero hf.ne'
    rw [getNextThread]
    split_ifs with hstate hlock
    · rw [List.find?_cons_of_neg (by simp [ready, hstate])]
      exact h1
    · rw [List.find?_cons_of_pos (by simp [ready, not_not.mp hstate, hlock])]
    · rw [List.find?_cons_of_neg (by simp [ready, hlock])]
      exact h1

/-- Where a processor is found that runs a thread which is on no list of runnable threads. -/
lemma Lists.find_none (h : Lists s lists) {c : ℕ} (hc : c ∉ lists .runnable) :
    ∃ l, Seg s.next (s.next c) l none ∧ l.find? (ready s) = none := by
  cases ha : s.alive c with
  | false => exact ⟨[], h.free c ha, rfl⟩
  | true =>
    have hk : listOf (s.state c) ≠ .runnable := fun hk => hc ((h.mem _ c).mpr ⟨ha, hk⟩)
    obtain ⟨l, hsub, hl⟩ := (h.seg _).suffix ((h.mem _ c).mpr ⟨ha, rfl⟩)
    refine ⟨l, hl, List.find?_eq_none.mpr fun y hy hready => ?_⟩
    have hstate : s.state y = .readyToRun := (of_decide_eq_true hready).1
    have hlist := ((h.mem _ y).mp (hsub hy)).2
    rw [hstate] at hlist
    exact hk hlist.symm

/-- A pass that does not come to `t` goes at least one place on. -/
lemma Lists.pass (h : Lists s lists) (hsplit : lists .runnable = before ++ t :: behind) (ht : Waiting s t) (cpu : ℕ) :
    ∃ next, (∀ᶠ fuel in atTop, getNextThread s fuel
      (match s.runningThread cpu with
        | some c => s.next c
        | none => s.head .runnable) = some next) ∧
      (next ≠ some t → distance before behind t next < distance before behind t (s.runningThread cpu)) := by
  have hseg := h.seg .runnable
  have hl := h.nodup .runnable
  rw [hsplit] at hseg hl
  have hready : ready s t = true := decide_eq_true ht
  cases s.runningThread cpu with
  | none => exact ⟨_, getNextThread_find hseg, fun hne => distance_front hready hne⟩
  | some c =>
    by_cases hin : c ∈ before
    · obtain ⟨front, l, rfl⟩ := List.append_of_mem hin
      rw [List.append_assoc, List.cons_append, seg_append] at hseg
      obtain ⟨b, -, rfl, hrest⟩ := hseg
      exact ⟨_, getNextThread_find hrest,
        fun hne => distance_before (List.nodup_append.mp hl).1 hready hne⟩
    · by_cases hcr : c ∈ lists .runnable
      · have hcb : c ∈ t :: behind := by
          rw [hsplit, List.mem_append] at hcr
          exact hcr.resolve_left hin
        obtain ⟨front, l, hbehind⟩ := List.append_of_mem hcb
        rw [hbehind, seg_append] at hseg
        obtain ⟨b, -, hrest⟩ := hseg
        rw [seg_append] at hrest
        obtain ⟨b', -, rfl, hrest⟩ := hrest
        exact ⟨_, getNextThread_find hrest, fun _ => distance_behind hbehind hl⟩
      · obtain ⟨l, hrest, hnone⟩ := h.find_none hcr
        have hct : c ∉ t :: behind := fun hcb => hcr (by rw [hsplit]; exact List.mem_append_right _ hcb)
        refine ⟨none, hnone ▸ getNextThread_find hrest, fun _ => ?_⟩
        simp only [distance, if_neg hin, placesFrom_of_notMem hct]
        omega

/-- What `thread_management_lock` guards, seen from the list of runnable threads: at most one thread comes back. -/
lemma Lists.managed (h : Lists s lists) (hpet : ℕ → ℕ) : ∃ s' lists',
    (∀ᶠ fuel in atTop, ((wakeSleepers fuel hpet fuel s (s.head .blocking)).bind fun s =>
      reapZombies fuel fuel s (s.head .zombie)) = some s') ∧ Lists s' lists' ∧
    s'.runningThread = s.runningThread ∧ s'.locked = s.locked ∧
    (∀ x, s.state x ≠ .sleeping → s'.state x = s.state x) ∧
    ((lists' .runnable = lists .runnable ∧ lists' .blocking = lists .blocking) ∨
      ∃ w ∈ lists .blocking,
        lists' .runnable = lists .runnable ++ [w] ∧ lists' .blocking = (lists .blocking).erase w) := by
  obtain ⟨s1, lists1, hwake, h1, -, -, hrun1, hlock1, hstate1, hcase⟩ := h.wake hpet (h.seg .blocking) fun _ hx => hx
  obtain ⟨s2, lists2, hreap, h2, -, hrun2, hlock2, hstate2, hsame⟩ := h1.reap
  refine ⟨s2, lists2, ?_, h2, hrun2.trans hrun1, hlock2.trans hlock1, fun x hx => ?_, ?_⟩
  · filter_upwards [hwake, hreap, eventually_gt_atTop (lists .blocking).length] with fuel e1 e2 e3
    rw [e1 fuel e3, Option.bind_some, e2]
  · rw [hstate2, hstate1 x hx]
  · rw [hsame .runnable (by decide), hsame .blocking (by decide)]
    rcases hcase with rfl | ⟨w, hw, rfl⟩
    · exact Or.inl ⟨rfl, rfl⟩
    · refine Or.inr ⟨w, hw, ?_, ?_⟩
      · rw [transfer, Function.update_self, Function.update_of_ne (by decide)]
      · rw [transfer, Function.update_of_ne (by decide), Function.update_self]

/-- The passes of one processor. -/
def isPass (cpu : ℕ) : Event → Bool
  | .schedule c _ _ => c = cpu
  | _ => false

/-- Events after which one more thread may come to the end of the list. -/
def brings : Event → Bool
  | .enqueue _ => true
  | .sleep .. => true
  | _ => false

lemma switch_running (s : Scheduler) (cpu : ℕ) (current next : Option ℕ) :
    (enterThread (leaveThread (lockThread s next) current) cpu next).runningThread =
      Function.update s.runningThread cpu next := by
  cases current <;> cases next <;> rfl

lemma switch_taken (s : Scheduler) (cpu : ℕ) (current : Option ℕ) (t : ℕ) :
    (enterThread (leaveThread (lockThread s (some t)) current) cpu (some t)).state t = .running :=
  Function.update_self ..

/-- The lists after a step in which nobody takes `t`, and how long it may still wait. -/
structure After (s' : Scheduler) (t cpu : ℕ) (bound : ℕ) : Prop where
  after : ∃ lists before behind, Lists s' lists ∧ lists .runnable = before ++ t :: behind ∧
    patience before behind t (s'.runningThread cpu) (lists .blocking).length ≤ bound

lemma Lists.after_managed (h : Lists s lists) (hsplit : lists .runnable = before ++ t :: behind) (hw : Waiting s t)
    (managed : Bool) (hpet : ℕ → ℕ) (cpu : ℕ) : ∃ s1,
    (∀ᶠ fuel in atTop, (if managed then
      (wakeSleepers fuel hpet fuel s (s.head .blocking)).bind fun s => reapZombies fuel fuel s (s.head .zombie)
      else some s) = some s1) ∧ Waiting s1 t ∧
      After s1 t cpu (patience before behind t (s.runningThread cpu) (lists .blocking).length) := by
  cases managed with
  | false => exact ⟨s, .of_forall fun _ => rfl, hw, ⟨lists, before, behind, h, hsplit, le_rfl⟩⟩
  | true =>
    obtain ⟨s1, lists1, hev, h1, hrun, hlock, hstate, hcase⟩ := h.managed hpet
    have hawake : s.state t ≠ .sleeping := by
      rw [hw.1]
      decide
    refine ⟨s1, by simpa using hev, ⟨(hstate t hawake).trans hw.1, (congrFun hlock t).trans hw.2⟩, ?_⟩
    rcases hcase with ⟨hr, hb⟩ | ⟨w, hw, hr, hb⟩
    · refine ⟨lists1, before, behind, h1, hr.trans hsplit, ?_⟩
      rw [hrun, hb]
    · refine ⟨lists1, before, behind ++ [w], h1, by rw [hr, hsplit, List.append_assoc, List.cons_append], ?_⟩
      have hlen := List.length_pos_of_mem hw
      have hle := patience_append w before behind t (s.runningThread cpu) ((lists .blocking).erase w).length
      rw [hrun, hb]
      rw [List.length_erase_of_mem hw, patience] at hle ⊢
      rw [patience] at hle ⊢
      omega

lemma Lists.after_schedule (h : Lists s lists) (hsplit : lists .runnable = before ++ t :: behind) (hw : Waiting s t)
    {c : ℕ} {managed : Bool} {hpet : ℕ → ℕ} (hstep : Step s (.schedule c managed hpet) s') (hw' : Waiting s' t)
    (cpu : ℕ) : ∃ n, After s' t cpu n ∧ (isPass cpu (.schedule c managed hpet)).toNat + n ≤
      patience before behind t (s.runningThread cpu) (lists .blocking).length := by
  obtain ⟨s1, hev1, hw1, ⟨lists1, before1, behind1, h1, hsplit1, hle⟩⟩ := h.after_managed hsplit hw managed hpet cpu
  obtain ⟨next, hev2, hdist⟩ := h1.pass hsplit1 hw1 c
  obtain ⟨next', hev3, hl⟩ := h1.pick c
  obtain rfl : next' = next := by
    obtain ⟨fuel, e2, e3⟩ := (hev2.and hev3).exists
    exact Option.some.inj (e3.symm.trans e2)
  obtain rfl : s' = enterThread (leaveThread (lockThread s1 next') (s1.runningThread c)) c next' := by
    refine eventually_some_unique ?_ hstep.2
    filter_upwards [hev1, hev2] with fuel e1 e2
    rw [Sched.perform, Sched.schedule, e1, Option.bind_some]
    exact congrArg (Option.map _) e2
  have hne : next' ≠ some t := by
    rintro rfl
    exact absurd ((switch_taken s1 c _ t).symm.trans hw'.1) (by decide)
  refine ⟨_, ⟨lists1, before1, behind1, hl, hsplit1, le_rfl⟩, le_trans ?_ hle⟩
  rw [switch_running, isPass]
  by_cases hc : c = cpu
  · subst hc
    have hlt := hdist hne
    rw [Function.update_self, patience, patience]
    simp only [decide_true, Bool.toNat_true]
    omega
  · rw [Function.update_of_ne (Ne.symm hc)]
    simp [hc]

/-- One step while `t` waits. -/
lemma Lists.after_step (h : Lists s lists) (hsplit : lists .runnable = before ++ t :: behind) (hw : Waiting s t)
    (hstep : Step s e s') (hturn : InTurn s e) (hw' : Waiting s' t) (cpu : ℕ) :
    ∃ n, After s' t cpu n ∧ (isPass cpu e).toNat + n ≤
      patience before behind t (s.runningThread cpu) (lists .blocking).length + 2 * (brings e).toNat := by
  have hl := h.nodup .runnable
  rw [hsplit] at hl
  cases e with
  | enqueue x =>
    obtain ⟨s1, hev, h1, hrun⟩ := h.enqueue hstep.1
    obtain rfl := eventually_some_unique hev hstep.2
    refine ⟨_, ⟨_, before, behind ++ [x], h1, ?_, le_rfl⟩, ?_⟩
    · rw [Function.update_self, hsplit, List.append_assoc, List.cons_append]
    · have hle := patience_append x before behind t (s.runningThread cpu) (lists .blocking).length
      rw [hrun, Function.update_of_ne (by decide)]
      simp only [isPass, brings, Bool.toNat_false, Bool.toNat_true]
      omega
  | dequeue x =>
    obtain ⟨s1, hev, h1, hrun, hstate⟩ := h.dequeue hstep.1 hturn
    obtain rfl := eventually_some_unique hev hstep.2
    have hx : x ≠ t := by
      rintro rfl
      exact absurd (hstate.symm.trans hw'.1) (by decide)
    refine ⟨_, ⟨_, before.erase x, behind.erase x, h1, ?_, le_rfl⟩, ?_⟩
    · rw [transfer, Function.update_of_ne (by decide), Function.update_self, hsplit, erase_split hl hx]
    · have hle := patience_erase hl hx (s.runningThread cpu) (lists .blocking).length
      rw [hrun, transfer, Function.update_of_ne (by decide), Function.update_of_ne (by decide)]
      simpa [isPass, brings] using hle
  | sleep x wakeAt =>
    obtain ⟨s1, hev, h1, hrun, hstate⟩ := h.sleep hstep.1.1 hstep.1.2 wakeAt
    obtain rfl := eventually_some_unique hev hstep.2
    have hx : x ≠ t := by
      rintro rfl
      exact absurd (hstate.symm.trans hw'.1) (by decide)
    refine ⟨_, ⟨_, before.erase x, behind.erase x, h1, ?_, le_rfl⟩, ?_⟩
    · rw [transfer, Function.update_of_ne (by decide), Function.update_self, hsplit, erase_split hl hx]
    · have hle := patience_erase hl hx (s.runningThread cpu) (lists .blocking).length
      rw [patience, patience] at hle
      rw [hrun, transfer, Function.update_self, Function.update_of_ne (by decide), List.length_append, patience,
        patience]
      simp only [isPass, brings, Bool.toNat_false, Bool.toNat_true, List.length_singleton]
      omega
  | schedule c managed hpet =>
    obtain ⟨n, hafter, hle⟩ := h.after_schedule hsplit hw hstep hw' cpu
    exact ⟨n, hafter, hle.trans (Nat.le_add_right ..)⟩

lemma Lists.after_run (h : Lists s lists) (hsplit : lists .runnable = before ++ t :: behind) (hw : Waiting s t)
    (hrun : Run (fun s e s' => Step s e s' ∧ InTurn s e ∧ Waiting s' t) s events s') (cpu : ℕ) :
    events.countP (isPass cpu) ≤
      patience before behind t (s.runningThread cpu) (lists .blocking).length + 2 * events.countP brings := by
  induction hrun generalizing lists before behind with
  | nil s => exact Nat.zero_le _
  | @cons s u s' e events hstep _ ih =>
    obtain ⟨hstep, hturn, hw'⟩ := hstep
    obtain ⟨n, ⟨lists', before', behind', h', hsplit', hn⟩, hle⟩ := h.after_step hsplit hw hstep hturn hw' cpu
    have hrest := ih h' hsplit' hw'
    have hcount : ∀ p : Event → Bool, (e :: events).countP p = events.countP p + (p e).toNat := by
      intro p
      rw [List.countP_cons]
      cases p e <;> rfl
    rw [hcount, hcount]
    omega

end Passes

def twoThreads : Scheduler :=
  { threadCreate oneThread 2 with
    next := Function.update (threadCreate oneThread 2).next 1 (some 2)
    head := Function.update oneThread.head .runnable (some 1) }

def firstRuns : Scheduler := enterThread (lockThread twoThreads (some 1)) 0 (some 1)

def secondRuns : Scheduler := enterThread (leaveThread (lockThread firstRuns (some 2)) (some 1)) 0 (some 2)

def noneRuns : Scheduler := enterThread (leaveThread secondRuns (some 2)) 0 none

end PiggyOs.Sched
