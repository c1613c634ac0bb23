import Mathlib.Data.Set.Card
import PiggyOs.OpenCalls
import PiggyOs.Transition

/-! The counters of the descriptors and of the nodes over whole runs of system calls. -/
namespace PiggyOs.Descriptors
open ByteMemory Tmpfs Fork VfsTree Transition
open FileCalls (eperm ebadf efault einval emfile oPath oTrunc oCreat fileFlagsMask)

variable {s s' s1 : Sys} {process child p q node : ℕ} {fdnum ret : ℤ} {fd fd' : FileDescriptor} {c : Call} {f : BitVec 32}

/-- The slots of all processes that point to the object. -/
def Sys.slotsOf (s : Sys) (p : ℕ) : Set (ℕ × Fin maxFds) := {x | s.tables x.1 x.2 = some p}

def Sys.objectsOn (s : Sys) (node : ℕ) : Set ℕ := {p | ∃ fd, s.fds p = some fd ∧ fd.node = node}

structure Exact (s : Sys) : Prop where
  counted : ∀ p fd, s.fds p = some fd → (s.slotsOf p).encard = fd.refcount
  live : ∀ p, s.fds p ≠ none ↔ (s.slotsOf p).Nonempty
  nodes : ∀ node, (s.objectsOn node).encard = s.refcount node

section Exactness

lemma Exact.live_of_slot {i : Fin maxFds} (h : Exact s) (hp : s.tables process i = some p) : ∃ fd, s.fds p = some fd := by
  have hlive : s.fds p ≠ none := (h.live p).mpr ⟨(process, i), hp⟩
  exact Option.ne_none_iff_exists'.mp hlive

lemma Exact.live_of_object (h : Exact s) (hp : s.object process fdnum = some p) : ∃ fd, s.fds p = some fd := by
  obtain ⟨i, -, hi⟩ := Option.bind_eq_some_iff.mp hp
  exact h.live_of_slot hi

lemma Exact.congr (h : Exact s) (hsame : SameCounters s s') : Exact s' := by
  have hslots : s'.slotsOf = s.slotsOf := by
    funext p
    rw [Sys.slotsOf, Sys.slotsOf, hsame.tables]
  have hobjects : s'.objectsOn = s.objectsOn := by
    funext node
    rw [Sys.objectsOn, Sys.objectsOn, hsame.fds]
  refine ⟨fun p fd hfd => ?_, fun p => ?_, fun node => ?_⟩
  · rw [hslots]
    exact h.counted p fd (hsame.fds ▸ hfd)
  · rw [hslots, hsame.fds]
    exact h.live p
  · rw [hobjects, hsame.refcount]
    exact h.nodes node

/-- An object that is counted once more without a further slot. -/
lemma not_exact_of_counted (h : Exact s) (hfd : s.fds p = some fd) (hfd' : s'.fds p = some fd')
    (hlt : fd.refcount < fd'.refcount) (hslots : s'.slotsOf p ⊆ s.slotsOf p) : ¬Exact s' := by
  intro h'
  have hle : (fd'.refcount : ℕ∞) ≤ fd.refcount :=
    calc (fd'.refcount : ℕ∞) = (s'.slotsOf p).encard := (h'.counted p fd' hfd').symm
      _ ≤ (s.slotsOf p).encard := Set.encard_le_encard hslots
      _ = fd.refcount := h.counted p fd hfd
  exact absurd (Nat.cast_le.mp hle) (not_le.mpr hlt)

/-- An object that is gone while its node is still counted for it. -/
lemma not_exact_of_gone (h : Exact s) (hfd : s.fds p = some fd) (hgone : s'.fds p = none)
    (hfds : ∀ q, s'.fds q = none ∨ s'.fds q = s.fds q) (hrefcount : s'.refcount = s.refcount) : ¬Exact s' := by
  intro h'
  have hsub : s'.objectsOn fd.node ⊂ s.objectsOn fd.node := by
    refine ⟨?_, fun hsup => ?_⟩
    · rintro q ⟨fdq, hq, hnode⟩
      rcases hfds q with hnone | hsame
      · rw [hnone] at hq
        exact absurd hq (by simp)
      · exact ⟨fdq, hsame ▸ hq, hnode⟩
    · obtain ⟨fdp, hp, -⟩ := hsup ⟨fd, hfd, rfl⟩
      rw [hgone] at hp
      exact absurd hp (by simp)
  have hfinite : (s'.objectsOn fd.node).Finite := by
    refine Set.finite_of_encard_eq_coe (h'.nodes fd.node)
  have hlt := hfinite.encard_lt_encard hsub
  rw [h'.nodes, h.nodes, hrefcount] at hlt
  exact lt_irrefl _ hlt

lemma Used.not_exact (h : Used s p fd f s') (hexact : Exact s) (hfd : s.fds p = some fd) : ¬Exact s' := by
  obtain ⟨fd', hfds, -, hcount, -⟩ := h.fds
  have hfd' : s'.fds p = some fd' := by rw [hfds, Function.update_self]
  refine not_exact_of_counted hexact hfd hfd' (by omega) ?_
  rw [Sys.slotsOf, h.tables]
  exact subset_rfl

lemma setSlot_tables (s : Sys) (process : ℕ) (i : Fin maxFds) (p : Option ℕ) (process' : ℕ) (j : Fin maxFds) :
    (s.setSlot process i p).tables process' j = if process' = process ∧ j = i then p else s.tables process' j := by
  by_cases hprocess : process' = process
  · subst hprocess
    by_cases hj : j = i
    · simp [Sys.setSlot, hj]
    · simp [Sys.setSlot, hj]
  · simp [Sys.setSlot, hprocess]

/-- A new object in a slot that was free, and on a node that is counted for it. -/
lemma Exact.opened {i : Fin maxFds} (h : Exact s) (hp : s.fds p = none) (hslot : s.tables process i = none)
    (hnode : fd.node = node) (hcount : fd.refcount = 1) : Exact (opened s process node p i fd) := by
  have hempty : ∀ process j, s.tables process j ≠ some p := fun process j hj =>
    absurd hp ((h.live p).mpr ⟨(process, j), hj⟩)
  have htables : ∀ process' j, (Descriptors.opened s process node p i fd).tables process' j =
      if process' = process ∧ j = i then some p else s.tables process' j := setSlot_tables _ process i (some p)
  have hslots : ∀ q, q ≠ p → (Descriptors.opened s process node p i fd).slotsOf q = s.slotsOf q := by
    intro q hq
    ext ⟨process', j⟩
    change (Descriptors.opened s process node p i fd).tables process' j = some q ↔ s.tables process' j = some q
    rw [htables]
    split_ifs with heq
    · rw [heq.1, heq.2, hslot]
      simp [hq.symm]
    · rfl
  have hself : (Descriptors.opened s process node p i fd).slotsOf p = {(process, i)} := by
    ext ⟨process', j⟩
    change (Descriptors.opened s process node p i fd).tables process' j = some p ↔ _
    rw [htables, Set.mem_singleton_iff, Prod.mk.injEq]
    split_ifs with heq
    · simp [heq]
    · simp [heq, hempty]
  have hfds : (Descriptors.opened s process node p i fd).fds = Function.update s.fds p (some fd) := rfl
  refine ⟨fun q fdq hq => ?_, fun q => ?_, fun node' => ?_⟩
  · rw [hfds] at hq
    by_cases hqp : q = p
    · rw [hqp, Function.update_self] at hq
      obtain rfl := Option.some.inj hq
      rw [hqp, hself, Set.encard_singleton, hcount]
      rfl
    · rw [Function.update_of_ne hqp] at hq
      rw [hslots q hqp]
      exact h.counted q fdq hq
  · rw [hfds]
    by_cases hqp : q = p
    · rw [hqp, Function.update_self, hself]
      simp
    · rw [Function.update_of_ne hqp, hslots q hqp]
      exact h.live q
  · have hrefcount : (Descriptors.opened s process node p i fd).refcount node' =
        if node' = node then s.refcount node + 1 else s.refcount node' := Function.update_apply ..
    rw [hrefcount]
    split_ifs with heq
    · have hobjects : (Descriptors.opened s process node p i fd).objectsOn node' = insert p (s.objectsOn node) := by
        ext q
        change (∃ fdq, (Function.update s.fds p (some fd)) q = some fdq ∧ fdq.node = node') ↔ _
        by_cases hqp : q = p
        · simp [hqp, hnode, heq]
        · simp [hqp, heq, Sys.objectsOn]
      have hnew : p ∉ s.objectsOn node := by
        rintro ⟨fdp, hfdp, -⟩
        rw [hp] at hfdp
        exact absurd hfdp (by simp)
      rw [hobjects, Set.encard_insert_of_notMem hnew, h.nodes]
      rfl
    · have hobjects : (Descriptors.opened s process node p i fd).objectsOn node' = s.objectsOn node' := by
        ext q
        change (∃ fdq, (Function.update s.fds p (some fd)) q = some fdq ∧ fdq.node = node') ↔ _
        by_cases hqp : q = p
        · simp [hqp, hnode, Ne.symm heq, Sys.objectsOn, hp]
        · simp [Function.update_of_ne hqp, Sys.objectsOn]
      rw [hobjects, h.nodes]

end Exactness

section Closing

/-- Every object has one reference. -/
def Single (s : Sys) : Prop := ∀ p fd, s.fds p = some fd → fd.refcount = 1

/-- Objects have been freed, and nothing else has happened to them and to the counters of the nodes. -/
structure Shrinks (s s' : Sys) : Prop where
  fds : ∀ q, s'.fds q = none ∨ s'.fds q = s.fds q
  refcount : s'.refcount = s.refcount

lemma Shrinks.refl (s : Sys) : Shrinks s s := ⟨fun _ => Or.inr rfl, rfl⟩

lemma Shrinks.trans (h : Shrinks s s1) (h' : Shrinks s1 s') : Shrinks s s' := by
  refine ⟨fun q => ?_, h'.refcount.trans h.refcount⟩
  rcases h'.fds q with hnone | hsame
  · exact Or.inl hnone
  · rw [hsame]
    exact h.fds q

lemma Shrinks.single (h : Shrinks s s') (hs : Single s) : Single s' := by
  intro p fd hp
  rcases h.fds p with hnone | hsame
  · rw [hnone] at hp
    exact absurd hp (by simp)
  · exact hs p fd (hsame ▸ hp)

/-- The last reference frees the object. -/
lemma release_single (hs : Single s) (p : ℕ) : (s.fds p).bind release = none := by
  cases hp : s.fds p with
  | none => rfl
  | some fd => rw [Option.bind_some, release, if_pos (hs p fd hp)]

lemma fdClose_of_none (h : s.object process fdnum = none) : fdClose s process fdnum = (-ebadf, s) := by
  rw [fdClose]
  cases hslot : slot fdnum with
  | none => rfl
  | some i =>
    rw [Sys.object, hslot, Option.bind_some] at h
    dsimp only
    rw [h]

lemma fdClose_of_some {i : Fin maxFds} (hslot : slot fdnum = some i) (hp : s.tables process i = some p) :
    fdClose s process fdnum = (0, (s.setFd p ((s.fds p).bind release)).setSlot process i none) := by
  rw [fdClose, hslot]
  dsimp only
  rw [hp]

lemma fdClose_shrinks (hs : Single s) (process : ℕ) (fdnum : ℤ) : Shrinks s (fdClose s process fdnum).2 := by
  cases hp : s.object process fdnum with
  | none =>
    rw [fdClose_of_none hp]
    exact .refl s
  | some p =>
    obtain ⟨i, hslot, hi⟩ := Option.bind_eq_some_iff.mp hp
    rw [fdClose_of_some hslot hi, release_single hs]
    refine ⟨fun q => ?_, rfl⟩
    change Function.update s.fds p none q = none ∨ Function.update s.fds p none q = s.fds q
    by_cases hq : q = p
    · exact Or.inl (by rw [hq, Function.update_self])
    · exact Or.inr (Function.update_of_ne hq ..)

lemma fdClose_gone (hs : Single s) (hp : s.object process fdnum = some p) : (fdClose s process fdnum).2.fds p = none := by
  obtain ⟨i, hslot, hi⟩ := Option.bind_eq_some_iff.mp hp
  rw [fdClose_of_some hslot hi, release_single hs]
  exact Function.update_self ..

/-- Closing one slot leaves the others of the table alone. -/
lemma fdClose_tables (s : Sys) (process : ℕ) {i j : Fin maxFds} (h : j ≠ i) :
    (fdClose s process i.val).2.tables process j = s.tables process j := by
  cases hp : s.tables process i with
  | none =>
    rw [fdClose_of_none ((object_val s process i).trans hp)]
  | some p =>
    rw [fdClose_of_some (slot_val i) hp, setSlot_tables, if_neg fun heq => h heq.2]
    rfl

lemma closeSlots_shrinks (hs : Single s) (process : ℕ) (is : List (Fin maxFds)) :
    Shrinks s (is.foldl (fun s i => (fdClose s process i.val).2) s) := by
  induction is generalizing s with
  | nil => exact .refl s
  | cons i is ih =>
    have hfirst := fdClose_shrinks hs process i.val
    exact hfirst.trans (ih (hfirst.single hs))

lemma closeSlots_gone {i : Fin maxFds} {is : List (Fin maxFds)} (hs : Single s) (hi : i ∈ is)
    (hp : s.tables process i = some p) : (is.foldl (fun s i => (fdClose s process i.val).2) s).fds p = none := by
  induction is generalizing s with
  | nil => simp at hi
  | cons j is ih =>
    have hfirst := fdClose_shrinks hs process j.val
    by_cases hij : i = j
    · subst hij
      have hgone := fdClose_gone hs ((object_val s process i).trans hp)
      rcases (closeSlots_shrinks (hfirst.single hs) process is).fds p with hnone | hsame
      · exact hnone
      · exact hsame.trans hgone
    · refine ih (hfirst.single hs) ((List.mem_cons.mp hi).resolve_left hij) ?_
      rw [fdClose_tables s process hij, hp]

end Closing

section Duplicating
variable {mem : Option ℕ} {i : Fin maxFds} {is : List (Fin maxFds)}

/-- References have been added, and slots have been filled with new objects. -/
structure Grows (s s' : Sys) : Prop where
  fds : ∀ p fd, s.fds p = some fd → ∃ fd', s'.fds p = some fd' ∧ fd.refcount ≤ fd'.refcount
  slots : ∀ process i p, s.fds p ≠ none → s'.tables process i = some p → s.tables process i = some p

lemma Grows.refl (s : Sys) : Grows s s := ⟨fun _ fd hfd => ⟨fd, hfd, le_rfl⟩, fun _ _ _ _ h => h⟩

lemma Grows.live (h : Grows s s') (hp : s.fds p ≠ none) : s'.fds p ≠ none := by
  obtain ⟨fd, hfd⟩ := Option.ne_none_iff_exists'.mp hp
  obtain ⟨fd', hfd', -⟩ := h.fds p fd hfd
  simp [hfd']

lemma Grows.trans (h : Grows s s1) (h' : Grows s1 s') : Grows s s' := by
  refine ⟨fun p fd hfd => ?_, fun process i p hp hi => ?_⟩
  · obtain ⟨fd1, hfd1, hle⟩ := h.fds p fd hfd
    obtain ⟨fd', hfd', hle'⟩ := h'.fds p fd1 hfd1
    exact ⟨fd', hfd', hle.trans hle'⟩
  · exact h.slots process i p hp (h'.slots process i p (h.live hp) hi)

lemma Grows.addReference (h : Grows s s1) (q : ℕ) : Grows s (s1.addReference q) := by
  refine ⟨fun p fd hfd => ?_, h.slots⟩
  obtain ⟨fd1, hfd1, hle⟩ := h.fds p fd hfd
  by_cases hpq : p = q
  · subst hpq
    exact ⟨_, addReference_fds hfd1, Nat.le_succ_of_le hle⟩
  · exact ⟨fd1, (setFd_fds_of_ne s1 _ hpq).trans hfd1, hle⟩

lemma Grows.setFd (h : Grows s s1) (hq : s.fds q = none) (fd : Option FileDescriptor) : Grows s (s1.setFd q fd) := by
  refine ⟨fun p fd hfd => ?_, h.slots⟩
  have hpq : p ≠ q := by
    rintro rfl
    rw [hq] at hfd
    exact absurd hfd (by simp)
  rw [setFd_fds_of_ne s1 _ hpq]
  exact h.fds p fd hfd

lemma Grows.setSlot (h : Grows s s1) (hq : s.fds q = none) (process : ℕ) (i : Fin maxFds) :
    Grows s (s1.setSlot process i (some q)) := by
  refine ⟨h.fds, fun process' j p hp hj => ?_⟩
  rw [setSlot_tables] at hj
  split_ifs at hj
  · obtain rfl := Option.some.inj hj
    exact absurd hq hp
  · exact h.slots process' j p hp hj

lemma Grows.not_exact (h : Grows (s.addReference p) s') (hexact : Exact s) (hfd : s.fds p = some fd) : ¬Exact s' := by
  obtain ⟨fd', hfd', hle⟩ := h.fds p _ (addReference_fds hfd)
  refine not_exact_of_counted hexact hfd hfd' (Nat.lt_of_succ_le hle) ?_
  rintro ⟨process, i⟩ hi
  exact h.slots process i p (by simp [addReference_fds hfd]) hi

/-- `fd_dup` as `fcntl` calls it. -/
lemma fdDup_grows {newFdnum : ℤ} {cloexec : Bool} (hp : s.object process fdnum = some p) (hfd : s.fds p = some fd)
    (hmem : ∀ q, mem = some q → s.fds q = none)
    (h : fdDup s process fdnum process newFdnum false cloexec mem = some (ret, s')) : Grows s s' := by
  have hbase : Grows s (s.addReference p) := (Grows.refl s).addReference p
  unfold fdDup at h
  by_cases hsame : fdnum = newFdnum ∧ process = process
  · rw [if_pos hsame] at h
    obtain ⟨-, rfl⟩ := Prod.mk.inj (Option.some.inj h)
    exact .refl s
  rw [if_neg hsame, fdFromFdnum_of_some hp] at h
  dsimp only at h
  rw [addReference_fds hfd, Option.bind_some] at h
  cases mem with
  | none =>
    obtain ⟨-, rfl⟩ := Prod.mk.inj (Option.some.inj h)
    exact hbase
  | some q =>
    have hq := hmem q rfl
    dsimp only at h
    rw [if_pos (by decide)] at h
    by_cases hneg : newFdnum < 0
    · rw [if_pos hneg] at h
      exact absurd h (by simp)
    rw [if_neg hneg] at h
    split at h
    · obtain ⟨-, rfl⟩ := Prod.mk.inj (Option.some.inj h)
      exact (hbase.setFd hq _).addReference p
    · rename_i j _
      by_cases hlast : j.val = maxFds - 1
      · rw [if_pos hlast] at h
        obtain ⟨-, rfl⟩ := Prod.mk.inj (Option.some.inj h)
        exact (hbase.setFd hq _).setSlot hq _ _
      · rw [if_neg hlast] at h
        obtain ⟨-, rfl⟩ := Prod.mk.inj (Option.some.inj h)
        exact ((hbase.setFd hq _).setSlot hq _ _).addReference p

/-- `fd_dup` as `process_create` calls it. -/
lemma fdDup_exact (hp : s.tables process i = some p) (hfd : s.fds p = some fd) (hne : child ≠ process)
    (hempty : s.tables child i = none) (mem : Option ℕ) : fdDup s process i.val child i.val true false mem =
      some (match mem with
        | none => (-enomem, s.addReference p)
        | some q => (i.val, (((s.addReference p).setFd q (some { fd with refcount := fd.refcount + 1 })).setSlot
            child i (some q)).addReference p)) := by
  unfold fdDup
  rw [if_neg fun h => hne h.2.symm, fdFromFdnum_of_some ((object_val s process i).trans hp)]
  dsimp only
  rw [addReference_fds hfd, Option.bind_some]
  cases mem with
  | none => rfl
  | some q => simp [slot_val, hempty, Sys.addReference]

/-- What the loop of `process_create` needs for the slots that are left. -/
structure Copyable (process child : ℕ) (mem : Fin maxFds → Option ℕ) (is : List (Fin maxFds)) (s : Sys) : Prop where
  live : ∀ i p, s.tables process i = some p → s.fds p ≠ none
  empty : ∀ i ∈ is, s.tables child i = none
  fresh : ∀ i ∈ is, ∀ q, mem i = some q → s.fds q = none

lemma Copyable.tail {mem : Fin maxFds → Option ℕ} (h : Copyable process child mem (i :: is) s) :
    Copyable process child mem is s :=
  ⟨h.live, fun j hj => h.empty j (List.mem_cons_of_mem _ hj), fun j hj => h.fresh j (List.mem_cons_of_mem _ hj)⟩

/-- A slot has been copied. -/
lemma Copyable.copied {mem : Fin maxFds → Option ℕ} (h : Copyable process child mem (i :: is) s)
    (hinj : ∀ i j q, mem i = some q → mem j = some q → i = j) (hi : i ∉ is) (hne : child ≠ process)
    (hfd : s.fds p = some fd) (hq : mem i = some q) (fdq : FileDescriptor) :
    Copyable process child mem is ((((s.addReference p).setFd q (some fdq)).setSlot child i (some q)).addReference p) := by
  have hgrows : Grows s ((((s.addReference p).setFd q (some fdq)).setSlot child i (some q)).addReference p) := by
    have hfresh := h.fresh i List.mem_cons_self q hq
    exact ((((Grows.refl s).addReference p).setFd hfresh _).setSlot hfresh child i).addReference p
  refine ⟨fun j p' hj => hgrows.live (h.live j p' ?_), fun j hj => ?_, fun j hj q' hq' => ?_⟩
  · change (((s.addReference p).setFd q (some fdq)).setSlot child i (some q)).tables process j = some p' at hj
    rwa [setSlot_tables, if_neg fun heq => hne heq.1.symm] at hj
  · change (((s.addReference p).setFd q (some fdq)).setSlot child i (some q)).tables child j = none
    have hji : ¬(child = child ∧ j = i) := by
      rintro ⟨-, rfl⟩
      exact hi hj
    rw [setSlot_tables, if_neg hji]
    exact h.empty j (List.mem_cons_of_mem _ hj)
  · have hnone := h.fresh j (List.mem_cons_of_mem _ hj) q' hq'
    have hqq : q' ≠ q := by
      rintro rfl
      exact hi (hinj i j q' hq hq' ▸ hj)
    have hqp : q' ≠ p := by
      rintro rfl
      rw [hfd] at hnone
      exact absurd hnone (by simp)
    calc _ = ((s.addReference p).setFd q (some fdq)).fds q' := setFd_fds_of_ne _ _ hqp
      _ = (s.addReference p).fds q' := setFd_fds_of_ne _ _ hqq
      _ = s.fds q' := setFd_fds_of_ne _ _ hqp
      _ = none := hnone

/-- A slot that is open costs its object a reference. -/
lemma dupSlots_cons {mem : Fin maxFds → Option ℕ} {copied : Bool} (h : Copyable process child mem (i :: is) s)
    (hinj : ∀ i j q, mem i = some q → mem j = some q → i = j) (hi : i ∉ is) (hne : child ≠ process)
    (hp : s.tables process i = some p) (hcall : dupSlots process child mem (i :: is) s = some (copied, s')) :
    s' = s.addReference p ∨ ∃ t, Grows (s.addReference p) t ∧ Copyable process child mem is t ∧
      dupSlots process child mem is t = some (copied, s') := by
  obtain ⟨fd, hfd⟩ := Option.ne_none_iff_exists'.mp (h.live i p hp)
  rw [dupSlots, if_neg (by simp [hp]), fdDup_exact hp hfd hne (h.empty i List.mem_cons_self), Option.bind_some] at hcall
  cases hq : mem i with
  | none =>
    rw [hq] at hcall
    obtain ⟨-, rfl⟩ := Prod.mk.inj (Option.some.inj hcall)
    exact Or.inl rfl
  | some q =>
    rw [hq] at hcall
    dsimp only at hcall
    rw [if_neg (by omega)] at hcall
    refine Or.inr ⟨_, ?_, h.copied hinj hi hne hfd hq _, hcall⟩
    have hfresh : (s.addReference p).fds q = none := by
      have hnone := h.fresh i List.mem_cons_self q hq
      rw [Sys.addReference, setFd_fds_of_ne, hnone]
      rintro rfl
      rw [hfd] at hnone
      exact absurd hnone (by simp)
    exact (((Grows.refl _).setFd hfresh _).setSlot hfresh child i).addReference p

lemma dupSlots_grows {mem : Fin maxFds → Option ℕ} {copied : Bool} (h : Copyable process child mem is s)
    (hinj : ∀ i j q, mem i = some q → mem j = some q → i = j) (hnodup : is.Nodup) (hne : child ≠ process)
    (hcall : dupSlots process child mem is s = some (copied, s')) : Grows s s' := by
  induction is generalizing s with
  | nil =>
    obtain ⟨-, rfl⟩ := Prod.mk.inj (Option.some.inj hcall)
    exact .refl s
  | cons i is ih =>
    obtain ⟨hi, hnodup⟩ := List.nodup_cons.mp hnodup
    cases hp : s.tables process i with
    | none =>
      rw [dupSlots, if_pos hp] at hcall
      exact ih h.tail hnodup hcall
    | some p =>
      have hfirst : Grows s (s.addReference p) := (Grows.refl s).addReference p
      rcases dupSlots_cons h hinj hi hne hp hcall with rfl | ⟨t, hgrows, hcopyable, hrest⟩
      · exact hfirst
      · exact (hfirst.trans hgrows).trans (ih hcopyable hnodup hrest)

/-- Some object loses its exact counter. -/
lemma dupSlots_counts {mem : Fin maxFds → Option ℕ} {copied : Bool} (h : Copyable process child mem is s)
    (hinj : ∀ i j q, mem i = some q → mem j = some q → i = j) (hnodup : is.Nodup) (hne : child ≠ process)
    (hopen : ∃ i ∈ is, s.tables process i ≠ none) (hcall : dupSlots process child mem is s = some (copied, s')) :
    ∃ i p, s.tables process i = some p ∧ Grows (s.addReference p) s' := by
  induction is with
  | nil =>
    obtain ⟨i, hi, -⟩ := hopen
    simp at hi
  | cons i is ih =>
    obtain ⟨hi, hnodup⟩ := List.nodup_cons.mp hnodup
    cases hp : s.tables process i with
    | none =>
      rw [dupSlots, if_pos hp] at hcall
      refine ih h.tail hnodup ?_ hcall
      obtain ⟨j, hj, hopen⟩ := hopen
      refine ⟨j, (List.mem_cons.mp hj).resolve_left ?_, hopen⟩
      rintro rfl
      exact hopen hp
    | some p =>
      refine ⟨i, p, hp, ?_⟩
      rcases dupSlots_cons h hinj hi hne hp hcall with rfl | ⟨t, hgrows, hcopyable, hrest⟩
      · exact .refl _
      · exact hgrows.trans (dupSlots_grows hcopyable hinj hnodup hne hrest)

lemma dupSlots_none {mem : Fin maxFds → Option ℕ} (h : ∀ i, s.tables process i = none) (is : List (Fin maxFds)) :
    dupSlots process child mem is s = some (true, s) := by
  induction is with
  | nil => rfl
  | cons i is ih => rw [dupSlots, if_pos (h i), ih]

end Duplicating

section Runs

/-- `kmalloc` returns objects that are not allocated, and a new process has nothing open. -/
def Fresh (s : Sys) : Call → Prop
  | .openFile _ _ _ _ e => ∀ p, e.mem = some p → s.fds p = none
  | .fcntl _ _ _ _ mem => ∀ p, mem = some p → s.fds p = none
  | .fork process child mem => child ≠ process ∧ (∀ i, s.tables child i = none) ∧
      (∀ i p, mem i = some p → s.fds p = none) ∧ ∀ i j p, mem i = some p → mem j = some p → i = j
  | _ => True

def Calls (s : Sys) (c : Call) (s' : Sys) : Prop := Fresh s c ∧ ∃ ret, syscall s c = some (ret, s')

/-- The number that a call looks up, once its pointer has been checked. -/
def Call.looksUp : Call → Option (ℕ × ℤ)
  | .read process fdnum userPtr _ _ => if userPtr then some (process, fdnum) else none
  | .write process fdnum userPtr _ _ _ _ => if userPtr then some (process, fdnum) else none
  | .getdents process fdnum userPtr _ _ _ _ => if userPtr then some (process, fdnum) else none
  | .ioctl process fdnum _ => some (process, fdnum)
  | .seek process fdnum _ _ => some (process, fdnum)
  | .truncate process fdnum _ _ => some (process, fdnum)
  | .fcntl process fdnum _ _ _ => some (process, fdnum)
  | .fsync process fdnum _ => some (process, fdnum)
  | .stat process fdnum _ => some (process, fdnum)
  | .chdir process fdnum => some (process, fdnum)
  | .close process fdnum => some (process, fdnum)
  | .openFile .. => none
  | .fork .. => none
  | .exit _ => none

/-- The call meets no open descriptor. -/
def Untouched (s : Sys) : Call → Prop
  | .fork process _ _ => ∀ i, s.tables process i = none
  | .exit process => ∀ i, s.tables process i = none
  | c => ∀ process fdnum, c.looksUp = some (process, fdnum) → s.object process fdnum = none

/-- Files are in `tmpfs`, devices are not files. -/
def InTmpfs (s : Vfs) : Prop := ∀ node, sIsreg (s.nodes node).mode = true → (s.nodes node).fs = some .tmpfs

/-- Before the first system call. -/
structure Unopened (s : Sys) : Prop where
  fds : ∀ p, s.fds p = none
  tables : ∀ process i, s.tables process i = none
  refcount : ∀ node, s.refcount node = 0
  inTmpfs : InTmpfs s.vfs

structure Counted (s : Sys) : Prop where
  exact : Exact s
  single : Single s
  inTmpfs : InTmpfs s.vfs

lemma Unopened.counted (h : Unopened s) : Counted s := by
  refine ⟨⟨fun p fd hp => ?_, fun p => ?_, fun node => ?_⟩, fun p fd hp => ?_, h.inTmpfs⟩
  · rw [h.fds p] at hp
    exact absurd hp (by simp)
  · rw [h.fds p]
    refine iff_of_false (by simp) ?_
    rintro ⟨⟨process, i⟩, hi⟩
    exact absurd hi (by simp [Sys.slotsOf, h.tables])
  · have hempty : s.objectsOn node = ∅ := by
      ext p
      simp [Sys.objectsOn, h.fds]
    rw [hempty, h.refcount]
    simp
  · rw [h.fds p] at hp
    exact absurd hp (by simp)

/-- A number that is not open. -/
lemma syscall_of_none (hc : c.looksUp = some (process, fdnum)) (hp : s.object process fdnum = none)
    (hcall : syscall s c = some (ret, s')) : s' = s := by
  have hsame : ∀ n : ℤ, some (n, s) = some (ret, s') → s' = s := fun n h => (Prod.mk.inj (Option.some.inj h)).2.symm
  cases c with
  | read process' fdnum' userPtr count answer =>
    cases userPtr with
    | false => simp [Call.looksUp] at hc
    | true =>
      obtain ⟨rfl, rfl⟩ := Prod.mk.inj (Option.some.inj hc)
      exact hsame _ ((onOpenFd_of_none hp).symm.trans hcall)
  | write process' fdnum' userPtr buf stale count answer =>
    cases userPtr with
    | false => simp [Call.looksUp] at hc
    | true =>
      obtain ⟨rfl, rfl⟩ := Prod.mk.inj (Option.some.inj hc)
      exact hsame _ ((onOpenFd_of_none hp).symm.trans hcall)
  | getdents process' fdnum' userPtr mem buf count fuel =>
    cases userPtr with
    | false => simp [Call.looksUp] at hc
    | true =>
      obtain ⟨rfl, rfl⟩ := Prod.mk.inj (Option.some.inj hc)
      rw [syscall, syscallGetdents, if_neg (by decide), onFd_of_none hp] at hcall
      exact hsame _ hcall
  | close process' fdnum' =>
    obtain ⟨rfl, rfl⟩ := Prod.mk.inj (Option.some.inj hc)
    rw [syscall, fdClose_of_none hp] at hcall
    exact hsame _ hcall
  | stat process' fdnum' userPtr =>
    obtain ⟨rfl, rfl⟩ := Prod.mk.inj (Option.some.inj hc)
    exact hsame _ ((onFd_of_none hp).symm.trans hcall)
  | chdir process' fdnum' =>
    obtain ⟨rfl, rfl⟩ := Prod.mk.inj (Option.some.inj hc)
    exact hsame _ ((onFd_of_none hp).symm.trans hcall)
  | ioctl process' fdnum' answer =>
    obtain ⟨rfl, rfl⟩ := Prod.mk.inj (Option.some.inj hc)
    exact hsame _ ((onOpenFd_of_none hp).symm.trans hcall)
  | seek process' fdnum' offset whence =>
    obtain ⟨rfl, rfl⟩ := Prod.mk.inj (Option.some.inj hc)
    exact hsame _ ((onOpenFd_of_none hp).symm.trans hcall)
  | truncate process' fdnum' length stale =>
    obtain ⟨rfl, rfl⟩ := Prod.mk.inj (Option.some.inj hc)
    exact hsame _ ((onOpenFd_of_none hp).symm.trans hcall)
  | fcntl process' fdnum' cmd arg mem =>
    obtain ⟨rfl, rfl⟩ := Prod.mk.inj (Option.some.inj hc)
    exact hsame _ ((onOpenFd_of_none hp).symm.trans hcall)
  | fsync process' fdnum' answer =>
    obtain ⟨rfl, rfl⟩ := Prod.mk.inj (Option.some.inj hc)
    exact hsame _ ((onOpenFd_of_none hp).symm.trans hcall)
  | openFile => simp [Call.looksUp] at hc
  | fork => simp [Call.looksUp] at hc
  | exit => simp [Call.looksUp] at hc

/-- `fcntl` always costs a reference. -/
lemma syscallFcntl_not_exact {cmd arg : BitVec 32} {mem : Option ℕ} (hexact : Exact s)
    (hmem : ∀ p, mem = some p → s.fds p = none) (hp : s.object process fdnum = some p) (hfd : s.fds p = some fd)
    (hcall : syscallFcntl s process fdnum cmd arg mem = some (ret, s')) : ¬Exact s' := by
  by_cases hdup : cmd = fDupfd ∨ cmd = fDupfdCloexec
  · rcases onOpenFd_cases hp hfd hcall with ⟨-, rfl⟩ | ⟨-, hbody⟩
    · exact (Grows.refl _).not_exact hexact hfd
    · have hmem' : ∀ q, mem = some q → (s.addReference p).fds q = none := by
        intro q hq
        rw [Sys.addReference, setFd_fds_of_ne, hmem q hq]
        rintro rfl
        rw [hmem q hq] at hfd
        exact absurd hfd (by simp)
      have hgrows : Grows (s.addReference p) s' := by
        rcases hdup with rfl | rfl
        · exact fdDup_grows (s := s.addReference p) hp (addReference_fds hfd) hmem' hbody
        · exact fdDup_grows (s := s.addReference p) hp (addReference_fds hfd) hmem' hbody
      exact hgrows.not_exact hexact hfd
  · obtain ⟨hdup, hdup'⟩ := not_or.mp hdup
    exact (syscallFcntl_used hp hfd hdup hdup' hcall).not_exact hexact hfd

/-- A number that is open. -/
lemma syscall_not_exact (h : Counted s) (hfresh : Fresh s c) (hc : c.looksUp = some (process, fdnum))
    (hp : s.object process fdnum = some p) (hcall : syscall s c = some (ret, s')) : ¬Exact s' := by
  have hexact := h.exact
  obtain ⟨fd, hfd⟩ := hexact.live_of_object hp
  cases c with
  | read process' fdnum' userPtr count answer =>
    cases userPtr with
    | false => simp [Call.looksUp] at hc
    | true =>
      obtain ⟨rfl, rfl⟩ := Prod.mk.inj (Option.some.inj hc)
      exact (syscallRead_used hp hfd hcall).not_exact hexact hfd
  | write process' fdnum' userPtr buf stale count answer =>
    cases userPtr with
    | false => simp [Call.looksUp] at hc
    | true =>
      obtain ⟨rfl, rfl⟩ := Prod.mk.inj (Option.some.inj hc)
      exact (syscallWrite_used hp hfd hcall).not_exact hexact hfd
  | getdents process' fdnum' userPtr mem buf count fuel =>
    cases userPtr with
    | false => simp [Call.looksUp] at hc
    | true =>
      obtain ⟨rfl, rfl⟩ := Prod.mk.inj (Option.some.inj hc)
      obtain ⟨⟨⟨ret', s1⟩, mem'⟩, hgetdents, hret⟩ := Option.map_eq_some_iff.mp hcall
      obtain ⟨-, rfl⟩ := Prod.mk.inj hret
      exact (syscallGetdents_used hp hfd hgetdents).not_exact hexact hfd
  | close process' fdnum' =>
    obtain ⟨rfl, rfl⟩ := Prod.mk.inj (Option.some.inj hc)
    have hshrinks := fdClose_shrinks h.single process' fdnum'
    have hgone := fdClose_gone h.single hp
    rw [Option.some.inj hcall] at hshrinks hgone
    exact not_exact_of_gone hexact hfd hgone hshrinks.fds hshrinks.refcount
  | stat process' fdnum' userPtr =>
    obtain ⟨rfl, rfl⟩ := Prod.mk.inj (Option.some.inj hc)
    exact (syscallStat_used hp hfd hcall).not_exact hexact hfd
  | chdir process' fdnum' =>
    obtain ⟨rfl, rfl⟩ := Prod.mk.inj (Option.some.inj hc)
    exact (syscallChdir_used hp hfd hcall).not_exact hexact hfd
  | ioctl process' fdnum' answer =>
    obtain ⟨rfl, rfl⟩ := Prod.mk.inj (Option.some.inj hc)
    exact (syscallIoctl_used hp hfd hcall).not_exact hexact hfd
  | seek process' fdnum' offset whence =>
    obtain ⟨rfl, rfl⟩ := Prod.mk.inj (Option.some.inj hc)
    exact (syscallSeek_used hp hfd hcall).not_exact hexact hfd
  | truncate process' fdnum' length stale =>
    obtain ⟨rfl, rfl⟩ := Prod.mk.inj (Option.some.inj hc)
    exact (syscallTruncate_used hp hfd hcall).not_exact hexact hfd
  | fcntl process' fdnum' cmd arg mem =>
    obtain ⟨rfl, rfl⟩ := Prod.mk.inj (Option.some.inj hc)
    exact syscallFcntl_not_exact hexact hfresh hp hfd hcall
  | fsync process' fdnum' answer =>
    obtain ⟨rfl, rfl⟩ := Prod.mk.inj (Option.some.inj hc)
    exact (syscallFsync_used hp hfd hcall).not_exact hexact hfd
  | openFile => simp [Call.looksUp] at hc
  | fork => simp [Call.looksUp] at hc
  | exit => simp [Call.looksUp] at hc

lemma syscallExit_not_exact {i : Fin maxFds} (h : Counted s) (hp : s.tables process i = some p) :
    ¬Exact (syscallExit s process) := by
  obtain ⟨fd, hfd⟩ := h.exact.live_of_slot hp
  have hshrinks := closeSlots_shrinks h.single process (List.finRange maxFds)
  exact not_exact_of_gone h.exact hfd (closeSlots_gone h.single (List.mem_finRange i) hp) hshrinks.fds hshrinks.refcount

lemma syscallExit_none (h : ∀ i, s.tables process i = none) : syscallExit s process = s := by
  have hclose : ∀ is : List (Fin maxFds), is.foldl (fun s i => (fdClose s process i.val).2) s = s := by
    intro is
    induction is with
    | nil => rfl
    | cons i is ih => rw [List.foldl_cons, fdClose_of_none ((object_val s process i).trans (h i)), ih]
  exact hclose _

lemma newProcess_sameCounters (hchild : ∀ i, s.tables child i = none) : SameCounters s (newProcess s process child) := by
  refine ⟨?_, rfl, rfl⟩
  have hnone : s.tables child = fun _ => none := funext hchild
  change Function.update s.tables child (fun _ => none) = s.tables
  rw [← hnone, Function.update_eq_self]

lemma syscallFork_none {mem : Fin maxFds → Option ℕ} (hne : child ≠ process) (h : ∀ i, s.tables process i = none) :
    syscallFork s process child mem = some ((child : ℤ), newProcess s process child) := by
  have hnone : ∀ i, (newProcess s process child).tables process i = none := by
    intro i
    change Function.update s.tables child (fun _ => none) process i = none
    rw [Function.update_of_ne hne.symm, h i]
  rw [syscallFork, dupSlots_none hnone]
  rfl

lemma syscallFork_not_exact {mem : Fin maxFds → Option ℕ} {i : Fin maxFds} (hexact : Exact s)
    (hfresh : Fresh s (.fork process child mem)) (hp : s.tables process i ≠ none)
    (hcall : syscallFork s process child mem = some (ret, s')) : ¬Exact s' := by
  obtain ⟨hne, hchild, hmem, hinj⟩ := hfresh
  have hsame : SameCounters s (newProcess s process child) := newProcess_sameCounters hchild
  have hnew := hexact.congr hsame
  have hcopyable : Copyable process child mem (List.finRange maxFds) (newProcess s process child) := by
    refine ⟨fun j q hj => ?_, fun j _ => ?_, fun j _ q hq => ?_⟩
    · obtain ⟨fdq, hq⟩ := hnew.live_of_slot hj
      simp [hq]
    · rw [hsame.tables]
      exact hchild j
    · rw [hsame.fds]
      exact hmem j q hq
  obtain ⟨⟨copied, t⟩, hdup, hret⟩ := Option.map_eq_some_iff.mp hcall
  have hopen : ∃ j ∈ List.finRange maxFds, (newProcess s process child).tables process j ≠ none := by
    refine ⟨i, List.mem_finRange i, ?_⟩
    rw [hsame.tables]
    exact hp
  obtain ⟨j, p, hj, hgrows⟩ := dupSlots_counts hcopyable hinj (List.nodup_finRange _) hne hopen hdup
  obtain ⟨fd, hfd⟩ := hnew.live_of_slot hj
  have hgrows' : Grows ((newProcess s process child).addReference p) s' := by
    dsimp only at hret
    split_ifs at hret
    · obtain ⟨-, rfl⟩ := Prod.mk.inj hret
      exact hgrows
    · obtain ⟨-, rfl⟩ := Prod.mk.inj hret
      refine ⟨hgrows.fds, fun process' k q hq hk => hgrows.slots process' k q hq ?_⟩
      change Function.update t.tables child (fun _ => none) process' k = some q at hk
      by_cases hprocess : process' = child
      · rw [hprocess, Function.update_self] at hk
        exact absurd hk (by simp)
      · rwa [Function.update_of_ne hprocess] at hk
  exact hgrows'.not_exact hnew hfd

/-- A new file is in `tmpfs`. -/
lemma InTmpfs.createIn {vfs vfs' : Vfs} {path : CString} {r : Path2NodeRes} {new : Option ℕ} (h : InTmpfs vfs)
    (hcreate : createIn vfs path sIfreg r = .returns (vfs', new)) : InTmpfs vfs' := by
  have hfile : ∀ dir, InTmpfs (VfsTree.tmpfsCreate vfs dir (basename path) sIfreg).2 := by
    intro dir node hreg
    by_cases hnode : node = vfs.count
    · rw [hnode, tmpfsCreate_self]
    · rw [tmpfsCreate_nodes _ _ _ _ hnode] at hreg ⊢
      exact h node hreg
  rcases createIn_cases hcreate with ⟨rfl, -⟩ | ⟨dir, -, -, ⟨-, -, rfl⟩ | ⟨-, -, rfl⟩⟩
  · exact h
  · exact hfile dir
  · intro node hreg
    rw [addEntry_file, setChild_nodes] at hreg ⊢
    exact hfile dir node hreg

lemma syscallOpen_inTmpfs {userPtr : Bool} {path : CString} {flags : BitVec 32} {e : Surroundings} (h : InTmpfs s.vfs)
    (hcall : syscallOpen s process userPtr path flags e = some (ret, s')) : InTmpfs s'.vfs := by
  rcases syscallOpen_cases hcall with ⟨-, rfl⟩ | ⟨node, -, hopen⟩ | ⟨r, hopen⟩
  · exact h
  · rw [openNode_vfs hopen]
    exact h
  · cases hcreate : createIn s.vfs path sIfreg r with
    | fault =>
      rw [hcreate] at hopen
      exact absurd hopen (by simp [openCreated])
    | returns result =>
      obtain ⟨vfs, new⟩ := result
      rw [hcreate] at hopen
      have hvfs : s'.vfs = vfs := by
        cases new with
        | none =>
          obtain ⟨-, rfl⟩ := Prod.mk.inj (Option.some.inj hopen)
          rfl
        | some new => exact openNode_vfs hopen
      rw [hvfs]
      exact h.createIn hcreate

/-- An open keeps all counters exact. -/
lemma Counted.open {userPtr : Bool} {path : CString} {flags : BitVec 32} {e : Surroundings} (h : Counted s)
    (hmem : ∀ p, e.mem = some p → s.fds p = none)
    (hcall : syscallOpen s process userPtr path flags e = some (ret, s')) : Counted s' := by
  have hvfs := syscallOpen_inTmpfs h.inTmpfs hcall
  rcases syscallOpen_outcome hmem hcall with ⟨t, node, p, i, offset, hsame, hp, hslot, -, rfl⟩ | ⟨-, hsame⟩
  · have hfree : t.fds p = none := by
      rw [hsame.fds]
      exact hmem p hp
    have hempty : t.tables process i = none := by
      rw [freeSlot] at hslot
      have hfound := List.find?_some hslot
      rw [hsame.tables]
      exact (of_decide_eq_true hfound).2
    refine ⟨(h.exact.congr hsame).opened hfree hempty rfl rfl, fun q fdq hq => ?_, hvfs⟩
    change Function.update t.fds p _ q = some fdq at hq
    by_cases hqp : q = p
    · rw [hqp, Function.update_self] at hq
      obtain rfl := Option.some.inj hq
      rfl
    · rw [Function.update_of_ne hqp, hsame.fds] at hq
      exact h.single q fdq hq
  · have hsame' := hsame fun node hrefused => hrefused.2.2 (h.inTmpfs node hrefused.2.1)
    refine ⟨h.exact.congr hsame', fun q fdq hq => ?_, hvfs⟩
    rw [hsame'.fds] at hq
    exact h.single q fdq hq

lemma Counted.congr (h : Counted s) (hsame : SameCounters s s') (hvfs : s'.vfs = s.vfs) : Counted s' := by
  refine ⟨h.exact.congr hsame, ?_, ?_⟩
  · intro p fd hp
    rw [hsame.fds] at hp
    exact h.single p fd hp
  · rw [hvfs]
    exact h.inTmpfs

/-- A call on a number. -/
lemma Counted.lookup (h : Counted s) (hfresh : Fresh s c) (hcall : syscall s c = some (ret, s'))
    (hc : c.looksUp = some (process, fdnum)) :
    (s.object process fdnum = none ∧ Counted s') ∨ (s.object process fdnum ≠ none ∧ ¬Exact s') := by
  cases hp : s.object process fdnum with
  | none =>
    rw [syscall_of_none hc hp hcall]
    exact Or.inl ⟨rfl, h⟩
  | some p => exact Or.inr ⟨by simp, syscall_not_exact h hfresh hc hp hcall⟩

/-- Either the call meets no open descriptor and everything is still counted, or it does and something
is not. -/
lemma Counted.step (h : Counted s) (hcall : Calls s c s') : (Untouched s c ∧ Counted s') ∨ (¬Untouched s c ∧ ¬Exact s') := by
  obtain ⟨hfresh, ret, hcall⟩ := hcall
  have hlookup : ∀ process fdnum, c.looksUp = some (process, fdnum) →
      (Untouched s c ↔ s.object process fdnum = none) → (Untouched s c ∧ Counted s') ∨ (¬Untouched s c ∧ ¬Exact s') := by
    intro process fdnum hc hiff
    rw [hiff]
    exact h.lookup hfresh hcall hc
  cases c with
  | openFile process userPtr path flags e => exact Or.inl ⟨by simp [Untouched, Call.looksUp], h.open hfresh hcall⟩
  | fork process child mem =>
    by_cases hnone : ∀ i, s.tables process i = none
    · rw [syscall, syscallFork_none hfresh.1 hnone] at hcall
      obtain ⟨-, rfl⟩ := Prod.mk.inj (Option.some.inj hcall)
      exact Or.inl ⟨hnone, h.congr (newProcess_sameCounters hfresh.2.1) rfl⟩
    · obtain ⟨i, hi⟩ := not_forall.mp hnone
      exact Or.inr ⟨hnone, syscallFork_not_exact h.exact hfresh hi hcall⟩
  | exit process =>
    obtain ⟨-, rfl⟩ := Prod.mk.inj (Option.some.inj hcall)
    by_cases hnone : ∀ i, s.tables process i = none
    · rw [syscallExit_none hnone]
      exact Or.inl ⟨hnone, h⟩
    · obtain ⟨i, hi⟩ := not_forall.mp hnone
      obtain ⟨p, hp⟩ := Option.ne_none_iff_exists'.mp hi
      exact Or.inr ⟨hnone, syscallExit_not_exact h hp⟩
  | read process fdnum userPtr count answer =>
    cases userPtr with
    | true => exact hlookup process fdnum rfl (by simp [Untouched, Call.looksUp])
    | false =>
      obtain ⟨-, rfl⟩ := Prod.mk.inj (Option.some.inj hcall)
      exact Or.inl ⟨by simp [Untouched, Call.looksUp], h⟩
  | write process fdnum userPtr buf stale count answer =>
    cases userPtr with
    | true => exact hlookup process fdnum rfl (by simp [Untouched, Call.looksUp])
    | false =>
      obtain ⟨-, rfl⟩ := Prod.mk.inj (Option.some.inj hcall)
      exact Or.inl ⟨by simp [Untouched, Call.looksUp], h⟩
  | getdents process fdnum userPtr mem buf count fuel =>
    cases userPtr with
    | true => exact hlookup process fdnum rfl (by simp [Untouched, Call.looksUp])
    | false =>
      obtain ⟨-, rfl⟩ := Prod.mk.inj (Option.some.inj hcall)
      exact Or.inl ⟨by simp [Untouched, Call.looksUp], h⟩
  | ioctl process fdnum => exact hlookup process fdnum rfl (by simp [Untouched, Call.looksUp])
  | seek process fdnum => exact hlookup process fdnum rfl (by simp [Untouched, Call.looksUp])
  | truncate process fdnum => exact hlookup process fdnum rfl (by simp [Untouched, Call.looksUp])
  | fcntl process fdnum => exact hlookup process fdnum rfl (by simp [Untouched, Call.looksUp])
  | fsync process fdnum => exact hlookup process fdnum rfl (by simp [Untouched, Call.looksUp])
  | stat process fdnum => exact hlookup process fdnum rfl (by simp [Untouched, Call.looksUp])
  | chdir process fdnum => exact hlookup process fdnum rfl (by simp [Untouched, Call.looksUp])
  | close process fdnum => exact hlookup process fdnum rfl (by simp [Untouched, Call.looksUp])

/-- In every run of system calls the counters are exact after every call if and only if no call meets an
open descriptor. -/
theorem refcounts_exact {s0 : Sys} {calls : List Call} (h : Unopened s0) :
    Run (fun s c s' => Calls s c s' ∧ Exact s') s0 calls s ↔ Run (fun s c s' => Calls s c s' ∧ Untouched s c) s0 calls s := by
  refine Run.congr (fun s c t h hcall hc => ?_) (fun s c t h hcall => ?_) h.counted
  · rcases h.step hcall with ⟨-, hcounted⟩ | ⟨hnot, -⟩
    · exact hcounted
    · exact absurd hc hnot
  · rcases h.step hcall with ⟨hc, hcounted⟩ | ⟨hnot, hexact⟩
    · exact iff_of_true hcounted.exact hc
    · exact iff_of_false hexact hnot

lemma inTmpfs_rootMounted : InTmpfs rootMounted := by
  have hfresh : VfsTree.Fresh rootMounted := (fresh_vfsInit.tmpfsCreate 0 slashPath sIfdir).attach 0 (by decide) (by decide)
  intro node hreg
  by_cases hnode : node < 5
  · interval_cases node <;> exact absurd hreg (by decide)
  · rw [hfresh.clear node (not_lt.mp hnode)] at hreg
    exact absurd hreg (by decide)

lemma unopened_start : Unopened unopened := ⟨fun _ => rfl, fun _ _ => rfl, fun _ => rfl, inTmpfs_rootMounted⟩

/-- Opening alone is counted. -/
theorem refcounts_exact_open : ∃ s, Run (fun s c s' => Calls s c s' ∧ Exact s') unopened
    [.openFile 1 true newPath oCreat surroundings] s := by
  obtain ⟨s, hopen⟩ : ∃ s, syscallOpen unopened 1 true newPath oCreat surroundings = some (0, s) := ⟨_, rfl⟩
  refine ⟨s, (refcounts_exact unopened_start).mpr (.single ⟨⟨fun _ _ => rfl, 0, hopen⟩, ?_⟩)⟩
  simp [Untouched, Call.looksUp]

/-- After `stat` the object is counted twice. -/
theorem refcounts_inexact : ¬∀ s0 calls s, Unopened s0 → Run Calls s0 calls s → Exact s := by
  intro h
  obtain ⟨s, hopen, hobject, hstat⟩ : ∃ s, syscallOpen unopened 1 true newPath oCreat surroundings = some (0, s) ∧
      s.object 1 0 = some 32 ∧ syscall s (.stat 1 0 true) = some (0, s.addReference 32) := ⟨_, rfl, rfl, rfl⟩
  have hrun : Run Calls unopened [.openFile 1 true newPath oCreat surroundings] s := .single ⟨fun _ _ => rfl, 0, hopen⟩
  have hexact := h _ _ _ unopened_start hrun
  obtain ⟨fd, hfd⟩ := hexact.live_of_object hobject
  have hcall : Calls s (.stat 1 0 true) (s.addReference 32) := ⟨trivial, 0, hstat⟩
  exact (used_addReference hfd).not_exact hexact hfd (h _ _ _ unopened_start (hrun.append (.single hcall)))

end Runs

end PiggyOs.Descriptors
