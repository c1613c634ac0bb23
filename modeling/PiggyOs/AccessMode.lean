import PiggyOs.OpenCalls
import PiggyOs.Transition

/-! The flags of a descriptor, which hold its access mode together with `O_CLOEXEC` and are written by
`fcntl`. -/
namespace PiggyOs.Descriptors
open ByteMemory Tmpfs Fork VfsTree Transition
open FileCalls (eperm ebadf einval oPath oRdonly oWronly oRdwr oAccmode oCreat fileFlagsMask)

variable {s s' : Sys} {process p : ℕ} {fdnum ret : ℤ} {fd : FileDescriptor} {c : Call} {openFlags f : BitVec 32}

inductive Operation
  | read | write | truncate
  deriving DecidableEq, Repr

/-- The checks at the beginning of the three system calls. -/
def permits (flags : BitVec 32) : Operation → Bool
  | .read => flags &&& oAccmode &&& oPath = 0 ∧ (flags &&& oAccmode = oRdwr ∨ flags &&& oAccmode = oRdonly)
  | .write => flags &&& oAccmode &&& oPath = 0 ∧ (flags &&& oAccmode = oRdwr ∨ flags &&& oAccmode = oWronly)
  | .truncate => flags &&& oAccmode &&& oPath = 0 ∧ (flags &&& oAccmode = oRdwr ∨ flags &&& oAccmode = oWronly)

/-- The calls of one descriptor that leave the table alone. -/
def Concerns (process : ℕ) (fdnum : ℤ) : Call → Prop
  | .fcntl process' fdnum' cmd _ _ => process' = process ∧ fdnum' = fdnum ∧ cmd ≠ fDupfd ∧ cmd ≠ fDupfdCloexec
  | .read process' fdnum' _ _ _ => process' = process ∧ fdnum' = fdnum
  | .write process' fdnum' _ _ _ _ _ => process' = process ∧ fdnum' = fdnum
  | .truncate process' fdnum' _ _ => process' = process ∧ fdnum' = fdnum
  | _ => False

def Sys.flags (s : Sys) (process : ℕ) (fdnum : ℤ) : Option (BitVec 32) :=
  ((s.object process fdnum).bind s.fds).map FileDescriptor.flags

/-- What a call makes of the flags. -/
def flagsAfter (flags : BitVec 32) : Call → BitVec 32
  | .fcntl _ _ cmd arg _ =>
      if flags &&& oAccmode &&& oPath ≠ 0 then flags
      else if cmd = fSetfd then arg &&& fdFlagsMask
      else if cmd = fSetfl then arg &&& fileCreationFlagsMask
      else flags
  | _ => flags

section Checks
variable (hp : s.object process fdnum = some p) (hfd : s.fds p = some fd)
include hp hfd

omit hp hfd in
lemma permits_write_iff : permits f .write = true ↔
    f &&& oAccmode &&& oPath = 0 ∧ ¬(f &&& oAccmode ≠ oRdwr ∧ f &&& oAccmode ≠ oWronly) := by
  rw [permits, decide_eq_true_iff, not_and_or, not_not, not_not]

omit hp hfd in
lemma permits_read_iff : permits f .read = true ↔
    f &&& oAccmode &&& oPath = 0 ∧ ¬(f &&& oAccmode ≠ oRdwr ∧ f &&& oAccmode ≠ oRdonly) := by
  rw [permits, decide_eq_true_iff, not_and_or, not_not, not_not]

/-- A call gets to the rest of its body if and only if both checks pass. -/
lemma onOpenFd_checked {rest : ℕ → FileDescriptor → Sys → Option (ℤ × Sys)} (mode : BitVec 32) (operation : Operation)
    (h : permits fd.flags operation = true ↔ accMode fd &&& oPath = 0 ∧ ¬(accMode fd ≠ oRdwr ∧ accMode fd ≠ mode)) :
    onOpenFd s process fdnum (fun p fd s => if accMode fd ≠ oRdwr ∧ accMode fd ≠ mode then some (-eperm, s) else rest p fd s) =
      if permits fd.flags operation then rest p { fd with refcount := fd.refcount + 1 } (s.addReference p)
      else some (if accMode fd &&& oPath ≠ 0 then -ebadf else -eperm, s.addReference p) := by
  rw [onOpenFd_of_some hp hfd]
  by_cases hpath : accMode fd &&& oPath ≠ 0
  · rw [if_pos hpath, if_pos hpath, if_neg fun hpermitted => hpath (h.mp hpermitted).1]
  rw [if_neg hpath, if_neg hpath]
  by_cases hrefuses : accMode fd ≠ oRdwr ∧ accMode fd ≠ mode
  · rw [if_neg fun hpermitted => (h.mp hpermitted).2 hrefuses]
    exact if_pos hrefuses
  · rw [if_pos (h.mpr ⟨not_not.mp hpath, hrefuses⟩)]
    exact if_neg hrefuses

lemma syscallRead_checked (count answer : BitVec 64) :
    syscallRead s process fdnum true count answer =
      if permits fd.flags .read then
        if s.vfs.isDir fd.node then some (-eisdir, s.addReference p)
        else if sIsblk (s.vfs.nodes fd.node).mode ∧ count % s.blksize fd.node ≠ 0 then some (-einval, s.addReference p)
        else (readNode (s.addReference p) fd.node fd.offset count answer).map
          (advanced (s.addReference p) p { fd with refcount := fd.refcount + 1 })
      else some (if accMode fd &&& oPath ≠ 0 then -ebadf else -eperm, s.addReference p) :=
  onOpenFd_checked hp hfd oRdonly .read permits_read_iff

lemma syscallWrite_checked (buf stale : Memory) (count answer : BitVec 64) :
    syscallWrite s process fdnum true buf stale count answer =
      if permits fd.flags .write then
        if s.vfs.isDir fd.node then some (-eisdir, s.addReference p)
        else if sIsblk (s.vfs.nodes fd.node).mode ∧ count % s.blksize fd.node ≠ 0 then some (-einval, s.addReference p)
        else (writeNode (s.addReference p) fd.node buf stale fd.offset count answer).map fun (written, s) =>
          advanced s p { fd with refcount := fd.refcount + 1 } written
      else some (if accMode fd &&& oPath ≠ 0 then -ebadf else -eperm, s.addReference p) :=
  onOpenFd_checked hp hfd oWronly .write permits_write_iff

lemma syscallTruncate_checked (length : BitVec 64) (stale : Memory) :
    syscallTruncate s process fdnum length stale =
      if permits fd.flags .truncate then
        if s.vfs.isDir fd.node then some (-eisdir, s.addReference p)
        else truncateNode (s.addReference p) fd.node length stale
      else some (if accMode fd &&& oPath ≠ 0 then -ebadf else -eperm, s.addReference p) :=
  onOpenFd_checked hp hfd oWronly .truncate permits_write_iff

end Checks

section Flags

lemma flags_eq (hp : s.object process fdnum = some p) (hfd : s.fds p = some fd) : s.flags process fdnum = some fd.flags := by
  rw [Sys.flags, hp, Option.bind_some, hfd, Option.map_some]

lemma Used.flags_eq (h : Used s p fd f s') (hp : s.object process fdnum = some p) : s'.flags process fdnum = some f := by
  obtain ⟨fd', hfds, -, -, rfl⟩ := h.fds
  have hp' : s'.object process fdnum = some p := by
    rw [Sys.object, h.tables]
    exact hp
  refine Descriptors.flags_eq hp' ?_
  rw [hfds, Function.update_self]

/-- Whatever the call answers, these are the flags afterwards. -/
lemma flags_after (hc : Concerns process fdnum c) (hf : s.flags process fdnum = some f)
    (h : syscall s c = some (ret, s')) : s'.flags process fdnum = some (flagsAfter f c) := by
  obtain ⟨fd, hbind, rfl⟩ := Option.map_eq_some_iff.mp hf
  obtain ⟨p, hp, hfd⟩ := Option.bind_eq_some_iff.mp hbind
  cases c with
  | fcntl process' fdnum' cmd arg mem =>
    obtain ⟨rfl, rfl, hdup, hdup'⟩ := hc
    exact (syscallFcntl_used hp hfd hdup hdup' h).flags_eq hp
  | read process' fdnum' userPtr count answer =>
    obtain ⟨rfl, rfl⟩ := hc
    cases userPtr with
    | true => exact (syscallRead_used hp hfd h).flags_eq hp
    | false =>
      obtain ⟨-, rfl⟩ := Prod.mk.inj (Option.some.inj h)
      exact hf
  | write process' fdnum' userPtr buf stale count answer =>
    obtain ⟨rfl, rfl⟩ := hc
    cases userPtr with
    | true => exact (syscallWrite_used hp hfd h).flags_eq hp
    | false =>
      obtain ⟨-, rfl⟩ := Prod.mk.inj (Option.some.inj h)
      exact hf
  | truncate process' fdnum' length stale =>
    obtain ⟨rfl, rfl⟩ := hc
    exact (syscallTruncate_used hp hfd h).flags_eq hp
  | _ => exact hc.elim

end Flags

section Runs

/-- One call on the descriptor. -/
def CallOn (process : ℕ) (fdnum : ℤ) (s : Sys) (c : Call) (s' : Sys) : Prop :=
  Concerns process fdnum c ∧ ∃ ret, syscall s c = some (ret, s')

/-- After the call the checks permit what they permitted for the flags given to `open`, `F_SETFD` has
changed `O_CLOEXEC` at most, and `F_SETFL` neither that nor the access mode. -/
def AsOpened (openFlags : BitVec 32) (process : ℕ) (fdnum : ℤ) (s : Sys) (c : Call) (s' : Sys) : Prop :=
  ∃ f f', s.flags process fdnum = some f ∧ s'.flags process fdnum = some f' ∧ permits f' = permits openFlags ∧
    (∀ process fdnum arg mem, c = .fcntl process fdnum fSetfd arg mem → f' &&& ~~~oCloexec = f &&& ~~~oCloexec) ∧
    ∀ process fdnum arg mem, c = .fcntl process fdnum fSetfl arg mem →
      f' &&& oAccmode = f &&& oAccmode ∧ f' &&& oCloexec = f &&& oCloexec

/-- `F_SETFD` is used where there is no flag but `O_CLOEXEC`, `F_SETFL` with the access mode that is there
already, and without `O_CLOEXEC`. -/
def Careful (process : ℕ) (fdnum : ℤ) (s : Sys) : Call → Prop
  | .fcntl _ _ cmd arg _ => ∀ f, s.flags process fdnum = some f → f &&& oAccmode &&& oPath = 0 →
      (cmd = fSetfd → f &&& ~~~oCloexec = 0) ∧
      (cmd = fSetfl → arg &&& oAccmode = f &&& oAccmode ∧ f &&& oCloexec = 0)
  | _ => True

/-- The checks permit what they permitted at first. -/
def Kept (openFlags : BitVec 32) (process : ℕ) (fdnum : ℤ) (s : Sys) : Prop :=
  ∃ f, s.flags process fdnum = some f ∧ permits f = permits openFlags

/-- The access mode is all that the checks look at. -/
lemma permits_congr {f' : BitVec 32} (h : f' &&& oAccmode = f &&& oAccmode) : permits f' = permits f := by
  funext operation
  cases operation <;> simp only [permits, h]

/-- The flags right after `open`. -/
lemma Filled.flags {e : Surroundings} (h : Filled s process openFlags e ret s') :
    s'.flags process ret = some (openFlags &&& fileFlagsMask) := by
  obtain ⟨t, node, p, i, offset, -, -, -, rfl, rfl⟩ := h
  have hp : (opened t process node p i ⟨node, openFlags &&& fileFlagsMask, 1, offset⟩).object process i.val = some p := by
    rw [object_val]
    simp [opened, Sys.setSlot]
  have hfd : (opened t process node p i ⟨node, openFlags &&& fileFlagsMask, 1, offset⟩).fds p =
      some ⟨node, openFlags &&& fileFlagsMask, 1, offset⟩ := Function.update_self ..
  exact flags_eq hp hfd

lemma and_mask (f : BitVec 32) {mask part : BitVec 32} (h : mask &&& part = part) : f &&& mask &&& part = f &&& part := by
  rw [BitVec.and_assoc, h]

lemma and_apart (f : BitVec 32) {mask part : BitVec 32} (h : mask &&& part = 0) : f &&& mask &&& part = 0 := by
  rw [BitVec.and_assoc, h]
  exact BitVec.and_zero

/-- Without other flags `F_SETFD` keeps the access mode. -/
lemma accmode_setfd {f : BitVec 32} (arg : BitVec 32) (h : f &&& ~~~oCloexec = 0) :
    arg &&& fdFlagsMask &&& oAccmode = f &&& oAccmode := by
  rw [and_apart arg (by decide), ← and_mask f (show ~~~oCloexec &&& oAccmode = oAccmode by decide), h]
  decide

lemma asOpened_iff (hf : s.flags process fdnum = some f) (hf' : s'.flags process fdnum = some (flagsAfter f c)) :
    AsOpened openFlags process fdnum s c s' ↔ permits (flagsAfter f c) = permits openFlags ∧
      (∀ process fdnum arg mem, c = .fcntl process fdnum fSetfd arg mem →
        flagsAfter f c &&& ~~~oCloexec = f &&& ~~~oCloexec) ∧
      ∀ process fdnum arg mem, c = .fcntl process fdnum fSetfl arg mem →
        flagsAfter f c &&& oAccmode = f &&& oAccmode ∧ flagsAfter f c &&& oCloexec = f &&& oCloexec := by
  simp [AsOpened, hf, hf']

lemma setfd_iff (hpermits : permits f = permits openFlags) (arg : BitVec 32) :
    permits (arg &&& fdFlagsMask) = permits openFlags ∧ arg &&& fdFlagsMask &&& ~~~oCloexec = f &&& ~~~oCloexec ↔
      f &&& ~~~oCloexec = 0 := by
  rw [and_apart arg (show fdFlagsMask &&& ~~~oCloexec = 0 by decide)]
  exact ⟨fun h => h.2.symm, fun h => ⟨(permits_congr (accmode_setfd arg h)).trans hpermits, h.symm⟩⟩

lemma setfl_iff (hpermits : permits f = permits openFlags) (arg : BitVec 32) :
    permits (arg &&& fileCreationFlagsMask) = permits openFlags ∧
      arg &&& fileCreationFlagsMask &&& oAccmode = f &&& oAccmode ∧
      arg &&& fileCreationFlagsMask &&& oCloexec = f &&& oCloexec ↔
    arg &&& oAccmode = f &&& oAccmode ∧ f &&& oCloexec = 0 := by
  have hmode : arg &&& fileCreationFlagsMask &&& oAccmode = arg &&& oAccmode := and_mask arg (by decide)
  rw [hmode, and_apart arg (show fileCreationFlagsMask &&& oCloexec = 0 by decide)]
  exact ⟨fun h => ⟨h.2.1, h.2.2.symm⟩,
    fun h => ⟨(permits_congr (hmode.trans h.1)).trans hpermits, h.1, h.2.symm⟩⟩

lemma forall_fcntl {process : ℕ} {fdnum : ℤ} {cmd command arg : BitVec 32} {mem : Option ℕ} {P : Prop} :
    (∀ process' fdnum' arg' mem', Call.fcntl process fdnum cmd arg mem = .fcntl process' fdnum' command arg' mem' → P) ↔
      (cmd = command → P) := by
  constructor
  · intro h hcmd
    exact h process fdnum arg mem (by rw [hcmd])
  · intro h process' fdnum' arg' mem' heq
    exact h (Call.fcntl.inj heq).2.2.1

/-- The same with the flags before the call written out. -/
lemma careful_fcntl {process' : ℕ} {fdnum' : ℤ} {cmd arg : BitVec 32} {mem : Option ℕ}
    (hf : s.flags process fdnum = some f) :
    Careful process fdnum s (.fcntl process' fdnum' cmd arg mem) ↔ (f &&& oAccmode &&& oPath = 0 →
      (cmd = fSetfd → f &&& ~~~oCloexec = 0) ∧
      (cmd = fSetfl → arg &&& oAccmode = f &&& oAccmode ∧ f &&& oCloexec = 0)) := by
  simp [Careful, hf]

/-- A call leaves the flags as they should be if and only if it is careful. -/
lemma careful_iff (hc : CallOn process fdnum s c s') (hf : s.flags process fdnum = some f)
    (hpermits : permits f = permits openFlags) :
    AsOpened openFlags process fdnum s c s' ↔ Careful process fdnum s c := by
  obtain ⟨hon, ret, hcall⟩ := hc
  rw [asOpened_iff hf (flags_after hon hf hcall)]
  cases c with
  | fcntl process' fdnum' cmd arg mem =>
    rw [careful_fcntl hf, forall_fcntl, forall_fcntl, flagsAfter]
    by_cases hpath : f &&& oAccmode &&& oPath = 0
    · rw [if_neg (not_not.mpr hpath), forall_prop_of_true hpath]
      have hne : fSetfd ≠ fSetfl := by decide
      by_cases hsetfd : cmd = fSetfd
      · have hsetfl : cmd ≠ fSetfl := fun h => hne (hsetfd.symm.trans h)
        rw [if_pos hsetfd, forall_prop_of_true hsetfd, forall_prop_of_true hsetfd, forall_prop_of_false hsetfl,
          forall_prop_of_false hsetfl, and_true, and_true]
        exact setfd_iff hpermits arg
      · by_cases hsetfl : cmd = fSetfl
        · rw [if_neg hsetfd, if_pos hsetfl, forall_prop_of_true hsetfl, forall_prop_of_true hsetfl,
            forall_prop_of_false hsetfd, forall_prop_of_false hsetfd, true_and, true_and]
          exact setfl_iff hpermits arg
        · simp [hsetfd, hsetfl, hpermits]
    · rw [if_pos hpath, forall_prop_of_false hpath, iff_true]
      exact ⟨hpermits, fun _ => rfl, fun _ => ⟨rfl, rfl⟩⟩
  | read => simp [flagsAfter, hpermits, Careful]
  | write => simp [flagsAfter, hpermits, Careful]
  | truncate => simp [flagsAfter, hpermits, Careful]
  | _ => exact hon.elim

/-- In every run of calls on a descriptor the access mode and `O_CLOEXEC` are as `open` has set them if
and only if `fcntl` is used carefully. -/
theorem access_mode_fixed {e : Surroundings} {path : CString} {s0 : Sys} {calls : List Call}
    (hmem : ∀ p, e.mem = some p → s.fds p = none)
    (hopen : syscallOpen s process true path openFlags e = some (fdnum, s0)) (hfdnum : 0 ≤ fdnum) :
    Run (fun s c s' => CallOn process fdnum s c s' ∧ AsOpened openFlags process fdnum s c s') s0 calls s' ↔
      Run (fun s c s' => CallOn process fdnum s c s' ∧ Careful process fdnum s c) s0 calls s' := by
  have hstart : Kept openFlags process fdnum s0 := by
    rcases syscallOpen_outcome hmem hopen with hfilled | ⟨hneg, -⟩
    · exact ⟨_, hfilled.flags, permits_congr (and_mask openFlags (by decide))⟩
    · omega
  refine Run.congr (fun s c t h hcall hcareful => ?_) (fun s c t h hcall => ?_) hstart
  · obtain ⟨f, hf, hpermits⟩ := h
    obtain ⟨-, f', -, hf', hpermits', -⟩ := (careful_iff hcall hf hpermits).mpr hcareful
    exact ⟨f', hf', hpermits'⟩
  · obtain ⟨f, hf, hpermits⟩ := h
    exact careful_iff hcall hf hpermits

/-- A file that is opened for reading and writing. -/
theorem access_mode_fixed_setfl : ∃ s0 s', syscallOpen unopened 1 true newPath (oCreat ||| oRdwr) surroundings = some (0, s0) ∧
    Run (fun s c s' => CallOn 1 0 s c s' ∧ AsOpened (oCreat ||| oRdwr) 1 0 s c s') s0 [.fcntl 1 0 fSetfl oRdwr none] s' := by
  obtain ⟨s0, hopen, hflags⟩ : ∃ s0, syscallOpen unopened 1 true newPath (oCreat ||| oRdwr) surroundings = some (0, s0) ∧
      s0.flags 1 0 = some 6 := ⟨_, rfl, rfl⟩
  obtain ⟨fd, hbind, hfd⟩ := Option.map_eq_some_iff.mp hflags
  obtain ⟨p, hp, hfds⟩ := Option.bind_eq_some_iff.mp hbind
  have hcall : ∃ s', syscall s0 (.fcntl 1 0 fSetfl oRdwr none) = some (0, s') := by
    rw [syscall, syscallFcntl, onOpenFd_of_some hp hfds, accMode, hfd]
    exact ⟨_, rfl⟩
  obtain ⟨s', hcall⟩ := hcall
  refine ⟨s0, s', hopen, (access_mode_fixed (fun _ _ => rfl) hopen le_rfl).mpr (.single ⟨⟨?_, 0, hcall⟩, ?_⟩)⟩
  · exact ⟨rfl, rfl, by decide, by decide⟩
  · intro f hf _
    obtain rfl := Option.some.inj (hflags.symm.trans hf)
    decide

/-- A file that is opened for reading only can be written after `F_SETFL`. -/
theorem access_mode_gained : ¬∀ s process path openFlags e fdnum s0 calls s', (∀ p, e.mem = some p → s.fds p = none) →
    syscallOpen s process true path openFlags e = some (fdnum, s0) → 0 ≤ fdnum →
    Run (CallOn process fdnum) s0 calls s' →
    Run (fun s c s' => CallOn process fdnum s c s' ∧ AsOpened openFlags process fdnum s c s') s0 calls s' := by
  intro h
  obtain ⟨s0, s', hopen, hcall, hflags⟩ : ∃ s0 s', syscallOpen unopened 1 true newPath oCreat surroundings = some (0, s0) ∧
      syscall s0 (.fcntl 1 0 fSetfl oRdwr none) = some (0, s') ∧ s'.flags 1 0 = some oRdwr := ⟨_, _, rfl, rfl, rfl⟩
  have hon : CallOn 1 0 s0 (.fcntl 1 0 fSetfl oRdwr none) s' := ⟨⟨rfl, rfl, by decide, by decide⟩, 0, hcall⟩
  have hrun := h unopened 1 newPath oCreat surroundings 0 s0 _ s' (fun _ _ => rfl) hopen le_rfl (.single hon)
  cases hrun with
  | cons hstep hrest =>
    cases hrest
    obtain ⟨-, f, f', -, hf', hpermits, -⟩ := hstep
    obtain rfl := Option.some.inj (hflags.symm.trans hf')
    exact absurd (congrFun hpermits .write) (by decide)

end Runs

end PiggyOs.Descriptors
