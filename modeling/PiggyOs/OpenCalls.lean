import PiggyOs.Descriptors
import PiggyOs.VfsCreate

/-! What `syscall_open` leaves behind when it fails. -/
namespace PiggyOs.Descriptors
open ByteMemory Tmpfs Fork VfsTree
open FileCalls (eperm ebadf efault einval emfile enotdir oCreat oDirectory oTrunc oAppend oExcl fileFlagsMask)

variable {s s' : Sys} {process node : ℕ} {flags : BitVec 32} {e : Surroundings} {ret : ℤ}

lemma tmpfsTruncate_zero (stale : Memory) (file : TmpFile) : tmpfsTruncate stale file 0 = some { file with size := 0 } := by
  have hlt : file.capacity.ult 0 = false := by simp [BitVec.ult]
  rw [tmpfsTruncate, truncateBuffer, hlt]
  rfl

section Nodes

/-- The file after `O_TRUNC` has been obeyed. -/
def truncated (s : Sys) (flags : BitVec 32) (node : ℕ) : Sys :=
  if flags &&& oTrunc ≠ 0 ∧ sIsreg (s.vfs.nodes node).mode then s.setFile node { s.files node with size := 0 } else s

/-- A new object in a free slot. -/
def opened (s : Sys) (process node p : ℕ) (i : Fin maxFds) (fd : FileDescriptor) : Sys :=
  ((s.setRefcount node (s.refcount node + 1)).setFd p (some fd)).setSlot process i (some p)

/-- The truncation of a file of another file system fails. -/
def Refused (s : Sys) (flags : BitVec 32) (node : ℕ) : Prop :=
  flags &&& oTrunc ≠ 0 ∧ sIsreg (s.vfs.nodes node).mode = true ∧ (s.vfs.nodes node).fs ≠ some .tmpfs

lemma truncateStep (hrefused : ¬Refused s flags node) (p : ℕ) :
    (if flags &&& oTrunc ≠ 0 ∧ sIsreg ((fdCreate s (some p) node flags).2.vfs.nodes node).mode
      then truncateNode (fdCreate s (some p) node flags).2 node 0 e.data else some (0, (fdCreate s (some p) node flags).2)) =
    some (0, (fdCreate (truncated s flags node) (some p) node flags).2) := by
  by_cases htrunc : flags &&& oTrunc ≠ 0 ∧ sIsreg (s.vfs.nodes node).mode
  · have hfs : (s.vfs.nodes node).fs = some .tmpfs := by
      by_contra hfs
      exact hrefused ⟨htrunc.1, htrunc.2, hfs⟩
    have hfs' : ((fdCreate s (some p) node flags).2.vfs.nodes node).fs = some .tmpfs := hfs
    have hcond : flags &&& oTrunc ≠ 0 ∧ sIsreg ((fdCreate s (some p) node flags).2.vfs.nodes node).mode := htrunc
    rw [if_pos hcond, truncateNode, if_pos hfs', tmpfsTruncate_zero, Option.map_some, truncated, if_pos htrunc]
    rfl
  · have hcond : ¬(flags &&& oTrunc ≠ 0 ∧ sIsreg ((fdCreate s (some p) node flags).2.vfs.nodes node).mode) := htrunc
    rw [if_neg hcond, truncated, if_neg htrunc]

/-- Without a free slot the object and the reference are given back. -/
lemma fdCreate_undo {p : ℕ} (h : s.fds p = none) :
    ((fdCreate s (some p) node flags).2.setFd p none).setRefcount node
      ((fdCreate s (some p) node flags).2.refcount node - 1) = s := by
  have hfds : Function.update s.fds p none = s.fds := by rw [← h, Function.update_eq_self]
  simp [fdCreate, Sys.setFd, Sys.setRefcount, hfds]

lemma truncated_fds (s : Sys) (flags : BitVec 32) (node : ℕ) : (truncated s flags node).fds = s.fds := by
  unfold truncated
  split_ifs <;> rfl

lemma opened_offset {p : ℕ} {i : Fin maxFds} {offset : BitVec 64} :
    ((fdCreate s (some p) node flags).2.setSlot process i (some p)).setFd p
      ((((fdCreate s (some p) node flags).2.setSlot process i (some p)).fds p).map fun fd => { fd with offset := offset }) =
    opened s process node p i ⟨node, flags &&& fileFlagsMask, 1, offset⟩ := by
  simp [fdCreate, opened, Sys.setFd, Sys.setSlot, Sys.setRefcount]

lemma truncateNode_vfs {length : BitVec 64} {stale : Memory} (h : truncateNode s node length stale = some (ret, s')) :
    s'.vfs = s.vfs := by
  unfold truncateNode at h
  split_ifs at h
  · obtain ⟨file, -, h⟩ := Option.map_eq_some_iff.mp h
    obtain ⟨-, rfl⟩ := Prod.mk.inj h
    rfl
  · obtain ⟨-, rfl⟩ := Prod.mk.inj (Option.some.inj h)
    rfl

lemma openNode_vfs (h : openNode s process flags e node = some (ret, s')) : s'.vfs = s.vfs := by
  obtain ⟨m, -, hbody⟩ := Option.bind_eq_some_iff.mp h
  by_cases hdir : ¬s.vfs.isDir m ∧ flags &&& oDirectory ≠ 0
  · rw [if_pos hdir] at hbody
    obtain ⟨-, rfl⟩ := Prod.mk.inj (Option.some.inj hbody)
    rfl
  rw [if_neg hdir] at hbody
  cases hp : e.mem with
  | none =>
    rw [hp] at hbody
    obtain ⟨-, rfl⟩ := Prod.mk.inj (Option.some.inj hbody)
    rfl
  | some p =>
    rw [hp] at hbody
    obtain ⟨⟨ret1, s1⟩, htruncate, hbody⟩ := Option.map_eq_some_iff.mp hbody
    have hs1 : s1.vfs = s.vfs := by
      split_ifs at htruncate
      · exact (truncateNode_vfs htruncate).trans rfl
      · obtain ⟨-, rfl⟩ := Prod.mk.inj (Option.some.inj htruncate)
        rfl
    dsimp only at hbody
    by_cases hneg : ret1 < 0
    · rw [if_pos hneg] at hbody
      obtain ⟨-, rfl⟩ := Prod.mk.inj hbody
      exact hs1
    · rw [if_neg hneg] at hbody
      cases hslot : freeSlot s1 process 0 with
      | none =>
        rw [fdAllocFdnum, hslot] at hbody
        obtain ⟨-, rfl⟩ := Prod.mk.inj hbody
        exact hs1
      | some i =>
        rw [fdAllocFdnum, hslot] at hbody
        obtain ⟨-, rfl⟩ := Prod.mk.inj hbody
        split_ifs <;> exact hs1

/-- Everything that can happen once the file is there. -/
lemma openNode_cases (hmem : ∀ p, e.mem = some p → s.fds p = none) (hnode : s.vfs.reduced node = some node)
    (h : openNode s process flags e node = some (ret, s')) :
    (s.vfs.isDir node = false ∧ flags &&& oDirectory ≠ 0 ∧ ret = -enotdir ∧ s' = s) ∨
    ((s.vfs.isDir node = true ∨ flags &&& oDirectory = 0) ∧
      ((e.mem = none ∧ ret = -enomem ∧ s' = s) ∨
      ∃ p, e.mem = some p ∧
        ((Refused s flags node ∧ ret = -eperm ∧ s' = (fdCreate s (some p) node flags).2) ∨
        (¬Refused s flags node ∧ freeSlot s process 0 = none ∧ ret = -emfile ∧ s' = truncated s flags node) ∨
        ∃ i, ¬Refused s flags node ∧ freeSlot s process 0 = some i ∧ ret = i.val ∧ ∃ offset,
          s' = opened (truncated s flags node) process node p i ⟨node, flags &&& fileFlagsMask, 1, offset⟩))) := by
  obtain ⟨m, hm, hbody⟩ := Option.bind_eq_some_iff.mp h
  obtain rfl : m = node := Option.some.inj (((settles_reduced _ _).sound _ _ hm).symm.trans hnode)
  by_cases hdir : ¬s.vfs.isDir m ∧ flags &&& oDirectory ≠ 0
  · rw [if_pos hdir] at hbody
    obtain ⟨rfl, rfl⟩ := Prod.mk.inj (Option.some.inj hbody)
    exact Or.inl ⟨by simpa using hdir.1, hdir.2, rfl, rfl⟩
  rw [if_neg hdir] at hbody
  refine Or.inr ⟨?_, ?_⟩
  · rcases not_and_or.mp hdir with hdir | hdir
    · exact Or.inl (by simpa using hdir)
    · exact Or.inr (not_not.mp hdir)
  cases hp : e.mem with
  | none =>
    rw [hp] at hbody
    obtain ⟨rfl, rfl⟩ := Prod.mk.inj (Option.some.inj hbody)
    exact Or.inl ⟨rfl, rfl, rfl⟩
  | some p =>
    refine Or.inr ⟨p, rfl, ?_⟩
    have hfree := hmem p hp
    rw [hp] at hbody
    change ((if flags &&& oTrunc ≠ 0 ∧ sIsreg ((fdCreate s (some p) m flags).2.vfs.nodes m).mode
      then truncateNode (fdCreate s (some p) m flags).2 m 0 e.data
      else some (0, (fdCreate s (some p) m flags).2)).map _) = _ at hbody
    by_cases hrefused : Refused s flags m
    · left
      have hcond : flags &&& oTrunc ≠ 0 ∧ sIsreg ((fdCreate s (some p) m flags).2.vfs.nodes m).mode :=
        ⟨hrefused.1, hrefused.2.1⟩
      have hfs : ((fdCreate s (some p) m flags).2.vfs.nodes m).fs ≠ some .tmpfs := hrefused.2.2
      rw [if_pos hcond, truncateNode, if_neg hfs, Option.map_some] at hbody
      obtain ⟨rfl, rfl⟩ := Prod.mk.inj (Option.some.inj hbody)
      exact ⟨hrefused, rfl, rfl⟩
    · right
      rw [truncateStep hrefused, Option.map_some] at hbody
      have hslots : freeSlot (fdCreate (truncated s flags m) (some p) m flags).2 process 0 = freeSlot s process 0 := by
        unfold truncated
        split_ifs <;> rfl
      dsimp only at hbody
      rw [if_neg (by decide), fdAllocFdnum, hslots] at hbody
      cases hslot : freeSlot s process 0 with
      | none =>
        left
        rw [hslot] at hbody
        obtain ⟨rfl, rfl⟩ := Prod.mk.inj (Option.some.inj hbody)
        refine ⟨hrefused, rfl, rfl, fdCreate_undo ?_⟩
        rw [truncated_fds, hfree]
      | some i =>
        right
        rw [hslot] at hbody
        obtain ⟨rfl, rfl⟩ := Prod.mk.inj (Option.some.inj hbody)
        refine ⟨i, hrefused, rfl, rfl, ?_⟩
        split_ifs
        · exact ⟨_, opened_offset⟩
        · exact ⟨0, rfl⟩

end Nodes

section Counters
variable {userPtr : Bool} {path : CString}

/-- The tables, the objects and the counters are the same. -/
structure SameCounters (s t : Sys) : Prop where
  tables : t.tables = s.tables
  fds : t.fds = s.fds
  refcount : t.refcount = s.refcount

lemma truncated_sameCounters (s : Sys) (flags : BitVec 32) (node : ℕ) : SameCounters s (truncated s flags node) := by
  unfold truncated
  split_ifs <;> exact ⟨rfl, rfl, rfl⟩

/-- An open has succeeded and filled a slot. -/
def Filled (s : Sys) (process : ℕ) (flags : BitVec 32) (e : Surroundings) (ret : ℤ) (s' : Sys) : Prop :=
  ∃ t node p i offset, SameCounters s t ∧ e.mem = some p ∧ freeSlot s process 0 = some i ∧ ret = i.val ∧
    s' = opened t process node p i ⟨node, flags &&& fileFlagsMask, 1, offset⟩

lemma openNode_outcome (hmem : ∀ p, e.mem = some p → s.fds p = none) (hnode : s.vfs.reduced node = some node)
    (h : openNode s process flags e node = some (ret, s')) :
    Filled s process flags e ret s' ∨ (ret < 0 ∧ (¬Refused s flags node → SameCounters s s')) := by
  rcases openNode_cases hmem hnode h with ⟨-, -, rfl, rfl⟩ | ⟨-, ⟨-, rfl, rfl⟩ | ⟨p, hp, hcases⟩⟩
  · exact Or.inr ⟨by decide, fun _ => ⟨rfl, rfl, rfl⟩⟩
  · exact Or.inr ⟨by decide, fun _ => ⟨rfl, rfl, rfl⟩⟩
  · rcases hcases with ⟨hrefused, rfl, -⟩ | ⟨-, -, rfl, rfl⟩ | ⟨i, -, hslot, hret, offset, hs'⟩
    · exact Or.inr ⟨by decide, fun hnot => absurd hrefused hnot⟩
    · exact Or.inr ⟨by decide, fun _ => truncated_sameCounters s flags node⟩
    · exact Or.inl ⟨_, node, p, i, offset, truncated_sameCounters s flags node, hp, hslot, hret, hs'⟩

/-- A file gets no entries of its own. -/
lemma addEntry_file (vfs : Vfs) (dir : ℕ) (name : CString) :
    addEntry (tmpfsCreate vfs dir name sIfreg).2 dir name vfs.count =
      (tmpfsCreate vfs dir name sIfreg).2.setChild dir name name.strlen vfs.count := by
  refine if_neg ?_
  rw [Vfs.isDir, setChild_nodes, tmpfsCreate_self]
  exact (by decide : ¬sIsdir sIfreg = true)

/-- A new file is found again as it was created. -/
lemma createIn_new {vfs vfs' : Vfs} {r : Path2NodeRes} {new : ℕ}
    (h : createIn vfs path sIfreg r = .returns (vfs', some new)) :
    ∃ dir, r = ⟨some dir, none⟩ ∧ ((tmpfsCreate vfs dir (basename path) sIfreg).2.nodes dir).children ≠ none ∧
      vfs'.count = vfs.count + 1 ∧ vfs'.reduced new = some new ∧ (vfs'.nodes new).mode = sIfreg ∧
      (vfs'.nodes new).fs = some .tmpfs := by
  rcases createIn_cases h with ⟨-, hnew, -⟩ | ⟨dir, hr, -, ⟨-, hnew, -⟩ | ⟨hchildren, hnew, rfl⟩⟩
  · simp at hnew
  · simp at hnew
  obtain rfl := Option.some.inj hnew
  have hself := tmpfsCreate_self vfs dir (basename path) sIfreg
  have hnode := setChild_nodes (tmpfsCreate vfs dir (basename path) sIfreg).2 dir (basename path) (basename path).strlen
    vfs.count vfs.count
  rw [hself] at hnode
  rw [addEntry_file]
  refine ⟨dir, hr, hchildren, rfl, IntrusiveList.ending_of_none ?_, ?_, ?_⟩
  · rw [Vfs.redirect, hnode]
    rfl
  · rw [hnode]
  · rw [hnode]

lemma openCreated_outcome {r : Path2NodeRes} {o : Outcome (Vfs × Option ℕ)}
    (hmem : ∀ p, e.mem = some p → s.fds p = none) (ho : createIn s.vfs path sIfreg r = o)
    (h : openCreated s process flags e o = some (ret, s')) :
    Filled s process flags e ret s' ∨ (ret < 0 ∧ SameCounters s s') := by
  cases o with
  | fault => simp [openCreated] at h
  | returns result =>
    obtain ⟨vfs, node⟩ := result
    cases node with
    | none =>
      obtain ⟨rfl, rfl⟩ := Prod.mk.inj (Option.some.inj h)
      exact Or.inr ⟨by decide, rfl, rfl, rfl⟩
    | some new =>
      obtain ⟨dir, rfl, -, -, hnew, -, hfs⟩ := createIn_new ho
      rw [openCreated] at h
      have hout := openNode_outcome (s := { s with vfs := vfs }.setFile new (Tmpfs.tmpfsCreate e.data)) hmem hnew h
      rcases hout with ⟨t, node, p, i, offset, hsame, hfilled⟩ | ⟨hret, hsame⟩
      · exact Or.inl ⟨t, node, p, i, offset, ⟨hsame.tables, hsame.fds, hsame.refcount⟩, hfilled⟩
      · have hcounters := hsame fun hrefused => hrefused.2.2 hfs
        exact Or.inr ⟨hret, hcounters.tables, hcounters.fds, hcounters.refcount⟩

/-- An open fails at once, or it opens a file that is there, or one that it creates. -/
lemma syscallOpen_cases (h : syscallOpen s process userPtr path flags e = some (ret, s')) :
    (ret < 0 ∧ s' = s) ∨
    (∃ node, s.vfs.reduced node = some node ∧ openNode s process flags e node = some (ret, s')) ∨
    ∃ r, openCreated s process flags e (createIn s.vfs path sIfreg r) = some (ret, s') := by
  have herror : ∀ n : ℤ, n < 0 → some (n, s) = some (ret, s') → ret < 0 ∧ s' = s := by
    intro n hn he
    obtain ⟨rfl, rfl⟩ := Prod.mk.inj (Option.some.inj he)
    exact ⟨hn, rfl⟩
  unfold syscallOpen at h
  by_cases hptr : ¬userPtr = true
  · rw [if_pos hptr] at h
    exact Or.inl (herror _ (by decide) h)
  rw [if_neg hptr] at h
  by_cases hnil : path.1 = []
  · rw [if_pos hnil] at h
    exact Or.inl (herror _ (by decide) h)
  rw [if_neg hnil] at h
  by_cases hlong : pathMax ≤ path.strlen
  · rw [if_pos hlong] at h
    exact Or.inl (herror _ (by decide) h)
  rw [if_neg hlong] at h
  obtain ⟨found, hfound, h⟩ := Option.bind_eq_some_iff.mp h
  cases found with
  | some node =>
    dsimp only at h
    by_cases hexcl : flags &&& oCreat ≠ 0 ∧ flags &&& oExcl ≠ 0
    · rw [if_pos hexcl] at h
      exact Or.inl (herror _ (by decide) h)
    · rw [if_neg hexcl] at h
      exact Or.inr (Or.inl ⟨node, vfsGetNode_reduced hfound, h⟩)
  | none =>
    dsimp only at h
    by_cases hcreat : flags &&& oCreat = 0
    · rw [if_pos hcreat] at h
      exact Or.inl (herror _ (by decide) h)
    · rw [if_neg hcreat] at h
      obtain ⟨o, ho, h⟩ := Option.bind_eq_some_iff.mp h
      obtain ⟨r, -, rfl⟩ := Option.map_eq_some_iff.mp ho
      exact Or.inr (Or.inr ⟨r, h⟩)

/-- What an open does to the tables and counters. -/
lemma syscallOpen_outcome (hmem : ∀ p, e.mem = some p → s.fds p = none)
    (h : syscallOpen s process userPtr path flags e = some (ret, s')) :
    Filled s process flags e ret s' ∨ (ret < 0 ∧ ((∀ node, ¬Refused s flags node) → SameCounters s s')) := by
  rcases syscallOpen_cases h with ⟨hret, rfl⟩ | ⟨node, hnode, hopen⟩ | ⟨r, hopen⟩
  · exact Or.inr ⟨hret, fun _ => ⟨rfl, rfl, rfl⟩⟩
  · exact (openNode_outcome hmem hnode hopen).imp_right fun hout => ⟨hout.1, fun hnot => hout.2 (hnot node)⟩
  · exact (openCreated_outcome hmem rfl hopen).imp_right fun hout => ⟨hout.1, fun _ => hout.2⟩

end Counters

section Failures
variable {userPtr : Bool} {path : CString}

/-- The call gets as far as the lookup of the path. -/
def Looks (userPtr : Bool) (path : CString) : Prop := userPtr = true ∧ path.1 ≠ [] ∧ path.strlen < pathMax

/-- Where the path leads to nothing and a file is created, the rest of the call succeeds. Where a file is
truncated, it is one of `tmpfs`, and the rest succeeds unless the file is empty already. -/
structure Harmless (s : Sys) (process : ℕ) (userPtr : Bool) (path : CString) (flags : BitVec 32) (e : Surroundings) :
    Prop where
  creating : Looks userPtr path → vfsGetNode s.vfs e.stale (s.cwd process) path e.fuel = some none →
    flags &&& oCreat ≠ 0 → ∀ dir, path2node s.vfs e.stale' (s.cwd process) path e.fuel = some ⟨some dir, none⟩ →
    ((tmpfsCreate s.vfs dir (basename path) sIfreg).2.nodes dir).children ≠ none ∧
      flags &&& oDirectory = 0 ∧ e.mem ≠ none ∧ freeSlot s process 0 ≠ none
  truncating : Looks userPtr path → ∀ node, vfsGetNode s.vfs e.stale (s.cwd process) path e.fuel = some (some node) →
    ¬(flags &&& oCreat ≠ 0 ∧ flags &&& oExcl ≠ 0) → flags &&& oTrunc ≠ 0 → sIsreg (s.vfs.nodes node).mode = true →
    flags &&& oDirectory = 0 → e.mem ≠ none →
    (s.vfs.nodes node).fs = some .tmpfs ∧ (freeSlot s process 0 ≠ none ∨ (s.files node).size = 0)

lemma isDir_of_isReg {mode : BitVec 32} (h : sIsreg mode = true) : sIsdir mode = false := by
  simp only [sIsreg, sIsdir, decide_eq_true_eq, decide_eq_false_iff_not] at h ⊢
  rw [h]
  decide

lemma truncated_eq_self_iff (s : Sys) (flags : BitVec 32) (node : ℕ) : truncated s flags node = s ↔
    (flags &&& oTrunc ≠ 0 → sIsreg (s.vfs.nodes node).mode = true → (s.files node).size = 0) := by
  rw [truncated]
  split_ifs with h
  · refine ⟨fun heq _ _ => ?_, fun hsize => ?_⟩
    · have hfile : Function.update s.files node { s.files node with size := 0 } node = s.files node :=
        congrArg (fun s => s.files node) heq
      rw [← hfile, Function.update_self]
    · have hfile : { s.files node with size := 0 } = s.files node := by rw [← hsize h.1 h.2]
      rw [Sys.setFile, hfile, Function.update_eq_self]
  · exact ⟨fun _ h1 h2 => absurd ⟨h1, h2⟩ h, fun _ => rfl⟩

/-- A file that exists already. -/
lemma openNode_unchanged_iff (hmem : ∀ p, e.mem = some p → s.fds p = none) (hnode : s.vfs.reduced node = some node)
    (h : openNode s process flags e node = some (ret, s')) :
    (ret < 0 → s' = s) ↔ (flags &&& oTrunc ≠ 0 → sIsreg (s.vfs.nodes node).mode = true → flags &&& oDirectory = 0 →
      e.mem ≠ none → (s.vfs.nodes node).fs = some .tmpfs ∧ (freeSlot s process 0 ≠ none ∨ (s.files node).size = 0)) := by
  rcases openNode_cases hmem hnode h with ⟨hdir, hflag, rfl, rfl⟩ | ⟨hdir, ⟨hnone, rfl, rfl⟩ | ⟨p, hp, hcases⟩⟩
  · exact iff_of_true (fun _ => rfl) fun _ _ h0 => absurd h0 hflag
  · exact iff_of_true (fun _ => rfl) fun _ _ _ hne => absurd hnone hne
  · have hdir0 : sIsreg (s.vfs.nodes node).mode = true → flags &&& oDirectory = 0 := by
      intro hreg
      refine hdir.resolve_left ?_
      rw [Vfs.isDir, isDir_of_isReg hreg]
      exact Bool.false_ne_true
    have hmem' : e.mem ≠ none := by simp [hp]
    rcases hcases with ⟨hrefused, rfl, rfl⟩ | ⟨hrefused, hslot, rfl, rfl⟩ | ⟨i, hrefused, hslot, rfl, -⟩
    · refine iff_of_false (fun hsame => ?_) fun hcond => ?_
      · have hfds := congrArg (fun s => s.fds p) (hsame (by decide))
        simp [fdCreate, hmem p hp] at hfds
      · exact hrefused.2.2 (hcond hrefused.1 hrefused.2.1 (hdir0 hrefused.2.1) hmem').1
    · have hneg : -emfile < 0 := by decide
      rw [forall_prop_of_true hneg, truncated_eq_self_iff]
      refine ⟨fun hsize h1 h2 _ _ => ⟨?_, Or.inr (hsize h1 h2)⟩, fun hcond h1 h2 => ?_⟩
      · by_contra hfs
        exact hrefused ⟨h1, h2, hfs⟩
      · exact (hcond h1 h2 (hdir0 h2) hmem').2.resolve_left fun hne => hne hslot
    · refine iff_of_true (fun hneg => absurd hneg (by omega)) fun h1 h2 _ _ => ⟨?_, Or.inl ?_⟩
      · by_contra hfs
        exact hrefused ⟨h1, h2, hfs⟩
      · simp [hslot]

/-- A file that has just been created. -/
lemma openNode_created_iff {vfs : Vfs} {file : TmpFile} {new : ℕ} (hmem : ∀ p, e.mem = some p → s.fds p = none)
    (hcount : vfs.count ≠ s.vfs.count) (hnew : vfs.reduced new = some new) (hmode : (vfs.nodes new).mode = sIfreg)
    (hfs : (vfs.nodes new).fs = some .tmpfs)
    (h : openNode ({ s with vfs := vfs }.setFile new file) process flags e new = some (ret, s')) :
    (ret < 0 → s' = s) ↔ flags &&& oDirectory = 0 ∧ e.mem ≠ none ∧ freeSlot s process 0 ≠ none := by
  have hchanged : ∀ t : Sys, t.vfs = vfs → t ≠ s := by
    rintro t ht rfl
    exact hcount (by rw [ht])
  rcases openNode_cases (s := { s with vfs := vfs }.setFile new file) hmem hnew h with
    ⟨-, hflag, rfl, rfl⟩ | ⟨hdir, ⟨hnone, rfl, rfl⟩ | ⟨p, hp, hcases⟩⟩
  · exact iff_of_false (fun hsame => hchanged _ rfl (hsame (by decide))) fun hcond => hflag hcond.1
  · exact iff_of_false (fun hsame => hchanged _ rfl (hsame (by decide))) fun hcond => hcond.2.1 hnone
  · have hnotdir : vfs.isDir new ≠ true := by
      rw [Vfs.isDir, hmode]
      decide
    rcases hcases with ⟨hrefused, -, -⟩ | ⟨-, hslot, rfl, rfl⟩ | ⟨i, -, hslot, rfl, -⟩
    · exact absurd hfs hrefused.2.2
    · refine iff_of_false (fun hsame => hchanged _ ?_ (hsame (by decide))) fun hcond => hcond.2.2 hslot
      unfold truncated
      split_ifs <;> rfl
    · refine iff_of_true (fun hneg => absurd hneg (by omega)) ⟨hdir.resolve_left hnotdir, by simp [hp], ?_⟩
      change freeSlot s process 0 = some i at hslot
      simp [hslot]

lemma openCreated_unchanged_iff {r : Path2NodeRes} {o : Outcome (Vfs × Option ℕ)}
    (hmem : ∀ p, e.mem = some p → s.fds p = none) (ho : createIn s.vfs path sIfreg r = o)
    (h : openCreated s process flags e o = some (ret, s')) :
    (ret < 0 → s' = s) ↔ ∀ dir, r = ⟨some dir, none⟩ →
      ((tmpfsCreate s.vfs dir (basename path) sIfreg).2.nodes dir).children ≠ none ∧
        flags &&& oDirectory = 0 ∧ e.mem ≠ none ∧ freeSlot s process 0 ≠ none := by
  cases o with
  | fault => simp [openCreated] at h
  | returns result =>
    obtain ⟨vfs, node⟩ := result
    cases node with
    | some new =>
      obtain ⟨dir, rfl, hchildren, hcount, hnew, hmode, hfs⟩ := createIn_new ho
      rw [openNode_created_iff hmem (by omega) hnew hmode hfs h]
      refine ⟨fun hcond dir' hdir' => ?_, fun hcond => (hcond dir rfl).2⟩
      obtain rfl : dir = dir' := by simpa using hdir'
      exact ⟨hchildren, hcond⟩
    | none =>
      obtain ⟨rfl, rfl⟩ := Prod.mk.inj (Option.some.inj h)
      rcases createIn_cases ho with ⟨rfl, -, hr'⟩ | ⟨dir, rfl, -, ⟨hchildren, -, rfl⟩ | ⟨-, hnode, -⟩⟩
      · refine iff_of_true (fun _ => rfl) fun dir hdir => ?_
        simp [hdir] at hr'
      · refine iff_of_false (fun hsame => ?_) fun hcond => (hcond dir rfl).1 hchildren
        have hcount := congrArg (fun s => s.vfs.count) (hsame (by decide))
        simp at hcount
      · simp at hnode

/-- An open that fails leaves everything as it was if and only if it is harmless. -/
theorem open_failure_unchanged (hmem : ∀ p, e.mem = some p → s.fds p = none)
    (h : syscallOpen s process userPtr path flags e = some (ret, s')) :
    (ret < 0 → s' = s) ↔ Harmless s process userPtr path flags e := by
  unfold syscallOpen at h
  by_cases hlooks : Looks userPtr path
  · obtain ⟨hptr, hne, hlen⟩ := id hlooks
    rw [if_neg (not_not.mpr hptr), if_neg hne, if_neg (not_le.mpr hlen)] at h
    obtain ⟨found, hfound, h⟩ := Option.bind_eq_some_iff.mp h
    cases found with
    | some node =>
      dsimp only at h
      by_cases hexcl : flags &&& oCreat ≠ 0 ∧ flags &&& oExcl ≠ 0
      · rw [if_pos hexcl] at h
        obtain ⟨rfl, rfl⟩ := Prod.mk.inj (Option.some.inj h)
        refine iff_of_true (fun _ => rfl) ⟨fun _ hnone => ?_, fun _ _ _ hnot => absurd hexcl hnot⟩
        rw [hfound] at hnone
        simp at hnone
      · rw [if_neg hexcl] at h
        rw [openNode_unchanged_iff hmem (vfsGetNode_reduced hfound) h]
        refine ⟨fun hcond => ⟨fun _ hnone => ?_, fun _ node' hnode' _ => ?_⟩, fun hcond => ?_⟩
        · rw [hfound] at hnone
          simp at hnone
        · obtain rfl := Option.some.inj (Option.some.inj (hfound.symm.trans hnode'))
          exact hcond
        · exact hcond.truncating hlooks node hfound hexcl
    | none =>
      have htruncating : ∀ node, ¬vfsGetNode s.vfs e.stale (s.cwd process) path e.fuel = some (some node) := by
        simp [hfound]
      dsimp only at h
      by_cases hcreat : flags &&& oCreat = 0
      · rw [if_pos hcreat] at h
        obtain ⟨rfl, rfl⟩ := Prod.mk.inj (Option.some.inj h)
        exact iff_of_true (fun _ => rfl) ⟨fun _ _ hne => absurd hcreat hne, fun _ node hnode => absurd hnode (htruncating node)⟩
      · rw [if_neg hcreat] at h
        obtain ⟨o, ho, h⟩ := Option.bind_eq_some_iff.mp h
        obtain ⟨r, hr, ho⟩ := Option.map_eq_some_iff.mp ho
        rw [openCreated_unchanged_iff hmem ho h]
        refine ⟨fun hcond => ⟨fun _ _ _ dir hdir => hcond dir ?_, fun _ node hnode => absurd hnode (htruncating node)⟩,
          fun hcond dir hdir => hcond.creating hlooks hfound hcreat dir (hdir ▸ hr)⟩
        exact Option.some.inj (hr.symm.trans hdir)
  · refine iff_of_true (fun _ => ?_) ⟨fun hl => absurd hl hlooks, fun hl => absurd hl hlooks⟩
    by_cases hptr : ¬userPtr = true
    · rw [if_pos hptr] at h
      exact (Prod.mk.inj (Option.some.inj h)).2.symm
    rw [if_neg hptr] at h
    by_cases hnil : path.1 = []
    · rw [if_pos hnil] at h
      exact (Prod.mk.inj (Option.some.inj h)).2.symm
    rw [if_neg hnil] at h
    by_cases hlong : pathMax ≤ path.strlen
    · rw [if_pos hlong] at h
      exact (Prod.mk.inj (Option.some.inj h)).2.symm
    · exact absurd ⟨not_not.mp hptr, hnil, not_le.mp hlong⟩ hlooks

/-- The root with nothing in it, and processes without descriptors. -/
def unopened : Sys where
  vfs := rootMounted
  files _ := tmpfsCreate fun _ => 0
  blksize _ := 512
  ino node := BitVec.ofNat 64 node
  refcount _ := 0
  fds _ := none
  tables _ _ := none
  cwd _ := 0

/-- Process 1 has 32 descriptors of the root. -/
def fullTable : Sys := { unopened with
  refcount := fun node => if node = 2 then 32 else 0
  fds := fun p => if p < 32 then some ⟨2, 0, 1, 0⟩ else none
  tables := fun process i => if process = 1 then some i.val else none }

def newPath : CString := ⟨[slash, 0x61], by decide⟩

def surroundings : Surroundings := ⟨fun _ => [], fun _ => [], 8, fun _ => 0, some 32⟩

theorem open_failure_unchanged_missing : Harmless unopened 1 true newPath 0 surroundings := by
  have hopen : syscallOpen unopened 1 true newPath 0 surroundings = some (-enoent, unopened) := rfl
  exact (open_failure_unchanged (fun _ _ => rfl) hopen).mp fun _ => rfl

/-- The file has been created although the table is full. -/
theorem open_creates_and_fails : ¬∀ s process userPtr path flags e ret s', (∀ p, e.mem = some p → s.fds p = none) →
    syscallOpen s process userPtr path flags e = some (ret, s') → ret < 0 → s' = s := by
  intro h
  have hret : ∃ s', syscallOpen fullTable 1 true newPath oCreat surroundings = some (-emfile, s') ∧ s'.vfs.count = 6 :=
    ⟨_, rfl, rfl⟩
  obtain ⟨s', hopen, hcount⟩ := hret
  have hmem : ∀ p, surroundings.mem = some p → fullTable.fds p = none := by
    intro p hp
    obtain rfl := Option.some.inj hp
    rfl
  have hsame := h fullTable 1 true newPath oCreat surroundings (-emfile) s' hmem hopen (by decide)
  rw [hsame] at hcount
  exact absurd hcount (by decide)

end Failures

end PiggyOs.Descriptors
