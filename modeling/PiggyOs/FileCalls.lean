import PiggyOs.Tmpfs
import PiggyOs.ProcessFork
import PiggyOs.Transition

/-! The system calls on one regular file, over any number of descriptors in any number of processes.
They are written over the operations of a node, so that the same calls run on a file of `tmpfs` and
on the sequence of bytes that it stands for. -/
namespace PiggyOs.FileCalls
open ByteMemory Tmpfs Fork Transition

def eperm : ℤ := 18
def ebadf : ℤ := 2
def efault : ℤ := 5
def einval : ℤ := 7
def emfile : ℤ := 9
def enotdir : ℤ := 16
def espipe : ℤ := 19

def oPath : BitVec 32 := 0x80
def oRdonly : BitVec 32 := 0
def oWronly : BitVec 32 := 1
def oRdwr : BitVec 32 := 2
def oAccmode : BitVec 32 := 0x83
def oCreat : BitVec 32 := 0x4
def oDirectory : BitVec 32 := 0x8
def oTrunc : BitVec 32 := 0x10
def oAppend : BitVec 32 := 0x20
def oExcl : BitVec 32 := 0x40
def fileFlagsMask : BitVec 32 := 0x3ff

def seekSet : ℕ := 0
def seekCur : ℕ := 1
def seekEnd : ℕ := 2

/-- What a node offers; `stale` is what pages held that a call may allocate. `none` is a call that
does not return. -/
structure FileOps (F : Type) where
  size : F → BitVec 64
  read : F → BitVec 64 → BitVec 64 → Option (List (BitVec 8))
  write : F → Memory → Memory → BitVec 64 → BitVec 64 → Option F
  truncate : F → Memory → BitVec 64 → Option F

def tmpfsOps : FileOps TmpFile where
  size file := file.size
  read := tmpfsRead
  write file stale buf := tmpfsWrite stale file buf
  truncate file stale := tmpfsTruncate stale file

/-- A file as a sequence of bytes: what lies behind its end is filled with zeros. -/
def seqOps : FileOps (List (BitVec 8)) where
  size bytes := BitVec.ofNat 64 bytes.length
  read bytes offset count := some ((bytes.drop offset.toNat).take count.toNat)
  write bytes _ buf offset count :=
    some ((bytes ++ List.replicate (offset.toNat - bytes.length) 0).take offset.toNat ++
      readBytes buf 0 count.toNat ++ bytes.drop (offset.toNat + count.toNat))
  truncate bytes _ length :=
    some ((bytes ++ List.replicate (length.toNat - bytes.length) 0).take length.toNat)

/-- The file and the descriptors of every process. -/
structure Files (F : Type) where
  file : F
  tables : ℕ → FdTable

inductive Call
  | openFile (process : ℕ) (flags : BitVec 32) (stale : Memory)
  | fork (process child : ℕ)
  | read (process : ℕ) (fdnum : Fin maxFds) (userPtr : Bool) (count : BitVec 64)
  | write (process : ℕ) (fdnum : Fin maxFds) (userPtr : Bool) (buf stale : Memory) (count : BitVec 64)
  | close (process : ℕ) (fdnum : Fin maxFds)
  | seek (process : ℕ) (fdnum : Fin maxFds) (offset : BitVec 64) (whence : ℕ)
  | truncate (process : ℕ) (fdnum : Fin maxFds) (length : BitVec 64) (stale : Memory)

inductive Answer
  | ret (value : ℤ)
  | bytes (read : List (BitVec 8))
  deriving DecidableEq, Repr

section Calls
variable {F : Type} (ops : FileOps F)

def Files.setTable (s : Files F) (process : ℕ) (table : FdTable) : Files F :=
  { s with tables := Function.update s.tables process table }

@[simp] lemma Files.setTable_tables (s : Files F) (process : ℕ) (table : FdTable) :
    (s.setTable process table).tables = Function.update s.tables process table := rfl

@[simp] lemma Files.setTable_file (s : Files F) (process : ℕ) (table : FdTable) :
    (s.setTable process table).file = s.file := rfl

def Files.setOffset (s : Files F) (process : ℕ) (fdnum : Fin maxFds) (fd : FileDescriptor)
    (offset : BitVec 64) : Files F :=
  s.setTable process (Function.update (s.tables process) fdnum (some { fd with offset := offset }))

/-- The beginning of the calls that take a descriptor: it must be open, and not for `O_PATH`. -/
def withFd (s : Files F) (process : ℕ) (fdnum : Fin maxFds)
    (body : FileDescriptor → Files F → Option (Answer × Files F)) : Option (Answer × Files F) :=
  match fdFromFdnum (s.tables process) fdnum with
  | (none, _) => some (.ret (-ebadf), s)
  | (some fd, table) =>
      if fd.flags &&& oAccmode &&& oPath ≠ 0 then some (.ret (-ebadf), s.setTable process table)
      else body fd (s.setTable process table)

def accMode (fd : FileDescriptor) : BitVec 32 := fd.flags &&& oAccmode

/-- For a path that leads to the file. -/
def syscallOpen (s : Files F) (process : ℕ) (flags : BitVec 32) (stale : Memory) :
    Option (Answer × Files F) :=
  if flags &&& oCreat ≠ 0 ∧ flags &&& oExcl ≠ 0 then some (.ret (-einval), s)
  else if flags &&& oDirectory ≠ 0 then some (.ret (-enotdir), s)
  else
    (if flags &&& oTrunc ≠ 0 then ops.truncate s.file stale 0 else some s.file).map fun file =>
      match (List.finRange maxFds).find? fun i => (s.tables process i).isNone with
      | none => (.ret (-emfile), { s with file := file })
      | some fdnum =>
          let offset := if flags &&& oAppend ≠ 0 then ops.size file else 0
          (.ret fdnum.val, { s with file := file }.setTable process
            (Function.update (s.tables process) fdnum (some ⟨0, flags &&& fileFlagsMask, 1, offset⟩)))

/-- The descriptors of the parent and of the child after `fork`. -/
def syscallFork (s : Files F) (process child : ℕ) : Option (Answer × Files F) :=
  (dupDescriptors plenty (s.tables process, fun _ => none, ()) (List.finRange maxFds)).map fun r =>
    (.ret child, (s.setTable process r.1).setTable child r.2.1)

def syscallRead (s : Files F) (process : ℕ) (fdnum : Fin maxFds) (userPtr : Bool) (count : BitVec 64) :
    Option (Answer × Files F) :=
  if ¬ userPtr then some (.ret (-efault), s)
  else withFd s process fdnum fun fd s1 =>
    if accMode fd ≠ oRdwr ∧ accMode fd ≠ oRdonly then some (.ret (-eperm), s1)
    else (ops.read s1.file fd.offset count).map fun bytes =>
      (.bytes bytes, s1.setOffset process fdnum fd (fd.offset + BitVec.ofNat 64 bytes.length))

def syscallWrite (s : Files F) (process : ℕ) (fdnum : Fin maxFds) (userPtr : Bool) (buf stale : Memory)
    (count : BitVec 64) : Option (Answer × Files F) :=
  if ¬ userPtr then some (.ret (-efault), s)
  else withFd s process fdnum fun fd s1 =>
    if accMode fd ≠ oRdwr ∧ accMode fd ≠ oWronly then some (.ret (-eperm), s1)
    else (ops.write s1.file stale buf fd.offset count).map fun file =>
      (.ret count.toInt, { s1 with file := file }.setOffset process fdnum fd
        (if (0 : BitVec 64).slt count then fd.offset + count else fd.offset))

def syscallClose (s : Files F) (process : ℕ) (fdnum : Fin maxFds) : Answer × Files F :=
  match s.tables process fdnum with
  | none => (.ret (-ebadf), s)
  | some _ => (.ret 0, s.setTable process (Function.update (s.tables process) fdnum none))

def syscallSeek (s : Files F) (process : ℕ) (fdnum : Fin maxFds) (offset : BitVec 64) (whence : ℕ) :
    Option (Answer × Files F) :=
  withFd s process fdnum fun fd s1 =>
    let move := fun new : BitVec 64 =>
      if new.slt 0 then some (Answer.ret (-espipe), s1)
      else some (Answer.ret new.toInt, s1.setOffset process fdnum fd new)
    if whence = seekCur then move (fd.offset + offset)
    else if whence = seekEnd then move (offset + ops.size s1.file)
    else if whence = seekSet then move offset
    else some (.ret (-einval), s1)

def syscallTruncate (s : Files F) (process : ℕ) (fdnum : Fin maxFds) (length : BitVec 64) (stale : Memory) :
    Option (Answer × Files F) :=
  withFd s process fdnum fun fd s1 =>
    if accMode fd ≠ oRdwr ∧ accMode fd ≠ oWronly then some (.ret (-eperm), s1)
    else (ops.truncate s1.file stale length).map fun file => (.ret 0, { s1 with file := file })

def syscall (s : Files F) : Call → Option (Answer × Files F)
  | .openFile process flags stale => syscallOpen ops s process flags stale
  | .fork process child => syscallFork s process child
  | .read process fdnum userPtr count => syscallRead ops s process fdnum userPtr count
  | .write process fdnum userPtr buf stale count => syscallWrite ops s process fdnum userPtr buf stale count
  | .close process fdnum => some (syscallClose s process fdnum)
  | .seek process fdnum offset whence => syscallSeek ops s process fdnum offset whence
  | .truncate process fdnum length stale => syscallTruncate ops s process fdnum length stale

end Calls

section Bodies
variable {F : Type} {s s' : Files F} {process : ℕ} {fdnum : Fin maxFds} {answer : Answer}

/-- The descriptor that the body of a call gets. -/
def taken (s : Files F) (process : ℕ) (fdnum : Fin maxFds) (fd : FileDescriptor) : Files F :=
  s.setTable process (Function.update (s.tables process) fdnum (some { fd with refcount := fd.refcount + 1 }))

lemma withFd_cases {body : FileDescriptor → Files F → Option (Answer × Files F)}
    (h : withFd s process fdnum body = some (answer, s')) :
    (s.tables process fdnum = none ∧ answer = .ret (-ebadf) ∧ s' = s) ∨
    ∃ fd, s.tables process fdnum = some fd ∧
      ((accMode fd &&& oPath ≠ 0 ∧ answer = .ret (-ebadf) ∧ s' = taken s process fdnum fd) ∨
      (accMode fd &&& oPath = 0 ∧
        body { fd with refcount := fd.refcount + 1 } (taken s process fdnum fd) = some (answer, s'))) := by
  unfold withFd fdFromFdnum at h
  cases hfd : s.tables process fdnum with
  | none =>
    rw [hfd] at h
    obtain ⟨rfl, rfl⟩ := Prod.mk.inj (Option.some.inj h)
    exact Or.inl ⟨rfl, rfl, rfl⟩
  | some fd =>
    rw [hfd] at h
    refine Or.inr ⟨fd, rfl, ?_⟩
    by_cases hpath : accMode fd &&& oPath ≠ 0
    · have h' := (if_pos hpath).symm.trans h
      obtain ⟨rfl, rfl⟩ := Prod.mk.inj (Option.some.inj h')
      exact Or.inl ⟨hpath, rfl, rfl⟩
    · exact Or.inr ⟨not_not.mp hpath, (if_neg hpath).symm.trans h⟩

end Bodies

/-- Every offset is at most `n`. -/
def Bounded (n : ℕ) (tables : ℕ → FdTable) : Prop :=
  ∀ process i, ∀ fd ∈ tables process i, fd.offset.toNat ≤ n

section Offsets
variable {F : Type} {s : Files F} {n process child : ℕ} {fdnum : Fin maxFds} {table table' : FdTable}
  {fd : FileDescriptor}

lemma Bounded.mono {n' : ℕ} (h : Bounded n s.tables) (hn : n ≤ n') : Bounded n' s.tables :=
  fun p i fd hfd => (h p i fd hfd).trans hn

lemma Bounded.setTable (h : Bounded n s.tables) (ht : ∀ i, ∀ fd ∈ table i, fd.offset.toNat ≤ n) :
    Bounded n (s.setTable process table).tables := by
  intro p i fd hfd
  by_cases hp : p = process
  · subst hp
    rw [Files.setTable_tables, Function.update_self] at hfd
    exact ht i fd hfd
  · rw [Files.setTable_tables, Function.update_of_ne hp] at hfd
    exact h p i fd hfd

lemma Bounded.setFd (h : Bounded n s.tables) (ho : fd.offset.toNat ≤ n) :
    Bounded n (s.setTable process (Function.update (s.tables process) fdnum (some fd))).tables := by
  refine h.setTable fun i fd' hfd' => ?_
  by_cases hi : i = fdnum
  · subst hi
    rw [Function.update_self] at hfd'
    exact Option.some.inj hfd' ▸ ho
  · rw [Function.update_of_ne hi] at hfd'
    exact h process i fd' hfd'

/-- `fd_from_fdnum` changes a counter only. -/
lemma fdFromFdnum_some (hfd : fdFromFdnum table fdnum = (some fd, table')) :
    ∃ fd0, table fdnum = some fd0 ∧ fd.offset = fd0.offset ∧ table' = Function.update table fdnum (some fd) := by
  unfold fdFromFdnum at hfd
  cases h : table fdnum with
  | none => simp [h] at hfd
  | some fd0 =>
    rw [h] at hfd
    simp only [Prod.mk.injEq, Option.some.injEq] at hfd
    obtain ⟨rfl, rfl⟩ := hfd
    exact ⟨fd0, rfl, rfl, rfl⟩

/-- Without failing allocations `fork` copies all descriptors. -/
lemma exists_dup (table : FdTable) :
    ∃ r, dupDescriptors plenty (table, fun _ => none, ()) (List.finRange maxFds) = some r := by
  have hstep : ∀ (is : List (Fin maxFds)) tables, ∃ r, dupDescriptors plenty tables is = some r := by
    intro is
    induction is with
    | nil => exact fun tables => ⟨tables, rfl⟩
    | cons i is ih =>
      intro tables
      rw [dupDescriptors]
      cases hi : tables.1 i with
      | none => exact ih tables
      | some fd =>
        dsimp only
        rw [fdDup, fdFromFdnum, hi]
        exact ih _
  exact hstep _ _

lemma Bounded.dup {tables' : FdTable × FdTable × Unit} (h : Bounded n s.tables)
    (hdup : dupDescriptors plenty (s.tables process, fun _ => none, ()) (List.finRange maxFds) = some tables') :
    Bounded n ((s.setTable process tables'.1).setTable child tables'.2.1).tables := by
  obtain ⟨hold, hnew⟩ := dupDescriptors_files hdup
  have hfile : ∀ (t : FdTable) i, (files t i = files (s.tables process) i ∨ files t i = none) →
      ∀ fd ∈ t i, fd.offset.toNat ≤ n := by
    intro t i hi fd hfd
    have hsome : files t i = some fd.file := by rw [files, hfd, Option.map_some]
    rw [hsome] at hi
    rcases hi with hi | hi
    · obtain ⟨fd0, hfd0, he⟩ := Option.map_eq_some_iff.mp hi.symm
      have hoff : fd.offset = fd0.offset := congrArg (fun x => x.2.2) he.symm
      rw [hoff]
      exact h process i fd0 hfd0
    · simp at hi
  refine (h.setTable fun i fd hfd => hfile _ i (Or.inl (hold i)) fd hfd).setTable fun i fd hfd => ?_
  refine hfile _ i ?_ fd hfd
  rw [hnew i]
  split_ifs
  · exact Or.inl rfl
  · exact Or.inr rfl

end Offsets

/-- The calls of a file that is only opened, read, written and closed. -/
def Sequential : Call → Prop
  | .openFile _ flags _ => flags &&& oTrunc = 0
  | .seek .. => False
  | .truncate .. => False
  | _ => True

/-- Offsets and counts stay below `2 ^ 63`. -/
def Small {F : Type} (s : Files F) : Call → Prop
  | .read process fdnum _ count => ∀ fd ∈ s.tables process fdnum, fd.offset.toNat + count.toNat < 2 ^ 63
  | .write process fdnum _ _ _ count => ∀ fd ∈ s.tables process fdnum, fd.offset.toNat + count.toNat < 2 ^ 63
  | .truncate _ _ length _ => length.toNat < 2 ^ 63
  | _ => True

section Sequences
variable {s s' : Files TmpFile} {t t' : Files (List (BitVec 8))} {process child : ℕ} {fdnum : Fin maxFds}

/-- The file holds the bytes of the sequence, and no offset is behind its end. -/
structure Refines (s : Files TmpFile) (t : Files (List (BitVec 8))) : Prop where
  fits : Fits s.file
  bytes : t.file = readBytes s.file.data 0 s.file.size.toNat
  tables : t.tables = s.tables
  bounded : Bounded s.file.size.toNat s.tables

variable (process fdnum) in
lemma Refines.setFd {fd : FileDescriptor} (h : Refines s t) (ho : fd.offset.toNat ≤ s.file.size.toNat) :
    Refines (s.setTable process (Function.update (s.tables process) fdnum (some fd)))
      (t.setTable process (Function.update (t.tables process) fdnum (some fd))) := by
  refine ⟨h.fits, h.bytes, ?_, h.bounded.setFd ho⟩
  rw [Files.setTable_tables, Files.setTable_tables, h.tables]

/-- Both give the same answer and stay related. -/
def Agree (r : Option (Answer × Files TmpFile)) (r' : Option (Answer × Files (List (BitVec 8)))) : Prop :=
  ∃ answer s t, r = some (answer, s) ∧ r' = some (answer, t) ∧ Refines s t

lemma Refines.withFd {body : FileDescriptor → Files TmpFile → Option (Answer × Files TmpFile)}
    {body' : FileDescriptor → Files (List (BitVec 8)) → Option (Answer × Files (List (BitVec 8)))}
    (h : Refines s t)
    (hbody : ∀ fd s1 t1, (∃ fd0 ∈ s.tables process fdnum, fd0.offset = fd.offset) → Refines s1 t1 →
      fd.offset.toNat ≤ s1.file.size.toNat → Agree (body fd s1) (body' fd t1)) :
    Agree (FileCalls.withFd s process fdnum body) (FileCalls.withFd t process fdnum body') := by
  unfold FileCalls.withFd
  rw [h.tables]
  cases hfd : fdFromFdnum (s.tables process) fdnum with
  | mk r table =>
    cases r with
    | none => exact ⟨_, s, t, rfl, rfl, h⟩
    | some fd =>
      obtain ⟨fd0, hfd0, hoff, rfl⟩ := fdFromFdnum_some hfd
      have ho : fd.offset.toNat ≤ s.file.size.toNat := hoff ▸ h.bounded process fdnum fd0 hfd0
      have h1 := h.setFd process fdnum ho
      rw [h.tables] at h1
      dsimp only
      split_ifs
      · exact ⟨_, _, _, rfl, rfl, h1⟩
      · exact hbody fd _ _ ⟨fd0, hfd0, hoff.symm⟩ h1 ho

lemma Refines.read {userPtr : Bool} {count : BitVec 64} (h : Refines s t)
    (hsmall : Small s (.read process fdnum userPtr count)) :
    Agree (syscallRead tmpfsOps s process fdnum userPtr count) (syscallRead seqOps t process fdnum userPtr count) := by
  unfold syscallRead
  by_cases hptr : ¬ userPtr = true
  · rw [if_pos hptr, if_pos hptr]
    exact ⟨_, s, t, rfl, rfl, h⟩
  rw [if_neg hptr, if_neg hptr]
  refine h.withFd fun fd s1 t1 ⟨fd0, hfd0, hoff⟩ h1 ho => ?_
  by_cases hmode : accMode fd ≠ oRdwr ∧ accMode fd ≠ oRdonly
  · rw [if_pos hmode, if_pos hmode]
    exact ⟨_, s1, t1, rfl, rfl, h1⟩
  rw [if_neg hmode, if_neg hmode]
  have hsum : fd.offset.toNat + count.toNat < 2 ^ 63 := hoff ▸ hsmall fd0 hfd0
  have hread := tmpfsRead_inside h1.fits.low hsum ho
  have hseq : (t1.file.drop fd.offset.toNat).take count.toNat =
      readBytes s1.file.data fd.offset.toNat (min count.toNat (s1.file.size.toNat - fd.offset.toNat)) := by
    rw [h1.bytes, take_drop_readBytes, Nat.zero_add]
  simp only [tmpfsOps, seqOps, hread, hseq, Option.map_some, length_readBytes]
  refine ⟨_, _, _, rfl, rfl, h1.setFd process fdnum ?_⟩
  have hlow := h1.fits.low
  dsimp only
  rw [BitVec.toNat_add, BitVec.toNat_ofNat]
  omega

/-- Bytes stored inside a sequence or right behind it. -/
lemma readBytes_write {data data' buf : Memory} {n off c : ℕ} (hoff : off ≤ n)
    (hdata : ∀ k < n, data' k = data k) :
    (readBytes data 0 n ++ List.replicate (off - (readBytes data 0 n).length) 0).take off ++ readBytes buf 0 c ++
        (readBytes data 0 n).drop (off + c) =
      readBytes (blit data' off buf c) 0 (max n (off + c)) := by
  rw [length_readBytes, Nat.sub_eq_zero_of_le hoff, List.replicate_zero, List.append_nil]
  apply List.ext_getElem
  · simp
    omega
  · intro k h1 h2
    rw [length_readBytes] at h2
    rw [getElem_readBytes, Nat.zero_add]
    by_cases hk : k < off
    · rw [List.getElem_append_left (by simp; omega), List.getElem_append_left (by simp; omega),
        List.getElem_take, getElem_readBytes, blit_outside _ _ (Or.inl hk), hdata k (by omega), Nat.zero_add]
    · obtain ⟨j, rfl⟩ := Nat.exists_eq_add_of_le (Nat.not_lt.mp hk)
      by_cases hj : j < c
      · rw [List.getElem_append_left (by simp; omega), List.getElem_append_right (by simp), getElem_readBytes,
          blit_inside _ _ hj]
        simp [hoff]
      · rw [List.getElem_append_right (by simp; omega), blit_outside _ _ (by omega), hdata _ (by omega)]
        simp only [List.getElem_drop, getElem_readBytes, List.length_append, List.length_take, length_readBytes]
        congr 1
        omega

lemma Refines.write {userPtr : Bool} {buf stale : Memory} {count : BitVec 64} (h : Refines s t)
    (hsmall : Small s (.write process fdnum userPtr buf stale count)) :
    Agree (syscallWrite tmpfsOps s process fdnum userPtr buf stale count)
      (syscallWrite seqOps t process fdnum userPtr buf stale count) := by
  unfold syscallWrite
  by_cases hptr : ¬ userPtr = true
  · rw [if_pos hptr, if_pos hptr]
    exact ⟨_, s, t, rfl, rfl, h⟩
  rw [if_neg hptr, if_neg hptr]
  refine h.withFd fun fd s1 t1 ⟨fd0, hfd0, hoff⟩ h1 ho => ?_
  by_cases hmode : accMode fd ≠ oRdwr ∧ accMode fd ≠ oWronly
  · rw [if_pos hmode, if_pos hmode]
    exact ⟨_, s1, t1, rfl, rfl, h1⟩
  rw [if_neg hmode, if_neg hmode]
  have hsum : fd.offset.toNat + count.toNat < 2 ^ 63 := hoff ▸ hsmall fd0 hfd0
  obtain ⟨f, f', -, hb, hwrite, hfits, hsize, hdata⟩ := tmpfsWrite_some stale buf h1.fits hsum
  have hseq : (t1.file ++ List.replicate (fd.offset.toNat - t1.file.length) 0).take fd.offset.toNat ++
      readBytes buf 0 count.toNat ++ t1.file.drop (fd.offset.toNat + count.toNat) =
      readBytes f'.data 0 f'.size.toNat := by
    rw [h1.bytes, hsize, hdata]
    exact readBytes_write ho fun k hk => hb.data k (hk.trans_le h1.fits.size)
  simp only [tmpfsOps, seqOps, hwrite, hseq, Option.map_some]
  have h2 : Refines { s1 with file := f' } { t1 with file := readBytes f'.data 0 f'.size.toNat } :=
    ⟨hfits, rfl, h1.tables, h1.bounded.mono (hsize ▸ le_max_left _ _)⟩
  refine ⟨_, _, _, rfl, rfl, h2.setFd process fdnum ?_⟩
  dsimp only
  rw [hsize]
  split_ifs
  · rw [toNat_add_of_lt hsum]
    exact le_max_right _ _
  · exact ho.trans (le_max_left _ _)

lemma Refines.size_eq (h : Refines s t) : seqOps.size t.file = s.file.size := by
  change BitVec.ofNat 64 t.file.length = s.file.size
  rw [h.bytes, length_readBytes, BitVec.ofNat_toNat, BitVec.setWidth_eq]

lemma Refines.openFile {flags : BitVec 32} {stale : Memory} (h : Refines s t) (hseq : flags &&& oTrunc = 0) :
    Agree (syscallOpen tmpfsOps s process flags stale) (syscallOpen seqOps t process flags stale) := by
  obtain ⟨bytes, tables⟩ := t
  obtain rfl : tables = s.tables := h.tables
  unfold syscallOpen
  by_cases hexcl : flags &&& oCreat ≠ 0 ∧ flags &&& oExcl ≠ 0
  · rw [if_pos hexcl, if_pos hexcl]
    exact ⟨_, _, _, rfl, rfl, h⟩
  rw [if_neg hexcl, if_neg hexcl]
  by_cases hdir : flags &&& oDirectory ≠ 0
  · rw [if_pos hdir, if_pos hdir]
    exact ⟨_, _, _, rfl, rfl, h⟩
  rw [if_neg hdir, if_neg hdir, if_neg (not_not.mpr hseq), if_neg (not_not.mpr hseq), Option.map_some, Option.map_some]
  cases (List.finRange maxFds).find? fun i => (s.tables process i).isNone with
  | none => exact ⟨_, _, _, rfl, rfl, h⟩
  | some fdnum =>
    have hnew : Refines (s.setTable process (Function.update (s.tables process) fdnum
          (some ⟨0, flags &&& fileFlagsMask, 1, if flags &&& oAppend ≠ 0 then s.file.size else 0⟩)))
        ((⟨bytes, s.tables⟩ : Files _).setTable process (Function.update (s.tables process) fdnum
          (some ⟨0, flags &&& fileFlagsMask, 1, if flags &&& oAppend ≠ 0 then s.file.size else 0⟩))) := by
      refine h.setFd process fdnum ?_
      dsimp only
      split_ifs
      · exact le_rfl
      · exact Nat.zero_le _
    have hsize := h.size_eq
    dsimp only at hsize ⊢
    rw [hsize]
    exact ⟨_, _, _, rfl, rfl, hnew⟩

lemma Refines.fork (h : Refines s t) : Agree (syscallFork s process child) (syscallFork t process child) := by
  unfold syscallFork
  rw [h.tables]
  obtain ⟨r, hr⟩ := exists_dup (s.tables process)
  rw [hr, Option.map_some, Option.map_some]
  refine ⟨_, _, _, rfl, rfl, h.fits, h.bytes, ?_, h.bounded.dup hr⟩
  simp only [Files.setTable_tables, h.tables]

lemma Refines.close (h : Refines s t) :
    Agree (some (syscallClose s process fdnum)) (some (syscallClose t process fdnum)) := by
  unfold syscallClose
  rw [h.tables]
  cases s.tables process fdnum with
  | none => exact ⟨_, s, t, rfl, rfl, h⟩
  | some fd =>
    refine ⟨_, _, _, rfl, rfl, h.fits, h.bytes, ?_, ?_⟩
    · simp only [Files.setTable_tables, h.tables]
    · refine h.bounded.setTable fun i fd' hfd' => ?_
      by_cases hi : i = fdnum
      · subst hi
        rw [Function.update_self] at hfd'
        simp at hfd'
      · rw [Function.update_of_ne hi] at hfd'
        exact h.bounded process i fd' hfd'

lemma Refines.small {c : Call} (h : Refines s t) (hsmall : Small s c) : Small t c := by
  cases c with
  | read process fdnum userPtr count =>
    intro fd hfd
    rw [h.tables] at hfd
    exact hsmall fd hfd
  | write process fdnum userPtr buf stale count =>
    intro fd hfd
    rw [h.tables] at hfd
    exact hsmall fd hfd
  | _ => exact hsmall

/-- One call on the file is the same call on the sequence. -/
lemma Refines.call {c : Call} (h : Refines s t) (hseq : Sequential c) (hsmall : Small s c) :
    Agree (syscall tmpfsOps s c) (syscall seqOps t c) := by
  cases c with
  | openFile process flags stale => exact h.openFile hseq
  | fork process child => exact h.fork
  | read process fdnum userPtr count => exact h.read hsmall
  | write process fdnum userPtr buf stale count => exact h.write hsmall
  | close process fdnum => exact h.close
  | seek => exact hseq.elim
  | truncate => exact hseq.elim

end Sequences

/-- One step of a history: a call that returned, with its answer. -/
def Performed {F : Type} (ops : FileOps F) (s : Files F) (l : Call × Answer) (s' : Files F) : Prop :=
  Small s l.1 ∧ syscall ops s l.1 = some (l.2, s')

/-- A new file, and no descriptor is open. -/
def created (stale : Memory) : Files TmpFile := ⟨tmpfsCreate stale, fun _ _ => none⟩

lemma created_refines (stale : Memory) : Refines (created stale) ⟨[], fun _ _ => none⟩ := by
  refine ⟨tmpfsCreate_fits stale, rfl, rfl, fun process i fd hfd => ?_⟩
  simp [created] at hfd

lemma Refines.run {s s' : Files TmpFile} {t : Files (List (BitVec 8))} {history : List (Call × Answer)}
    (h : Refines s t) (hseq : ∀ l ∈ history, Sequential l.1) (hrun : Run (Performed tmpfsOps) s history s') :
    ∃ t', Run (Performed seqOps) t history t' ∧ Refines s' t' := by
  induction hrun generalizing t with
  | nil s => exact ⟨t, .nil t, h⟩
  | @cons s s1 s2 l history hstep _ ih =>
    obtain ⟨answer, s1', t1, hs, ht, h1⟩ := h.call (hseq l List.mem_cons_self) hstep.1
    rw [hstep.2] at hs
    obtain ⟨rfl, rfl⟩ := Prod.mk.inj (Option.some.inj hs)
    obtain ⟨t', hrun', h'⟩ := ih h1 fun l hl => hseq l (List.mem_cons_of_mem _ hl)
    exact ⟨t', .cons ⟨h.small hstep.1, ht⟩ hrun', h'⟩

def fd0 : Fin maxFds := ⟨0, by decide⟩
def fd1 : Fin maxFds := ⟨1, by decide⟩

/-- Two bytes are written and read through another descriptor. -/
def twoBytes : List (Call × Answer) :=
  [(.openFile 1 oRdwr fun _ => 9, .ret 0), (.write 1 fd0 true (fun k => BitVec.ofNat 8 k) (fun _ => 9) 2, .ret 2),
    (.openFile 1 oRdwr fun _ => 9, .ret 1), (.read 1 fd1 true 5, .bytes [0, 1])]

end PiggyOs.FileCalls
