import PiggyOs.FileCalls
import PiggyOs.Getdents

/-! The system calls of `sc_file.c` over the tables of the processes. A slot points to an object that
`kmalloc` has returned, and the objects and the nodes have counters. `none` is a call that does not
return, because of a fault or because of a loop that does not end. -/
namespace PiggyOs.Descriptors
open ByteMemory Tmpfs Fork VfsTree
open FileCalls (eperm ebadf efault einval emfile enotdir espipe oPath oRdonly oWronly oRdwr oAccmode oCreat
  oDirectory oTrunc oAppend oExcl fileFlagsMask)

def eisdir : ℤ := 8
def enametoolong : ℤ := 10
def enoent : ℤ := 11
def enomem : ℤ := 13
def enotty : ℤ := 17

def fdFlagsMask : BitVec 32 := 0x200
def fileCreationFlagsMask : BitVec 32 := 0x1ff

def fDupfd : BitVec 32 := 0
def fDupfdCloexec : BitVec 32 := 1
def fGetfd : BitVec 32 := 2
def fSetfd : BitVec 32 := 3
def fGetfl : BitVec 32 := 4
def fSetfl : BitVec 32 := 5

def sIsreg (mode : BitVec 32) : Bool := mode &&& sIfmt = sIfreg
def sIsblk (mode : BitVec 32) : Bool := mode &&& sIfmt = sIfblk

/-- `files` has the size and the buffer of every node, `fds` the objects that are allocated. -/
structure Sys where
  vfs : Vfs
  files : ℕ → TmpFile
  blksize : ℕ → BitVec 64
  ino : ℕ → BitVec 64
  refcount : ℕ → ℕ
  fds : ℕ → Option FileDescriptor
  tables : ℕ → Fin maxFds → Option ℕ
  cwd : ℕ → ℕ

def Sys.setFd (s : Sys) (p : ℕ) (fd : Option FileDescriptor) : Sys := { s with fds := Function.update s.fds p fd }

def Sys.setSlot (s : Sys) (process : ℕ) (i : Fin maxFds) (p : Option ℕ) : Sys :=
  { s with tables := Function.update s.tables process (Function.update (s.tables process) i p) }

def Sys.setRefcount (s : Sys) (node n : ℕ) : Sys := { s with refcount := Function.update s.refcount node n }

def Sys.setFile (s : Sys) (node : ℕ) (file : TmpFile) : Sys := { s with files := Function.update s.files node file }

/-- `fd->refcount++`. -/
def Sys.addReference (s : Sys) (p : ℕ) : Sys :=
  s.setFd p ((s.fds p).map fun fd => { fd with refcount := fd.refcount + 1 })

/-- The check of a number that the user has given. -/
def slot (fdnum : ℤ) : Option (Fin maxFds) :=
  if h : 0 ≤ fdnum ∧ fdnum < maxFds then some ⟨fdnum.toNat, by omega⟩ else none

/-- The object of an open number. -/
def Sys.object (s : Sys) (process : ℕ) (fdnum : ℤ) : Option ℕ := (slot fdnum).bind (s.tables process)

section Objects

/-- `mem` is what `kmalloc` returns. -/
def fdCreate (s : Sys) (mem : Option ℕ) (node : ℕ) (flags : BitVec 32) : Option ℕ × Sys :=
  match mem with
  | none => (none, s)
  | some p => (some p, (s.setRefcount node (s.refcount node + 1)).setFd p (some ⟨node, flags &&& fileFlagsMask, 1, 0⟩))

/-- `if (fd->refcount-- == 1) kfree(fd)`. -/
def release (fd : FileDescriptor) : Option FileDescriptor :=
  if fd.refcount = 1 then none else some { fd with refcount := fd.refcount - 1 }

def fdClose (s : Sys) (process : ℕ) (fdnum : ℤ) : ℤ × Sys :=
  match slot fdnum with
  | none => (-ebadf, s)
  | some i => match s.tables process i with
      | none => (-ebadf, s)
      | some p => (0, (s.setFd p ((s.fds p).bind release)).setSlot process i none)

/-- Nothing gives back the reference. -/
def fdFromFdnum (s : Sys) (process : ℕ) (fdnum : ℤ) : Option ℕ × Sys :=
  match s.object process fdnum with
  | none => (none, s)
  | some p => (some p, s.addReference p)

/-- The first free slot from `start` on. -/
def freeSlot (s : Sys) (process : ℕ) (start : ℤ) : Option (Fin maxFds) :=
  (List.finRange maxFds).find? fun i => start ≤ i.val ∧ s.tables process i = none

/-- Without `exact` the last slot counts as a failure although it has been taken, and a table without
a free slot as a success. A negative number is an index in front of the table. -/
def fdDup (s : Sys) (oldProcess : ℕ) (oldFdnum : ℤ) (newProcess : ℕ) (newFdnum : ℤ) (exact cloexec : Bool)
    (mem : Option ℕ) : Option (ℤ × Sys) :=
  if oldFdnum = newFdnum ∧ oldProcess = newProcess then some (-einval, s)
  else match fdFromFdnum s oldProcess oldFdnum with
    | (none, s) => some (-ebadf, s)
    | (some p, s) => (s.fds p).bind fun oldFd => match mem with
        | none => some (-enomem, s)
        | some q =>
            let s := s.setFd q (some { oldFd with flags := if cloexec then oldFd.flags ||| oCloexec else oldFd.flags })
            if ¬exact then
              if newFdnum < 0 then none
              else match freeSlot s newProcess newFdnum with
                | none => some (newFdnum, s.addReference p)
                | some i =>
                    if i.val = maxFds - 1 then some (-emfile, s.setSlot newProcess i (some q))
                    else some (i.val, (s.setSlot newProcess i (some q)).addReference p)
            else (slot newFdnum).map fun i =>
              let s := if s.tables newProcess i ≠ none then (fdClose s newProcess newFdnum).2 else s
              (newFdnum, (s.setSlot newProcess i (some q)).addReference p)

def fdAllocFdnum (s : Sys) (process p : ℕ) : Option (Fin maxFds × Sys) :=
  (freeSlot s process 0).map fun i => (i, s.setSlot process i (some p))

end Objects

section Nodes

/-- `answer` is what a driver returns. -/
def readNode (s : Sys) (node : ℕ) (offset count answer : BitVec 64) : Option (BitVec 64) :=
  if (s.vfs.nodes node).fs = some .tmpfs then
    (tmpfsRead (s.files node) offset count).map fun bytes => BitVec.ofNat 64 bytes.length
  else some answer

def writeNode (s : Sys) (node : ℕ) (buf stale : Memory) (offset count answer : BitVec 64) : Option (BitVec 64 × Sys) :=
  if (s.vfs.nodes node).fs = some .tmpfs then
    (tmpfsWrite stale (s.files node) buf offset count).map fun file => (count, s.setFile node file)
  else some (answer, s)

/-- Only `tmpfs` replaces `truncate_stub`. -/
def truncateNode (s : Sys) (node : ℕ) (length : BitVec 64) (stale : Memory) : Option (ℤ × Sys) :=
  if (s.vfs.nodes node).fs = some .tmpfs then
    (tmpfsTruncate stale (s.files node) length).map fun file => (0, s.setFile node file)
  else some (-eperm, s)

end Nodes

/-- What `syscall_open` meets: the bytes behind the copies of the two lookups, the buffer of a new
file, and the memory for the descriptor. -/
structure Surroundings where
  stale : ℕ → List (BitVec 8)
  stale' : ℕ → List (BitVec 8)
  fuel : ℕ
  data : Memory
  mem : Option ℕ

/-- `syscall_open` after the file has been found or created. -/
def openNode (s : Sys) (process : ℕ) (flags : BitVec 32) (e : Surroundings) (node : ℕ) : Option (ℤ × Sys) :=
  (vfsReduceNode s.vfs e.fuel node).bind fun node =>
    if ¬s.vfs.isDir node ∧ flags &&& oDirectory ≠ 0 then some (-enotdir, s)
    else match fdCreate s e.mem node flags with
      | (none, s) => some (-enomem, s)
      | (some p, s) =>
          (if flags &&& oTrunc ≠ 0 ∧ sIsreg (s.vfs.nodes node).mode then truncateNode s node 0 e.data
            else some (0, s)).map fun (ret, s) =>
          if ret < 0 then (ret, s)
          else match fdAllocFdnum s process p with
            | none => (-emfile, (s.setFd p none).setRefcount node (s.refcount node - 1))
            | some (i, s) => (i.val, if flags &&& oAppend ≠ 0
                then s.setFd p ((s.fds p).map fun fd => { fd with offset := (s.files node).size }) else s)

/-- `syscall_open` after `vfs_create`. -/
def openCreated (s : Sys) (process : ℕ) (flags : BitVec 32) (e : Surroundings) : Outcome (Vfs × Option ℕ) → Option (ℤ × Sys)
  | .fault => none
  | .returns (vfs, none) => some (-enoent, { s with vfs := vfs })
  | .returns (vfs, some new) =>
      openNode ({ s with vfs := vfs }.setFile new (tmpfsCreate e.data)) process flags e new

def syscallOpen (s : Sys) (process : ℕ) (userPtr : Bool) (path : CString) (flags : BitVec 32) (e : Surroundings) :
    Option (ℤ × Sys) :=
  if ¬userPtr then some (-efault, s)
  else if path.1 = [] then some (-enoent, s)
  else if pathMax ≤ path.strlen then some (-enametoolong, s)
  else (vfsGetNode s.vfs e.stale (s.cwd process) path e.fuel).bind fun
    | some node =>
        if flags &&& oCreat ≠ 0 ∧ flags &&& oExcl ≠ 0 then some (-einval, s) else openNode s process flags e node
    | none =>
        if flags &&& oCreat = 0 then some (-enoent, s)
        else (vfsCreate s.vfs e.stale' (s.cwd process) path sIfreg e.fuel).bind (openCreated s process flags e)

section Calls
variable (s : Sys) (process : ℕ) (fdnum : ℤ)

/-- The calls that begin with `fd_from_fdnum`. -/
def onFd {α : Type} (failed : Sys → α) (body : ℕ → FileDescriptor → Sys → Option α) : Option α :=
  match fdFromFdnum s process fdnum with
  | (none, s) => some (failed s)
  | (some p, s) => (s.fds p).bind fun fd => body p fd s

def accMode (fd : FileDescriptor) : BitVec 32 := fd.flags &&& oAccmode

/-- The descriptor is not one for `O_PATH`. -/
def onOpenFd (body : ℕ → FileDescriptor → Sys → Option (ℤ × Sys)) : Option (ℤ × Sys) :=
  onFd s process fdnum (fun s => (-ebadf, s)) fun p fd s =>
    if accMode fd &&& oPath ≠ 0 then some (-ebadf, s) else body p fd s

/-- The offset moves by what was transferred. -/
def advanced (s : Sys) (p : ℕ) (fd : FileDescriptor) (done : BitVec 64) : ℤ × Sys :=
  (done.toInt, if 0 < done.toInt then s.setFd p (some { fd with offset := fd.offset + done }) else s)

def syscallRead (userPtr : Bool) (count answer : BitVec 64) : Option (ℤ × Sys) :=
  if ¬userPtr then some (-efault, s)
  else onOpenFd s process fdnum fun p fd s =>
    if accMode fd ≠ oRdwr ∧ accMode fd ≠ oRdonly then some (-eperm, s)
    else if s.vfs.isDir fd.node then some (-eisdir, s)
    else if sIsblk (s.vfs.nodes fd.node).mode ∧ count % s.blksize fd.node ≠ 0 then some (-einval, s)
    else (readNode s fd.node fd.offset count answer).map (advanced s p fd)

def syscallWrite (userPtr : Bool) (buf stale : Memory) (count answer : BitVec 64) : Option (ℤ × Sys) :=
  if ¬userPtr then some (-efault, s)
  else onOpenFd s process fdnum fun p fd s =>
    if accMode fd ≠ oRdwr ∧ accMode fd ≠ oWronly then some (-eperm, s)
    else if s.vfs.isDir fd.node then some (-eisdir, s)
    else if sIsblk (s.vfs.nodes fd.node).mode ∧ count % s.blksize fd.node ≠ 0 then some (-einval, s)
    else (writeNode s fd.node buf stale fd.offset count answer).map fun (written, s) => advanced s p fd written

def syscallIoctl (answer : ℤ) : Option (ℤ × Sys) :=
  onOpenFd s process fdnum fun _ fd s =>
    some (if (s.vfs.nodes fd.node).fs = some .tmpfs then -enotty else answer, s)

def syscallSeek (offset : BitVec 64) (whence : ℤ) : Option (ℤ × Sys) :=
  onOpenFd s process fdnum fun p fd s =>
    if s.vfs.isDir fd.node then some (-eisdir, s)
    else if sIsblk (s.vfs.nodes fd.node).mode ∧ offset.srem (s.blksize fd.node) ≠ 0 then some (-einval, s)
    else
      let move := fun new : BitVec 64 =>
        if new.slt 0 then some (-espipe, s) else some (new.toInt, s.setFd p (some { fd with offset := new }))
      if whence = FileCalls.seekCur then move (fd.offset + offset)
      else if whence = FileCalls.seekEnd then move (offset + (s.files fd.node).size)
      else if whence = FileCalls.seekSet then move offset
      else some (-einval, s)

def syscallTruncate (length : BitVec 64) (stale : Memory) : Option (ℤ × Sys) :=
  onOpenFd s process fdnum fun _ fd s =>
    if accMode fd ≠ oRdwr ∧ accMode fd ≠ oWronly then some (-eperm, s)
    else if s.vfs.isDir fd.node then some (-eisdir, s)
    else truncateNode s fd.node length stale

def syscallFcntl (cmd arg : BitVec 32) (mem : Option ℕ) : Option (ℤ × Sys) :=
  onOpenFd s process fdnum fun p fd s =>
    if cmd = fDupfd then fdDup s process fdnum process arg.toInt false false mem
    else if cmd = fDupfdCloexec then fdDup s process fdnum process arg.toInt false true mem
    else if cmd = fGetfd then some ((fd.flags &&& fdFlagsMask).toInt, s)
    else if cmd = fSetfd then some (0, s.setFd p (some { fd with flags := arg &&& fdFlagsMask }))
    else if cmd = fGetfl then some ((fd.flags &&& fileCreationFlagsMask).toInt, s)
    else if cmd = fSetfl then some (0, s.setFd p (some { fd with flags := arg &&& fileCreationFlagsMask }))
    else some (-einval, s)

def syscallFsync (answer : ℤ) : Option (ℤ × Sys) :=
  onOpenFd s process fdnum fun _ fd s =>
    some (if (s.vfs.nodes fd.node).fs = some .tmpfs then 0 else answer, s)

def syscallStat (userPtr : Bool) : Option (ℤ × Sys) :=
  onFd s process fdnum (fun s => (-ebadf, s)) fun _ _ s => some (if userPtr then 0 else -efault, s)

def syscallChdir : Option (ℤ × Sys) :=
  onFd s process fdnum (fun s => (-ebadf, s)) fun _ fd s =>
    if ¬s.vfs.isDir fd.node then some (-enotdir, s)
    else some (0, { s with cwd := Function.update s.cwd process fd.node })

/-- `mem` is the memory of the process, which gets the records. -/
def syscallGetdents (userPtr : Bool) (mem : Memory) (buf count fuel : ℕ) : Option ((ℤ × Sys) × Memory) :=
  if ¬userPtr then some ((-efault, s), mem)
  else onFd s process fdnum (fun s => ((-ebadf, s), mem)) fun p fd s =>
    if accMode fd &&& oPath ≠ 0 then some ((-ebadf, s), mem)
    else if accMode fd ≠ oRdwr ∧ accMode fd ≠ oRdonly then some ((-eperm, s), mem)
    else if ¬s.vfs.isDir fd.node then some ((-enotdir, s), mem)
    else (s.vfs.nodes fd.node).children.bind fun map =>
      (vfsGetdents s.vfs s.ino fuel map mem buf fd.offset.toNat count).map fun (read, mem) =>
        (advanced s p fd (BitVec.ofNat 64 read), mem)

end Calls

/-- The loop of `process_create` over the descriptors. `mem i` is for slot `i`. -/
def dupSlots (process child : ℕ) (mem : Fin maxFds → Option ℕ) : List (Fin maxFds) → Sys → Option (Bool × Sys)
  | [], s => some (true, s)
  | i :: is, s =>
      if s.tables process i = none then dupSlots process child mem is s
      else (fdDup s process i.val child i.val true false (mem i)).bind fun (ret, s) =>
        if ret < 0 then some (false, s) else dupSlots process child mem is s

/-- The child comes zeroed from its cache. -/
def newProcess (s : Sys) (process child : ℕ) : Sys :=
  { s with
    tables := Function.update s.tables child fun _ => none
    cwd := Function.update s.cwd child (s.cwd process) }

/-- Everything but the descriptors succeeds. After a failure the child is given back with its table. -/
def syscallFork (s : Sys) (process child : ℕ) (mem : Fin maxFds → Option ℕ) : Option (ℤ × Sys) :=
  (dupSlots process child mem (List.finRange maxFds) (newProcess s process child)).map fun (copied, s) =>
    if copied then (child, s) else (-enomem, { s with tables := Function.update s.tables child fun _ => none })

/-- `syscall_exit`, and the loop of `process_destroy` that closes what is still open. -/
def syscallExit (s : Sys) (process : ℕ) : Sys :=
  (List.finRange maxFds).foldl (fun s i => (fdClose s process i.val).2) s

inductive Call
  | openFile (process : ℕ) (userPtr : Bool) (path : CString) (flags : BitVec 32) (e : Surroundings)
  | read (process : ℕ) (fdnum : ℤ) (userPtr : Bool) (count answer : BitVec 64)
  | write (process : ℕ) (fdnum : ℤ) (userPtr : Bool) (buf stale : Memory) (count answer : BitVec 64)
  | ioctl (process : ℕ) (fdnum answer : ℤ)
  | seek (process : ℕ) (fdnum : ℤ) (offset : BitVec 64) (whence : ℤ)
  | truncate (process : ℕ) (fdnum : ℤ) (length : BitVec 64) (stale : Memory)
  | fcntl (process : ℕ) (fdnum : ℤ) (cmd arg : BitVec 32) (mem : Option ℕ)
  | fsync (process : ℕ) (fdnum answer : ℤ)
  | stat (process : ℕ) (fdnum : ℤ) (userPtr : Bool)
  | chdir (process : ℕ) (fdnum : ℤ)
  | getdents (process : ℕ) (fdnum : ℤ) (userPtr : Bool) (mem : Memory) (buf count fuel : ℕ)
  | close (process : ℕ) (fdnum : ℤ)
  | fork (process child : ℕ) (mem : Fin maxFds → Option ℕ)
  | exit (process : ℕ)

/-- The value that is returned, `0` for the call that does not return to the process. -/
def syscall (s : Sys) : Call → Option (ℤ × Sys)
  | .openFile process userPtr path flags e => syscallOpen s process userPtr path flags e
  | .read process fdnum userPtr count answer => syscallRead s process fdnum userPtr count answer
  | .write process fdnum userPtr buf stale count answer => syscallWrite s process fdnum userPtr buf stale count answer
  | .ioctl process fdnum answer => syscallIoctl s process fdnum answer
  | .seek process fdnum offset whence => syscallSeek s process fdnum offset whence
  | .truncate process fdnum length stale => syscallTruncate s process fdnum length stale
  | .fcntl process fdnum cmd arg mem => syscallFcntl s process fdnum cmd arg mem
  | .fsync process fdnum answer => syscallFsync s process fdnum answer
  | .stat process fdnum userPtr => syscallStat s process fdnum userPtr
  | .chdir process fdnum => syscallChdir s process fdnum
  | .getdents process fdnum userPtr mem buf count fuel =>
      (syscallGetdents s process fdnum userPtr mem buf count fuel).map Prod.fst
  | .close process fdnum => some (fdClose s process fdnum)
  | .fork process child mem => syscallFork s process child mem
  | .exit process => some (0, syscallExit s process)

section Frames
variable {s : Sys} {process p : ℕ} {fdnum : ℤ} {fd : FileDescriptor}

@[simp] lemma setFd_fds_self (s : Sys) (p : ℕ) (fd : Option FileDescriptor) : (s.setFd p fd).fds p = fd :=
  Function.update_self ..

lemma setFd_fds_of_ne (s : Sys) {p q : ℕ} (fd : Option FileDescriptor) (h : q ≠ p) : (s.setFd p fd).fds q = s.fds q :=
  Function.update_of_ne h ..

@[simp] lemma setFd_tables (s : Sys) (p : ℕ) (fd : Option FileDescriptor) : (s.setFd p fd).tables = s.tables := rfl

@[simp] lemma setFd_object (s : Sys) (p : ℕ) (fd : Option FileDescriptor) : (s.setFd p fd).object = s.object := rfl

@[simp] lemma setFile_object (s : Sys) (node : ℕ) (file : TmpFile) : (s.setFile node file).object = s.object := rfl

lemma slot_val (i : Fin maxFds) : slot i.val = some i := by
  rw [slot, dif_pos (by omega)]
  rfl

lemma object_val (s : Sys) (process : ℕ) (i : Fin maxFds) : s.object process i.val = s.tables process i := by
  rw [Sys.object, slot_val, Option.bind_some]

lemma fdFromFdnum_of_none (h : s.object process fdnum = none) : fdFromFdnum s process fdnum = (none, s) := by
  rw [fdFromFdnum, h]

lemma fdFromFdnum_of_some (h : s.object process fdnum = some p) :
    fdFromFdnum s process fdnum = (some p, s.addReference p) := by
  rw [fdFromFdnum, h]

lemma addReference_fds (h : s.fds p = some fd) :
    (s.addReference p).fds p = some { fd with refcount := fd.refcount + 1 } := by
  rw [Sys.addReference, setFd_fds_self, h, Option.map_some]

lemma onFd_of_none {α : Type} {failed : Sys → α} {body : ℕ → FileDescriptor → Sys → Option α}
    (h : s.object process fdnum = none) : onFd s process fdnum failed body = some (failed s) := by
  rw [onFd, fdFromFdnum_of_none h]

/-- The body runs with one reference more. -/
lemma onFd_of_some {α : Type} {failed : Sys → α} {body : ℕ → FileDescriptor → Sys → Option α}
    (hp : s.object process fdnum = some p) (hfd : s.fds p = some fd) :
    onFd s process fdnum failed body = body p { fd with refcount := fd.refcount + 1 } (s.addReference p) := by
  rw [onFd, fdFromFdnum_of_some hp]
  dsimp only
  rw [addReference_fds hfd, Option.bind_some]

lemma onOpenFd_of_none {body : ℕ → FileDescriptor → Sys → Option (ℤ × Sys)} (h : s.object process fdnum = none) :
    onOpenFd s process fdnum body = some (-ebadf, s) :=
  onFd_of_none h

lemma onOpenFd_of_some {body : ℕ → FileDescriptor → Sys → Option (ℤ × Sys)} (hp : s.object process fdnum = some p)
    (hfd : s.fds p = some fd) : onOpenFd s process fdnum body =
      if accMode fd &&& oPath ≠ 0 then some (-ebadf, s.addReference p)
      else body p { fd with refcount := fd.refcount + 1 } (s.addReference p) :=
  onFd_of_some hp hfd

end Frames

section Uses
variable {s s1 s' : Sys} {process p : ℕ} {fdnum ret : ℤ} {fd : FileDescriptor} {f : BitVec 32}

/-- What a call does to the descriptor `p` that it is made on, apart from its offset. The flags are `f`
afterwards. -/
structure Used (s : Sys) (p : ℕ) (fd : FileDescriptor) (f : BitVec 32) (s' : Sys) : Prop where
  tables : s'.tables = s.tables
  refcount : s'.refcount = s.refcount
  fds : ∃ fd', s'.fds = Function.update s.fds p (some fd') ∧ fd'.node = fd.node ∧ fd'.refcount = fd.refcount + 1 ∧
    fd'.flags = f

lemma used_addReference (hfd : s.fds p = some fd) : Used s p fd fd.flags (s.addReference p) := by
  refine ⟨rfl, rfl, { fd with refcount := fd.refcount + 1 }, ?_, rfl, rfl, rfl⟩
  rw [Sys.addReference, hfd]
  rfl

lemma Used.setFd (fd1 : FileDescriptor) (h : Used s p fd f s1) (hnode : fd1.node = fd.node) (hcount : fd1.refcount = fd.refcount + 1) :
    Used s p fd fd1.flags (s1.setFd p (some fd1)) := by
  obtain ⟨fd', hfds, -⟩ := h.fds
  refine ⟨h.tables, h.refcount, fd1, ?_, hnode, hcount, rfl⟩
  rw [Sys.setFd, hfds, Function.update_idem]

lemma Used.advanced (fd1 : FileDescriptor) (h : Used s p fd fd1.flags s1) (hnode : fd1.node = fd.node)
    (hcount : fd1.refcount = fd.refcount + 1) (done : BitVec 64) : Used s p fd fd1.flags (advanced s1 p fd1 done).2 := by
  unfold Descriptors.advanced
  dsimp only
  split_ifs
  · exact Used.setFd { fd1 with offset := fd1.offset + done } h hnode hcount
  · exact h

lemma Used.congr (h : Used s p fd f s1) (htables : s'.tables = s1.tables) (hrefcount : s'.refcount = s1.refcount)
    (hfds : s'.fds = s1.fds) : Used s p fd f s' :=
  ⟨htables.trans h.tables, hrefcount.trans h.refcount, hfds ▸ h.fds⟩

/-- The error of a check, after the reference has been taken. -/
lemma Used.error {e : ℤ} (h : Used s p fd f s1) (he : some (e, s1) = some (ret, s')) : Used s p fd f s' := by
  obtain ⟨-, rfl⟩ := Prod.mk.inj (Option.some.inj he)
  exact h

lemma onOpenFd_cases {body : ℕ → FileDescriptor → Sys → Option (ℤ × Sys)} (hp : s.object process fdnum = some p)
    (hfd : s.fds p = some fd) (h : onOpenFd s process fdnum body = some (ret, s')) :
    (accMode fd &&& oPath ≠ 0 ∧ s' = s.addReference p) ∨ (accMode fd &&& oPath = 0 ∧
      body p { fd with refcount := fd.refcount + 1 } (s.addReference p) = some (ret, s')) := by
  rw [onOpenFd_of_some hp hfd] at h
  by_cases hpath : accMode fd &&& oPath ≠ 0
  · rw [if_pos hpath] at h
    exact Or.inl ⟨hpath, (Prod.mk.inj (Option.some.inj h)).2.symm⟩
  · rw [if_neg hpath] at h
    exact Or.inr ⟨not_not.mp hpath, h⟩

variable (hp : s.object process fdnum = some p) (hfd : s.fds p = some fd)
include hp hfd

/-- A call whose body keeps the flags. -/
lemma onOpenFd_used {body : ℕ → FileDescriptor → Sys → Option (ℤ × Sys)}
    (hbody : ∀ s1, Used s p fd fd.flags s1 → body p { fd with refcount := fd.refcount + 1 } s1 = some (ret, s') →
      Used s p fd fd.flags s')
    (h : onOpenFd s process fdnum body = some (ret, s')) : Used s p fd fd.flags s' := by
  rcases onOpenFd_cases hp hfd h with ⟨-, rfl⟩ | ⟨-, h⟩
  · exact used_addReference hfd
  · exact hbody _ (used_addReference hfd) h

lemma syscallRead_used {count answer : BitVec 64}
    (h : syscallRead s process fdnum true count answer = some (ret, s')) : Used s p fd fd.flags s' := by
  rw [syscallRead, if_neg (by decide)] at h
  refine onOpenFd_used hp hfd (fun s1 h1 h => ?_) h
  split_ifs at h
  · exact h1.error h
  · exact h1.error h
  · exact h1.error h
  · obtain ⟨done, -, h⟩ := Option.map_eq_some_iff.mp h
    have hadv := Used.advanced { fd with refcount := fd.refcount + 1 } h1 rfl rfl done
    rwa [h] at hadv

lemma syscallWrite_used {buf stale : Memory} {count answer : BitVec 64}
    (h : syscallWrite s process fdnum true buf stale count answer = some (ret, s')) : Used s p fd fd.flags s' := by
  rw [syscallWrite, if_neg (by decide)] at h
  refine onOpenFd_used hp hfd (fun s1 h1 h => ?_) h
  split_ifs at h
  · exact h1.error h
  · exact h1.error h
  · exact h1.error h
  · obtain ⟨⟨written, s2⟩, hwrite, h⟩ := Option.map_eq_some_iff.mp h
    have h2 : Used s p fd fd.flags s2 := by
      unfold writeNode at hwrite
      split_ifs at hwrite
      · obtain ⟨file, -, hwrite⟩ := Option.map_eq_some_iff.mp hwrite
        obtain ⟨-, rfl⟩ := Prod.mk.inj hwrite
        exact h1.congr rfl rfl rfl
      · obtain ⟨-, rfl⟩ := Prod.mk.inj (Option.some.inj hwrite)
        exact h1
    have hadv := Used.advanced { fd with refcount := fd.refcount + 1 } h2 rfl rfl written
    dsimp only at h
    rwa [h] at hadv

omit hp hfd in
lemma Used.truncateNode {node : ℕ} {length : BitVec 64} {stale : Memory} (h1 : Used s p fd f s1)
    (h : truncateNode s1 node length stale = some (ret, s')) : Used s p fd f s' := by
  unfold Descriptors.truncateNode at h
  split_ifs at h
  · obtain ⟨file, -, h⟩ := Option.map_eq_some_iff.mp h
    obtain ⟨-, rfl⟩ := Prod.mk.inj h
    exact h1.congr rfl rfl rfl
  · exact h1.error h

lemma syscallTruncate_used {length : BitVec 64} {stale : Memory}
    (h : syscallTruncate s process fdnum length stale = some (ret, s')) : Used s p fd fd.flags s' := by
  refine onOpenFd_used hp hfd (fun s1 h1 h => ?_) h
  split_ifs at h
  · exact h1.error h
  · exact h1.error h
  · exact h1.truncateNode h

lemma syscallSeek_used {offset : BitVec 64} {whence : ℤ}
    (h : syscallSeek s process fdnum offset whence = some (ret, s')) : Used s p fd fd.flags s' := by
  refine onOpenFd_used hp hfd (fun s1 h1 h => ?_) h
  have hmove : ∀ new : BitVec 64, (if new.slt 0 then some (-espipe, s1) else
      some (new.toInt, s1.setFd p (some { fd with refcount := fd.refcount + 1, offset := new }))) = some (ret, s') →
      Used s p fd fd.flags s' := by
    intro new h
    split_ifs at h
    · exact h1.error h
    · exact (Used.setFd { fd with refcount := fd.refcount + 1, offset := new } h1 rfl rfl).error h
  split_ifs at h
  · exact h1.error h
  · exact h1.error h
  · exact hmove _ h
  · exact hmove _ h
  · exact hmove _ h
  · exact h1.error h

lemma syscallIoctl_used {answer : ℤ} (h : syscallIoctl s process fdnum answer = some (ret, s')) :
    Used s p fd fd.flags s' :=
  onOpenFd_used hp hfd (fun _ h1 h => h1.error h) h

lemma syscallFsync_used {answer : ℤ} (h : syscallFsync s process fdnum answer = some (ret, s')) :
    Used s p fd fd.flags s' :=
  onOpenFd_used hp hfd (fun _ h1 h => h1.error h) h

lemma syscallStat_used {userPtr : Bool} (h : syscallStat s process fdnum userPtr = some (ret, s')) :
    Used s p fd fd.flags s' := by
  rw [syscallStat, onFd_of_some hp hfd] at h
  exact (used_addReference hfd).error h

lemma syscallChdir_used (h : syscallChdir s process fdnum = some (ret, s')) : Used s p fd fd.flags s' := by
  rw [syscallChdir, onFd_of_some hp hfd] at h
  split_ifs at h
  · obtain ⟨-, rfl⟩ := Prod.mk.inj (Option.some.inj h)
    exact (used_addReference hfd).congr rfl rfl rfl
  · exact (used_addReference hfd).error h

lemma syscallGetdents_used {mem mem' : Memory} {buf count fuel : ℕ}
    (h : syscallGetdents s process fdnum true mem buf count fuel = some ((ret, s'), mem')) : Used s p fd fd.flags s' := by
  have h1 := used_addReference hfd
  have herror : ∀ e : ℤ, some ((e, s.addReference p), mem) = some ((ret, s'), mem') → Used s p fd fd.flags s' :=
    fun e he => h1.error (congrArg some (Prod.mk.inj (Option.some.inj he)).1)
  rw [syscallGetdents, if_neg (by decide), onFd_of_some hp hfd] at h
  split_ifs at h
  · exact herror _ h
  · exact herror _ h
  · obtain ⟨map, -, h⟩ := Option.bind_eq_some_iff.mp h
    obtain ⟨⟨read, mem''⟩, -, h⟩ := Option.map_eq_some_iff.mp h
    have hadv := Used.advanced { fd with refcount := fd.refcount + 1 } h1 rfl rfl (BitVec.ofNat 64 read)
    rwa [(Prod.mk.inj h).1] at hadv
  · exact herror _ h

/-- `fcntl` without the two commands that duplicate. -/
lemma syscallFcntl_used {cmd arg : BitVec 32} {mem : Option ℕ} (hdup : cmd ≠ fDupfd) (hdup' : cmd ≠ fDupfdCloexec)
    (h : syscallFcntl s process fdnum cmd arg mem = some (ret, s')) :
    Used s p fd (if accMode fd &&& oPath ≠ 0 then fd.flags else if cmd = fSetfd then arg &&& fdFlagsMask
      else if cmd = fSetfl then arg &&& fileCreationFlagsMask else fd.flags) s' := by
  have h1 := used_addReference hfd
  rcases onOpenFd_cases hp hfd h with ⟨hpath, rfl⟩ | ⟨hpath, h⟩
  · rw [if_pos hpath]
    exact h1
  · rw [if_neg (not_not.mpr hpath)]
    rw [if_neg hdup, if_neg hdup'] at h
    have hset : ∀ flags : BitVec 32, Used s p fd flags ((s.addReference p).setFd p
        (some { fd with refcount := fd.refcount + 1, flags := flags })) :=
      fun flags => Used.setFd { fd with refcount := fd.refcount + 1, flags := flags } h1 rfl rfl
    by_cases hget : cmd = fGetfd
    · subst hget
      exact h1.error h
    rw [if_neg hget] at h
    by_cases hsetfd : cmd = fSetfd
    · rw [if_pos hsetfd] at h ⊢
      exact (hset _).error h
    rw [if_neg hsetfd] at h ⊢
    by_cases hgetfl : cmd = fGetfl
    · subst hgetfl
      exact h1.error h
    rw [if_neg hgetfl] at h
    by_cases hsetfl : cmd = fSetfl
    · rw [if_pos hsetfl] at h ⊢
      exact (hset _).error h
    · rw [if_neg hsetfl] at h ⊢
      exact h1.error h

end Uses

end PiggyOs.Descriptors
