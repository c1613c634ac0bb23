import Mathlib.Tactic

/-! Processes and threads, and how `fork` copies them. Objects come zeroed from their caches. The
allocators and the copy of the page tables are parameters, and `none` stands for a panic or for an
error return. -/
namespace PiggyOs.Fork

def maxFds : ℕ := 32
def nameSize : ℕ := 256
def processBrkBase : BitVec 64 := 0x60000000000
def processThreadStackTop : BitVec 64 := 0x70000000000
def oCloexec : BitVec 32 := 0x200
def stackPages : ℕ := 64

inductive ProcessState
  | running | waiting | zombie
  deriving DecidableEq, Repr

inductive ThreadState
  | running | readyToRun | sleeping | zombie
  deriving DecidableEq, Repr

structure FileDescriptor where
  node : ℕ
  flags : BitVec 32
  refcount : ℕ
  offset : BitVec 64
  deriving DecidableEq, Repr

/-- Every open number has a descriptor of its own. -/
abbrev FdTable := Fin maxFds → Option FileDescriptor

abbrev Name := ℕ → BitVec 8

structure Process where
  pid : ℕ
  state : ProcessState
  name : Name
  status : BitVec 32
  pagemap : ℕ
  codeBase : BitVec 64
  threadStackTop : BitVec 64
  brk : BitVec 64
  brkNextUnallocatedPageBegin : BitVec 64
  cwd : ℕ
  fileDescriptors : FdTable
  parent : Option ℕ
  children : List ℕ
  threads : List ℕ

structure Registers where
  r15 : BitVec 64
  r14 : BitVec 64
  r13 : BitVec 64
  r12 : BitVec 64
  r11 : BitVec 64
  r10 : BitVec 64
  r9 : BitVec 64
  r8 : BitVec 64
  rsi : BitVec 64
  rdi : BitVec 64
  rbp : BitVec 64
  rdx : BitVec 64
  rcx : BitVec 64
  rbx : BitVec 64
  rax : BitVec 64
  intNumber : BitVec 64
  errorCode : BitVec 64
  rip : BitVec 64
  cs : BitVec 64
  rflags : BitVec 64
  rsp : BitVec 64
  ss : BitVec 64
  deriving DecidableEq, Repr

structure Thread where
  tid : ℕ
  state : ThreadState
  process : ℕ
  isUser : Bool
  timeslice : BitVec 64
  sleepUntil : BitVec 64
  kernelStack : ℕ
  pageFaultStack : ℕ
  userStack : BitVec 64
  userStackPaddr : BitVec 64
  ctx : Registers
  fpuStorage : ℕ → BitVec 8
  fsBase : BitVec 64
  gsBase : BitVec 64

/-- What `cache_alloc_object` returns from `process_cache`. -/
def Process.zeroed : Process :=
  ⟨0, .running, fun _ => 0, 0, 0, 0, 0, 0, 0, 0, fun _ => none, none, [], []⟩

def Registers.zeroed : Registers := ⟨0, 0, 0, 0, 0, 0, 0, 0, 0, 0, 0, 0, 0, 0, 0, 0, 0, 0, 0, 0, 0, 0⟩

/-- What `cache_alloc_object` returns from `thread_cache`. -/
def Thread.zeroed : Thread :=
  ⟨0, .running, 0, false, 0, 0, 0, 0, 0, 0, Registers.zeroed, fun _ => 0, 0, 0⟩

/-- The string in an array of `n` bytes. -/
def cString (s : Name) (n : ℕ) : List (BitVec 8) := ((List.range n).map s).takeWhile fun c => c ≠ 0

/-- The bytes after the string become zero. -/
def strncpy (dest src : Name) (n : ℕ) : Name := fun k =>
  if k < (cString src n).length then src k else if k < n then 0 else dest k

/-- `0` from `pmmAlloc` and from `vmmForkPagemap` is a failure. -/
structure Allocators (σ : Type) where
  cacheAllocObject : σ → Option σ
  vectorCreate : σ → Option σ
  kmalloc : σ → Option σ
  pmmAlloc : σ → ℕ → Option (ℕ × σ)
  vmmForkPagemap : σ → ℕ → Option (ℕ × σ)

structure Kernel (σ : Type) where
  memory : σ
  nextPid : ℕ
  runningProcesses : List ℕ
  vfsRoot : ℕ
  highVma : ℕ
  fpuStorageSize : ℕ

section Fork
variable {σ : Type} (a : Allocators σ)

/-- `fd_from_fdnum` counts a reference that nothing gives back. -/
def fdFromFdnum (table : FdTable) (fdnum : Fin maxFds) : Option FileDescriptor × FdTable :=
  match table fdnum with
  | none => (none, table)
  | some fd =>
      let fd' := { fd with refcount := fd.refcount + 1 }
      (some fd', Function.update table fdnum (some fd'))

/-- `fd_dup` with `exact` from one process to another. -/
def fdDup (s : σ) (old new : FdTable) (oldFdnum newFdnum : Fin maxFds) (cloexec : Bool) :
    Option (FdTable × FdTable × σ) :=
  match fdFromFdnum old oldFdnum with
  | (none, _) => none
  | (some oldFd, old') => (a.kmalloc s).map fun s' =>
      let newFd := { oldFd with flags := if cloexec then oldFd.flags ||| oCloexec else oldFd.flags }
      (Function.update old' oldFdnum (some { oldFd with refcount := oldFd.refcount + 1 }),
        Function.update new newFdnum (some newFd), s')

/-- The loop of `process_create` over the descriptors. -/
def dupDescriptors (tables : FdTable × FdTable × σ) : List (Fin maxFds) → Option (FdTable × FdTable × σ)
  | [] => some tables
  | i :: is =>
      match tables.1 i with
      | none => dupDescriptors tables is
      | some _ => match fdDup a tables.2.2 tables.1 tables.2.1 i i false with
        | none => none
        | some tables' => dupDescriptors tables' is

/-- The old process is returned as it is afterwards. -/
def processCreate (k : Kernel σ) (old : Option Process) (pagemap : ℕ) :
    Option (Option Process × Process × Kernel σ) :=
  (a.cacheAllocObject k.memory).bind fun s1 =>
  (a.vectorCreate s1).bind fun s2 =>
  (a.vectorCreate s2).bind fun s3 =>
  let created : Process := { Process.zeroed with state := .running }
  match old with
  | none =>
      let new := { created with
        pid := k.nextPid
        pagemap := pagemap
        brk := processBrkBase
        brkNextUnallocatedPageBegin := processBrkBase
        threadStackTop := processThreadStackTop
        cwd := k.vfsRoot }
      some (none, new, { k with
        memory := s3
        nextPid := k.nextPid + 1
        runningProcesses := k.runningProcesses ++ [new.pid] })
  | some old =>
      (a.vmmForkPagemap s3 old.pagemap).bind fun forked =>
      if forked.1 = 0 then none
      else
        (dupDescriptors a (old.fileDescriptors, created.fileDescriptors, forked.2)
          (List.finRange maxFds)).map fun tables =>
        let new := { created with
          pid := k.nextPid
          name := strncpy created.name old.name nameSize
          pagemap := forked.1
          brk := old.brk
          threadStackTop := old.threadStackTop
          cwd := old.cwd
          parent := some old.pid
          fileDescriptors := tables.2.1 }
        (some { old with fileDescriptors := tables.1, children := old.children ++ [new.pid] }, new,
          { k with
            memory := tables.2.2
            nextPid := k.nextPid + 1
            runningProcesses := k.runningProcesses ++ [new.pid] })

/-- `stale` is what the pages for the FPU state held before. The new thread and the forked process
with it are returned. -/
def threadFork (k : Kernel σ) (stale : ℕ → BitVec 8) (forked : Process) (oldThread : Thread) :
    Option (Thread × Process × Kernel σ) :=
  (a.cacheAllocObject k.memory).bind fun s1 =>
  (a.pmmAlloc s1 stackPages).bind fun kernelStack =>
  if kernelStack.1 = 0 then none
  else (a.pmmAlloc kernelStack.2 stackPages).bind fun pageFaultStack =>
  if pageFaultStack.1 = 0 then none
  else (a.pmmAlloc pageFaultStack.2 ((k.fpuStorageSize + 4095) / 4096)).bind fun fpu =>
  if fpu.1 = 0 then none
  else
    let new := { Thread.zeroed with
      tid := forked.threads.length
      state := .readyToRun
      process := forked.pid
      timeslice := oldThread.timeslice
      kernelStack := kernelStack.1 + 4096 * stackPages + k.highVma
      pageFaultStack := pageFaultStack.1 + 4096 * stackPages + k.highVma
      userStack := oldThread.userStack
      ctx := { oldThread.ctx with rax := 0 }
      fpuStorage := fun i => if i < k.fpuStorageSize then oldThread.fpuStorage i else stale i
      fsBase := oldThread.fsBase
      gsBase := oldThread.gsBase }
    some (new, { forked with threads := forked.threads ++ [new.tid] }, { k with memory := fpu.2 })

/-- The parent afterwards, the child and its thread. -/
def syscallFork (k : Kernel σ) (stale : ℕ → BitVec 8) (current : Process) (thread : Thread) :
    Option (Process × Process × Thread × Kernel σ) :=
  match processCreate a k (some current) 0 with
  | some (some parent, new, k1) => (threadFork a k1 stale new thread).map fun r => (parent, r.2.1, r.1, r.2.2)
  | _ => none

end Fork

/-- What a descriptor says about the file: `refcount` belongs to the object. -/
def FileDescriptor.file (fd : FileDescriptor) : ℕ × BitVec 32 × BitVec 64 := (fd.node, fd.flags, fd.offset)

def files (table : FdTable) (i : Fin maxFds) : Option (ℕ × BitVec 32 × BitVec 64) :=
  (table i).map FileDescriptor.file

/-- The child is a copy of the parent. -/
structure SameProcess (parent child : Process) : Prop where
  name : cString child.name nameSize = cString parent.name nameSize
  brk : child.brk = parent.brk
  brkNext : child.brkNextUnallocatedPageBegin = parent.brkNextUnallocatedPageBegin
  codeBase : child.codeBase = parent.codeBase
  threadStackTop : child.threadStackTop = parent.threadStackTop
  cwd : child.cwd = parent.cwd
  descriptors : ∀ i, files child.fileDescriptors i = files parent.fileDescriptors i

structure SameThread (fpuStorageSize : ℕ) (parent child : Thread) : Prop where
  isUser : child.isUser = parent.isUser
  timeslice : child.timeslice = parent.timeslice
  userStack : child.userStack = parent.userStack
  fsBase : child.fsBase = parent.fsBase
  gsBase : child.gsBase = parent.gsBase
  fpu : ∀ i < fpuStorageSize, child.fpuStorage i = parent.fpuStorage i
  ctx : child.ctx = { parent.ctx with rax := 0 }

lemma cString_length_le (s : Name) (n : ℕ) : (cString s n).length ≤ n := by
  have := (List.takeWhile_prefix (fun c => decide (c ≠ 0)) (l := (List.range n).map s)).length_le
  simpa [cString] using this

lemma cString_getElem (s : Name) (n : ℕ) {k : ℕ} (hk : k < (cString s n).length) : (cString s n)[k] = s k := by
  have hpre := List.takeWhile_prefix (fun c => decide (c ≠ 0)) (l := (List.range n).map s)
  unfold cString at hk ⊢
  rw [hpre.getElem hk]
  simp

/-- `strncpy` copies the string. -/
lemma cString_strncpy (dest src : Name) (n : ℕ) : cString (strncpy dest src n) n = cString src n := by
  have hle := cString_length_le src n
  have hlist : (List.range n).map (strncpy dest src n) =
      cString src n ++ List.replicate (n - (cString src n).length) 0 := by
    apply List.ext_getElem
    · simp
      omega
    · intro k h1 h2
      simp only [List.length_map, List.length_range] at h1
      rw [List.getElem_map, List.getElem_range, strncpy]
      by_cases hk : k < (cString src n).length
      · rw [if_pos hk, List.getElem_append_left hk, cString_getElem]
      · rw [if_neg hk, if_pos h1, List.getElem_append_right (Nat.not_lt.mp hk), List.getElem_replicate]
  have hall : ∀ c ∈ cString src n, decide (c ≠ 0) = true := by
    intro c hc
    have := List.all_takeWhile (p := fun c => decide (c ≠ 0)) (l := (List.range n).map src)
    exact List.all_eq_true.mp this c hc
  rw [cString, hlist, List.takeWhile_append_of_pos hall]
  cases n - (cString src n).length with
  | zero => simp
  | succ j => simp [List.replicate_succ]

section Copies
variable {σ : Type} {a : Allocators σ}

lemma files_update (table : FdTable) (i : Fin maxFds) (fd : FileDescriptor) (j : Fin maxFds) :
    files (Function.update table i (some fd)) j = if j = i then some fd.file else files table j := by
  unfold files
  by_cases h : j = i
  · rw [if_pos h, h, Function.update_self, Option.map_some]
  · rw [if_neg h, Function.update_of_ne h]

/-- One descriptor is copied to the child, and the parent's files stay. -/
lemma fdDup_files {s s' : σ} {old new old' new' : FdTable} {i : Fin maxFds}
    (h : fdDup a s old new i i false = some (old', new', s')) :
    (∀ j, files old' j = files old j) ∧ ∀ j, files new' j = if j = i then files old i else files new j := by
  unfold fdDup fdFromFdnum at h
  cases hfd : old i with
  | none => simp [hfd] at h
  | some fd =>
    simp only [hfd] at h
    obtain ⟨s1, -, h⟩ := Option.map_eq_some_iff.mp h
    simp only [Prod.mk.injEq] at h
    obtain ⟨rfl, rfl, -⟩ := h
    have hi : files old i = some fd.file := by rw [files, hfd, Option.map_some]
    refine ⟨fun j => ?_, fun j => ?_⟩
    · rw [files_update, files_update]
      split_ifs with hj
      · rw [hj, hi]
        rfl
      · rfl
    · rw [files_update, hi]
      rfl

/-- The loop copies the open descriptors among those it visits. -/
lemma dupDescriptors_files {is : List (Fin maxFds)} {tables tables' : FdTable × FdTable × σ}
    (h : dupDescriptors a tables is = some tables') :
    (∀ j, files tables'.1 j = files tables.1 j) ∧
      ∀ j, files tables'.2.1 j =
        if j ∈ is ∧ files tables.1 j ≠ none then files tables.1 j else files tables.2.1 j := by
  induction is generalizing tables with
  | nil =>
    obtain rfl : tables = tables' := by simpa [dupDescriptors] using h
    simp
  | cons i is ih =>
    rw [dupDescriptors] at h
    cases hi : tables.1 i with
    | none =>
      rw [hi] at h
      obtain ⟨hold, hnew⟩ := ih h
      refine ⟨hold, fun j => ?_⟩
      rw [hnew j]
      have hnone : files tables.1 i = none := by rw [files, hi, Option.map_none]
      by_cases hj : j = i
      · simp [hj, hnone]
      · simp [hj]
    | some fd =>
      rw [hi] at h
      have hsome : files tables.1 i = some fd.file := by rw [files, hi, Option.map_some]
      cases hd : fdDup a tables.2.2 tables.1 tables.2.1 i i false with
      | none => simp [hd] at h
      | some t1 =>
        obtain ⟨old1, new1, s1⟩ := t1
        simp only [hd] at h
        obtain ⟨hold1, hnew1⟩ := fdDup_files hd
        obtain ⟨hold, hnew⟩ := ih h
        refine ⟨fun j => (hold j).trans (hold1 j), fun j => ?_⟩
        rw [hnew j, hold1 j, hnew1 j]
        by_cases hj : j = i
        · simp [hj, hsome]
        · simp [hj]

/-- What `process_create` makes of an old process. -/
lemma processCreate_some {k k' : Kernel σ} {old : Process} {pagemap : ℕ} {parent : Option Process}
    {new : Process} (h : processCreate a k (some old) pagemap = some (parent, new, k')) :
    parent.isSome ∧ k'.fpuStorageSize = k.fpuStorageSize ∧ new.threads = [] ∧
      new.name = strncpy Process.zeroed.name old.name nameSize ∧ new.brk = old.brk ∧
      new.brkNextUnallocatedPageBegin = 0 ∧ new.codeBase = 0 ∧
      new.threadStackTop = old.threadStackTop ∧ new.cwd = old.cwd ∧
      ∀ j, files new.fileDescriptors j = files old.fileDescriptors j := by
  unfold processCreate at h
  obtain ⟨s1, -, h⟩ := Option.bind_eq_some_iff.mp h
  obtain ⟨s2, -, h⟩ := Option.bind_eq_some_iff.mp h
  obtain ⟨s3, -, h⟩ := Option.bind_eq_some_iff.mp h
  obtain ⟨forked, -, h⟩ := Option.bind_eq_some_iff.mp h
  split_ifs at h
  obtain ⟨tables, hdup, h⟩ := Option.map_eq_some_iff.mp h
  simp only [Prod.mk.injEq] at h
  obtain ⟨rfl, rfl, rfl⟩ := h
  refine ⟨rfl, rfl, rfl, rfl, rfl, rfl, rfl, rfl, rfl, fun j => ?_⟩
  rw [(dupDescriptors_files hdup).2 j]
  split_ifs with hj
  · rfl
  · have hnone : files old.fileDescriptors j = none := by simpa using hj
    rw [hnone]
    rfl

lemma threadFork_some {k k' : Kernel σ} {stale : ℕ → BitVec 8} {forked forked' : Process}
    {old new : Thread} (h : threadFork a k stale forked old = some (new, forked', k')) :
    forked' = { forked with threads := forked.threads ++ [forked.threads.length] } ∧ new.isUser = false ∧
      new.timeslice = old.timeslice ∧ new.userStack = old.userStack ∧ new.fsBase = old.fsBase ∧
      new.gsBase = old.gsBase ∧ new.ctx = { old.ctx with rax := 0 } ∧
      ∀ i < k.fpuStorageSize, new.fpuStorage i = old.fpuStorage i := by
  unfold threadFork at h
  obtain ⟨s1, -, h⟩ := Option.bind_eq_some_iff.mp h
  obtain ⟨kernelStack, -, h⟩ := Option.bind_eq_some_iff.mp h
  split_ifs at h
  obtain ⟨pageFaultStack, -, h⟩ := Option.bind_eq_some_iff.mp h
  split_ifs at h
  obtain ⟨fpu, -, h⟩ := Option.bind_eq_some_iff.mp h
  split_ifs at h
  simp only [Option.some.injEq, Prod.mk.injEq] at h
  obtain ⟨rfl, rfl, rfl⟩ := h
  exact ⟨rfl, rfl, rfl, rfl, rfl, rfl, rfl, fun i hi => if_pos hi⟩

/-- The child after a fork: three fields are zero, whatever they were in the parent. -/
lemma syscallFork_some {k k' : Kernel σ} {stale : ℕ → BitVec 8} {current parent child : Process}
    {thread childThread : Thread}
    (h : syscallFork a k stale current thread = some (parent, child, childThread, k')) :
    (child.brkNextUnallocatedPageBegin = 0 ∧ child.codeBase = 0 ∧ childThread.isUser = false) ∧
      (current.brkNextUnallocatedPageBegin = 0 → current.codeBase = 0 → SameProcess current child) ∧
      (thread.isUser = false → SameThread k.fpuStorageSize thread childThread) := by
  unfold syscallFork at h
  cases hp : processCreate a k (some current) 0 with
  | none => simp [hp] at h
  | some r =>
    obtain ⟨old, new, k1⟩ := r
    obtain ⟨hsome, hsize, -, hname, hbrk, hnext, hcode, hstack, hcwd, hfiles⟩ := processCreate_some hp
    obtain ⟨old, rfl⟩ := Option.isSome_iff_exists.mp hsome
    simp only [hp] at h
    obtain ⟨⟨t, forked, k2⟩, ht, h⟩ := Option.map_eq_some_iff.mp h
    simp only [Prod.mk.injEq] at h
    obtain ⟨-, rfl, rfl, -⟩ := h
    obtain ⟨rfl, huser, hslice, hustack, hfs, hgs, hctx, hfpu⟩ := threadFork_some ht
    refine ⟨⟨hnext, hcode, huser⟩, fun h1 h2 => ?_, fun h3 => ?_⟩
    · refine ⟨?_, hbrk, hnext.trans h1.symm, hcode.trans h2.symm, hstack, hcwd, hfiles⟩
      change cString new.name nameSize = _
      rw [hname, cString_strncpy]
    · refine ⟨huser.trans h3.symm, hslice, hustack, hfs, hgs, ?_, hctx⟩
      rwa [hsize] at hfpu

/-- The fields that `fork` forgets are zero in the child, so the copy is one exactly if they were
zero in the parent. -/
theorem syscallFork_copies_iff {k k' : Kernel σ} {stale : ℕ → BitVec 8} {current parent child : Process}
    {thread childThread : Thread}
    (h : syscallFork a k stale current thread = some (parent, child, childThread, k')) :
    SameProcess current child ∧ SameThread k.fpuStorageSize thread childThread ↔
      current.brkNextUnallocatedPageBegin = 0 ∧ current.codeBase = 0 ∧ thread.isUser = false := by
  obtain ⟨⟨hnext, hcode, huser⟩, hprocess, hthread⟩ := syscallFork_some h
  constructor
  · rintro ⟨hp, ht⟩
    exact ⟨hp.brkNext.symm.trans hnext, hp.codeBase.symm.trans hcode, ht.isUser.symm.trans huser⟩
  · rintro ⟨h1, h2, h3⟩
    exact ⟨hprocess h1 h2, hthread h3⟩

end Copies

/-- Allocators that always serve. -/
def plenty : Allocators Unit :=
  ⟨some, some, some, fun _ _ => some (0x1000, ()), fun _ _ => some (0x2000, ())⟩

def idleKernel : Kernel Unit := ⟨(), 2, [1], 7, 0, 512⟩

/-- A process with a heap of one page, as `exec` and `sbrk` leave it. -/
def userProcess : Process := { Process.zeroed with
  pid := 1
  pagemap := 0x3000
  codeBase := 0x400000
  threadStackTop := processThreadStackTop
  brk := processBrkBase + 0x10
  brkNextUnallocatedPageBegin := processBrkBase + 0x1000
  cwd := 7
  fileDescriptors := fun i => if i.val = 0 then some ⟨9, 0, 1, 5⟩ else none
  threads := [0] }

def userThread : Thread := { Thread.zeroed with
  process := 1
  isUser := true
  ctx := { Registers.zeroed with rip := 0x400100, rax := 57 } }

/-- A user process loses the end of its heap, its code base and the mark of its thread. -/
theorem syscallFork_not_copy : ∃ parent child childThread k',
    syscallFork plenty idleKernel (fun _ => 0) userProcess userThread = some (parent, child, childThread, k') ∧
    child.brkNextUnallocatedPageBegin ≠ userProcess.brkNextUnallocatedPageBegin ∧
    child.codeBase ≠ userProcess.codeBase ∧ childThread.isUser ≠ userThread.isUser ∧
    ¬ (SameProcess userProcess child ∧ SameThread idleKernel.fpuStorageSize userThread childThread) := by
  have hsome : (syscallFork plenty idleKernel (fun _ => 0) userProcess userThread).isSome := by decide
  obtain ⟨⟨parent, child, childThread, k'⟩, h⟩ := Option.isSome_iff_exists.mp hsome
  obtain ⟨⟨hnext, hcode, huser⟩, -⟩ := syscallFork_some h
  have hne : childThread.isUser ≠ userThread.isUser := by
    rw [huser]
    decide
  refine ⟨parent, child, childThread, k', h, ?_, ?_, hne, fun hsame => hne hsame.2.isUser⟩
  · rw [hnext]
    decide
  · rw [hcode]
    decide

/-- A process without a heap, forked from a kernel thread. -/
def bareProcess : Process := { userProcess with codeBase := 0, brkNextUnallocatedPageBegin := 0 }

theorem syscallFork_copies_bare : ∃ parent child childThread k',
    syscallFork plenty idleKernel (fun _ => 0) bareProcess { userThread with isUser := false } =
      some (parent, child, childThread, k') ∧ SameProcess bareProcess child ∧
    SameThread idleKernel.fpuStorageSize { userThread with isUser := false } childThread := by
  have hsome : (syscallFork plenty idleKernel (fun _ => 0) bareProcess
    { userThread with isUser := false }).isSome := by decide
  obtain ⟨⟨parent, child, childThread, k'⟩, h⟩ := Option.isSome_iff_exists.mp hsome
  exact ⟨parent, child, childThread, k', h, (syscallFork_copies_iff h).mpr ⟨rfl, rfl, rfl⟩⟩

end PiggyOs.Fork
