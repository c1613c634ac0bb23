import PiggyOs.AccessMode

/-! The check of the pointers that a process passes to the kernel, and the bytes that are touched behind
them. -/
namespace PiggyOs.UserAccess
open ByteMemory Tmpfs Fork VfsTree Descriptors
open FileCalls (oPath oRdonly oRdwr oAccmode oCreat)

def processThreadStackTop : ℕ := 0x70000000000

/-- The first byte is all that is checked. -/
def checkUserPtr (codeBase ptr : BitVec 64) : Bool := codeBase.toNat ≤ ptr.toNat ∧ ptr.toNat < processThreadStackTop

/-- `length` bytes from `ptr` on. -/
structure Range where
  ptr : BitVec 64
  length : ℕ

/-- Every byte, with addresses that wrap around, is in the part of the address space that belongs to
the process. -/
def Range.Inside (r : Range) (codeBase : BitVec 64) : Prop :=
  ∀ k < r.length, codeBase.toNat ≤ (r.ptr + BitVec.ofNat 64 k).toNat ∧
    (r.ptr + BitVec.ofNat 64 k).toNat < processThreadStackTop

/-- `memcpy` to addresses of the process, which wrap around. -/
def memcpyToUser (mem : BitVec 64 → BitVec 8) (udest : BitVec 64) (ksrc : Memory) : ℕ → BitVec 64 → BitVec 8
  | 0 => mem
  | n + 1 => Function.update (memcpyToUser mem udest ksrc n) (udest + BitVec.ofNat 64 n) (ksrc n)

/-- The memory of the process afterwards, or none for a pointer that is refused. -/
def copyToUser (codeBase : BitVec 64) (mem : BitVec 64 → BitVec 8) (udest : BitVec 64) (ksrc : Memory)
    (size : BitVec 64) : Option (BitVec 64 → BitVec 8) :=
  if ¬checkUserPtr codeBase udest then none else some (memcpyToUser mem udest ksrc size.toNat)

/-- The bytes that the kernel gets. -/
def copyFromUser (codeBase : BitVec 64) (mem : BitVec 64 → BitVec 8) (usrc size : BitVec 64) : Option (List (BitVec 8)) :=
  if ¬checkUserPtr codeBase usrc then none
  else some ((List.range size.toNat).map fun k => mem (usrc + BitVec.ofNat 64 k))

/-- What stands behind a node that is not in `tmpfs`. For the terminal and the disks, which depend on
the keyboard and the hardware, the bytes that they get to are given. -/
inductive Driver
  | null | zero | full | random
  | fbdev (mmioLen : BitVec 64)
  | other (read written : BitVec 64)

/-- The bytes that `fbdev_read` and `fbdev_write` copy. -/
def fbdevCount (mmioLen offset count : BitVec 64) : BitVec 64 :=
  if count = 0 then 0
  else if mmioLen.ule offset then 0
  else if mmioLen.ult (count + offset) then mmioLen - offset
  else count

def Driver.touchedByRead (offset count : BitVec 64) : Driver → BitVec 64
  | .null => 0
  | .zero => count
  | .full => count
  | .random => count
  | .fbdev mmioLen => fbdevCount mmioLen offset count
  | .other read _ => read

def Driver.touchedByWrite (offset count : BitVec 64) : Driver → BitVec 64
  | .null => 0
  | .zero => 0
  | .full => 0
  | .random => 0
  | .fbdev mmioLen => fbdevCount mmioLen offset count
  | .other _ written => written

section Dirents
variable (s : Vfs) (offset actualCount : ℕ)

/-- The second pass of `vfs_getdents` over a chain, with the end of the bytes that were stored. -/
def chainReach : List (CString × ℕ) → ℕ × ℕ × ℕ → ℕ × ℕ × ℕ
  | [], st => st
  | entry :: rest, (iterOffset, readSize, reach) =>
      let iterOffset := iterOffset + entLen s entry.2
      if iterOffset ≤ offset then chainReach rest (iterOffset, readSize, reach)
      else
        let reach := max reach (readSize + (12 + (s.nodes entry.2).name.strlen))
        if actualCount ≤ readSize then (iterOffset, readSize, reach)
        else chainReach rest (iterOffset, readSize + entLen s entry.2, reach)

def bucketsReach (map : Hash.HashMap ℕ) (buckets : List ℕ) (st : ℕ × ℕ × ℕ) : ℕ × ℕ × ℕ :=
  buckets.foldl (fun st i => chainReach s offset actualCount (map.entries i) st) st

/-- How far `vfs_getdents` gets in the buffer. -/
def direntReach (map : Hash.HashMap ℕ) (offset count : ℕ) : ℕ :=
  let totalLength := ((List.range map.size).foldl (fun acc i => chainLength s offset (map.entries i) acc) (0, 0)).2
  if totalLength = 0 then 0
  else (bucketsReach s offset (min totalLength count) map (List.range map.size) (0, 0, 0)).2.2

end Dirents

inductive UserCall
  | copyFromUser (usrc size : BitVec 64)
  | copyToUser (udest size : BitVec 64)
  | read (fdnum : ℤ) (buf count : BitVec 64)
  | write (fdnum : ℤ) (buf count : BitVec 64)
  | getdents (fdnum : ℤ) (buf count : BitVec 64)

def UserCall.ptr : UserCall → BitVec 64
  | .copyFromUser usrc _ => usrc
  | .copyToUser udest _ => udest
  | .read _ buf _ => buf
  | .write _ buf _ => buf
  | .getdents _ buf _ => buf

section Reach
variable (s : Sys) (drivers : ℕ → Driver) (process : ℕ)

def openFd (fdnum : ℤ) : Option FileDescriptor := (s.object process fdnum).bind s.fds

/-- The checks that `syscall_read` and `syscall_write` have in common. -/
def passes (fd : FileDescriptor) (operation : Operation) (count : BitVec 64) : Bool :=
  permits fd.flags operation ∧ ¬s.vfs.isDir fd.node ∧
    ¬(sIsblk (s.vfs.nodes fd.node).mode ∧ count % s.blksize fd.node ≠ 0)

/-- The bytes behind the pointer that the call touches, and none if it ends before. A buffer of
`tmpfs` that cannot become large enough is a loop that does not end. -/
def reach : UserCall → Option ℕ
  | .copyFromUser _ size => some size.toNat
  | .copyToUser _ size => some size.toNat
  | .read fdnum _ count => (openFd s process fdnum).bind fun fd =>
      if passes s fd .read count then
        some (if (s.vfs.nodes fd.node).fs = some .tmpfs then (actualCount (s.files fd.node).size fd.offset count).toNat
          else ((drivers fd.node).touchedByRead fd.offset count).toNat)
      else none
  | .write fdnum _ count => (openFd s process fdnum).bind fun fd =>
      if passes s fd .write count then
        if (s.vfs.nodes fd.node).fs = some .tmpfs then
          (writeBuffer (fun _ => 0) (s.files fd.node) fd.offset count).map fun _ => count.toNat
        else some ((drivers fd.node).touchedByWrite fd.offset count).toNat
      else none
  | .getdents fdnum _ count => (openFd s process fdnum).bind fun fd =>
      if permits fd.flags .read ∧ s.vfs.isDir fd.node then
        (s.vfs.nodes fd.node).children.map fun map => direntReach s.vfs map fd.offset.toNat count.toNat
      else none

/-- The range that the call goes on to access. -/
def accessed (codeBase : BitVec 64) (c : UserCall) : Option Range :=
  if checkUserPtr codeBase c.ptr then (reach s drivers process c).map (Range.mk c.ptr) else none

end Reach

section Ranges
variable {codeBase ptr : BitVec 64} {n : ℕ}

lemma checkUserPtr_iff : checkUserPtr codeBase ptr = true ↔ codeBase.toNat ≤ ptr.toNat ∧ ptr.toNat < processThreadStackTop := by
  rw [checkUserPtr, decide_eq_true_iff]

lemma toNat_add_ofNat {k : ℕ} (h : ptr.toNat + k ≤ processThreadStackTop) : (ptr + BitVec.ofNat 64 k).toNat = ptr.toNat + k := by
  rw [processThreadStackTop] at h
  rw [BitVec.toNat_add, BitVec.toNat_ofNat, Nat.mod_eq_of_lt (show k < 2 ^ 64 by omega), Nat.mod_eq_of_lt (by omega)]

/-- After the check it is the end of the range that matters. -/
lemma inside_iff (h : checkUserPtr codeBase ptr = true) :
    (Range.mk ptr n).Inside codeBase ↔ ptr.toNat + n ≤ processThreadStackTop := by
  obtain ⟨hlow, hhigh⟩ := checkUserPtr_iff.mp h
  constructor
  · intro hinside
    by_contra hlong
    have htop := (hinside (processThreadStackTop - ptr.toNat) (by dsimp only; omega)).2
    dsimp only at htop
    rw [toNat_add_ofNat (by omega)] at htop
    omega
  · intro hend k hk
    dsimp only at hk ⊢
    rw [toNat_add_ofNat (by omega)]
    omega

end Ranges

section Calls
variable {s : Sys} {drivers : ℕ → Driver} {process p : ℕ} {fdnum : ℤ} {fd : FileDescriptor} {count : BitVec 64}

lemma memcpyToUser_of_ne {mem : BitVec 64 → BitVec 8} {udest a : BitVec 64} {ksrc : Memory} {n : ℕ}
    (h : ∀ k < n, a ≠ udest + BitVec.ofNat 64 k) : memcpyToUser mem udest ksrc n a = mem a := by
  induction n with
  | zero => rfl
  | succ n ih =>
    rw [memcpyToUser, Function.update_of_ne (h n (Nat.lt_succ_self n))]
    exact ih fun k hk => h k (Nat.lt_succ_of_lt hk)

/-- Only the bytes of the range are written. -/
lemma copyToUser_accessed {codeBase udest size a : BitVec 64} {mem mem' : BitVec 64 → BitVec 8} {ksrc : Memory}
    (h : copyToUser codeBase mem udest ksrc size = some mem') (ha : mem' a ≠ mem a) :
    ∃ r, accessed s drivers process codeBase (.copyToUser udest size) = some r ∧
      ∃ k < r.length, a = r.ptr + BitVec.ofNat 64 k := by
  unfold copyToUser at h
  split_ifs at h with hcheck
  · obtain rfl := Option.some.inj h
    refine ⟨⟨udest, size.toNat⟩, if_pos hcheck, ?_⟩
    by_contra hnot
    push Not at hnot
    exact ha (memcpyToUser_of_ne hnot)

/-- Only the bytes of the range are read. -/
lemma copyFromUser_accessed {codeBase usrc size : BitVec 64} {mem mem' : BitVec 64 → BitVec 8}
    (h : ∀ r, accessed s drivers process codeBase (.copyFromUser usrc size) = some r →
      ∀ k < r.length, mem' (r.ptr + BitVec.ofNat 64 k) = mem (r.ptr + BitVec.ofNat 64 k)) :
    copyFromUser codeBase mem' usrc size = copyFromUser codeBase mem usrc size := by
  unfold copyFromUser
  split_ifs with hcheck
  · congr 1
    refine List.map_congr_left fun k hk => ?_
    exact h ⟨usrc, size.toNat⟩ (if_pos hcheck) k (List.mem_range.mp hk)
  · rfl

lemma passes_iff {operation : Operation} : passes s fd operation count = true ↔ permits fd.flags operation = true ∧
    ¬s.vfs.isDir fd.node = true ∧ ¬(sIsblk (s.vfs.nodes fd.node).mode = true ∧ count % s.blksize fd.node ≠ 0) := by
  rw [passes, decide_eq_true_iff]

/-- The file system or the driver is called if and only if the checks pass. -/
lemma syscallRead_passes (hp : s.object process fdnum = some p) (hfd : s.fds p = some fd) (answer : BitVec 64) :
    ∃ e : ℤ, syscallRead s process fdnum true count answer = if passes s fd .read count
      then (readNode (s.addReference p) fd.node fd.offset count answer).map
        (advanced (s.addReference p) p { fd with refcount := fd.refcount + 1 })
      else some (-e, s.addReference p) := by
  rw [syscallRead_checked hp hfd]
  by_cases hpermits : permits fd.flags .read = true
  · rw [if_pos hpermits]
    by_cases hdir : s.vfs.isDir fd.node = true
    · refine ⟨eisdir, ?_⟩
      rw [if_pos hdir, if_neg fun h => (passes_iff.mp h).2.1 hdir]
    · rw [if_neg hdir]
      by_cases hblk : sIsblk (s.vfs.nodes fd.node).mode = true ∧ count % s.blksize fd.node ≠ 0
      · refine ⟨FileCalls.einval, ?_⟩
        rw [if_pos hblk, if_neg fun h => (passes_iff.mp h).2.2 hblk]
      · refine ⟨0, ?_⟩
        rw [if_neg hblk, if_pos (passes_iff.mpr ⟨hpermits, hdir, hblk⟩)]
  · refine ⟨if accMode fd &&& oPath ≠ 0 then FileCalls.ebadf else FileCalls.eperm, ?_⟩
    rw [if_neg hpermits, if_neg fun h => hpermits (passes_iff.mp h).1]
    split_ifs <;> rfl

/-- `reach` is the number of bytes that `tmpfs_read` copies. -/
lemma reach_read {buf : BitVec 64} {bytes : List (BitVec 8)} {n : ℕ} (hp : s.object process fdnum = some p)
    (hfd : s.fds p = some fd) (hfs : (s.vfs.nodes fd.node).fs = some .tmpfs)
    (hread : tmpfsRead (s.files fd.node) fd.offset count = some bytes)
    (h : reach s drivers process (.read fdnum buf count) = some n) : bytes.length = n := by
  rw [reach, openFd, hp, Option.bind_some, hfd, Option.bind_some] at h
  split_ifs at h
  · obtain rfl := Option.some.inj h
    rw [tmpfsRead] at hread
    split_ifs at hread
    obtain rfl := Option.some.inj hread
    exact length_readBytes ..

end Calls

section Listings
variable {s : Vfs} {map : Hash.HashMap ℕ} {ino : ℕ → BitVec 64} {fuel buffer offset actualCount n : ℕ}
  {mem mem' : Memory} {st st' : Filled} {acc : ℕ × ℕ × ℕ}

/-- Nothing is stored outside the first `reach` bytes, and the last of them is the end of a name. -/
structure Stored (buffer : ℕ) (mem : Memory) (st : Filled) (acc : ℕ × ℕ × ℕ) : Prop where
  iterOffset : acc.1 = st.iterOffset
  readSize : acc.2.1 = st.readSize
  frame : ∀ b, b < buffer ∨ buffer + acc.2.2 ≤ b → st.mem b = mem b
  last : ∀ k, acc.2.2 = k + 1 → st.mem (buffer + k) = 0

lemma storeDirent_outside {ent b reclen : ℕ} {inode : BitVec 64} {type : BitVec 8} {name : CString}
    (h : b < ent ∨ ent + (12 + name.strlen) ≤ b) : storeDirent mem ent inode reclen type name b = mem b := by
  rw [storeDirent, blit_outside _ _ (by omega), Function.update_of_ne (by omega), blit_outside _ _ (by omega),
    write64_outside _ _ (by omega)]

lemma storeDirent_last {ent reclen : ℕ} {inode : BitVec 64} {type : BitVec 8} {name : CString} :
    storeDirent mem ent inode reclen type name (ent + (11 + name.strlen)) = 0 := by
  rw [storeDirent, ← Nat.add_assoc, blit_inside _ _ (Nat.lt_succ_self _)]
  simp [CString.strlen]

/-- One more record. -/
lemma Stored.store {inode : BitVec 64} {reclen iter size : ℕ} {type : BitVec 8} {name : CString}
    (h : Stored buffer mem st acc) : Stored buffer mem
      ⟨iter, size, storeDirent st.mem (buffer + st.readSize) inode reclen type name⟩
      (iter, size, max acc.2.2 (st.readSize + (12 + name.strlen))) := by
  refine ⟨rfl, rfl, fun b hb => ?_, fun k hk => ?_⟩
  · dsimp only at hb ⊢
    rw [storeDirent_outside (by omega)]
    exact h.frame b (by omega)
  · dsimp only at hk ⊢
    by_cases hlong : acc.2.2 ≤ st.readSize + (12 + name.strlen)
    · obtain rfl : k = st.readSize + (11 + name.strlen) := by omega
      rw [← Nat.add_assoc]
      exact storeDirent_last
    · rw [storeDirent_outside (by omega)]
      exact h.last k (by omega)

lemma Stored.chain {chain : List (CString × ℕ)} (h : Stored buffer mem st acc)
    (hfill : fillChain s ino fuel buffer offset actualCount chain st = some st') :
    Stored buffer mem st' (chainReach s offset actualCount chain acc) := by
  induction chain generalizing st acc with
  | nil =>
    obtain rfl := Option.some.inj hfill
    exact h
  | cons entry rest ih =>
    obtain ⟨iter, size, reach⟩ := acc
    obtain ⟨reducedChild, -, hfill⟩ := Option.bind_eq_some_iff.mp hfill
    have hiter : iter = st.iterOffset := h.iterOffset
    have hsize : size = st.readSize := h.readSize
    subst hiter hsize
    rw [chainReach]
    dsimp only at hfill ⊢
    by_cases hskip : st.iterOffset + entLen s entry.2 ≤ offset
    · rw [if_pos hskip] at hfill ⊢
      have hnext : Stored buffer mem { st with iterOffset := st.iterOffset + entLen s entry.2 }
          (st.iterOffset + entLen s entry.2, st.readSize, reach) := ⟨rfl, rfl, h.frame, h.last⟩
      exact ih hnext hfill
    · rw [if_neg hskip] at hfill ⊢
      by_cases hfull : actualCount ≤ st.readSize
      · rw [if_pos hfull] at hfill ⊢
        obtain rfl := Option.some.inj hfill
        exact h.store
      · rw [if_neg hfull] at hfill ⊢
        exact ih h.store hfill

lemma Stored.buckets {buckets : List ℕ} (h : Stored buffer mem st acc)
    (hfill : fillBuckets s ino fuel buffer offset actualCount map buckets st = some st') :
    Stored buffer mem st' (bucketsReach s offset actualCount map buckets acc) := by
  induction buckets generalizing st acc with
  | nil =>
    obtain rfl := Option.some.inj hfill
    exact h
  | cons i buckets ih =>
    obtain ⟨st1, hchain, hrest⟩ := Option.bind_eq_some_iff.mp hfill
    exact ih (h.chain hchain) hrest

/-- `vfs_getdents` stores up to `direntReach` and not further. -/
lemma vfsGetdents_reach {count : ℕ} (h : vfsGetdents s ino fuel map mem buffer offset count = some (n, mem')) :
    (∀ b, b < buffer ∨ buffer + direntReach s map offset count ≤ b → mem' b = mem b) ∧
      ∀ k, direntReach s map offset count = k + 1 → mem' (buffer + k) = 0 := by
  unfold vfsGetdents at h
  unfold direntReach
  dsimp only at h ⊢
  split_ifs at h ⊢
  · obtain ⟨-, rfl⟩ := Prod.mk.inj (Option.some.inj h)
    exact ⟨fun _ _ => rfl, fun k hk => absurd hk (by simp)⟩
  · obtain ⟨st, hfill, hst⟩ := Option.map_eq_some_iff.mp h
    obtain ⟨-, rfl⟩ := Prod.mk.inj hst
    have hstart : Stored buffer mem ⟨0, 0, mem⟩ (0, 0, 0) := ⟨rfl, rfl, fun _ _ => rfl, fun k hk => absurd hk (by simp)⟩
    have hend := hstart.buckets hfill
    exact ⟨hend.frame, hend.last⟩

end Listings

section Theorem
variable {s : Sys} {drivers : ℕ → Driver} {process : ℕ} {codeBase : BitVec 64}

end Theorem

end PiggyOs.UserAccess
