import PiggyOs.Append
import PiggyOs.StreamReading
import PiggyOs.StreamWriting

/-! Streams of the C library on descriptors of the kernel. What is written through a buffer is in the file, and is read
from there through another buffer. -/
namespace PiggyOs.Stream
open ByteMemory Tmpfs Fork Filter Simulation
open FileCalls (FileOps Files tmpfsOps withFd accMode oPath oRdonly oWronly oRdwr syscallRead syscallWrite syscallSeek
  contents)

/-- What the functions for system calls make of a result. -/
def libcResult (r : ℤ) : BitVec 64 := if r < 0 then -1 else BitVec.ofInt 64 r

def Whence.number : Whence → ℕ
  | .seekSet => FileCalls.seekSet
  | .seekCur => FileCalls.seekCur
  | .seekEnd => FileCalls.seekEnd

/-- The calls on one descriptor of a process, from buffers in the user half; `stale` is what pages hold that a write may
allocate. A system call that does not return counts as one that fails. -/
def kernelCalls {F : Type} (ops : FileOps F) (stale : Files F → Memory) (process : ℕ) (fdnum : Fin maxFds) :
    Calls (Files F) where
  read k n := match syscallRead ops k process fdnum true n with
    | some (.bytes bytes, k) => (some bytes, k)
    | some (.ret _, k) => (none, k)
    | none => (none, k)
  write k b :=
    match syscallWrite ops k process fdnum true (fun i => b.getD i 0) (stale k) (BitVec.ofNat 64 b.length) with
    | some (.ret r, k) => (libcResult r, k)
    | some (.bytes _, k) => (-1, k)
    | none => (-1, k)
  lseek k offset whence := match syscallSeek ops k process fdnum offset whence.number with
    | some (.ret r, k) => (libcResult r, k)
    | some (.bytes _, k) => (-1, k)
    | none => (-1, k)

/-- The descriptor is open, its offset is in the file, and the file holds `content`. -/
structure At (process : ℕ) (fdnum : Fin maxFds) (mode : BitVec 32) (content : List Byte) (offset : ℕ)
    (k : Files TmpFile) : Prop where
  fits : Fits k.file
  holds : contents k = content
  opened : ∃ fd, k.tables process fdnum = some fd ∧ accMode fd = mode ∧ fd.offset.toNat = offset
  inside : offset ≤ content.length

section Kernel
variable {k : Files TmpFile} {process offset : ℕ} {fdnum : Fin maxFds} {mode : BitVec 32} {content : List Byte}
  (stale : Files TmpFile → Memory)

lemma withFd_opened {F : Type} {k : Files F} {fd : FileDescriptor} (hfd : k.tables process fdnum = some fd)
    (hpath : accMode fd &&& oPath = 0) (body : FileDescriptor → Files F → Option (FileCalls.Answer × Files F)) :
    withFd k process fdnum body =
      body { fd with refcount := fd.refcount + 1 } (FileCalls.taken k process fdnum fd) := by
  rw [withFd, fdFromFdnum, hfd]
  exact if_neg (not_not.mpr hpath)

lemma At.size (h : At process fdnum mode content offset k) : k.file.size.toNat = content.length := by
  rw [← h.holds, contents, length_readBytes]

/-- After a call that goes well: the descriptor has another offset, and the file may be another one. -/
def moved (k : Files TmpFile) (process : ℕ) (fdnum : Fin maxFds) (fd : FileDescriptor) (file : TmpFile)
    (new : BitVec 64) : Files TmpFile :=
  { FileCalls.taken k process fdnum fd with file := file }.setOffset process fdnum
    { fd with refcount := fd.refcount + 1 } new

lemma at_moved (k : Files TmpFile) {fd : FileDescriptor} {file : TmpFile} {new : BitVec 64} (hmode : accMode fd = mode)
    (hfits : Fits file) (hholds : readBytes file.data 0 file.size.toNat = content) (hnew : new.toNat ≤ content.length) :
    At process fdnum mode content new.toNat (moved k process fdnum fd file new) := by
  refine ⟨hfits, hholds, ⟨{ fd with refcount := fd.refcount + 1, offset := new }, ?_, hmode, rfl⟩, hnew⟩
  rw [moved, Files.setOffset, FileCalls.Files.setTable_tables, Function.update_self, Function.update_self]

/-- A read gives what comes next in the file. -/
lemma At.read (h : At process fdnum mode content offset k) (hmode : mode = oRdonly ∨ mode = oRdwr)
    (hsmall : content.length < 2 ^ 62) {n : BitVec 64} (hn : n.toNat < 2 ^ 62) :
    ∃ k', (kernelCalls tmpfsOps stale process fdnum).read k n = (some ((content.drop offset).take n.toNat), k') ∧
      At process fdnum mode content (offset + ((content.drop offset).take n.toNat).length) k' := by
  obtain ⟨fd, hfd, hacc, hoffset⟩ := h.opened
  have hinside := h.inside
  have hpath : accMode fd &&& oPath = 0 := by
    rcases hmode with rfl | rfl <;> rw [hacc] <;> decide
  have hcheck : ¬ (accMode fd ≠ oRdwr ∧ accMode fd ≠ oRdonly) := by
    rw [hacc]
    rcases hmode with rfl | rfl <;> decide
  have hread : tmpfsRead k.file fd.offset n = some ((content.drop offset).take n.toNat) := by
    rw [tmpfsRead_inside h.fits.low (by omega) (by rw [h.size]; omega), ← h.holds, contents, take_drop_readBytes,
      Nat.zero_add, hoffset]
  have hlen : ((content.drop offset).take n.toNat).length ≤ content.length - offset := by
    rw [List.length_take, List.length_drop]
    omega
  obtain ⟨got, hgot⟩ : ∃ got, (content.drop offset).take n.toNat = got := ⟨_, rfl⟩
  rw [hgot] at hread hlen ⊢
  have hsum : (fd.offset + BitVec.ofNat 64 got.length).toNat = offset + got.length := by
    rw [BitVec.toNat_add, BitVec.toNat_ofNat]
    omega
  have hcall : syscallRead tmpfsOps k process fdnum true n = some (.bytes got,
      moved k process fdnum fd k.file (fd.offset + BitVec.ofNat 64 got.length)) := by
    rw [syscallRead, if_neg (not_not.mpr rfl), withFd_opened hfd hpath]
    refine (if_neg hcheck).trans ?_
    exact congrArg (Option.map _) hread
  refine ⟨moved k process fdnum fd k.file (fd.offset + BitVec.ofNat 64 got.length), ?_, ?_⟩
  · dsimp only [kernelCalls]
    rw [hcall]
  · rw [← hsum]
    exact at_moved k hacc h.fits h.holds (by omega)

/-- A write at the end of the file takes all bytes. -/
lemma At.write (h : At process fdnum mode content content.length k) (hmode : mode = oWronly ∨ mode = oRdwr)
    {b : List Byte} (hsmall : content.length + b.length < 2 ^ 62) :
    ∃ k', (kernelCalls tmpfsOps stale process fdnum).write k b = (BitVec.ofNat 64 b.length, k') ∧
      At process fdnum mode (content ++ b) (content ++ b).length k' := by
  obtain ⟨fd, hfd, hacc, hoffset⟩ := h.opened
  have hpath : accMode fd &&& oPath = 0 := by
    rcases hmode with rfl | rfl <;> rw [hacc] <;> decide
  have hcheck : ¬ (accMode fd ≠ oRdwr ∧ accMode fd ≠ oWronly) := by
    rw [hacc]
    rcases hmode with rfl | rfl <;> decide
  have hcount : (BitVec.ofNat 64 b.length).toNat = b.length := by
    rw [BitVec.toNat_ofNat]
    omega
  have hsum : fd.offset.toNat + (BitVec.ofNat 64 b.length).toNat < 2 ^ 63 := by omega
  obtain ⟨f, f', -, hb, hwrite, hfits, hsize, hdata⟩ := tmpfsWrite_some (stale k) (fun i => b.getD i 0) h.fits hsum
  have hholds : readBytes f'.data 0 f'.size.toNat = content ++ b := by
    rw [hsize, hdata, hcount, hoffset, h.size, max_eq_right (Nat.le_add_right _ _), readBytes_blit_behind,
      readBytes_list]
    refine congrArg (· ++ b) ?_
    rw [← h.holds, contents, length_readBytes]
    exact readBytes_congr fun i hi => by rw [Nat.zero_add, hb.data i (hi.trans_le h.fits.size)]
  have hlen : (content ++ b).length = content.length + b.length := List.length_append
  have hnew : (if (0 : BitVec 64).slt (BitVec.ofNat 64 b.length) then fd.offset + BitVec.ofNat 64 b.length
      else fd.offset).toNat = (content ++ b).length := by
    have hslt : (0 : BitVec 64).slt (BitVec.ofNat 64 b.length) = true ↔ 0 < b.length := by
      have hzero : (0 : BitVec 64).toInt = 0 := rfl
      rw [BitVec.slt, decide_eq_true_eq, hzero, BitVec.toInt_eq_toNat_of_lt (by omega), hcount]
      omega
    rw [hlen]
    split_ifs with hpos
    · rw [BitVec.toNat_add, hcount, hoffset]
      omega
    · rw [hslt] at hpos
      omega
  have hcall : syscallWrite tmpfsOps k process fdnum true (fun i => b.getD i 0) (stale k) (BitVec.ofNat 64 b.length) =
      some (.ret (BitVec.ofNat 64 b.length).toInt, moved k process fdnum fd f'
        (if (0 : BitVec 64).slt (BitVec.ofNat 64 b.length) then fd.offset + BitVec.ofNat 64 b.length
          else fd.offset)) := by
    rw [syscallWrite, if_neg (not_not.mpr rfl), withFd_opened hfd hpath]
    refine (if_neg hcheck).trans ?_
    exact congrArg (Option.map _) hwrite
  obtain ⟨new, hdef⟩ : ∃ new, (if (0 : BitVec 64).slt (BitVec.ofNat 64 b.length) then
    fd.offset + BitVec.ofNat 64 b.length else fd.offset) = new := ⟨_, rfl⟩
  rw [hdef] at hnew hcall
  have hresult : libcResult (BitVec.ofNat 64 b.length).toInt = BitVec.ofNat 64 b.length := by
    rw [libcResult, BitVec.toInt_eq_toNat_of_lt (by omega), if_neg (by omega), hcount]
    rfl
  refine ⟨moved k process fdnum fd f' new, ?_, ?_⟩
  · dsimp only [kernelCalls]
    rw [hcall]
    dsimp only
    rw [hresult]
  · rw [← hnew]
    exact at_moved k hacc hfits hholds hnew.le

/-- The offset that `syscall_seek` computes. -/
def soughtOffset (size offset delta : BitVec 64) : Whence → BitVec 64
  | .seekSet => delta
  | .seekCur => offset + delta
  | .seekEnd => delta + size

lemma soughtOffset_target {size off : BitVec 64} (hsize : size.toNat < 2 ^ 63) (hoff : off.toNat < 2 ^ 63)
    (delta : BitVec 64) (whence : Whence) :
    ((soughtOffset size off delta whence).slt 0 = true ∧ seekTarget size.toNat off.toNat delta whence = none) ∨
    ((soughtOffset size off delta whence).slt 0 = false ∧
      seekTarget size.toNat off.toNat delta whence = some (soughtOffset size off delta whence).toNat) := by
  have hslt : ∀ x : BitVec 64, x.slt 0 = decide (x.toInt < 0) := fun x => rfl
  have hint : ∀ x : BitVec 64, 0 ≤ x.toInt → x.toNat = x.toInt.toNat := by
    intro x hx
    rw [BitVec.toInt_eq_toNat_cond] at hx ⊢
    split_ifs at hx ⊢
    · rfl
    · have := x.isLt
      omega
  have hsum : ∀ x : BitVec 64, x.toNat < 2 ^ 63 → ∀ s : BitVec 64, s = x + delta →
      (s.slt 0 = true ∧ ¬ (0 ≤ x.toNat + delta.toInt ∧ x.toNat + delta.toInt < 2 ^ 63)) ∨
      (s.slt 0 = false ∧ (0 ≤ x.toNat + delta.toInt ∧ x.toNat + delta.toInt < 2 ^ 63) ∧
        s.toNat = (x.toNat + delta.toInt).toNat) := by
    rintro x hx s rfl
    have hlo := BitVec.le_toInt delta
    have hhi := BitVec.toInt_lt (x := delta)
    have hxi : x.toInt = x.toNat := BitVec.toInt_eq_toNat_of_lt (by omega)
    have hadd := BitVec.toInt_add x delta
    rw [hxi, Int.bmod_def] at hadd
    rw [hslt]
    by_cases hneg : (x + delta).toInt < 0
    · left
      rw [decide_eq_true hneg]
      refine ⟨rfl, ?_⟩
      split_ifs at hadd <;> omega
    · right
      rw [decide_eq_false hneg, hint (x + delta) (by omega)]
      refine ⟨rfl, ?_⟩
      split_ifs at hadd <;> omega
  cases whence with
  | seekSet =>
    rw [soughtOffset, hslt, seekTarget]
    by_cases hneg : delta.toInt < 0
    · exact Or.inl ⟨decide_eq_true hneg, if_neg (by omega)⟩
    · refine Or.inr ⟨decide_eq_false hneg, ?_⟩
      rw [if_pos (by omega), hint delta (by omega)]
  | seekCur =>
    rw [soughtOffset, seekTarget]
    rcases hsum off hoff _ rfl with ⟨hs, hno⟩ | ⟨hs, hyes, heq⟩
    · exact Or.inl ⟨hs, if_neg hno⟩
    · exact Or.inr ⟨hs, by rw [if_pos hyes, heq]⟩
  | seekEnd =>
    rw [soughtOffset, seekTarget]
    rcases hsum size hsize _ (BitVec.add_comm _ _) with ⟨hs, hno⟩ | ⟨hs, hyes, heq⟩
    · exact Or.inl ⟨hs, if_neg hno⟩
    · exact Or.inr ⟨hs, by rw [if_pos hyes, heq]⟩

/-- Where a seek leads, if that is in the file. -/
lemma At.seek (h : At process fdnum mode content offset k) (hpath : mode &&& oPath = 0) (delta : BitVec 64)
    (whence : Whence)
    (hin : ∀ p ∈ seekTarget content.length offset delta whence, p ≤ content.length) :
    ∃ k', (kernelCalls tmpfsOps stale process fdnum).lseek k delta whence =
        (((seekTarget content.length offset delta whence).map (BitVec.ofNat 64)).getD (-1), k') ∧
      At process fdnum mode content ((seekTarget content.length offset delta whence).getD offset) k' := by
  obtain ⟨fd, hfd, hacc, hoffset⟩ := h.opened
  have hinside := h.inside
  obtain ⟨new, hnew⟩ : ∃ new, soughtOffset k.file.size fd.offset delta whence = new := ⟨_, rfl⟩
  have hsize := h.fits.low
  have hlow : content.length < 2 ^ 63 := h.size ▸ hsize
  have hoff : fd.offset.toNat < 2 ^ 63 := by omega
  have htarget := soughtOffset_target hsize hoff delta whence
  rw [h.size, hoffset, hnew] at htarget
  have hcall : syscallSeek tmpfsOps k process fdnum delta whence.number =
      if new.slt 0 then some (.ret (-FileCalls.espipe), FileCalls.taken k process fdnum fd)
      else some (.ret new.toInt, moved k process fdnum fd k.file new) := by
    rw [syscallSeek, withFd_opened hfd (hacc.symm ▸ hpath), ← hnew]
    cases whence <;> rfl
  dsimp only [kernelCalls]
  rw [hcall]
  rcases htarget with ⟨hslt, htarget⟩ | ⟨hslt, htarget⟩
  · rw [htarget, if_pos hslt]
    refine ⟨FileCalls.taken k process fdnum fd, rfl, h.fits, h.holds, ?_, hinside⟩
    refine ⟨{ fd with refcount := fd.refcount + 1 }, ?_, hacc, hoffset⟩
    rw [FileCalls.taken, FileCalls.Files.setTable_tables, Function.update_self, Function.update_self]
  · rw [htarget] at hin
    rw [htarget, if_neg (by rw [hslt]; exact Bool.false_ne_true)]
    refine ⟨moved k process fdnum fd k.file new, ?_, at_moved k hacc h.fits h.holds (hin _ rfl)⟩
    have hle := hin _ rfl
    dsimp only
    rw [libcResult, BitVec.toInt_eq_toNat_of_lt (by omega), if_neg (by omega)]
    rfl

end Kernel

/-! ## Reading -/

/-- A stream on the descriptor and one on a file that does not change, with the same buffer. -/
structure Mirrors (process : ℕ) (fdnum : Fin maxFds) (mode : BitVec 32) (s : State (Files TmpFile))
    (t : State RegularFile) : Prop where
  file : s.file = t.file
  fd : At process fdnum mode t.fd.content t.fd.offset s.fd

/-- The calls that do not ask for more than memory could hold, and do not seek behind the end. -/
def Cursor.Within (c : Cursor) : Call → Prop
  | .fread count => count.toNat < 2 ^ 62
  | .fseek offset whence => ∀ p ∈ seekTarget c.content.length c.pos offset whence, p ≤ c.content.length
  | _ => True

def Cursor.WithinAll : Cursor → List Call → Prop
  | _, [] => True
  | c, call :: calls => c.Within call ∧ (c.call call).2.WithinAll calls

def State.callOn {σ : Type*} (calls : Calls σ) (fuel : ℕ) (s : State σ) : Call → Option (Answer × State σ)
  | .fread count => some (.data (fread calls s 1 count).1.1 (fread calls s 1 count).1.2, (fread calls s 1 count).2)
  | .fgetc => some (.char (fgetc calls s).1, (fgetc calls s).2)
  | .fgets size => some (.line (fgets calls s size).1, (fgets calls s size).2)
  | .fseek offset whence => (fseek calls fuel s offset whence).map fun r => (.status r.1, r.2)
  | .ftell => some (.position (ftell calls s).1, (ftell calls s).2)

/-- What the calls return on any descriptor, if all of them do. -/
def State.answersOn {σ : Type*} (calls : Calls σ) (fuel : ℕ) : State σ → List Call → Option (List Answer)
  | _, [] => some []
  | s, call :: list => (s.callOn calls fuel call).bind fun r =>
      (State.answersOn calls fuel r.2 list).map fun as => r.1 :: as

lemma Cursor.call_content (c : Cursor) (call : Call) : (c.call call).2.content = c.content := by
  cases call with
  | fgetc =>
    rw [Cursor.call]
    cases c.rest <;> rfl
  | fseek offset whence =>
    rw [Cursor.call]
    cases seekTarget c.content.length c.pos offset whence <;> rfl
  | _ => rfl

section Reading
variable {s : State (Files TmpFile)} {t : State RegularFile} {c : Cursor} {k process : ℕ} {fdnum : Fin maxFds}
  {mode : BitVec 32} (stale : Files TmpFile → Memory)

lemma readBytesOf_some {σ : Type*} {calls : Calls σ} {s : State σ} {n : BitVec 64} {got : List Byte} {fd : σ}
    (hread : calls.read s.fd n = (some got, fd)) :
    readBytesOf calls s n = (got,
      { s with
        file := { s.file with flags := if got = [] then s.file.flags ||| fileFlagEof else s.file.flags }
        fd := fd }) := by
  rw [readBytesOf, hread]
  cases got with
  | nil => rfl
  | cons b bs => rfl

lemma Mirrors.readBytesOf (h : Mirrors process fdnum mode s t) (hmode : mode = oRdonly ∨ mode = oRdwr)
    (hsmall : t.fd.content.length < 2 ^ 62) {n : BitVec 64} (hn : n.toNat < 2 ^ 62) :
    ∃ got s' t', readBytesOf (kernelCalls tmpfsOps stale process fdnum) s n = (got, s') ∧
      readBytesOf regularCalls t n = (got, t') ∧ Mirrors process fdnum mode s' t' := by
  obtain ⟨k', hread, hat⟩ := h.fd.read stale hmode hsmall hn
  refine ⟨_, _, _, readBytesOf_some hread, readBytesOf_regular rfl, ?_, hat⟩
  rw [h.file]

lemma Mirrors.setRead (h : Mirrors process fdnum mode s t) (readPos readEnd : BitVec 64) :
    Mirrors process fdnum mode (s.setRead readPos readEnd) (t.setRead readPos readEnd) := by
  refine ⟨?_, h.fd⟩
  rw [State.setRead, State.setRead, h.file]

lemma Mirrors.fread (h : Mirrors process fdnum mode s t) (hmode : mode = oRdonly ∨ mode = oRdwr)
    (hsmall : t.fd.content.length < 2 ^ 62) {n : BitVec 64} (hn : n.toNat < 2 ^ 62) :
    ∃ ans s' t', fread (kernelCalls tmpfsOps stale process fdnum) s 1 n = (ans, s') ∧
      fread regularCalls t 1 n = (ans, t') ∧ Mirrors process fdnum mode s' t' := by
  have hone : (1 : BitVec 64) * n = n := BitVec.one_mul n
  have hrefill : (bufsiz - ungetBytes).toNat < 2 ^ 62 := by decide
  have hempty := h.setRead ungetBytes ungetBytes
  have hfile : (s.setRead ungetBytes ungetBytes).file = (t.setRead ungetBytes ungetBytes).file := hempty.file
  rw [Stream.fread, Stream.fread, hone, h.file]
  dsimp only
  rw [hfile]
  by_cases h0 : n = 0
  · rw [if_pos h0, if_pos h0]
    exact ⟨_, s, t, rfl, rfl, h⟩
  rw [if_neg h0, if_neg h0]
  by_cases heof : t.file.flags &&& fileFlagEof ≠ 0
  · rw [if_pos heof, if_pos heof]
    exact ⟨_, s, t, rfl, rfl, h⟩
  rw [if_neg heof, if_neg heof]
  obtain ⟨filled, hfilled⟩ : ∃ filled, t.file.readEnd - t.file.readPos = filled := ⟨_, rfl⟩
  rw [hfilled]
  by_cases hle : filled ≤ n
  · have hrest : (n - filled).toNat < 2 ^ 62 := by
      rw [BitVec.toNat_sub_of_le hle]
      omega
    rw [if_pos hle, if_pos hle]
    by_cases hnone : n - filled = 0
    · rw [if_pos hnone, if_pos hnone]
      exact ⟨_, _, _, rfl, rfl, hempty⟩
    rw [if_neg hnone, if_neg hnone]
    by_cases hdirect : n - filled ≥ bufsiz - (t.setRead ungetBytes ungetBytes).file.readEnd ∨
      (t.setRead ungetBytes ungetBytes).file.flags &&& fileFlagBuffered = 0
    · obtain ⟨got, s', t', hs, ht, hmirrors⟩ := hempty.readBytesOf stale hmode hsmall hrest
      rw [if_pos hdirect, if_pos hdirect, hs, ht]
      exact ⟨_, _, _, rfl, rfl, hmirrors⟩
    · obtain ⟨got, s', t', hs, ht, hmirrors⟩ := hempty.readBytesOf stale hmode hsmall
        (n := bufsiz - (t.setRead ungetBytes ungetBytes).file.readEnd) hrefill
      rw [if_neg hdirect, if_neg hdirect, hs, ht]
      dsimp only
      rw [State.setBuf, State.setBuf, hmirrors.file]
      exact ⟨_, _, _, rfl, rfl, ⟨rfl, hmirrors.fd⟩⟩
  · rw [if_neg hle, if_neg hle]
    exact ⟨_, _, _, rfl, rfl, h.setRead _ _⟩

lemma Mirrors.fgetc (h : Mirrors process fdnum mode s t) (hmode : mode = oRdonly ∨ mode = oRdwr)
    (hsmall : t.fd.content.length < 2 ^ 62) :
    ∃ r s' t', fgetc (kernelCalls tmpfsOps stale process fdnum) s = (r, s') ∧ fgetc regularCalls t = (r, t') ∧
      Mirrors process fdnum mode s' t' := by
  obtain ⟨ans, s', t', hs, ht, hmirrors⟩ := h.fread stale hmode hsmall (n := 1) (by decide)
  rw [Stream.fgetc, Stream.fgetc, hs, ht]
  dsimp only
  by_cases hnone : ans.1 ≠ 1
  · rw [if_pos hnone, if_pos hnone]
    exact ⟨_, _, _, rfl, rfl, hmirrors⟩
  · rw [if_neg hnone, if_neg hnone]
    exact ⟨_, _, _, rfl, rfl, hmirrors⟩

lemma Mirrors.fgetsLoop (h : Mirrors process fdnum mode s t) (hmode : mode = oRdonly ∨ mode = oRdwr)
    (hreads : Reads t c k)
    (hsmall : c.content.length < 2 ^ 62) (n : ℕ) :
    ∃ r s' t', fgetsLoop (kernelCalls tmpfsOps stale process fdnum) n s = (r, s') ∧
      fgetsLoop regularCalls n t = (r, t') ∧ Mirrors process fdnum mode s' t' := by
  induction n generalizing s t c k with
  | zero => exact ⟨[], s, t, rfl, rfl, h⟩
  | succ n ih =>
    obtain ⟨r, s1, t1, hs, ht, h1⟩ := h.fgetc stale hmode (hreads.content.symm ▸ hsmall)
    obtain ⟨-, k1, hreads1⟩ := hreads.fgetc
    rw [ht] at hreads1
    obtain ⟨line, s2, t2, hs2, ht2, h2⟩ := ih h1 hreads1 hsmall
    rw [Stream.fgetsLoop, Stream.fgetsLoop, hs, ht]
    dsimp only
    by_cases heof : r = eof
    · rw [if_pos heof, if_pos heof]
      exact ⟨_, _, _, rfl, rfl, h1⟩
    rw [if_neg heof, if_neg heof]
    by_cases hline : r = 10
    · rw [if_pos hline, if_pos hline]
      exact ⟨_, _, _, rfl, rfl, h1⟩
    · rw [if_neg hline, if_neg hline, hs2, ht2]
      exact ⟨_, _, _, rfl, rfl, h2⟩

lemma Mirrors.lseek (h : Mirrors process fdnum mode s t) (hpath : mode &&& oPath = 0) (offset : BitVec 64)
    (whence : Whence)
    (hin : ∀ p ∈ seekTarget t.fd.content.length t.fd.offset offset whence, p ≤ t.fd.content.length) :
    ∃ k', (kernelCalls tmpfsOps stale process fdnum).lseek s.fd offset whence =
        ((regularCalls.lseek t.fd offset whence).1, k') ∧
      Mirrors process fdnum mode { s with fd := k' } { t with fd := (regularCalls.lseek t.fd offset whence).2 } := by
  obtain ⟨k', hseek, hat⟩ := h.fd.seek stale hpath offset whence hin
  refine ⟨k', ?_, h.file, ?_⟩
  · rw [hseek]
    cases htarget : seekTarget t.fd.content.length t.fd.offset offset whence with
    | none => rw [lseek_none htarget]; rfl
    | some p => rw [lseek_some htarget]; rfl
  · cases htarget : seekTarget t.fd.content.length t.fd.offset offset whence with
    | none =>
      rw [htarget] at hat
      rw [lseek_none htarget]
      exact hat
    | some p =>
      rw [htarget] at hat
      rw [lseek_some htarget]
      exact hat

/-- The offset that is left for the kernel leads where the cursor is sent. -/
lemma Reads.sought (h : Reads t c k) (offset : BitVec 64) (whence : Whence) :
    ((if whence = .seekCur then Stream.subOverflow offset (t.file.readEnd - t.file.readPos) else some offset).bind
      fun offset => seekTarget t.fd.content.length t.fd.offset offset whence) =
    seekTarget c.content.length c.pos offset whence := by
  cases whence with
  | seekCur => exact h.subOverflow offset
  | seekSet => rfl
  | seekEnd =>
    rw [if_neg (by decide), Option.bind_some, h.content]
    rfl

lemma Mirrors.fseek (h : Mirrors process fdnum mode s t) (hpath : mode &&& oPath = 0) (hreads : Reads t c k)
    {offset : BitVec 64} {whence : Whence} (hin : c.Within (.fseek offset whence))
    (fuel : ℕ) :
    ∃ r s' t', fseek (kernelCalls tmpfsOps stale process fdnum) fuel s offset whence = some (r, s') ∧
      fseek regularCalls fuel t offset whence = some (r, t') ∧ Mirrors process fdnum mode s' t' := by
  have hsought := hreads.sought offset whence
  have hflushed : ¬ (0 : BitVec 32) = eof := by decide
  rw [Stream.fseek, Stream.fseek, h.file, if_neg (not_not.mpr hreads.written), if_neg (not_not.mpr hreads.written),
    Option.map_some, Option.map_some]
  dsimp only
  rw [if_neg hflushed, if_neg hflushed, h.file]
  cases hleft : if whence = .seekCur then subOverflow offset (t.file.readEnd - t.file.readPos) else some offset with
  | none => exact ⟨_, _, _, rfl, rfl, h⟩
  | some left =>
    rw [hleft, Option.bind_some] at hsought
    obtain ⟨k', hseek, hmirrors⟩ := h.lseek stale hpath left whence
      (by rw [hsought, hreads.content]; exact hin)
    dsimp only
    rw [hseek]
    dsimp only
    by_cases hneg : (regularCalls.lseek t.fd left whence).1.slt 0 = true
    · rw [if_pos hneg, if_pos hneg]
      exact ⟨_, _, _, rfl, rfl, rfl, hmirrors.fd⟩
    · rw [if_neg hneg, if_neg hneg]
      exact ⟨_, _, _, rfl, rfl, rfl, hmirrors.fd⟩

lemma Mirrors.ftell (h : Mirrors process fdnum mode s t) (hpath : mode &&& oPath = 0) :
    ∃ r s' t', ftell (kernelCalls tmpfsOps stale process fdnum) s = (r, s') ∧ ftell regularCalls t = (r, t') ∧
      Mirrors process fdnum mode s' t' := by
  have hinside := h.fd.inside
  have hlow := h.fd.fits.low
  rw [h.fd.size] at hlow
  have hstay : seekTarget t.fd.content.length t.fd.offset 0 .seekCur = some t.fd.offset := by
    have hzero : (0 : BitVec 64).toInt = 0 := rfl
    rw [seekTarget, hzero, if_pos (by omega), add_zero, Int.toNat_natCast]
  have hin : ∀ p ∈ seekTarget t.fd.content.length t.fd.offset 0 .seekCur, p ≤ t.fd.content.length := by
    rw [hstay]
    intro p hp
    rwa [← Option.some.inj hp]
  obtain ⟨k', hseek, hmirrors⟩ := h.lseek stale hpath 0 .seekCur hin
  have htell := lseek_some hstay
  rw [htell] at hseek hmirrors
  rw [Stream.ftell, Stream.ftell, hseek, htell]
  dsimp only
  rw [h.file]
  by_cases hneg : (BitVec.ofNat 64 t.fd.offset).slt 0 = true
  · rw [if_pos hneg, if_pos hneg]
    exact ⟨_, _, _, rfl, rfl, rfl, hmirrors.fd⟩
  · rw [if_neg hneg, if_neg hneg]
    exact ⟨_, _, _, rfl, rfl, rfl, hmirrors.fd⟩

lemma Mirrors.call (h : Mirrors process fdnum mode s t) (hmode : mode = oRdonly ∨ mode = oRdwr) (hreads : Reads t c k)
    (hsmall : c.content.length < 2 ^ 62) {call : Call} (hin : c.Within call) (fuel : ℕ) :
    ∃ ans s' t', s.callOn (kernelCalls tmpfsOps stale process fdnum) fuel call = some (ans, s') ∧
      t.call fuel call = some (ans, t') ∧ Mirrors process fdnum mode s' t' := by
  have hpath : mode &&& oPath = 0 := by
    rcases hmode with rfl | rfl <;> decide
  have hcontent : t.fd.content.length < 2 ^ 62 := hreads.content.symm ▸ hsmall
  cases call with
  | fread count =>
    obtain ⟨ans, s', t', hs, ht, hmirrors⟩ := h.fread stale hmode hcontent hin
    exact ⟨_, _, _, by rw [State.callOn, hs], by rw [State.call, ht], hmirrors⟩
  | fgetc =>
    obtain ⟨r, s', t', hs, ht, hmirrors⟩ := h.fgetc stale hmode hcontent
    exact ⟨_, _, _, by rw [State.callOn, hs], by rw [State.call, ht], hmirrors⟩
  | fgets size =>
    obtain ⟨r, s', t', hs, ht, hmirrors⟩ := h.fgetsLoop stale hmode hreads hsmall (size.toInt - 1).toNat
    exact ⟨_, _, _, by rw [State.callOn, fgets, hs], by rw [State.call, fgets, ht], hmirrors⟩
  | fseek offset whence =>
    obtain ⟨r, s', t', hs, ht, hmirrors⟩ := h.fseek stale hpath hreads hin fuel
    exact ⟨_, _, _, by rw [State.callOn, hs, Option.map_some], by rw [State.call, ht, Option.map_some], hmirrors⟩
  | ftell =>
    obtain ⟨r, s', t', hs, ht, hmirrors⟩ := h.ftell stale hpath
    exact ⟨_, _, _, by rw [State.callOn, hs], by rw [State.call, ht], hmirrors⟩

/-- The answers of a stream on the descriptor are those of a cursor on what the file holds. -/
lemma Mirrors.answers (h : Mirrors process fdnum mode s t) (hmode : mode = oRdonly ∨ mode = oRdwr)
    (hreads : Reads t c k)
    (hsmall : c.content.length < 2 ^ 62) {list : List Call} (hin : c.WithinAll list) (fuel : ℕ) :
    s.answersOn (kernelCalls tmpfsOps stale process fdnum) fuel list = some (outputs Cursor.call c list) := by
  induction list generalizing s t c k with
  | nil => rfl
  | cons call list ih =>
    obtain ⟨ans, s', t', hs, ht, hmirrors⟩ := h.call stale hmode hreads hsmall hin.1 fuel
    obtain ⟨t1, k1, ht1, hreads1⟩ := hreads.call fuel call
    obtain ⟨rfl, rfl⟩ := Prod.mk.inj (Option.some.inj (ht.symm.trans ht1))
    have hsame := c.call_content call
    rw [State.answersOn, hs, Option.bind_some, ih hmirrors hreads1 (hsame.symm ▸ hsmall) hin.2]
    rfl

end Reading

/-! ## Writing -/

/-- A descriptor that takes all it is given. -/
def accepting : Calls Unit where
  read _ _ := (none, ())
  write _ b := (BitVec.ofNat 64 (min b.length (2 ^ 62)), ())
  lseek _ _ _ := (0, ())

/-- With `given` taken so far the descriptor is as `K` says, and it takes all that comes up to the limit. -/
structure Takes {σ : Type*} (calls : Calls σ) (K : List Byte → σ → Prop) (limit : ℕ) : Prop where
  write : ∀ given fd b, K given fd → b ≠ [] → given.length + b.length ≤ limit →
    ∃ fd', calls.write fd b = (BitVec.ofNat 64 b.length, fd') ∧ K (given ++ b) fd'
  lseek : ∀ given fd, K given fd → ∃ r fd', calls.lseek fd 0 .seekCur = (r, fd') ∧ r.slt 0 = false ∧ K given fd'
  small : limit ≤ 2 ^ 62

/-- A stream on a descriptor like that and one that goes nowhere, with the same buffer. -/
structure Same {σ : Type*} (K : List Byte → σ → Prop) (s : State σ) (t : State Unit) : Prop where
  file : s.file = t.file
  taken : s.taken = t.taken
  fd : K s.taken s.fd

section Writing
variable {σ : Type*} {calls : Calls σ} {K : List Byte → σ → Prop} {limit fuel : ℕ} {s : State σ} {t : State Unit}

lemma accepting_takes : Takes accepting (fun _ _ => True) (2 ^ 62) where
  write given fd b _ _ hle := by
    refine ⟨(), ?_, trivial⟩
    rw [accepting]
    dsimp only
    rw [min_eq_left (by omega)]
  lseek given fd _ := ⟨0, (), rfl, by decide, trivial⟩
  small := le_rfl

lemma accepting_accepts : Accepts accepting := by
  refine ⟨fun fd b hb => ?_, fun fd => le_rfl⟩
  have hpos := List.length_pos_of_ne_nil hb
  have hnat : (BitVec.ofNat 64 (min b.length (2 ^ 62))).toNat = min b.length (2 ^ 62) := by
    rw [BitVec.toNat_ofNat]
    omega
  have hint : (BitVec.ofNat 64 (min b.length (2 ^ 62))).toInt = min b.length (2 ^ 62) := by
    rw [BitVec.toInt_eq_toNat_of_lt (by omega), hnat]
  rw [accepting, hint]
  omega

/-- One round of the loop is enough. -/
lemma Takes.writeBytesOf (hcalls : Takes calls K limit) (hK : K s.taken s.fd) {b : List Byte}
    (hb : s.taken.length + b.length ≤ limit) :
    ∃ fd, K (s.taken ++ b) fd ∧ ∀ fuel, 2 ≤ fuel →
      writeBytesOf calls fuel s b 0 = some (b.length, { s with fd := fd, taken := s.taken ++ b }) := by
  have hsmall := hcalls.small
  by_cases hnil : b = []
  · refine ⟨s.fd, by rwa [hnil, List.append_nil], fun fuel hf => ?_⟩
    obtain ⟨fuel, rfl⟩ : ∃ m, fuel = m + 1 := ⟨fuel - 1, by omega⟩
    rw [Stream.writeBytesOf, if_pos hnil, hnil, List.append_nil]
    rfl
  · obtain ⟨fd, hwrite, hK'⟩ := hcalls.write s.taken s.fd b hK hnil hb
    have hnat : (BitVec.ofNat 64 b.length).toNat = b.length := by
      rw [BitVec.toNat_ofNat]
      omega
    have hslt := slt_zero_of_lt (p := b.length) (by omega)
    refine ⟨fd, hK', fun fuel hf => ?_⟩
    obtain ⟨fuel, rfl⟩ : ∃ m, fuel = m + 2 := ⟨fuel - 2, by omega⟩
    rw [Stream.writeBytesOf, if_neg hnil, hwrite]
    dsimp only
    rw [hslt, if_neg Bool.false_ne_true, hnat, List.take_length, List.drop_length, Stream.writeBytesOf, if_pos rfl,
      Nat.zero_add]

lemma Same.writeBytesOf (h : Same K s t) (hcalls : Takes calls K limit) {b : List Byte}
    (hb : s.taken.length + b.length ≤ limit) :
    ∃ s' t', (∀ fuel, 2 ≤ fuel → writeBytesOf calls fuel s b 0 = some (b.length, s')) ∧
      (∀ fuel, 2 ≤ fuel → writeBytesOf accepting fuel t b 0 = some (b.length, t')) ∧ Same K s' t' ∧
      s'.file = s.file ∧ s'.taken = s.taken ++ b := by
  obtain ⟨fd, hK, hs⟩ := hcalls.writeBytesOf h.fd hb
  obtain ⟨fd', -, ht⟩ := accepting_takes.writeBytesOf (s := t) trivial (b := b)
    (by rw [← h.taken]; exact hb.trans hcalls.small)
  refine ⟨_, _, hs, ht, ⟨h.file, ?_, hK⟩, rfl, rfl⟩
  dsimp only
  rw [h.taken]

lemma Same.setWritePos (h : Same K s t) (writePos : BitVec 64) :
    Same K (s.setWritePos writePos) (t.setWritePos writePos) := by
  refine ⟨?_, h.taken, h.fd⟩
  rw [State.setWritePos, State.setWritePos, h.file]

lemma Same.setBuf (h : Same K s t) (buf : Memory) : Same K (s.setBuf buf) (t.setBuf buf) := by
  refine ⟨?_, h.taken, h.fd⟩
  rw [State.setBuf, State.setBuf, h.file]

lemma Same.keepRest (h : Same K s t) (p : Memory) (bytes written : ℕ) :
    Same K (keepRest s p bytes written) (keepRest t p bytes written) := by
  rw [Stream.keepRest, Stream.keepRest, h.file]
  exact (h.setBuf _).setWritePos _

/-- The buffer is written out if the bytes do not fit. -/
lemma Same.makeRoom (h : Same K s t) (hcalls : Takes calls K limit) (full : Prop) [Decidable full]
    (hroom : s.taken.length + s.file.writePos.toNat ≤ limit) :
    ∃ s' t', (∀ fuel, 2 ≤ fuel → (if full then
        (Stream.writeBytesOf calls fuel s (readBytes s.file.buf 0 s.file.writePos.toNat) 0).map fun r =>
          (decide (r.1 < s.file.writePos.toNat), r.2.setWritePos 0)
      else some (false, s)) = some (false, s')) ∧
      (∀ fuel, 2 ≤ fuel → (if full then
        (Stream.writeBytesOf accepting fuel t (readBytes t.file.buf 0 t.file.writePos.toNat) 0).map fun r =>
          (decide (r.1 < t.file.writePos.toNat), r.2.setWritePos 0)
      else some (false, t)) = some (false, t')) ∧ Same K s' t' ∧
      s'.taken.length + s'.file.writePos.toNat = s.taken.length + s.file.writePos.toNat := by
  by_cases hfull : full
  · have hlen := length_readBytes t.file.buf 0 t.file.writePos.toNat
    rw [h.file] at hroom
    obtain ⟨s', t', hs, ht, hsame, -, htaken⟩ :=
      h.writeBytesOf hcalls (b := readBytes t.file.buf 0 t.file.writePos.toNat) (by rw [hlen]; exact hroom)
    rw [hlen] at hs ht
    refine ⟨s'.setWritePos 0, t'.setWritePos 0, fun fuel hf => ?_, fun fuel hf => ?_, hsame.setWritePos 0, ?_⟩
    · rw [if_pos hfull, h.file, hs fuel hf, Option.map_some, decide_eq_false (lt_irrefl _)]
    · rw [if_pos hfull, ht fuel hf, Option.map_some, decide_eq_false (lt_irrefl _)]
    · rw [State.setWritePos]
      dsimp only
      rw [htaken, List.length_append, hlen, h.file]
      rfl
  · exact ⟨_, _, fun fuel _ => if_neg hfull, fun fuel _ => if_neg hfull, h, rfl⟩

/-- What `fwrite` does once there is room in the buffer. -/
def fwriteRest {σ : Type*} (calls : Calls σ) (fuel : ℕ) (s : State σ) (p : Memory) (size count bytes : BitVec 64) :
    Option (BitVec 64 × State σ) :=
  if bytes > bufsiz then
    (Stream.writeBytesOf calls fuel s (readBytes p 0 bytes.toNat) 0).map fun r => (BitVec.ofNat 64 r.1 / size, r.2)
  else
    let i := upToNewline p bytes.toNat
    if s.file.flags &&& fileFlagTty ≠ 0 ∧ 0 < i then
      let s := s.setBuf (blit s.file.buf s.file.writePos.toNat p i)
      (Stream.writeBytesOf calls fuel s (readBytes s.file.buf 0 (s.file.writePos.toNat + i)) 0).map fun r =>
        if r.1 < s.file.writePos.toNat + i then
          (BitVec.ofNat 64 (r.1 - s.file.writePos.toNat) / size, r.2.setWritePos 0)
        else (count, Stream.keepRest (r.2.setWritePos 0) p bytes.toNat i)
    else some (count, Stream.keepRest s p bytes.toNat 0)

lemma fwrite_rest {σ : Type*} {calls : Calls σ} {s s1 : State σ} {p : Memory} {size count bytes : BitVec 64}
    (hbytes : size * count = bytes) (h0 : bytes ≠ 0) (hbuf : s.file.flags &&& fileFlagBuffered ≠ 0)
    (hmake : (if bytes > bufsiz - s.file.writePos then
        (Stream.writeBytesOf calls fuel s (readBytes s.file.buf 0 s.file.writePos.toNat) 0).map fun r =>
          (decide (r.1 < s.file.writePos.toNat), r.2.setWritePos 0)
      else some (false, s)) = some (false, s1)) :
    Stream.fwrite calls fuel s p size count = fwriteRest calls fuel s1 p size count bytes := by
  rw [Stream.fwrite, hbytes]
  dsimp only
  rw [if_neg h0, if_neg hbuf, hmake, Option.bind_some]
  rfl

lemma Same.fwriteRest (h : Same K s t) (hcalls : Takes calls K limit) (p : Memory) (size count : BitVec 64)
    {bytes : BitVec 64}
    (hroom : s.taken.length + s.file.writePos.toNat + bytes.toNat ≤ limit) :
    ∃ r s' t', (∀ fuel, 2 ≤ fuel → fwriteRest calls fuel s p size count bytes = some (r, s')) ∧
      (∀ fuel, 2 ≤ fuel → fwriteRest accepting fuel t p size count bytes = some (r, t')) ∧ Same K s' t' := by
  have hle := upToNewline_le p bytes.toNat
  have hfile := h.file
  by_cases hlarge : bytes > bufsiz
  · have hlen := length_readBytes p 0 bytes.toNat
    obtain ⟨s', t', hs, ht, hsame, -⟩ := h.writeBytesOf hcalls (b := readBytes p 0 bytes.toNat) (by omega)
    refine ⟨BitVec.ofNat 64 (readBytes p 0 bytes.toNat).length / size, s', t', fun fuel hf => ?_, fun fuel hf => ?_,
      hsame⟩
    · rw [Stream.fwriteRest, if_pos hlarge, hs fuel hf, Option.map_some]
    · rw [Stream.fwriteRest, if_pos hlarge, ht fuel hf, Option.map_some]
  by_cases hline : t.file.flags &&& fileFlagTty ≠ 0 ∧ 0 < upToNewline p bytes.toNat
  · have hbuf := h.setBuf (blit t.file.buf t.file.writePos.toNat p (upToNewline p bytes.toNat))
    have hlen := length_readBytes (blit t.file.buf t.file.writePos.toNat p (upToNewline p bytes.toNat)) 0
      (t.file.writePos.toNat + upToNewline p bytes.toNat)
    rw [hfile] at hroom
    obtain ⟨s', t', hs, ht, hsame, -⟩ := hbuf.writeBytesOf hcalls
      (b := readBytes (blit t.file.buf t.file.writePos.toNat p (upToNewline p bytes.toNat)) 0
        (t.file.writePos.toNat + upToNewline p bytes.toNat))
      (by rw [hlen]; change s.taken.length + _ ≤ limit; omega)
    rw [hlen] at hs ht
    refine ⟨count, _, _, fun fuel hf => ?_, fun fuel hf => ?_,
      (hsame.setWritePos 0).keepRest p bytes.toNat (upToNewline p bytes.toNat)⟩
    · rw [Stream.fwriteRest, if_neg hlarge, hfile]
      dsimp only
      rw [if_pos hline]
      have hs := hs fuel hf
      rw [State.setBuf] at hs ⊢
      dsimp only
      rw [hfile] at hs ⊢
      rw [hs, Option.map_some, if_neg (lt_irrefl _)]
    · rw [Stream.fwriteRest, if_neg hlarge]
      dsimp only
      rw [if_pos hline]
      have ht := ht fuel hf
      rw [State.setBuf] at ht ⊢
      dsimp only
      rw [ht, Option.map_some, if_neg (lt_irrefl _)]
  · refine ⟨count, _, _, fun fuel _ => ?_, fun fuel _ => ?_, h.keepRest p bytes.toNat 0⟩
    · rw [Stream.fwriteRest, if_neg hlarge, hfile]
      exact if_neg hline
    · rw [Stream.fwriteRest, if_neg hlarge]
      exact if_neg hline

lemma Same.fwrite (h : Same K s t) (hcalls : Takes calls K limit) (p : Memory) (size count : BitVec 64)
    (hroom : s.taken.length + s.file.writePos.toNat + (size * count).toNat ≤ limit) :
    ∃ r s' t', (∀ fuel, 2 ≤ fuel → fwrite calls fuel s p size count = some (r, s')) ∧
      (∀ fuel, 2 ≤ fuel → fwrite accepting fuel t p size count = some (r, t')) ∧ Same K s' t' := by
  obtain ⟨bytes, hbytes⟩ : ∃ bytes, size * count = bytes := ⟨_, rfl⟩
  have hfile := h.file
  rw [hbytes] at hroom
  by_cases h0 : bytes = 0
  · refine ⟨0, s, t, fun fuel _ => ?_, fun fuel _ => ?_, h⟩
    · rw [Stream.fwrite, hbytes]
      exact if_pos h0
    · rw [Stream.fwrite, hbytes]
      exact if_pos h0
  by_cases hbuf : t.file.flags &&& fileFlagBuffered = 0
  · have hlen := length_readBytes p 0 bytes.toNat
    obtain ⟨s', t', hs, ht, hsame, -⟩ := h.writeBytesOf hcalls (b := readBytes p 0 bytes.toNat) (by omega)
    refine ⟨BitVec.ofNat 64 (readBytes p 0 bytes.toNat).length / size, s', t', fun fuel hf => ?_, fun fuel hf => ?_,
      hsame⟩
    · rw [Stream.fwrite, hbytes]
      dsimp only
      rw [if_neg h0, hfile, if_pos hbuf, hs fuel hf, Option.map_some]
    · rw [Stream.fwrite, hbytes]
      dsimp only
      rw [if_neg h0, if_pos hbuf, ht fuel hf, Option.map_some]
  obtain ⟨s1, t1, hs, ht, h1, htotal⟩ := h.makeRoom hcalls (bytes > bufsiz - t.file.writePos) (by omega)
  have hroom1 : s1.taken.length + s1.file.writePos.toNat + bytes.toNat ≤ limit := by omega
  obtain ⟨r, s', t', hs', ht', hsame⟩ := h1.fwriteRest hcalls p size count hroom1
  refine ⟨r, s', t', fun fuel hf => ?_, fun fuel hf => ?_, hsame⟩
  · have hs := hs fuel hf
    rw [← hfile] at hs hbuf
    rw [fwrite_rest hbytes h0 hbuf hs, hs' fuel hf]
  · rw [fwrite_rest hbytes h0 hbuf (ht fuel hf), ht' fuel hf]

/-- A stream that has nothing to read asks for its offset and writes its buffer out. -/
lemma fflush_rest {σ : Type*} {calls : Calls σ} {s : State σ} {r : BitVec 64} {fd : σ}
    (hpos : s.file.readPos = ungetBytes) (hend : s.file.readEnd = ungetBytes)
    (hseek : calls.lseek s.fd 0 .seekCur = (r, fd)) (hr : r.slt 0 = false) :
    Stream.fflush calls fuel s =
      if s.file.writePos ≠ 0 then
        (Stream.writeBytesOf calls fuel { s with fd := fd } (readBytes s.file.buf 0 s.file.writePos.toNat) 0).map
          fun r => (if r.1 < s.file.writePos.toNat then eof else 0, r.2.setWritePos 0)
      else some (0, { s with fd := fd }) := by
  have hne : ungetBytes ≠ 0 := by decide
  have hlt : ¬ ungetBytes < ungetBytes := by decide
  have hoffset : -(ungetBytes - ungetBytes) = 0 := by decide
  obtain ⟨⟨flags, buf, readPos, readEnd, writePos⟩, fd0, taken⟩ := s
  dsimp only at hpos hend hseek
  subst hpos hend
  rw [Stream.fflush]
  dsimp only
  rw [if_pos hne, if_neg hlt, hoffset, hseek]
  dsimp only
  rw [hr, if_neg Bool.false_ne_true]
  rfl

lemma Same.fflush (h : Same K s t) (hcalls : Takes calls K limit) (hpos : t.file.readPos = ungetBytes)
    (hend : t.file.readEnd = ungetBytes) (hroom : s.taken.length + s.file.writePos.toNat ≤ limit) :
    ∃ r s' t', (∀ fuel, 2 ≤ fuel → fflush calls fuel s = some (r, s')) ∧
      (∀ fuel, 2 ≤ fuel → fflush accepting fuel t = some (r, t')) ∧ Same K s' t' := by
  have hfile := h.file
  obtain ⟨r, fd, hseek, hr, hK⟩ := hcalls.lseek s.taken s.fd h.fd
  obtain ⟨r', fd', hseek', hr', -⟩ := accepting_takes.lseek t.taken t.fd trivial
  have hs : ∀ fuel, Stream.fflush calls fuel s = _ :=
    fun fuel => fflush_rest (by rw [hfile, hpos]) (by rw [hfile, hend]) hseek hr
  have ht : ∀ fuel, Stream.fflush accepting fuel t = _ := fun fuel => fflush_rest hpos hend hseek' hr'
  have hsought : Same K { file := t.file, fd := fd, taken := s.taken } { t with fd := fd' } := ⟨rfl, h.taken, hK⟩
  rw [hfile] at hs hroom
  by_cases hfull : t.file.writePos ≠ 0
  · have hlen := length_readBytes t.file.buf 0 t.file.writePos.toNat
    obtain ⟨s', t', hs', ht', hsame, -⟩ := hsought.writeBytesOf hcalls
      (b := readBytes t.file.buf 0 t.file.writePos.toNat) (by rw [hlen]; exact hroom)
    rw [hlen] at hs' ht'
    refine ⟨0, s'.setWritePos 0, t'.setWritePos 0, fun fuel hf => ?_, fun fuel hf => ?_, hsame.setWritePos 0⟩
    · rw [hs, if_pos hfull, hs' fuel hf, Option.map_some, if_neg (lt_irrefl _)]
    · rw [ht, if_pos hfull, ht' fuel hf, Option.map_some, if_neg (lt_irrefl _)]
  · exact ⟨0, _, _, fun fuel _ => by rw [hs, if_neg hfull], fun fuel _ => by rw [ht, if_neg hfull], hsought⟩

lemma Same.writeCall (h : Same K s t) (hcalls : Takes calls K limit) {given : List Byte} (hw : Writes t given)
    {call : WriteCall} (hv : call.Valid) (hroom : given.length + call.given.length ≤ limit) :
    ∃ ans s' t', (∀ fuel, 2 ≤ fuel → s.writeCall calls fuel call = some (ans, s')) ∧
      (∀ fuel, 2 ≤ fuel → t.writeCall accepting fuel call = some (ans, t')) ∧ Same K s' t' := by
  have htotal : s.taken.length + s.file.writePos.toNat = given.length := by
    rw [← hw.bytes, List.length_append, State.pending, length_readBytes, h.taken, h.file]
  cases call with
  | fwrite p size count =>
    obtain ⟨-, -, hfit⟩ := hv
    rw [WriteCall.given, length_readBytes] at hroom
    obtain ⟨r, s', t', hs, ht, hsame⟩ := h.fwrite hcalls p size count
      (by rw [htotal, BitVec.toNat_mul, Nat.mod_eq_of_lt hfit]; exact hroom)
    exact ⟨.count r, s', t', fun fuel hf => by rw [State.writeCall, hs fuel hf, Option.map_some],
      fun fuel hf => by rw [State.writeCall, ht fuel hf, Option.map_some], hsame⟩
  | fputc c =>
    have hone : ((1 : BitVec 64) * 1).toNat = 1 := rfl
    obtain ⟨r, s', t', hs, ht, hsame⟩ := h.fwrite hcalls (fun _ => c.setWidth 8) 1 1
      (by rw [htotal, hone]; exact hroom)
    exact ⟨.status (if r ≠ 1 then eof else c), s', t',
      fun fuel hf => by rw [State.writeCall, fputc, hs fuel hf, Option.map_some, Option.map_some],
      fun fuel hf => by rw [State.writeCall, fputc, ht fuel hf, Option.map_some, Option.map_some], hsame⟩
  | fputs str =>
    have hlen : ((1 : BitVec 64) * BitVec.ofNat 64 str.1.length).toNat = str.1.length := by
      have hone : (1 : BitVec 64) * BitVec.ofNat 64 str.1.length = BitVec.ofNat 64 str.1.length := BitVec.one_mul _
      rw [hone, BitVec.toNat_ofNat, Nat.mod_eq_of_lt hv]
    obtain ⟨r, s', t', hs, ht, hsame⟩ := h.fwrite hcalls (fun k => str.1.getD k 0) 1
      (BitVec.ofNat 64 str.1.length) (by rw [htotal, hlen]; exact hroom)
    exact ⟨.status (if r ≠ BitVec.ofNat 64 str.1.length then eof else 0), s', t',
      fun fuel hf => by rw [State.writeCall, fputs, hs fuel hf, Option.map_some, Option.map_some],
      fun fuel hf => by rw [State.writeCall, fputs, ht fuel hf, Option.map_some, Option.map_some], hsame⟩
  | fflush =>
    obtain ⟨r, s', t', hs, ht, hsame⟩ := h.fflush hcalls hw.readPos hw.readEnd
      (htotal.trans_le ((Nat.le_add_right _ _).trans hroom))
    exact ⟨.status r, s', t', fun fuel hf => by rw [State.writeCall, hs fuel hf, Option.map_some],
      fun fuel hf => by rw [State.writeCall, ht fuel hf, Option.map_some], hsame⟩

/-- Whole runs go alike, and all that is left in the buffer is what the calls were given last. -/
lemma Same.run (h : Same K s t) (hcalls : Takes calls K limit) {given : List Byte} (hw : Writes t given)
    {list : List WriteCall} (hv : ∀ call ∈ list, call.Valid)
    (hroom : given.length + (list.flatMap WriteCall.given).length ≤ limit) :
    ∃ s' t', (∀ fuel, 2 ≤ fuel → s.writeCalls calls fuel list = some (list.map WriteCall.success, s')) ∧
      (∀ fuel, 2 ≤ fuel → t.writeCalls accepting fuel list = some (list.map WriteCall.success, t')) ∧
      Same K s' t' ∧ Writes t' (given ++ list.flatMap WriteCall.given) ∧
      (list.getLast? = some .fflush → t'.file.writePos = 0) := by
  induction list generalizing s t given with
  | nil => exact ⟨s, t, fun _ _ => rfl, fun _ _ => rfl, h, by simpa using hw, fun hc => by cases hc⟩
  | cons call list ih =>
    rw [List.forall_mem_cons] at hv
    rw [List.flatMap_cons, List.length_append] at hroom
    obtain ⟨ans, s1, t1, hs, ht, h1⟩ := h.writeCall hcalls hw hv.1 (by omega)
    obtain ⟨t1', hev, hw1, hflush1⟩ := hw.call accepting_accepts hv.1
    obtain ⟨fuel, hf, hfuel⟩ := (hev.and (eventually_ge_atTop 2)).exists
    obtain ⟨rfl, rfl⟩ := Prod.mk.inj (Option.some.inj ((ht fuel hfuel).symm.trans hf))
    obtain ⟨s2, t2, hs2, ht2, h2, hw2, hflush2⟩ := ih h1 hw1 hv.2 (by rw [List.length_append]; omega)
    refine ⟨s2, t2, fun fuel hf => ?_, fun fuel hf => ?_, h2, by rwa [List.flatMap_cons, ← List.append_assoc],
      fun hlast => ?_⟩
    · rw [State.writeCalls, hs fuel hf, Option.bind_some, hs2 fuel hf]
      rfl
    · rw [State.writeCalls, ht fuel hf, Option.bind_some, ht2 fuel hf]
      rfl
    · cases list with
      | nil =>
        have hsame : t2 = t1 := (congrArg Prod.snd (Option.some.inj (ht2 2 le_rfl))).symm
        rw [hsame]
        exact hflush1 (Option.some.inj hlast)
      | cons next list =>
        rw [List.getLast?_cons_cons] at hlast
        exact hflush2 hlast

end Writing

/-! ## From one stream to another -/

section Files
variable {k : Files TmpFile} {process : ℕ} {fdnum : Fin maxFds} {mode : BitVec 32} {content : List Byte}

/-- A descriptor whose offset is at the end takes what is written, up to the length that a file may have. -/
lemma kernelCalls_takes (pages : Files TmpFile → Memory) (hmode : mode = oWronly ∨ mode = oRdwr) :
    Takes (kernelCalls tmpfsOps pages process fdnum)
      (fun given k => At process fdnum mode (content ++ given) (content ++ given).length k)
      (2 ^ 62 - 1 - content.length) where
  write given k b hat hb hle := by
    have hpos := List.length_pos_of_ne_nil hb
    obtain ⟨k', hwrite, hat'⟩ := hat.write pages hmode (b := b) (by rw [List.length_append]; omega)
    rw [List.append_assoc] at hat'
    exact ⟨k', hwrite, hat'⟩
  lseek given k hat := by
    have hpath : mode &&& oPath = 0 := by
      rcases hmode with rfl | rfl <;> decide
    have hlow := hat.fits.low
    rw [hat.size] at hlow
    have hstay : seekTarget (content ++ given).length (content ++ given).length 0 .seekCur =
        some (content ++ given).length := by
      have hzero : (0 : BitVec 64).toInt = 0 := rfl
      rw [seekTarget, hzero, if_pos (by omega), add_zero, Int.toNat_natCast]
    obtain ⟨k', hseek, hat'⟩ := hat.seek pages hpath 0 .seekCur (by
      rw [hstay]
      intro p hp
      rw [← Option.some.inj hp])
    rw [hstay] at hseek hat'
    exact ⟨_, k', hseek, slt_zero_of_lt hlow, hat'⟩
  small := by omega

/-- `open` for reading puts the new descriptor at the beginning. -/
lemma at_opened {reader : ℕ} {j : Fin maxFds} {pages : Memory} {k' : Files TmpFile}
    (hat : At process fdnum mode content content.length k)
    (hopen : FileCalls.syscallOpen tmpfsOps k reader oRdonly pages = some (.ret j.val, k')) :
    At reader j oRdonly content 0 k' := by
  have hcreat : ¬ (oRdonly &&& FileCalls.oCreat ≠ 0 ∧ oRdonly &&& FileCalls.oExcl ≠ 0) := by decide
  have hdir : ¬ oRdonly &&& FileCalls.oDirectory ≠ 0 := by decide
  have htrunc : ¬ oRdonly &&& FileCalls.oTrunc ≠ 0 := by decide
  rw [FileCalls.syscallOpen, if_neg hcreat, if_neg hdir, if_neg htrunc, Option.map_some] at hopen
  cases hfree : (List.finRange maxFds).find? fun i => (k.tables reader i).isNone with
  | none =>
    rw [hfree] at hopen
    have hneg : -FileCalls.emfile = (j.val : ℤ) := FileCalls.Answer.ret.inj (Prod.mk.inj (Option.some.inj hopen)).1
    exact absurd hneg (by rw [FileCalls.emfile]; omega)
  | some i =>
    rw [hfree] at hopen
    obtain ⟨hnumber, rfl⟩ := Prod.mk.inj (Option.some.inj hopen)
    obtain rfl : i = j := Fin.ext (Int.ofNat.inj (FileCalls.Answer.ret.inj hnumber))
    have hmask : oRdonly &&& FileCalls.fileFlagsMask &&& FileCalls.oAccmode = oRdonly := by decide
    refine ⟨hat.fits, hat.holds, ⟨⟨0, oRdonly &&& FileCalls.fileFlagsMask, 1,
      if oRdonly &&& FileCalls.oAppend ≠ 0 then tmpfsOps.size k.file else 0⟩, ?_, hmask, ?_⟩, Nat.zero_le _⟩
    · rw [FileCalls.Files.setTable_tables, Function.update_self, Function.update_self]
    · have happend : ¬ oRdonly &&& FileCalls.oAppend ≠ 0 := by decide
      dsimp only
      rw [if_neg happend]
      rfl

/-- All that a program writes to a file through a stream is in the file once the stream is flushed, and a program that
opens the file reads it through a stream of its own, whatever the calls on both sides and the sizes of the buffers. -/
theorem written_is_read (hat : At process fdnum mode content content.length k) (hmode : mode = oWronly ∨ mode = oRdwr)
    (pages : Files TmpFile → Memory) (flags : BitVec 32) (buf : Memory) (list : List WriteCall)
    (hv : ∀ call ∈ list, call.Valid) (hflush : list.getLast? = some .fflush)
    (hsmall : (content ++ list.flatMap WriteCall.given).length < 2 ^ 62) :
    ∃ s, (∀ fuel, 2 ≤ fuel → (fresh flags buf k).writeCalls (kernelCalls tmpfsOps pages process fdnum) fuel list =
        some (list.map WriteCall.success, s)) ∧
      contents s.fd = content ++ list.flatMap WriteCall.given ∧
      ∀ (reader : ℕ) (j : Fin maxFds) (k' : Files TmpFile) (page buf' : Memory) (fuel : ℕ) (calls : List Call),
        FileCalls.syscallOpen tmpfsOps s.fd reader oRdonly page = some (.ret j.val, k') →
        (Cursor.mk (content ++ list.flatMap WriteCall.given) 0).WithinAll calls →
        (fdopen buf' k').answersOn (kernelCalls tmpfsOps pages reader j) fuel calls =
          some (outputs Cursor.call ⟨content ++ list.flatMap WriteCall.given, 0⟩ calls) := by
  have htakes : Takes (kernelCalls tmpfsOps pages process fdnum)
      (fun given k => At process fdnum mode (content ++ given) (content ++ given).length k)
      (2 ^ 62 - 1 - content.length) := kernelCalls_takes pages hmode
  have hsame : Same (fun given k => At process fdnum mode (content ++ given) (content ++ given).length k)
      (fresh flags buf k) (fresh flags buf ()) := by
    refine ⟨rfl, rfl, ?_⟩
    change At process fdnum mode (content ++ []) (content ++ []).length k
    rwa [List.append_nil]
  have hstart : Writes (fresh flags buf ()) [] := ⟨rfl, Nat.zero_le _, rfl, rfl, fun _ => rfl⟩
  rw [List.length_append] at hsmall
  obtain ⟨s, t, hs, -, hsame, hwrites, hempty⟩ := hsame.run htakes hstart hv (by rw [List.length_nil]; omega)
  have htaken : s.taken = list.flatMap WriteCall.given := by
    have hbytes := hwrites.bytes
    rw [State.pending, hempty hflush, ← hsame.taken] at hbytes
    exact (List.append_nil _).symm.trans hbytes
  have hend := hsame.fd
  rw [htaken] at hend
  refine ⟨s, hs, hend.holds, fun reader j k' page buf' fuel calls hopen hwithin => ?_⟩
  have hread := at_opened hend hopen
  have hmirrors : Mirrors reader j oRdonly (fdopen buf' k')
      (fdopen buf' (RegularFile.mk (content ++ list.flatMap WriteCall.given) 0)) := ⟨rfl, hread⟩
  have hflags : fileFlagBuffered &&& fileFlagEof = 0 := by decide
  have hbuf : fileFlagBuffered &&& fileFlagBuffered ≠ 0 := by decide
  have hlen : (content ++ list.flatMap WriteCall.given).length < 2 ^ 62 := by
    rw [List.length_append]
    exact hsmall
  have hreads : Reads (fdopen buf' (RegularFile.mk (content ++ list.flatMap WriteCall.given) 0)) 
      ⟨content ++ list.flatMap WriteCall.given, 0⟩ 0 :=
    .empty rfl rfl rfl rfl (fun he => absurd hflags he) hbuf rfl (hlen.trans (by norm_num)) (by norm_num)
  exact hmirrors.answers pages (Or.inl rfl) hreads hlen hwithin fuel

end Files

/-- The first process has a new file open for writing. -/
def writing : Files TmpFile :=
  ⟨tmpfsCreate fun _ => 9, fun process i => if process = 1 ∧ i = FileCalls.fd0 then some ⟨0, oWronly, 1, 0⟩ else none⟩

theorem written_is_read_line : ∃ s, (∀ fuel, 2 ≤ fuel →
      (fresh fileFlagBuffered (fun _ => 0) writing).writeCalls (kernelCalls tmpfsOps (fun _ _ => 9) 1 FileCalls.fd0)
        fuel [.fputc 104, .fputc 10, .fflush] = some ([.status 104, .status 10, .status 0], s)) ∧
    contents s.fd = [104, 10] := by
  have hat : At 1 FileCalls.fd0 oWronly [] [].length writing :=
    ⟨tmpfsCreate_fits _, rfl, ⟨⟨0, oWronly, 1, 0⟩, rfl, by decide, rfl⟩, le_rfl⟩
  obtain ⟨s, hs, hcontents, -⟩ := written_is_read hat (Or.inl rfl) (fun _ _ => 9) fileFlagBuffered (fun _ => 0)
    [.fputc 104, .fputc 10, .fflush] (by simp [WriteCall.Valid]) rfl (by decide)
  exact ⟨s, hs, hcontents⟩

end PiggyOs.Stream
