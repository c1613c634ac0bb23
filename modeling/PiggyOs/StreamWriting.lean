import Mathlib.Order.Filter.AtTopBot.Basic
import PiggyOs.Stream

/-! Writing through the buffer of a stream. What `write` has taken, followed by what is in the buffer, is what the
calls were given. -/
namespace PiggyOs.Stream
open ByteMemory Filter

inductive WriteCall
  | fwrite (p : Memory) (size count : BitVec 64)
  | fputc (c : BitVec 32)
  | fputs (str : CString)
  | fflush

/-- The bytes that a call is given. -/
def WriteCall.given : WriteCall → List Byte
  | .fwrite p size count => readBytes p 0 (size.toNat * count.toNat)
  | .fputc c => [c.setWidth 8]
  | .fputs str => str.1
  | .fflush => []

inductive WriteAnswer
  | count (n : BitVec 64)
  | status (r : BitVec 32)
  deriving DecidableEq, Repr

/-- What a call returns that does all it is asked for. -/
def WriteCall.success : WriteCall → WriteAnswer
  | .fwrite _ _ count => .count count
  | .fputc c => .status c
  | .fputs _ => .status 0
  | .fflush => .status 0

def WriteCall.Valid : WriteCall → Prop
  | .fwrite _ size count => 1 ≤ size.toNat ∧ 1 ≤ count.toNat ∧ size.toNat * count.toNat < 2 ^ 64
  | .fputs str => str.1.length < 2 ^ 64
  | _ => True

/-- `write` takes some of what it is given, and the offset can be asked for. -/
structure Accepts {σ : Type*} (calls : Calls σ) : Prop where
  write : ∀ fd b, b ≠ [] → 1 ≤ (calls.write fd b).1.toInt ∧ (calls.write fd b).1.toInt ≤ b.length
  lseek : ∀ fd, 0 ≤ (calls.lseek fd 0 .seekCur).1.toInt

/-- A stream whose buffer is empty. -/
def fresh {σ : Type*} (flags : BitVec 32) (stale : Memory) (fd : σ) : State σ :=
  { fdopen stale fd with file := { (fdopen stale fd).file with flags := flags } }

section Writing
variable {σ : Type*} {calls : Calls σ} {s s' : State σ} {given : List Byte} {fuel : ℕ}

def State.writeCall (calls : Calls σ) (fuel : ℕ) (s : State σ) : WriteCall → Option (WriteAnswer × State σ)
  | .fwrite p size count => (fwrite calls fuel s p size count).map fun r => (.count r.1, r.2)
  | .fputc c => (fputc calls fuel s c).map fun r => (.status r.1, r.2)
  | .fputs str => (fputs calls fuel s str).map fun r => (.status r.1, r.2)
  | .fflush => (fflush calls fuel s).map fun r => (.status r.1, r.2)

def State.writeCalls (calls : Calls σ) (fuel : ℕ) : State σ → List WriteCall → Option (List WriteAnswer × State σ)
  | s, [] => some ([], s)
  | s, call :: rest => (s.writeCall calls fuel call).bind fun r =>
      (State.writeCalls calls fuel r.2 rest).map fun q => (r.1 :: q.1, q.2)

/-- The bytes in the buffer that have not been written. -/
def State.pending (s : State σ) : List Byte := readBytes s.file.buf 0 s.file.writePos.toNat

structure Writes (s : State σ) (given : List Byte) : Prop where
  bytes : s.taken ++ s.pending = given
  room : s.file.writePos.toNat ≤ 4096
  readPos : s.file.readPos = ungetBytes
  readEnd : s.file.readEnd = ungetBytes
  unbuffered : s.file.flags &&& fileFlagBuffered = 0 → s.file.writePos = 0

/-- The result of `write` as a number of bytes. -/
lemma Accepts.taken (hcalls : Accepts calls) (fd : σ) {b : List Byte} (hb : b ≠ []) :
    (calls.write fd b).1.slt 0 = false ∧ 1 ≤ (calls.write fd b).1.toNat ∧ (calls.write fd b).1.toNat ≤ b.length := by
  obtain ⟨hone, hle⟩ := hcalls.write fd b hb
  have hzero : (0 : BitVec 64).toInt = 0 := rfl
  have hnat : ((calls.write fd b).1.toNat : ℤ) = (calls.write fd b).1.toInt := by
    rw [BitVec.toInt_eq_toNat_cond] at hone ⊢
    split_ifs at hone ⊢
    · rfl
    · have := (calls.write fd b).1.isLt
      omega
  refine ⟨?_, by omega, by omega⟩
  rw [BitVec.slt, hzero]
  exact decide_eq_false (by omega)

/-- The loop goes on until everything has been taken. -/
lemma writeBytesOf_all (hcalls : Accepts calls) (s : State σ) (b : List Byte) (written : ℕ) :
    ∃ fd, ∀ fuel, b.length < fuel → writeBytesOf calls fuel s b written =
      some (written + b.length, { s with fd := fd, taken := s.taken ++ b }) := by
  obtain ⟨n, hn⟩ : ∃ n, b.length ≤ n := ⟨_, le_rfl⟩
  induction n generalizing s b written with
  | zero =>
    obtain rfl : b = [] := List.length_eq_zero_iff.mp (by omega)
    refine ⟨s.fd, fun fuel hf => ?_⟩
    obtain ⟨fuel, rfl⟩ := Nat.exists_eq_succ_of_ne_zero hf.ne'
    rw [writeBytesOf, if_pos rfl, List.append_nil]
    rfl
  | succ n ih =>
    by_cases hb : b = []
    · exact ih s b written (by rw [hb]; exact Nat.zero_le n)
    obtain ⟨hslt, hone, hle⟩ := hcalls.taken s.fd hb
    obtain ⟨k, hk⟩ : ∃ k, (calls.write s.fd b).1.toNat = k := ⟨_, rfl⟩
    rw [hk] at hone hle
    obtain ⟨fd, hrest⟩ := ih { s with fd := (calls.write s.fd b).2, taken := s.taken ++ b.take k } (b.drop k) (written + k)
      (by rw [List.length_drop]; omega)
    refine ⟨fd, fun fuel hf => ?_⟩
    obtain ⟨fuel, rfl⟩ : ∃ m, fuel = m + 1 := ⟨fuel - 1, by omega⟩
    have hsum : written + k + (b.length - k) = written + b.length := by omega
    rw [writeBytesOf, if_neg hb]
    dsimp only
    rw [hslt, if_neg Bool.false_ne_true, hk, hrest fuel (by rw [List.length_drop]; omega), List.length_drop, hsum]
    dsimp only
    rw [List.append_assoc, List.take_append_drop]

lemma readBytes_append (m : Memory) (a n k : ℕ) : readBytes m a (n + k) = readBytes m a n ++ readBytes m (a + n) k := by
  rw [readBytes, List.range_add, List.map_append, List.map_map]
  refine congrArg _ (List.map_congr_left fun i _ => ?_)
  rw [Function.comp_apply, Nat.add_assoc]

lemma readBytes_blit_behind (m src : Memory) (n k : ℕ) :
    readBytes (blit m n src k) 0 (n + k) = readBytes m 0 n ++ readBytes src 0 k := by
  rw [readBytes_append, Nat.zero_add]
  congr 1
  · exact readBytes_congr fun i hi => blit_outside m src (by omega)
  · refine readBytes_congr fun i hi => ?_
    rw [blit_inside m src hi, Nat.zero_add]

lemma readBytes_shift (p : Memory) (i n : ℕ) : readBytes (fun k => p (i + k)) 0 n = readBytes p i n :=
  readBytes_congr (m := p) fun k _ => by rw [Nat.zero_add]

/-- The rest of the bytes goes into the buffer. -/
lemma Writes.keepRest (h : Writes s given) (p : Memory) (bytes written : ℕ)
    (hbuf : s.file.flags &&& fileFlagBuffered ≠ 0) (hroom : s.file.writePos.toNat + (bytes - written) ≤ 4096) :
    Writes (keepRest s p bytes written) (given ++ readBytes p written (bytes - written)) := by
  have hpos : (s.file.writePos + BitVec.ofNat 64 (bytes - written)).toNat = s.file.writePos.toNat + (bytes - written) := by
    rw [BitVec.toNat_add, BitVec.toNat_ofNat]
    omega
  refine ⟨?_, by rw [Stream.keepRest, State.setWritePos]; dsimp only; rw [hpos]; exact hroom, h.readPos, h.readEnd,
    fun h0 => absurd h0 hbuf⟩
  rw [State.pending, Stream.keepRest, State.setWritePos, State.setBuf]
  dsimp only
  rw [hpos, readBytes_blit_behind, readBytes_shift, ← List.append_assoc]
  exact congrArg (· ++ _) h.bytes

/-- The buffer is written out. -/
lemma Writes.flushed (h : Writes s given) (fd : σ) :
    Writes ({ s with fd := fd, taken := s.taken ++ s.pending }.setWritePos 0) given := by
  refine ⟨?_, Nat.zero_le _, h.readPos, h.readEnd, fun _ => rfl⟩
  rw [← h.bytes]
  exact List.append_nil _

/-- Bytes that do not go through the buffer, while it is empty. -/
lemma Writes.direct (h : Writes s given) (hempty : s.file.writePos = 0) (b : List Byte) (fd : σ) :
    Writes { s with fd := fd, taken := s.taken ++ b } (given ++ b) := by
  have hnone : s.pending = [] := by
    rw [State.pending, hempty]
    rfl
  refine ⟨?_, h.room, h.readPos, h.readEnd, h.unbuffered⟩
  rw [← h.bytes, hnone, List.append_nil]
  change s.taken ++ b ++ s.pending = _
  rw [hnone, List.append_nil]

/-- When the bytes do not fit into the buffer, what is in it is written out. -/
lemma Writes.makeRoom (hcalls : Accepts calls) (h : Writes s given) (bytes : BitVec 64) :
    ∃ s', (∀ᶠ fuel in atTop, (if bytes > bufsiz - s.file.writePos then
        (writeBytesOf calls fuel s (readBytes s.file.buf 0 s.file.writePos.toNat) 0).map fun r =>
          (decide (r.1 < s.file.writePos.toNat), r.2.setWritePos 0)
      else some (false, s)) = some (false, s')) ∧ Writes s' given ∧ s'.file.flags = s.file.flags ∧
      (s'.file.writePos.toNat + bytes.toNat ≤ 4096 ∨ s'.file.writePos = 0) := by
  have hroom := h.room
  have hbufsiz : bufsiz.toNat = 4096 := rfl
  have hleft : (bufsiz - s.file.writePos).toNat = 4096 - s.file.writePos.toNat := by
    rw [BitVec.toNat_sub_of_le]
    · rfl
    · rwa [BitVec.le_def]
  by_cases hfull : bytes > bufsiz - s.file.writePos
  · obtain ⟨fd, hall⟩ := writeBytesOf_all hcalls s s.pending 0
    have hlen : s.pending.length = s.file.writePos.toNat := length_readBytes _ _ _
    refine ⟨_, ?_, h.flushed fd, rfl, Or.inr rfl⟩
    filter_upwards [eventually_gt_atTop s.pending.length] with fuel hf
    have hwritten := hall fuel hf
    rw [State.pending] at hwritten hlen
    rw [if_pos hfull, hwritten, Option.map_some, hlen, Nat.zero_add, decide_eq_false (lt_irrefl _)]
    rfl
  · refine ⟨s, .of_forall fun fuel => if_neg hfull, h, rfl, Or.inl ?_⟩
    rw [gt_iff_lt, BitVec.lt_def, hleft] at hfull
    omega

/-- What a terminal is given up to the last newline is written at once. -/
lemma Writes.flushLines (hcalls : Accepts calls) (h : Writes s given) (p : Memory) (i : ℕ) :
    ∃ s', (∀ᶠ fuel in atTop, writeBytesOf calls fuel
        (s.setBuf (blit s.file.buf s.file.writePos.toNat p i))
        (readBytes (s.setBuf (blit s.file.buf s.file.writePos.toNat p i)).file.buf 0 (s.file.writePos.toNat + i)) 0 =
          some (s.file.writePos.toNat + i, s')) ∧
      Writes (s'.setWritePos 0) (given ++ readBytes p 0 i) ∧ s'.file.flags = s.file.flags := by
  have hbuf : readBytes (s.setBuf (blit s.file.buf s.file.writePos.toNat p i)).file.buf 0 (s.file.writePos.toNat + i) =
      s.pending ++ readBytes p 0 i := readBytes_blit_behind s.file.buf p s.file.writePos.toNat i
  have hlen : (s.pending ++ readBytes p 0 i).length = s.file.writePos.toNat + i := by
    rw [List.length_append, length_readBytes, State.pending, length_readBytes]
  obtain ⟨fd, hall⟩ := writeBytesOf_all hcalls (s.setBuf (blit s.file.buf s.file.writePos.toNat p i))
    (s.pending ++ readBytes p 0 i) 0
  refine ⟨{ s.setBuf (blit s.file.buf s.file.writePos.toNat p i) with
      fd := fd
      taken := s.taken ++ (s.pending ++ readBytes p 0 i) },
    ?_, ⟨?_, Nat.zero_le _, h.readPos, h.readEnd, fun _ => rfl⟩, rfl⟩
  · filter_upwards [eventually_gt_atTop (s.file.writePos.toNat + i)] with fuel hf
    rw [hbuf, hall fuel (hlen.symm ▸ hf), hlen, Nat.zero_add]
    rfl
  · rw [← h.bytes, List.append_assoc]
    exact List.append_nil _

/-- All bytes are written or buffered, and the count is returned. -/
lemma Writes.fwrite (hcalls : Accepts calls) (h : Writes s given) (p : Memory) {size count : BitVec 64}
    (hsize : 1 ≤ size.toNat) (hcount : 1 ≤ count.toNat) (hfit : size.toNat * count.toNat < 2 ^ 64) :
    ∃ s', (∀ᶠ fuel in atTop, fwrite calls fuel s p size count = some (count, s')) ∧
      Writes s' (given ++ readBytes p 0 (size.toNat * count.toNat)) := by
  have hbytes : (size * count).toNat = size.toNat * count.toNat := by rw [BitVec.toNat_mul, Nat.mod_eq_of_lt hfit]
  obtain ⟨n, hn⟩ : ∃ n, size.toNat * count.toNat = n := ⟨_, rfl⟩
  have hpos : 0 < n := hn ▸ Nat.mul_pos hsize hcount
  have hdiv : BitVec.ofNat 64 (0 + n) / size = count := by
    apply BitVec.eq_of_toNat_eq
    rw [BitVec.toNat_udiv, Nat.zero_add, BitVec.toNat_ofNat, ← hn, Nat.mod_eq_of_lt hfit, Nat.mul_div_cancel_left _ hsize]
  rw [hn] at hbytes hfit ⊢
  have hnonzero : ¬ size * count = 0 := by
    intro h0
    rw [h0] at hbytes
    exact hpos.ne hbytes
  have hlen : (readBytes p 0 n).length = n := length_readBytes p 0 n
  by_cases hbuf : s.file.flags &&& fileFlagBuffered = 0
  · obtain ⟨fd, hall⟩ := writeBytesOf_all hcalls s (readBytes p 0 n) 0
    refine ⟨_, ?_, h.direct (h.unbuffered hbuf) _ fd⟩
    filter_upwards [eventually_gt_atTop n] with fuel hf
    rw [Stream.fwrite]
    dsimp only
    rw [if_neg hnonzero, if_pos hbuf, hbytes, hall fuel (hlen.symm ▸ hf), hlen, Option.map_some, hdiv]
  obtain ⟨s1, hmake, h1, hflags, hspace⟩ := h.makeRoom hcalls (size * count)
  have hbufsiz : bufsiz.toNat = 4096 := rfl
  have hbuf1 : s1.file.flags &&& fileFlagBuffered ≠ 0 := hflags ▸ hbuf
  have hstart : ∀ᶠ fuel in atTop, Stream.fwrite calls fuel s p size count =
      if size * count > bufsiz then
        (writeBytesOf calls fuel s1 (readBytes p 0 n) 0).map fun r => (BitVec.ofNat 64 r.1 / size, r.2)
      else if s1.file.flags &&& fileFlagTty ≠ 0 ∧ 0 < upToNewline p n then
        (writeBytesOf calls fuel (s1.setBuf (blit s1.file.buf s1.file.writePos.toNat p (upToNewline p n)))
          (readBytes (s1.setBuf (blit s1.file.buf s1.file.writePos.toNat p (upToNewline p n))).file.buf 0
            (s1.file.writePos.toNat + upToNewline p n)) 0).map fun r =>
          if r.1 < s1.file.writePos.toNat + upToNewline p n then
            (BitVec.ofNat 64 (r.1 - s1.file.writePos.toNat) / size, r.2.setWritePos 0)
          else (count, Stream.keepRest (r.2.setWritePos 0) p n (upToNewline p n))
      else some (count, Stream.keepRest s1 p n 0) := by
    filter_upwards [hmake] with fuel hf
    rw [Stream.fwrite]
    dsimp only
    rw [if_neg hnonzero, if_neg hbuf, hf, Option.bind_some]
    dsimp only
    rw [if_neg Bool.false_ne_true, hbytes]
    rfl
  by_cases hlarge : size * count > bufsiz
  · have hempty : s1.file.writePos = 0 := by
      refine hspace.resolve_left fun hle => ?_
      rw [gt_iff_lt, BitVec.lt_def, hbufsiz] at hlarge
      omega
    obtain ⟨fd, hall⟩ := writeBytesOf_all hcalls s1 (readBytes p 0 n) 0
    refine ⟨_, ?_, h1.direct hempty _ fd⟩
    filter_upwards [hstart, eventually_gt_atTop n] with fuel hs hf
    rw [hs, if_pos hlarge, hall fuel (hlen.symm ▸ hf), hlen, Option.map_some, hdiv]
  have hroom : s1.file.writePos.toNat + n ≤ 4096 := by
    rw [gt_iff_lt, BitVec.lt_def, hbufsiz, hbytes] at hlarge
    rw [hbytes] at hspace
    rcases hspace with hle | hempty
    · exact hle
    · have hzero : (0 : BitVec 64).toNat = 0 := rfl
      rw [hempty, hzero]
      omega
  by_cases htty : s1.file.flags &&& fileFlagTty ≠ 0 ∧ 0 < upToNewline p n
  · have hi := upToNewline_le p n
    obtain ⟨s2, hlines, h2, hflags2⟩ := h1.flushLines hcalls p (upToNewline p n)
    have hkeep := h2.keepRest p n (upToNewline p n) (hflags2.symm ▸ hbuf1) (by
      change 0 + (n - upToNewline p n) ≤ 4096
      omega)
    have hjoin : readBytes p 0 (upToNewline p n) ++ readBytes p (upToNewline p n) (n - upToNewline p n) =
        readBytes p 0 n := by
      have happend := readBytes_append p 0 (upToNewline p n) (n - upToNewline p n)
      rw [Nat.zero_add, Nat.add_sub_cancel' hi] at happend
      exact happend.symm
    rw [List.append_assoc, hjoin] at hkeep
    refine ⟨_, ?_, hkeep⟩
    filter_upwards [hstart, hlines] with fuel hs hl
    rw [hs, if_neg hlarge, if_pos htty, hl, Option.map_some, if_neg (lt_irrefl _)]
  · have hkeep := h1.keepRest p n 0 hbuf1 hroom
    refine ⟨_, ?_, hkeep⟩
    filter_upwards [hstart] with fuel hs
    rw [hs, if_neg hlarge, if_neg htty]

/-- The buffer is empty after a flush. -/
lemma Writes.fflush (hcalls : Accepts calls) (h : Writes s given) :
    ∃ s', (∀ᶠ fuel in atTop, fflush calls fuel s = some (0, s')) ∧ Writes s' given ∧ s'.file.writePos = 0 := by
  have hsub : -(ungetBytes - ungetBytes) = 0 := by decide
  have hslt : ∀ fd, (calls.lseek fd 0 .seekCur).1.slt 0 = false := by
    intro fd
    have hzero : (0 : BitVec 64).toInt = 0 := rfl
    rw [BitVec.slt, hzero]
    exact decide_eq_false (not_lt.mpr (hcalls.lseek fd))
  obtain ⟨s1, hs1⟩ : ∃ s1 : State σ, s1 = { s with
      file := { s.file with readPos := ungetBytes, readEnd := ungetBytes }
      fd := (calls.lseek s.fd 0 .seekCur).2 } := ⟨_, rfl⟩
  have hpos1 : s1.file.writePos = s.file.writePos := by rw [hs1]
  have h1 : Writes s1 given := by
    rw [hs1]
    exact ⟨h.bytes, h.room, rfl, rfl, h.unbuffered⟩
  have hflush : ∀ fuel, Stream.fflush calls fuel s =
      if s1.file.writePos ≠ 0 then
        (writeBytesOf calls fuel s1 s1.pending 0).map fun r =>
          (if r.1 < s1.file.writePos.toNat then eof else 0, r.2.setWritePos 0)
      else some (0, s1) := by
    intro fuel
    rw [hs1, Stream.fflush, h.readPos, h.readEnd, hsub]
    simp only [hslt]
    rfl
  by_cases hempty : s1.file.writePos = 0
  · refine ⟨s1, .of_forall fun fuel => ?_, h1, hempty⟩
    rw [hflush, if_neg (not_not.mpr hempty)]
  · obtain ⟨fd, hall⟩ := writeBytesOf_all hcalls s1 s1.pending 0
    have hlen : s1.pending.length = s1.file.writePos.toNat := length_readBytes _ _ _
    refine ⟨_, ?_, h1.flushed fd, rfl⟩
    filter_upwards [eventually_gt_atTop s1.pending.length] with fuel hf
    rw [hflush, if_pos hempty, hall fuel hf, Option.map_some, hlen, Nat.zero_add, if_neg (lt_irrefl _)]

lemma readBytes_list (l : List Byte) : readBytes (fun k => l.getD k 0) 0 l.length = l := by
  apply List.ext_getElem
  · rw [length_readBytes]
  · intro i h1 h2
    rw [getElem_readBytes]
    simp [h2]

/-- Every call succeeds and its bytes are neither lost nor doubled. -/
lemma Writes.call (hcalls : Accepts calls) (h : Writes s given) {call : WriteCall} (hv : call.Valid) :
    ∃ s', (∀ᶠ fuel in atTop, s.writeCall calls fuel call = some (call.success, s')) ∧
      Writes s' (given ++ call.given) ∧ (call = .fflush → s'.file.writePos = 0) := by
  cases call with
  | fwrite p size count =>
    obtain ⟨s', hev, hw⟩ := h.fwrite hcalls p hv.1 hv.2.1 hv.2.2
    refine ⟨s', ?_, hw, fun hc => by cases hc⟩
    filter_upwards [hev] with fuel hf
    rw [State.writeCall, hf]
    rfl
  | fputc c =>
    have hone : (1 : BitVec 64).toNat = 1 := rfl
    obtain ⟨s', hev, hw⟩ := h.fwrite hcalls (fun _ => c.setWidth 8) hone.ge hone.ge (by rw [hone]; norm_num)
    refine ⟨s', ?_, hw, fun hc => by cases hc⟩
    filter_upwards [hev] with fuel hf
    rw [State.writeCall, fputc, hf, Option.map_some, Option.map_some, if_neg (not_not.mpr rfl)]
    rfl
  | fputs str =>
    have hlen : (BitVec.ofNat 64 str.1.length).toNat = str.1.length := by
      rw [BitVec.toNat_ofNat, Nat.mod_eq_of_lt hv]
    have hone : (1 : BitVec 64).toNat = 1 := rfl
    by_cases hempty : str.1 = []
    · refine ⟨s, .of_forall fun fuel => ?_, ?_, fun hc => by cases hc⟩
      · rw [State.writeCall, fputs, hempty]
        rfl
      · rw [WriteCall.given, hempty, List.append_nil]
        exact h
    · have hpos := List.length_pos_of_ne_nil hempty
      obtain ⟨s', hev, hw⟩ := h.fwrite hcalls (fun k => str.1.getD k 0) hone.ge (hlen.symm ▸ hpos)
        (by rw [hone, hlen, Nat.one_mul]; exact hv)
      rw [hone, hlen, Nat.one_mul, readBytes_list] at hw
      refine ⟨s', ?_, hw, fun hc => by cases hc⟩
      filter_upwards [hev] with fuel hf
      rw [State.writeCall, fputs, hf, Option.map_some, Option.map_some, if_neg (not_not.mpr rfl)]
      rfl
  | fflush =>
    obtain ⟨s', hev, hw, hempty⟩ := h.fflush hcalls
    refine ⟨s', ?_, by rwa [WriteCall.given, List.append_nil], fun _ => hempty⟩
    filter_upwards [hev] with fuel hf
    rw [State.writeCall, hf]
    rfl

lemma Writes.run (hcalls : Accepts calls) (h : Writes s given) {list : List WriteCall} (hv : ∀ call ∈ list, call.Valid) :
    ∃ s', (∀ᶠ fuel in atTop, s.writeCalls calls fuel list = some (list.map WriteCall.success, s')) ∧
      Writes s' (given ++ list.flatMap WriteCall.given) ∧
      (list.getLast? = some .fflush → s'.file.writePos = 0) := by
  induction list generalizing s given with
  | nil => exact ⟨s, .of_forall fun _ => rfl, by simpa using h, fun hc => by cases hc⟩
  | cons call list ih =>
    rw [List.forall_mem_cons] at hv
    obtain ⟨s1, hev1, h1, hflush1⟩ := h.call hcalls hv.1
    obtain ⟨s2, hev2, h2, hflush2⟩ := ih h1 hv.2
    refine ⟨s2, ?_, ?_, fun hlast => ?_⟩
    · filter_upwards [hev1, hev2] with fuel hf1 hf2
      rw [State.writeCalls, hf1, Option.bind_some, hf2]
      rfl
    · rwa [List.flatMap_cons, ← List.append_assoc]
    · cases list with
      | nil =>
        have hsame : s2 = s1 := by
          obtain ⟨fuel, hf⟩ := hev2.exists
          exact (congrArg Prod.snd (Option.some.inj hf)).symm
        rw [hsame]
        exact hflush1 (Option.some.inj hlast)
      | cons next list =>
        rw [List.getLast?_cons_cons] at hlast
        exact hflush2 hlast

end Writing

/-- Whatever part of its bytes each `write` takes: what it has taken, followed by what is in the buffer, is all that
the calls were given, and every call returns what it should. -/
theorem writing_keeps_bytes {σ : Type*} {calls : Calls σ} (hcalls : Accepts calls) (flags : BitVec 32) (stale : Memory)
    (fd : σ) (list : List WriteCall) (hv : ∀ call ∈ list, call.Valid) :
    ∃ s, (∀ᶠ fuel in atTop, (fresh flags stale fd).writeCalls calls fuel list =
        some (list.map WriteCall.success, s)) ∧
      s.taken ++ readBytes s.file.buf 0 s.file.writePos.toNat = list.flatMap WriteCall.given ∧
      s.file.writePos ≤ bufsiz ∧ (list.getLast? = some .fflush → s.file.writePos = 0) := by
  have hstart : Writes (fresh flags stale fd) [] := ⟨rfl, Nat.zero_le _, rfl, rfl, fun _ => rfl⟩
  obtain ⟨s, hev, hw, hflush⟩ := hstart.run hcalls hv
  exact ⟨s, hev, hw.bytes, hw.room, hflush⟩

/-- A descriptor that takes one byte at a time. -/
def oneByte : Calls Unit where
  read _ _ := (none, ())
  write _ _ := (1, ())
  lseek _ _ _ := (0, ())

theorem writing_keeps_bytes_terminal : ∃ s, (∀ᶠ fuel in atTop,
      (fresh (fileFlagBuffered ||| fileFlagTty) (fun _ => 0) ()).writeCalls oneByte fuel [.fputc 104, .fputc 10, .fputc 105] =
        some ([.status 104, .status 10, .status 105], s)) ∧
    s.taken ++ readBytes s.file.buf 0 s.file.writePos.toNat = [104, 10, 105] := by
  have haccepts : Accepts oneByte := by
    refine ⟨fun fd b hb => ?_, fun fd => le_rfl⟩
    have hpos := List.length_pos_of_ne_nil hb
    have hone : (oneByte.write fd b).1.toInt = 1 := rfl
    omega
  obtain ⟨s, hev, hbytes, -⟩ := writing_keeps_bytes haccepts (fileFlagBuffered ||| fileFlagTty) (fun _ => 0) ()
    [.fputc 104, .fputc 10, .fputc 105] (by simp [WriteCall.Valid])
  exact ⟨s, hev, hbytes⟩

end PiggyOs.Stream
