import PiggyOs.StreamReading
import PiggyOs.Transition

/-! Pushing characters back into a stream, and reading on. -/
namespace PiggyOs.Stream
open ByteMemory Simulation Transition

section Functions
variable {σ : Type*} (calls : Calls σ)

def ungetc (fuel : ℕ) (s : State σ) (c : BitVec 32) : Option (BitVec 32 × State σ) :=
  if c = eof then some (eof, s)
  else
    (if s.file.writePos ≠ 0 then fflush calls fuel s else some (0, s)).map fun (flushed, s) =>
      if flushed = eof then (eof, s)
      else if s.file.readPos = 0 then (eof, s)
      else
        ((c.setWidth 8).setWidth 32, { s with file :=
          { s.file with
            flags := s.file.flags &&& ~~~fileFlagEof
            buf := Function.update s.file.buf s.file.readPos.toNat (c.setWidth 8)
            readPos := s.file.readPos - 1 } })

/-- The calls that a stream is read with. -/
inductive Use
  | fread (size count : BitVec 64)
  | fgetc
  | fseek (offset : BitVec 64) (whence : Whence)

def Uses (fuel : ℕ) (s : State σ) (u : Use) (t : State σ) : Prop :=
  match u with
  | .fread size count => t = (fread calls s size count).2
  | .fgetc => t = (fgetc calls s).2
  | .fseek offset whence => ∃ r, fseek calls fuel s offset whence = some (r, t)

/-- What is documented of `read` and `lseek`: no more is read than was asked for, a file that is at its end stays there,
and a refused `lseek` moves nothing. -/
structure Reader : Prop where
  short : ∀ fd n got fd', calls.read fd n = (some got, fd') → got.length ≤ n.toNat
  ended : ∀ fd n fd', n ≠ 0 → calls.read fd n = (some [], fd') → ∀ m, calls.read fd' m = (some [], fd')
  refused : ∀ fd offset whence, (calls.lseek fd offset whence).1.slt 0 = true → (calls.lseek fd offset whence).2 = fd

/-- The characters are accepted, and each is stored inside the buffer. -/
inductive Pushed (fuel : ℕ) : State σ → List (BitVec 32) → State σ → Prop
  | nil (s : State σ) : Pushed fuel s [] s
  | cons {s t u : State σ} {c r : BitVec 32} {cs : List (BitVec 32)} (inside : s.file.readPos.toNat < bufsiz.toNat)
      (accepted : ungetc calls fuel s c = some (r, t)) (taken : r ≠ eof) (rest : Pushed fuel t cs u) :
      Pushed fuel s (c :: cs) u

/-- The results of some calls of `fgetc`. -/
def fgetcs : ℕ → State σ → List (BitVec 32) × State σ
  | 0, s => ([], s)
  | n + 1, s => ((fgetc calls s).1 :: (fgetcs n (fgetc calls s).2).1, (fgetcs n (fgetc calls s).2).2)

/-- The results and bytes of a call of `fread` for `count` bytes. -/
def readMore (s : State σ) (count : BitVec 64) : (BitVec 64 × List Byte) × State σ := fread calls s 1 count

def unsignedChar (c : BitVec 32) : BitVec 32 := (c.setWidth 8).setWidth 32

/-- The characters are pushed back, come out again last one first, and are followed by what would have been read
without them. -/
def Undone (fuel : ℕ) (s : State σ) (cs : List (BitVec 32)) : Prop :=
  ∃ t, Pushed calls fuel s cs t ∧ (fgetcs calls cs.length t).1 = cs.reverse.map unsignedChar ∧
    ∀ counts, outputs (readMore calls) (fgetcs calls cs.length t).2 counts = outputs (readMore calls) s counts

end Functions

section Reading
variable {σ : Type*} {calls : Calls σ} {s t u : State σ} {fuel k n : ℕ} {cs : List (BitVec 32)}

/-- A stream that nothing has been pushed back into. -/
structure Ready (calls : Calls σ) (s : State σ) : Prop where
  low : 8 ≤ s.file.readPos.toNat
  le : s.file.readPos.toNat ≤ s.file.readEnd.toNat
  high : s.file.readEnd.toNat ≤ 4096
  inside : s.file.readPos.toNat < 4096
  written : s.file.writePos = 0
  atEnd : s.file.flags &&& fileFlagEof ≠ 0 →
    s.file.readPos = s.file.readEnd ∧ ∀ m, calls.read s.fd m = (some [], s.fd)

/-- A stream with an empty buffer. -/
lemma Ready.empty (hpos : s.file.readPos = ungetBytes) (hend : s.file.readEnd = ungetBytes)
    (hwritten : s.file.writePos = 0)
    (heof : s.file.flags &&& fileFlagEof ≠ 0 → ∀ m, calls.read s.fd m = (some [], s.fd)) : Ready calls s := by
  have h8 : ungetBytes.toNat = 8 := rfl
  refine ⟨?_, ?_, ?_, ?_, hwritten, fun he => ⟨hpos.trans hend.symm, heof he⟩⟩
  · rw [hpos, h8]
  · rw [hpos, hend]
  · rw [hend, h8]
    norm_num
  · rw [hpos, h8]
    norm_num

lemma fdopen_ready (stale : Memory) (fd : σ) : Ready calls (fdopen stale fd) := by
  refine .empty rfl rfl rfl fun he => ?_
  exact absurd he (by change ¬ fileFlagBuffered &&& fileFlagEof ≠ 0; decide)

lemma readBytesOf_cases (hr : Reader calls) (s : State σ) {n : BitVec 64} (hn : n ≠ 0) : ∃ got fd flags,
    readBytesOf calls s n = (got, { s with file := { s.file with flags := flags }, fd := fd }) ∧ got.length ≤ n.toNat ∧
      (flags &&& fileFlagEof ≠ 0 → s.file.flags &&& fileFlagEof = 0 →
        got = [] ∧ ∀ m, calls.read fd m = (some [], fd)) := by
  rw [readBytesOf]
  rcases hread : calls.read s.fd n with ⟨_ | _ | ⟨b, bs⟩, fd⟩
  · refine ⟨[], fd, s.file.flags ||| fileFlagError, rfl, Nat.zero_le _, fun hset hclear => absurd ?_ hset⟩
    rw [BitVec.and_or_distrib_right, hclear]
    decide
  · exact ⟨[], fd, s.file.flags ||| fileFlagEof, rfl, Nat.zero_le _, fun _ _ => ⟨rfl, hr.ended _ _ _ hn hread⟩⟩
  · exact ⟨b :: bs, fd, s.file.flags, rfl, hr.short _ _ _ _ hread, fun hset hclear => absurd hclear hset⟩

lemma Ready.filled (h : Ready calls s) :
    (s.file.readEnd - s.file.readPos).toNat = s.file.readEnd.toNat - s.file.readPos.toNat :=
  BitVec.toNat_sub_of_le (BitVec.le_def.mpr h.le)

lemma toNat_ungetBytes_add {a : BitVec 64} (h : a.toNat ≤ 4088) : (ungetBytes + a).toNat = 8 + a.toNat := by
  have h8 : ungetBytes.toNat = 8 := rfl
  rw [BitVec.toNat_add, h8, Nat.mod_eq_of_lt (by omega)]

lemma Ready.fread (hr : Reader calls) (h : Ready calls s) (size count : BitVec 64) :
    Ready calls (fread calls s size count).2 := by
  unfold Stream.fread
  dsimp only
  by_cases hzero : size * count = 0
  · rw [if_pos hzero]
    exact h
  rw [if_neg hzero]
  by_cases heof : s.file.flags &&& fileFlagEof ≠ 0
  · rw [if_pos heof]
    exact h
  rw [if_neg heof]
  by_cases hle : s.file.readEnd - s.file.readPos ≤ size * count
  · rw [if_pos hle]
    by_cases hall : size * count - (s.file.readEnd - s.file.readPos) = 0
    · rw [if_pos hall]
      exact .empty rfl rfl h.written fun he => absurd he heof
    rw [if_neg hall]
    by_cases hdirect : size * count - (s.file.readEnd - s.file.readPos) ≥
        bufsiz - (s.setRead ungetBytes ungetBytes).file.readEnd ∨
      (s.setRead ungetBytes ungetBytes).file.flags &&& fileFlagBuffered = 0
    · rw [if_pos hdirect]
      obtain ⟨got, fd, flags, hread, -, hend⟩ := readBytesOf_cases hr (s.setRead ungetBytes ungetBytes) hall
      rw [hread]
      exact .empty rfl rfl h.written fun he => (hend he (not_not.mp heof)).2
    · rw [if_neg hdirect]
      obtain ⟨hshort, -⟩ := not_or.mp hdirect
      have h4088 : bufsiz - (s.setRead ungetBytes ungetBytes).file.readEnd = 4088 := by
        change bufsiz - ungetBytes = 4088
        decide
      rw [h4088] at hshort ⊢
      obtain ⟨got, fd, flags, hread, hlen, hend⟩ :=
        readBytesOf_cases hr (s.setRead ungetBytes ungetBytes) (show (4088 : BitVec 64) ≠ 0 by decide)
      rw [hread]
      dsimp only [State.setBuf, State.setRead]
      have hgot : (BitVec.ofNat 64 got.length).toNat = got.length := by
        change got.length ≤ 4088 at hlen
        rw [BitVec.toNat_ofNat]
        omega
      rw [ge_iff_le, BitVec.le_def, not_le] at hshort
      change _ < 4088 at hshort
      change got.length ≤ 4088 at hlen
      have hcopied := toNat_lesser (size * count - (s.file.readEnd - s.file.readPos)) (BitVec.ofNat 64 got.length)
      rw [hgot] at hcopied
      refine ⟨?_, ?_, ?_, ?_, h.written, fun he => ?_⟩
      · dsimp only
        rw [toNat_ungetBytes_add (by omega)]
        omega
      · dsimp only
        rw [toNat_ungetBytes_add (by omega), toNat_ungetBytes_add (by omega), hcopied, hgot]
        omega
      · dsimp only
        rw [toNat_ungetBytes_add (by omega), hgot]
        omega
      · dsimp only
        rw [toNat_ungetBytes_add (by omega), hcopied]
        omega
      · obtain ⟨rfl, hdry⟩ := hend he (not_not.mp heof)
        refine ⟨?_, hdry⟩
        refine congrArg (ungetBytes + ·) (BitVec.eq_of_toNat_eq ?_)
        rw [hcopied, hgot]
        exact Nat.min_zero _
  · rw [if_neg hle]
    have hlt : (size * count).toNat < s.file.readEnd.toNat - s.file.readPos.toNat := by
      rw [BitVec.le_def, h.filled] at hle
      omega
    have hhigh := h.high
    have hadd : (s.file.readPos + size * count).toNat = s.file.readPos.toNat + (size * count).toNat := by
      rw [BitVec.toNat_add, Nat.mod_eq_of_lt (by omega)]
    refine ⟨?_, ?_, hhigh, ?_, h.written, fun he => absurd he heof⟩
    · dsimp only [State.setRead]
      have := h.low
      omega
    · dsimp only [State.setRead]
      omega
    · dsimp only [State.setRead]
      omega

lemma clear_eof (flags : BitVec 32) : flags &&& ~~~fileFlagEof &&& fileFlagEof = 0 := by
  have hnone : ~~~fileFlagEof &&& fileFlagEof = 0#32 := by decide
  rw [BitVec.and_assoc, hnone, BitVec.and_zero]
  rfl

lemma Ready.fseek (hr : Reader calls) (h : Ready calls s) {offset : BitVec 64} {whence : Whence} {r : BitVec 32}
    (hs : fseek calls fuel s offset whence = some (r, t)) : Ready calls t := by
  unfold Stream.fseek at hs
  rw [if_neg (not_not.mpr h.written), Option.map_some] at hs
  have hs := Option.some.inj hs
  dsimp only at hs
  rw [if_neg (by decide)] at hs
  cases htarget : (if whence = .seekCur then subOverflow offset (s.file.readEnd - s.file.readPos) else some offset) with
  | none =>
    rw [htarget] at hs
    cases hs
    exact h
  | some offset' =>
    rw [htarget] at hs
    dsimp only at hs
    split_ifs at hs with hneg
    · cases hs
      rw [hr.refused _ _ _ hneg]
      exact h
    · cases hs
      exact .empty rfl rfl h.written fun he => absurd (clear_eof s.file.flags) he

/-- Every reading stream. -/
lemma Ready.use (hr : Reader calls) (h : Ready calls s) {use : Use} (hu : Uses calls fuel s use t) : Ready calls t := by
  cases use with
  | fread size count =>
    obtain rfl : t = _ := hu
    exact h.fread hr size count
  | fgetc =>
    obtain rfl : t = _ := hu
    unfold fgetc
    dsimp only
    split_ifs
    · exact h.fread hr 1 1
    · exact h.fread hr 1 1
  | fseek offset whence =>
    obtain ⟨r, hs⟩ := hu
    exact h.fseek hr hs

/-- The place after a character of the buffer. -/
def State.step (s : State σ) : State σ :=
  if s.file.readPos + 1 = s.file.readEnd then s.setRead ungetBytes ungetBytes
  else s.setRead (s.file.readPos + 1) s.file.readEnd

/-- A byte that is in the buffer. -/
lemma fread_buffered (heof : s.file.flags &&& fileFlagEof = 0) (hlt : s.file.readPos.toNat < s.file.readEnd.toNat) :
    fread calls s 1 1 = ((1, [s.file.buf s.file.readPos.toNat]), s.step) := by
  have hfilled : (s.file.readEnd - s.file.readPos).toNat = s.file.readEnd.toNat - s.file.readPos.toNat :=
    BitVec.toNat_sub_of_le (BitVec.le_def.mpr hlt.le)
  have h1 : (1 : BitVec 64).toNat = 1 := rfl
  have hprod : (1 : BitVec 64) * 1 = 1 := rfl
  have hnext : s.file.readPos + 1 = s.file.readEnd ↔ s.file.readEnd - s.file.readPos = 1 := by
    constructor
    · intro h
      rw [← h, BitVec.add_comm, BitVec.add_sub_cancel]
    · intro h
      rw [← h, BitVec.add_comm, BitVec.sub_add_cancel]
  unfold fread
  dsimp only
  rw [hprod, if_neg (by decide), if_neg (not_not.mpr heof)]
  by_cases hle : s.file.readEnd - s.file.readPos ≤ 1
  · have hone : s.file.readEnd - s.file.readPos = 1 := by
      rw [BitVec.le_def, hfilled, h1] at hle
      apply BitVec.eq_of_toNat_eq
      rw [hfilled, h1]
      omega
    have hsub : (1 : BitVec 64) - 1 = 0 := rfl
    rw [if_pos hle, hone, if_pos hsub, State.step, if_pos (hnext.mpr hone)]
    rfl
  · have hne : ¬ s.file.readPos + 1 = s.file.readEnd := fun h => hle (by rw [hnext.mp h]; exact BitVec.le_refl _)
    rw [if_neg hle, State.step, if_neg hne]
    rfl

lemma fgetc_buffered (heof : s.file.flags &&& fileFlagEof = 0) (hlt : s.file.readPos.toNat < s.file.readEnd.toNat) :
    fgetc calls s = ((s.file.buf s.file.readPos.toNat).setWidth 32, s.step) := by
  rw [fgetc, fread_buffered heof hlt]
  rfl

lemma readBytes_cons (m : Memory) (a n : ℕ) : readBytes m a (n + 1) = m a :: readBytes m (a + 1) n := by
  rw [readBytes, readBytes, List.range_succ_eq_map, List.map_cons, List.map_map]
  refine congrArg₂ _ rfl (List.map_congr_left fun k _ => ?_)
  rw [Function.comp_apply, Nat.add_right_comm, Nat.add_assoc]

/-- The characters that are in the buffer, and the place after them. -/
lemma fgetcs_buffered (heof : s.file.flags &&& fileFlagEof = 0) (hle : s.file.readPos.toNat + n ≤ s.file.readEnd.toNat) :
    fgetcs calls n s = ((readBytes s.file.buf s.file.readPos.toNat n).map (BitVec.setWidth 32),
      if n ≠ 0 ∧ s.file.readPos.toNat + n = s.file.readEnd.toNat then s.setRead ungetBytes ungetBytes
      else s.setRead (s.file.readPos + BitVec.ofNat 64 n) s.file.readEnd) := by
  induction n generalizing s with
  | zero =>
    have hsame : s.file.readPos + BitVec.ofNat 64 0 = s.file.readPos := BitVec.add_zero _
    rw [if_neg fun h => h.1 rfl, hsame]
    rfl
  | succ n ih =>
    have hend := s.file.readEnd.isLt
    have h1 : (s.file.readPos + 1).toNat = s.file.readPos.toNat + 1 := by
      have h1 : (1 : BitVec 64).toNat = 1 := rfl
      rw [BitVec.toNat_add, h1, Nat.mod_eq_of_lt (by omega)]
    rw [fgetcs, fgetc_buffered heof (by omega), readBytes_cons, List.map_cons]
    dsimp only
    by_cases hlast : s.file.readPos + 1 = s.file.readEnd
    · have hn : n = 0 := by
        rw [← hlast, h1] at hle
        omega
      subst hn
      rw [State.step, if_pos hlast, if_pos ⟨by decide, by rw [← hlast, h1]⟩]
      rfl
    · have hne : s.file.readPos.toNat + 1 ≠ s.file.readEnd.toNat := fun h => hlast (BitVec.eq_of_toNat_eq (h1.trans h))
      rw [State.step, if_neg hlast, ih (s := s.setRead (s.file.readPos + 1) s.file.readEnd) heof (by
        change (s.file.readPos + 1).toNat + n ≤ s.file.readEnd.toNat
        omega)]
      have hadd : s.file.readPos + 1 + BitVec.ofNat 64 n = s.file.readPos + BitVec.ofNat 64 (n + 1) := by
        rw [BitVec.add_assoc, BitVec.add_comm 1, BitVec.ofNat_add]
        rfl
      have hiff : (n ≠ 0 ∧ (s.file.readPos + 1).toNat + n = s.file.readEnd.toNat) ↔
          n + 1 ≠ 0 ∧ s.file.readPos.toNat + (n + 1) = s.file.readEnd.toNat := by omega
      refine Prod.ext ?_ ?_
      · dsimp only [State.setRead]
        rw [h1]
      · rw [← hadd]
        exact if_congr hiff rfl rfl

/-- The buffer after some bytes have been stored from `r` downwards. -/
def pushBuf (buf : Memory) : ℕ → List Byte → Memory
  | _, [] => buf
  | r, b :: bs => pushBuf (Function.update buf r b) (r - 1) bs

lemma pushBuf_outside {buf : Memory} {r p : ℕ} {bs : List Byte} (h : r < p ∨ p + bs.length ≤ r) :
    pushBuf buf r bs p = buf p := by
  induction bs generalizing buf r with
  | nil => rfl
  | cons b bs ih =>
    rw [List.length_cons] at h
    rw [pushBuf, ih (by omega), Function.update_of_ne (by omega)]

lemma pushBuf_at {buf : Memory} {r i : ℕ} {bs : List Byte} (hi : i < bs.length) (hr : bs.length ≤ r) :
    pushBuf buf r bs (r - i) = bs[i] := by
  induction bs generalizing buf r i with
  | nil => exact absurd hi (Nat.not_lt_zero i)
  | cons b bs ih =>
    rw [List.length_cons] at hi hr
    cases i with
    | zero => rw [pushBuf, pushBuf_outside (by omega), Nat.sub_zero, Function.update_self, List.getElem_cons_zero]
    | succ i =>
      have hsub : r - (i + 1) = r - 1 - i := by omega
      rw [pushBuf, hsub, ih (by omega) (by omega), List.getElem_cons_succ]

/-- The stream after some characters have been pushed back. -/
def State.push (s : State σ) (cs : List (BitVec 32)) : State σ :=
  { s with file :=
    { s.file with
      flags := if cs = [] then s.file.flags else s.file.flags &&& ~~~fileFlagEof
      buf := pushBuf s.file.buf s.file.readPos.toNat (cs.map (BitVec.setWidth 8))
      readPos := s.file.readPos - BitVec.ofNat 64 cs.length } }

lemma ungetc_stores {c : BitVec 32} (hwritten : s.file.writePos = 0) (hc : c ≠ eof) (hpos : s.file.readPos ≠ 0) :
    ungetc calls fuel s c = some (unsignedChar c, s.push [c]) := by
  rw [ungetc, if_neg hc, if_neg (not_not.mpr hwritten), Option.map_some]
  dsimp only
  rw [if_neg (by decide), if_neg hpos]
  rfl

lemma unsignedChar_ne_eof (c : BitVec 32) : unsignedChar c ≠ eof := by
  intro h
  have hlt := (c.setWidth 8).isLt
  have hnat := congrArg BitVec.toNat h
  rw [unsignedChar, BitVec.toNat_setWidth, Nat.mod_eq_of_lt (by omega)] at hnat
  have heof : eof.toNat = 2 ^ 32 - 1 := rfl
  omega

lemma toNat_pred {a : BitVec 64} (h : a.toNat ≠ 0) : (a - 1).toNat = a.toNat - 1 := by
  have h1 : (1 : BitVec 64).toNat = 1 := rfl
  rw [BitVec.toNat_sub_of_le (by rw [BitVec.le_def, h1]; omega), h1]

lemma push_cons (s : State σ) (c : BitVec 32) (cs : List (BitVec 32)) (hpos : s.file.readPos.toNat ≠ 0) :
    (s.push [c]).push cs = s.push (c :: cs) := by
  have hsub : s.file.readPos - 1 - BitVec.ofNat 64 cs.length = s.file.readPos - BitVec.ofNat 64 (cs.length + 1) := by
    rw [BitVec.ofNat_add, BitVec.sub_eq_add_neg, BitVec.sub_eq_add_neg, BitVec.sub_eq_add_neg, BitVec.neg_add,
      BitVec.sub_eq_add_neg, BitVec.add_assoc, BitVec.add_comm (-1)]
    rfl
  have hflags : (if cs = [] then s.file.flags &&& ~~~fileFlagEof
      else s.file.flags &&& ~~~fileFlagEof &&& ~~~fileFlagEof) = s.file.flags &&& ~~~fileFlagEof := by
    split_ifs
    · rfl
    · rw [BitVec.and_assoc, BitVec.and_self]
  have hone : (s.push [c]).file.readPos = s.file.readPos - 1 := rfl
  have hfile : ((s.push [c]).push cs).file = (s.push (c :: cs)).file := by
    refine File.mk.injEq .. |>.mpr ⟨hflags, ?_, ?_, rfl, rfl⟩
    · rw [hone, toNat_pred hpos]
      rfl
    · rw [hone]
      exact hsub
  exact State.mk.injEq .. |>.mpr ⟨hfile, rfl, rfl⟩

lemma pushed_iff (hwritten : s.file.writePos = 0) (hc : ∀ c ∈ cs, c ≠ eof) (hle : cs.length ≤ s.file.readPos.toNat)
    (hlt : s.file.readPos.toNat < 4096) : Pushed calls fuel s cs t ↔ t = s.push cs := by
  induction cs generalizing s with
  | nil =>
    have hself : s.push [] = s := by
      have hpos : s.file.readPos - BitVec.ofNat 64 0 = s.file.readPos := BitVec.sub_zero _
      rw [State.push, List.length_nil, hpos]
      rfl
    rw [hself]
    constructor
    · intro h
      cases h
      rfl
    · rintro rfl
      exact .nil _
  | cons c cs ih =>
    rw [List.forall_mem_cons] at hc
    rw [List.length_cons] at hle
    have hne : s.file.readPos ≠ 0 := by
      intro h
      rw [h] at hle
      exact absurd hle (Nat.not_succ_le_zero _)
    have h1 : (s.push [c]).file.readPos.toNat = s.file.readPos.toNat - 1 := toNat_pred (by omega)
    have hstore : ungetc calls fuel s c = some (unsignedChar c, s.push [c]) := ungetc_stores hwritten hc.1 hne
    have hrest := ih (s := s.push [c]) hwritten hc.2 (by omega) (by omega)
    rw [push_cons s c cs (by omega)] at hrest
    rw [← hrest]
    constructor
    · intro h
      cases h with
      | cons inside accepted taken rest =>
        rw [hstore] at accepted
        cases accepted
        exact rest
    · exact fun h => .cons hlt hstore (unsignedChar_ne_eof c) h

/-- Two streams that the same will be read from: the same `k` bytes are in the buffer, and the kernel has the same; one
may have noted the end of the file and the other not. -/
structure Alike (calls : Calls σ) (s t : State σ) (k : ℕ) : Prop where
  fd : t.fd = s.fd
  filled : s.file.readEnd.toNat = s.file.readPos.toNat + k
  filled' : t.file.readEnd.toNat = t.file.readPos.toNat + k
  bytes : ∀ i < k, t.file.buf (t.file.readPos.toNat + i) = s.file.buf (s.file.readPos.toNat + i)
  flags : t.file.flags = s.file.flags ∨ (s.file.flags &&& fileFlagEof ≠ 0 ∧
    t.file.flags = s.file.flags &&& ~~~fileFlagEof ∧ k = 0 ∧ ∀ m, calls.read s.fd m = (some [], s.fd))

/-- Two streams with empty buffers. -/
lemma Alike.empty (hfd : t.fd = s.fd) (hflags : t.file.flags = s.file.flags) (hs : s.file.readPos = s.file.readEnd)
    (ht : t.file.readPos = t.file.readEnd) : Alike calls s t 0 :=
  ⟨hfd, by rw [hs, Nat.add_zero], by rw [ht, Nat.add_zero], fun i hi => absurd hi (Nat.not_lt_zero i),
    Or.inl hflags⟩

lemma readBytesOf_alike (hr : Reader calls) (s t : State σ) (hfd : t.fd = s.fd)
    (hflags : t.file.flags = s.file.flags) (n : BitVec 64) :
    ∃ got fd flags,
      readBytesOf calls s n = (got, { s with file := { s.file with flags := flags }, fd := fd }) ∧
      readBytesOf calls t n = (got, { t with file := { t.file with flags := flags }, fd := fd }) ∧
      got.length ≤ n.toNat := by
  rw [readBytesOf, readBytesOf, hfd]
  rcases hread : calls.read s.fd n with ⟨_ | _ | ⟨b, bs⟩, fd⟩
  · refine ⟨[], fd, s.file.flags ||| fileFlagError, rfl, ?_, Nat.zero_le _⟩
    rw [← hflags]
    rfl
  · refine ⟨[], fd, s.file.flags ||| fileFlagEof, rfl, ?_, Nat.zero_le _⟩
    rw [← hflags]
    rfl
  · refine ⟨b :: bs, fd, s.file.flags, rfl, ?_, hr.short _ _ _ _ hread⟩
    rw [← hflags]

lemma split_flags (flags : BitVec 32) : flags &&& ~~~fileFlagEof ||| flags &&& fileFlagEof = flags := by
  have hall : ~~~fileFlagEof ||| fileFlagEof = BitVec.allOnes 32 := by decide
  rw [← BitVec.and_or_distrib_left, hall, BitVec.and_allOnes]

lemma keep_flags {flags : BitVec 32} (h : flags &&& fileFlagEof = 0) : flags &&& ~~~fileFlagEof = flags := by
  have hsplit := split_flags flags
  rw [h] at hsplit
  simpa using hsplit

lemma setEof_clearEof {flags : BitVec 32} (h : flags &&& fileFlagEof ≠ 0) :
    flags &&& ~~~fileFlagEof ||| fileFlagEof = flags := by
  have hbit : fileFlagEof = BitVec.twoPow 32 1 := by decide
  have hset : flags &&& fileFlagEof = fileFlagEof := by
    rw [hbit, BitVec.and_twoPow] at h ⊢
    split_ifs at h ⊢ with hb
    · rfl
    · exact absurd rfl h
  have hsplit := split_flags flags
  rwa [hset] at hsplit

lemma Alike.filled_eq (h : Alike calls s t k) : s.file.readEnd - s.file.readPos = BitVec.ofNat 64 k ∧
    t.file.readEnd - t.file.readPos = BitVec.ofNat 64 k := by
  have hs := s.file.readEnd.isLt
  have ht := t.file.readEnd.isLt
  have hfs := h.filled
  have hft := h.filled'
  constructor
  · apply BitVec.eq_of_toNat_eq
    rw [BitVec.toNat_sub_of_le (BitVec.le_def.mpr (by omega)), BitVec.toNat_ofNat, Nat.mod_eq_of_lt (by omega)]
    omega
  · apply BitVec.eq_of_toNat_eq
    rw [BitVec.toNat_sub_of_le (BitVec.le_def.mpr (by omega)), BitVec.toNat_ofNat, Nat.mod_eq_of_lt (by omega)]
    omega

/-- Two streams of which one has noted the end of the file. -/
lemma Alike.readMore_ended (h : Alike calls s t k) (heof : s.file.flags &&& fileFlagEof ≠ 0)
    (hflags : t.file.flags = s.file.flags &&& ~~~fileFlagEof) (hk : k = 0)
    (hdry : ∀ m, calls.read s.fd m = (some [], s.fd)) (count : BitVec 64) :
    (readMore calls s count).1 = (readMore calls t count).1 ∧
      ∃ k', Alike calls (readMore calls s count).2 (readMore calls t count).2 k' := by
  have hone : (1 : BitVec 64) * count = count := BitVec.one_mul count
  obtain ⟨-, hkt⟩ := h.filled_eq
  rw [hk] at hkt
  have hclear : ¬ t.file.flags &&& fileFlagEof ≠ 0 := not_not.mpr (by rw [hflags]; exact clear_eof _)
  have hs : readMore calls s count = ((0, []), s) := by
    unfold Stream.readMore fread
    dsimp only
    rw [hone, if_pos heof]
    split_ifs <;> rfl
  have hback : t.file.flags ||| fileFlagEof = s.file.flags := by rw [hflags, setEof_clearEof heof]
  have hread : ∀ n, readBytesOf calls (t.setRead ungetBytes ungetBytes) n =
      ([], (t.setRead ungetBytes ungetBytes).raise fileFlagEof) := fun n => by
    have hdry' : calls.read (t.setRead ungetBytes ungetBytes).fd n = (some [], (t.setRead ungetBytes ungetBytes).fd) := by
      change calls.read t.fd n = (some [], t.fd)
      rw [h.fd, hdry]
    rw [readBytesOf, hdry']
  by_cases hzero : count = 0
  · have ht : readMore calls t count = ((0, []), t) := by
      unfold Stream.readMore fread
      dsimp only
      rw [hone, if_pos hzero]
    rw [hs, ht]
    exact ⟨rfl, k, h⟩
  have hsub : count - BitVec.ofNat 64 0 = count := BitVec.sub_zero count
  have hle : BitVec.ofNat 64 0 ≤ count := BitVec.le_def.mpr (Nat.zero_le _)
  rw [hs]
  unfold Stream.readMore fread
  dsimp only
  rw [hone, hkt, if_neg hzero, if_neg hclear, if_pos hle, hsub, if_neg hzero, hread, hread]
  have hdiv : (0#64 + 0#64) / 1 = 0 := by decide
  have hnone : readBytes t.file.buf t.file.readPos.toNat (0#64).toNat = [] := rfl
  have hend : s.file.readPos = s.file.readEnd := BitVec.eq_of_toNat_eq (by have := h.filled; omega)
  by_cases hdirect : count ≥ bufsiz - (t.setRead ungetBytes ungetBytes).file.readEnd ∨
      (t.setRead ungetBytes ungetBytes).file.flags &&& fileFlagBuffered = 0
  · rw [if_pos hdirect]
    dsimp only
    rw [List.length_nil, hdiv, hnone]
    exact ⟨rfl, 0, .empty h.fd hback hend rfl⟩
  · rw [if_neg hdirect]
    dsimp only
    have hpick : (if count > BitVec.ofNat 64 0 then BitVec.ofNat 64 0 else count) = 0#64 := by
      apply BitVec.eq_of_toNat_eq
      rw [toNat_lesser]
      exact Nat.min_zero _
    rw [List.length_nil, hpick, hdiv, hnone]
    exact ⟨rfl, 0, .empty h.fd hback hend rfl⟩

lemma Alike.readMore_same (hr : Reader calls) (h : Alike calls s t k) (hflags : t.file.flags = s.file.flags)
    (count : BitVec 64) : (readMore calls s count).1 = (readMore calls t count).1 ∧
      ∃ k', Alike calls (readMore calls s count).2 (readMore calls t count).2 k' := by
  obtain ⟨hks, hkt⟩ := h.filled_eq
  have hone : (1 : BitVec 64) * count = count := BitVec.one_mul count
  have hklt : k < 2 ^ 64 := by
    have := s.file.readEnd.isLt
    have := h.filled
    omega
  have hknat : (BitVec.ofNat 64 k).toNat = k := by rw [BitVec.toNat_ofNat, Nat.mod_eq_of_lt hklt]
  unfold Stream.readMore fread
  dsimp only
  rw [hone, hks, hkt, hflags]
  by_cases hzero : count = 0
  · rw [if_pos hzero, if_pos hzero]
    exact ⟨rfl, k, h⟩
  rw [if_neg hzero, if_neg hzero]
  by_cases heof : s.file.flags &&& fileFlagEof ≠ 0
  · rw [if_pos heof, if_pos heof]
    exact ⟨rfl, k, h⟩
  rw [if_neg heof, if_neg heof]
  by_cases hle : BitVec.ofNat 64 k ≤ count
  · rw [if_pos hle, if_pos hle, hknat, readBytes_congr h.bytes]
    by_cases hall : count - BitVec.ofNat 64 k = 0
    · rw [if_pos hall, if_pos hall]
      exact ⟨rfl, 0, .empty h.fd hflags rfl rfl⟩
    rw [if_neg hall, if_neg hall]
    by_cases hdirect : count - BitVec.ofNat 64 k ≥ bufsiz - (s.setRead ungetBytes ungetBytes).file.readEnd ∨
      (s.setRead ungetBytes ungetBytes).file.flags &&& fileFlagBuffered = 0
    · have hdirect' : count - BitVec.ofNat 64 k ≥ bufsiz - (t.setRead ungetBytes ungetBytes).file.readEnd ∨
          (t.setRead ungetBytes ungetBytes).file.flags &&& fileFlagBuffered = 0 := by
        change _ ∨ t.file.flags &&& fileFlagBuffered = 0
        rw [hflags]
        exact hdirect
      rw [if_pos hdirect, if_pos hdirect']
      obtain ⟨got, fd, flags, hs, ht, -⟩ := readBytesOf_alike hr (s.setRead ungetBytes ungetBytes)
        (t.setRead ungetBytes ungetBytes) h.fd hflags (count - BitVec.ofNat 64 k)
      rw [hs, ht]
      exact ⟨rfl, 0, .empty rfl rfl rfl rfl⟩
    · have hdirect' : ¬ (count - BitVec.ofNat 64 k ≥ bufsiz - (t.setRead ungetBytes ungetBytes).file.readEnd ∨
          (t.setRead ungetBytes ungetBytes).file.flags &&& fileFlagBuffered = 0) := by
        change ¬ (_ ∨ t.file.flags &&& fileFlagBuffered = 0)
        rw [hflags]
        exact hdirect
      rw [if_neg hdirect, if_neg hdirect']
      have h4088 : ∀ u : State σ, bufsiz - (u.setRead ungetBytes ungetBytes).file.readEnd = 4088 := fun u => by
        change bufsiz - ungetBytes = 4088
        decide
      rw [h4088, h4088]
      obtain ⟨got, fd, flags, hs, ht, hgot⟩ := readBytesOf_alike hr (s.setRead ungetBytes ungetBytes)
        (t.setRead ungetBytes ungetBytes) h.fd hflags 4088
      rw [hs, ht]
      dsimp only [State.setRead, State.setBuf]
      have hgotnat : (BitVec.ofNat 64 got.length).toNat = got.length := by
        change got.length ≤ 4088 at hgot
        rw [BitVec.toNat_ofNat]
        omega
      have hcopied := toNat_lesser (count - BitVec.ofNat 64 k) (BitVec.ofNat 64 got.length)
      rw [hgotnat] at hcopied
      change got.length ≤ 4088 at hgot
      generalize (if count - BitVec.ofNat 64 k > BitVec.ofNat 64 got.length then BitVec.ofNat 64 got.length
        else count - BitVec.ofNat 64 k) = copied at hcopied ⊢
      have hblit : ∀ i < got.length, blit t.file.buf ungetBytes.toNat (fun i => got.getD i 0) got.length
          (ungetBytes.toNat + i) = blit s.file.buf ungetBytes.toNat (fun i => got.getD i 0) got.length
          (ungetBytes.toNat + i) := fun i hi => by rw [blit_inside _ _ hi, blit_inside _ _ hi]
      rw [readBytes_congr fun i (hi : i < copied.toNat) => hblit i (by omega)]
      have h8 : ungetBytes.toNat = 8 := rfl
      have hpos := toNat_ungetBytes_add (a := copied) (by omega)
      have hend := toNat_ungetBytes_add (a := BitVec.ofNat 64 got.length) (by omega)
      rw [hgotnat] at hend
      refine ⟨rfl, got.length - copied.toNat, rfl, ?_, ?_, fun i hi => ?_, Or.inl rfl⟩
      · dsimp only
        omega
      · dsimp only
        omega
      · dsimp only
        rw [hpos, Nat.add_assoc]
        exact hblit _ (by omega)
  · rw [if_neg hle, if_neg hle]
    have hlt : count.toNat < k := by
      rw [BitVec.le_def, hknat] at hle
      omega
    have hfs := h.filled
    have hft := h.filled'
    have hends := s.file.readEnd.isLt
    have hendt := t.file.readEnd.isLt
    have hadds : (s.file.readPos + count).toNat = s.file.readPos.toNat + count.toNat := by
      rw [BitVec.toNat_add, Nat.mod_eq_of_lt (by omega)]
    have haddt : (t.file.readPos + count).toNat = t.file.readPos.toNat + count.toNat := by
      rw [BitVec.toNat_add, Nat.mod_eq_of_lt (by omega)]
    rw [readBytes_congr fun i (hi : i < count.toNat) => h.bytes i (by omega)]
    refine ⟨rfl, k - count.toNat, h.fd, ?_, ?_, fun i hi => ?_, Or.inl hflags⟩
    · dsimp only [State.setRead]
      omega
    · dsimp only [State.setRead]
      omega
    · dsimp only [State.setRead]
      rw [hadds, haddt, Nat.add_assoc, Nat.add_assoc]
      exact h.bytes _ (by omega)

lemma Alike.readMore (hr : Reader calls) (h : Alike calls s t k) (count : BitVec 64) :
    (readMore calls s count).1 = (readMore calls t count).1 ∧
      ∃ k', Alike calls (readMore calls s count).2 (readMore calls t count).2 k' := by
  rcases h.flags with hflags | ⟨heof, hflags, hk, hdry⟩
  · exact h.readMore_same hr hflags count
  · exact h.readMore_ended heof hflags hk hdry count

/-- What is read back is in the right order only if all of it is one byte, and that byte stood below. -/
lemma readBytes_pushBuf_iff {buf : Memory} {r : ℕ} {bs : List Byte} (hne : bs ≠ []) (hle : bs.length ≤ r) :
    readBytes (pushBuf buf r bs) (r - bs.length) bs.length = bs.reverse ↔
      ∃ b, (∀ x ∈ bs, x = b) ∧ buf (r - bs.length) = b := by
  have hpos : 0 < bs.length := List.length_pos_iff.mpr hne
  have hlow : pushBuf buf r bs (r - bs.length) = buf (r - bs.length) := pushBuf_outside (by omega)
  constructor
  · intro h
    have hat : ∀ i (hi : i < bs.length), pushBuf buf r bs (r - bs.length + i) = bs[bs.length - 1 - i] := by
      intro i hi
      have hi' : i < (readBytes (pushBuf buf r bs) (r - bs.length) bs.length).length := by rwa [length_readBytes]
      rw [← getElem_readBytes _ _ _ hi', List.getElem_of_eq h hi', List.getElem_reverse]
    have hsame : ∀ j (hj : j < bs.length), bs[j] = bs[0] := by
      intro j
      induction j with
      | zero => exact fun _ => rfl
      | succ j ih =>
        intro hj
        have hstep := hat (bs.length - 1 - j) (by omega)
        have hplace : r - bs.length + (bs.length - 1 - j) = r - (j + 1) := by omega
        rw [hplace, pushBuf_at hj hle] at hstep
        rw [hstep, ← ih (by omega)]
        congr 1
        omega
    refine ⟨bs[0], fun x hx => ?_, ?_⟩
    · obtain ⟨j, hj, rfl⟩ := List.getElem_of_mem hx
      exact hsame j hj
    · rw [← hlow, ← hsame (bs.length - 1) (by omega)]
      exact hat 0 hpos
  · rintro ⟨b, hall, hb⟩
    apply List.ext_getElem
    · rw [length_readBytes, List.length_reverse]
    · intro i h1 h2
      rw [length_readBytes] at h1
      rw [getElem_readBytes, hall _ (List.mem_reverse.mp (List.getElem_mem h2))]
      cases i with
      | zero => rw [Nat.add_zero, hlow, hb]
      | succ i =>
        have hplace : r - bs.length + (i + 1) = r - (bs.length - (i + 1)) := by omega
        rw [hplace, pushBuf_at (by omega) hle]
        exact hall _ (List.getElem_mem _)

lemma setWidth_injective : Function.Injective (BitVec.setWidth 32 : Byte → BitVec 32) := by
  intro a b h
  have hnat := congrArg BitVec.toNat h
  have ha := a.isLt
  have hb := b.isLt
  rw [BitVec.toNat_setWidth, BitVec.toNat_setWidth, Nat.mod_eq_of_lt (by omega), Nat.mod_eq_of_lt (by omega)] at hnat
  exact BitVec.eq_of_toNat_eq hnat

/-- The characters come out as they were pushed, and the stream is where it was, but for the buffer. -/
lemma Ready.fgetcs_push (h : Ready calls s) (hne : cs ≠ []) (hle : cs.length ≤ s.file.readPos.toNat) :
    fgetcs calls cs.length (s.push cs) =
      ((readBytes (pushBuf s.file.buf s.file.readPos.toNat (cs.map (BitVec.setWidth 8)))
        (s.file.readPos.toNat - cs.length) cs.length).map (BitVec.setWidth 32),
      if s.file.readPos = s.file.readEnd then (s.push cs).setRead ungetBytes ungetBytes
      else (s.push cs).setRead s.file.readPos s.file.readEnd) := by
  have hend := h.le
  have hhigh := h.high
  have hk : (BitVec.ofNat 64 cs.length).toNat = cs.length := by
    rw [BitVec.toNat_ofNat]
    omega
  have hpos : (s.push cs).file.readPos.toNat = s.file.readPos.toNat - cs.length := by
    change (s.file.readPos - BitVec.ofNat 64 cs.length).toNat = _
    rw [BitVec.toNat_sub_of_le (by rw [BitVec.le_def, hk]; exact hle), hk]
  have heof : (s.push cs).file.flags &&& fileFlagEof = 0 := by
    change (if cs = [] then s.file.flags else s.file.flags &&& ~~~fileFlagEof) &&& fileFlagEof = 0
    rw [if_neg hne, clear_eof]
  have hendSame : (s.push cs).file.readEnd = s.file.readEnd := rfl
  rw [fgetcs_buffered heof (by rw [hpos, hendSame]; omega), hpos, hendSame]
  have hback : (s.push cs).file.readPos + BitVec.ofNat 64 cs.length = s.file.readPos := BitVec.sub_add_cancel _ _
  have hiff : (cs.length ≠ 0 ∧ s.file.readPos.toNat - cs.length + cs.length = s.file.readEnd.toNat) ↔
      s.file.readPos = s.file.readEnd := by
    have hlen : cs.length ≠ 0 := fun h0 => hne (List.length_eq_zero_iff.mp h0)
    rw [Nat.sub_add_cancel hle, and_iff_right hlen]
    exact ⟨BitVec.eq_of_toNat_eq, congrArg BitVec.toNat⟩
  rw [hback, if_congr hiff rfl rfl]
  rfl

/-- The byte that would have been read next is the one that was pushed back first. -/
def NextIs (s : State σ) (b : Byte) : Prop := s.file.readPos ≠ s.file.readEnd → s.file.buf s.file.readPos.toNat = b

/-- What is read after the characters that were pushed back is what would have been read without them, if and only if
the byte under the first of them is the same. -/
lemma Ready.rest_iff (hr : Reader calls) (h : Ready calls s) {c : BitVec 32}
    (hle : (c :: cs).length ≤ s.file.readPos.toNat) :
    (∀ counts, outputs (readMore calls) (fgetcs calls (c :: cs).length (s.push (c :: cs))).2 counts =
      outputs (readMore calls) s counts) ↔ NextIs s (c.setWidth 8) := by
  have hfirst : (s.push (c :: cs)).file.buf s.file.readPos.toNat = c.setWidth 8 := by
    have hsome : 0 < ((c :: cs).map (BitVec.setWidth 8 : BitVec 32 → Byte)).length := by simp
    exact pushBuf_at hsome (by rwa [List.length_map])
  rw [h.fgetcs_push (List.cons_ne_nil c cs) hle]
  have hsle := h.le
  constructor
  · intro hall hne
    have hlt : s.file.readPos.toNat < s.file.readEnd.toNat :=
      lt_of_le_of_ne hsle fun heq => hne (BitVec.eq_of_toNat_eq heq)
    have heof : s.file.flags &&& fileFlagEof = 0 := by
      by_contra hset
      exact hne (h.atEnd hset).1
    have hone := hall [1]
    rw [if_neg hne] at hone
    have hclear : ((s.push (c :: cs)).setRead s.file.readPos s.file.readEnd).file.flags &&& fileFlagEof = 0 :=
      clear_eof s.file.flags
    have hs : readMore calls s 1 = ((1, [s.file.buf s.file.readPos.toNat]), s.step) := fread_buffered heof hlt
    have ht : Stream.fread calls ((s.push (c :: cs)).setRead s.file.readPos s.file.readEnd) 1 1 = _ :=
      fread_buffered hclear hlt
    rw [outputs, outputs, outputs, outputs, hs] at hone
    change [(Stream.fread calls _ 1 1).1] = _ at hone
    rw [ht] at hone
    have hbyte := (List.cons.inj (Prod.mk.inj (List.cons.inj hone).1).2).1
    rw [← hfirst]
    exact hbyte.symm
  · intro hnext counts
    have hflags : (s.push (c :: cs)).file.flags = s.file.flags ∨ (s.file.flags &&& fileFlagEof ≠ 0 ∧
        (s.push (c :: cs)).file.flags = s.file.flags &&& ~~~fileFlagEof ∧
        s.file.readEnd.toNat - s.file.readPos.toNat = 0 ∧ ∀ m, calls.read s.fd m = (some [], s.fd)) := by
      by_cases hset : s.file.flags &&& fileFlagEof = 0
      · exact Or.inl (keep_flags hset)
      · obtain ⟨heq, hdry⟩ := h.atEnd hset
        exact Or.inr ⟨hset, rfl, by rw [heq, Nat.sub_self], hdry⟩
    have halike : Alike calls s (if s.file.readPos = s.file.readEnd then
        (s.push (c :: cs)).setRead ungetBytes ungetBytes else (s.push (c :: cs)).setRead s.file.readPos s.file.readEnd)
        (s.file.readEnd.toNat - s.file.readPos.toNat) := by
      split_ifs with heq
      · rw [heq, Nat.sub_self] at hflags ⊢
        exact ⟨rfl, by rw [heq, Nat.add_zero], rfl, fun i hi => absurd hi (Nat.not_lt_zero i), hflags⟩
      · refine ⟨rfl, by omega, ?_, fun i hi => ?_, hflags⟩
        · dsimp only [State.setRead]
          omega
        · dsimp only [State.setRead]
          cases i with
          | zero => rw [Nat.add_zero, hfirst, hnext heq]
          | succ i => exact pushBuf_outside (by omega)
    refine (simulation (R := fun s t => ∃ k, Alike calls s t k) ⟨_, halike⟩ (fun s t count h => ?_) counts).1.symm
    obtain ⟨k, h⟩ := h
    exact h.readMore hr count

/-- Pushing characters back is undone by reading them if and only if all of them are one byte, which stood below them in
the buffer and is also the next one to be read. -/
theorem ungetc_undone_iff (hr : Reader calls) (stale : Memory) (fd : σ) {uses : List Use}
    (hrun : Run (Uses calls fuel) (fdopen stale fd) uses s) (hc : ∀ c ∈ cs, c ≠ eof)
    (hle : cs.length ≤ s.file.readPos.toNat) :
    Undone calls fuel s cs ↔ cs = [] ∨ ∃ b, (∀ c ∈ cs, c.setWidth 8 = b) ∧
      s.file.buf (s.file.readPos.toNat - cs.length) = b ∧ NextIs s b := by
  have h : Ready calls s := hrun.invariant (fun s u t h hu => h.use hr hu) (fdopen_ready stale fd)
  have hpush : Undone calls fuel s cs ↔ (fgetcs calls cs.length (s.push cs)).1 = cs.reverse.map unsignedChar ∧
      ∀ counts, outputs (readMore calls) (fgetcs calls cs.length (s.push cs)).2 counts =
        outputs (readMore calls) s counts := by
    constructor
    · rintro ⟨t, hp, hout, hrest⟩
      rw [pushed_iff h.written hc hle h.inside] at hp
      rw [← hp]
      exact ⟨hout, hrest⟩
    · rintro ⟨hout, hrest⟩
      exact ⟨s.push cs, (pushed_iff h.written hc hle h.inside).mpr rfl, hout, hrest⟩
  rw [hpush]
  cases cs with
  | nil =>
    have hself : s.push [] = s := by
      have hpos : s.file.readPos - BitVec.ofNat 64 0 = s.file.readPos := BitVec.sub_zero _
      rw [State.push, List.length_nil, hpos]
      rfl
    rw [hself]
    exact iff_of_true ⟨rfl, fun counts => rfl⟩ (Or.inl rfl)
  | cons c cs =>
    have hne : c :: cs ≠ [] := List.cons_ne_nil c cs
    have hlen : ((c :: cs).map (BitVec.setWidth 8)).length = (c :: cs).length := List.length_map _
    have hmap : (c :: cs).reverse.map unsignedChar =
        ((c :: cs).map (BitVec.setWidth 8)).reverse.map (BitVec.setWidth 32) := by
      rw [← List.map_reverse, List.map_map]
      rfl
    have hsome : (c :: cs).map (BitVec.setWidth 8 : BitVec 32 → Byte) ≠ [] := by simp
    have hback := @readBytes_pushBuf_iff s.file.buf s.file.readPos.toNat _ hsome (by rwa [hlen])
    rw [hlen] at hback
    rw [h.rest_iff hr hle, h.fgetcs_push hne hle, hmap, (List.map_injective_iff.mpr setWidth_injective).eq_iff, hback]
    constructor
    · rintro ⟨⟨b, hall, hb⟩, hnext⟩
      rw [List.forall_mem_map] at hall
      rw [hall c List.mem_cons_self] at hnext
      exact Or.inr ⟨b, hall, hb, hnext⟩
    · rintro (hnil | ⟨b, hall, hb, hnext⟩)
      · exact absurd hnil hne
      · refine ⟨⟨b, List.forall_mem_map.mpr hall, hb⟩, ?_⟩
        rwa [hall c List.mem_cons_self]

end Reading

/-- A regular file keeps to what is documented. -/
lemma regularCalls_reader : Reader regularCalls := by
  refine ⟨fun fd n got fd' h => ?_, fun fd n fd' hn h m => ?_, fun fd offset whence h => ?_⟩
  · obtain rfl : fd.next n.toNat = got := Option.some.inj (Prod.mk.inj h).1
    exact List.length_take_le _ _
  · obtain ⟨hgot, rfl⟩ := Prod.mk.inj h
    have hnil : fd.next n.toNat = [] := Option.some.inj hgot
    have hpos : n.toNat ≠ 0 := fun h0 => hn (BitVec.eq_of_toNat_eq h0)
    have hdone : fd.content.drop fd.offset = [] := (List.take_eq_nil_iff.mp hnil).resolve_left hpos
    have hmore : ∀ k, fd.next k = [] := fun k => by rw [RegularFile.next, hdone, List.take_nil]
    have hsame : ({ fd with offset := fd.offset + (fd.next n.toNat).length } : RegularFile) = fd := by
      rw [hnil]
      rfl
    rw [hsame]
    change (some (fd.next m.toNat), { fd with offset := fd.offset + (fd.next m.toNat).length }) = _
    rw [hmore]
    rfl
  · cases htarget : seekTarget fd.content.length fd.offset offset whence with
    | none => rw [lseek_none htarget]
    | some p =>
      rw [lseek_some htarget, slt_zero_of_lt (seekTarget_lt htarget)] at h
      cases h

/-- The stream of a file after its first character has been read. -/
def opened (content : List Byte) : State RegularFile := (fgetc regularCalls (fdopen (fun _ => 0) ⟨content, 0⟩)).2

theorem ungetc_undone_repeated : Undone regularCalls 0 (opened [0x61, 0x61]) [0x61] := by
  have hrun : Run (Uses regularCalls 0) (fdopen (fun _ => 0) ⟨[0x61, 0x61], 0⟩) [.fgetc] (opened [0x61, 0x61]) :=
    .single rfl
  have hc : ∀ c ∈ [(0x61 : BitVec 32)], c ≠ eof := fun c hc => by
    rw [List.mem_singleton.mp hc]
    decide
  have hbyte : ∀ c ∈ [(0x61 : BitVec 32)], c.setWidth 8 = (0x61 : Byte) := fun c hc => by
    rw [List.mem_singleton.mp hc]
    decide
  have hpos : (opened [0x61, 0x61]).file.readPos.toNat = 9 := by decide +kernel
  have hread : (opened [0x61, 0x61]).file.buf 8 = 0x61 := by decide +kernel
  have hnext : (opened [0x61, 0x61]).file.buf 9 = 0x61 := by decide +kernel
  refine (ungetc_undone_iff regularCalls_reader (fun _ => 0) ⟨[0x61, 0x61], 0⟩ hrun hc (by rw [hpos]; decide)).mpr
    (Or.inr ⟨0x61, hbyte, ?_, fun _ => ?_⟩)
  · rw [hpos]
    exact hread
  · rw [hpos]
    exact hnext

/-- After the `a` of `ab` has been read, an `x` that is pushed back takes the place of the `b`, and `a` is read again. -/
theorem ungetc_overwrites : ((ungetc regularCalls 0 (opened [0x61, 0x62]) 0x78).map fun r =>
    (fgetcs regularCalls 2 r.2).1) = some [0x61, 0x78] ∧ ¬ Undone regularCalls 0 (opened [0x61, 0x62]) [0x78] := by
  have hread : ((ungetc regularCalls 0 (opened [0x61, 0x62]) 0x78).map fun r =>
      (fgetcs regularCalls 2 r.2).1) = some [0x61, 0x78] := by decide +kernel
  refine ⟨hread, ?_⟩
  rintro ⟨t, hp, hout, -⟩
  cases hp with
  | cons inside accepted taken rest =>
    cases rest
    rw [accepted, Option.map_some, fgetcs] at hread
    have hfirst := (List.cons.inj (Option.some.inj hread)).1
    have hpushed := (List.cons.inj hout).1
    dsimp only at hfirst hpushed
    rw [hfirst] at hpushed
    exact absurd hpushed (by decide)

end PiggyOs.Stream
