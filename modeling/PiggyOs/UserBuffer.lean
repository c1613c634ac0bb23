import PiggyOs.StreamReading
import PiggyOs.Transition

/-! Streams with a buffer that the caller has supplied: the parts of it that the calls read or write, and what is passed
to `free`. -/
namespace PiggyOs.Stream
open ByteMemory Transition

def fileFlagUserBuffer : BitVec 32 := 16
def fileFlagLinebuffer : BitVec 32 := 32

def ioFbf : BitVec 32 := 0
def ioLbf : BitVec 32 := 1
def ioNbf : BitVec 32 := 2

/-- A stream with the address of its buffer and the size that is noted for it. -/
structure Handle (σ : Type*) where
  state : State σ
  block : ℕ
  bufSize : BitVec 64

/-- A part of the buffer of the stream is read or written, or a block is passed to `free`. -/
inductive Event
  | touch (lo hi : ℕ)
  | free (block : ℕ)

section Functions
variable {σ : Type*} (calls : Calls σ)

def setFlags (flags type : BitVec 32) : Option (BitVec 32) :=
  if type = ioFbf then some ((flags ||| fileFlagBuffered) &&& ~~~fileFlagLinebuffer)
  else if type = ioLbf then some (flags ||| (fileFlagBuffered ||| fileFlagLinebuffer))
  else if type = ioNbf then some (flags &&& ~~~(fileFlagBuffered ||| fileFlagLinebuffer))
  else none

/-- The result, what is passed to `free`, and the stream; `contents` is what `buffer` holds, which is 0 for `NULL`. -/
def setvbuf (h : Handle σ) (buffer : ℕ) (contents : Memory) (type : BitVec 32) (size : BitVec 64) :
    BitVec 32 × List Event × Handle σ :=
  match setFlags h.state.file.flags type with
  | none => (-1, [], h)
  | some flags =>
      let s := { h.state with file := { h.state.file with flags := flags } }
      if buffer ≠ 0 ∧ size ≥ ungetBytes then
        (0, if flags &&& fileFlagUserBuffer = 0 then [.free h.block] else [],
          { state := { s with file := { s.file with flags := flags ||| fileFlagUserBuffer, buf := contents } }
            block := buffer
            bufSize := size })
      else (0, [], { h with state := s })

/-- What `fread` touches of the buffer. -/
def freadTouches (s : State σ) (size count : BitVec 64) : List Event :=
  let bytes := size * count
  if bytes = 0 then []
  else if s.file.flags &&& fileFlagEof ≠ 0 then []
  else
    let bufFilled := s.file.readEnd - s.file.readPos
    if bufFilled ≤ bytes then
      let remaining := bytes - bufFilled
      .touch s.file.readPos.toNat (s.file.readPos.toNat + bufFilled.toNat) ::
        if remaining = 0 ∨ remaining ≥ bufsiz - ungetBytes ∨ s.file.flags &&& fileFlagBuffered = 0 then []
        else
          let got := (readBytesOf calls (s.setRead ungetBytes ungetBytes) (bufsiz - ungetBytes)).1.length
          [.touch 8 (8 + got), .touch 8 (8 + min remaining.toNat got)]
    else [.touch s.file.readPos.toNat (s.file.readPos.toNat + bytes.toNat)]

/-- What `fwrite` touches after it has made room. -/
def storeTouches (fuel : ℕ) (s : State σ) (p : Memory) (bytes : BitVec 64) : List Event :=
  let i := upToNewline p bytes.toNat
  let writePos := s.file.writePos.toNat
  if bytes > bufsiz then []
  else if s.file.flags &&& fileFlagTty ≠ 0 ∧ 0 < i then
    .touch writePos (writePos + i) :: .touch 0 (writePos + i) ::
      let s := s.setBuf (blit s.file.buf writePos p i)
      match writeBytesOf calls fuel s (readBytes s.file.buf 0 (writePos + i)) 0 with
      | none => []
      | some r => if r.1 < writePos + i then [] else [.touch 0 (bytes.toNat - i)]
  else [.touch writePos (writePos + bytes.toNat)]

def fwriteTouches (fuel : ℕ) (s : State σ) (p : Memory) (size count : BitVec 64) : List Event :=
  let bytes := size * count
  if bytes = 0 then []
  else if s.file.flags &&& fileFlagBuffered = 0 then []
  else if bytes > bufsiz - s.file.writePos then
    .touch 0 s.file.writePos.toNat ::
      match writeBytesOf calls fuel s (readBytes s.file.buf 0 s.file.writePos.toNat) 0 with
      | none => []
      | some r => if r.1 < s.file.writePos.toNat then [] else storeTouches calls fuel (r.2.setWritePos 0) p bytes
  else storeTouches calls fuel s p bytes

/-- What `fflush` touches, if its call of `lseek` goes well or is not made. -/
def fflushTouches (s : State σ) : List Event :=
  if s.file.readPos ≠ 0 ∧ (calls.lseek s.fd (-(s.file.readEnd - s.file.readPos)) .seekCur).1.slt 0 then []
  else if s.file.writePos ≠ 0 then [.touch 0 s.file.writePos.toNat] else []

inductive Operation
  | fread (size count : BitVec 64)
  | fwrite (p : Memory) (size count : BitVec 64)
  | fputc (c : BitVec 32)
  | fgetc
  | fflush
  | fclose

def Handle.events (fuel : ℕ) (h : Handle σ) : Operation → List Event
  | .fread size count => freadTouches calls h.state size count
  | .fwrite p size count => fwriteTouches calls fuel h.state p size count
  | .fputc c => fwriteTouches calls fuel h.state (fun _ => c.setWidth 8) 1 1
  | .fgetc => freadTouches calls h.state 1 1
  | .fflush => fflushTouches calls h.state
  | .fclose => fflushTouches calls h.state ++
      match fflush calls fuel h.state with
      | none => []
      | some _ => [.free h.block]

/-- The stream after a call that returns; there is none after `fclose`. -/
def Handle.after (fuel : ℕ) (h : Handle σ) : Operation → Option (Handle σ)
  | .fread size count => some { h with state := (fread calls h.state size count).2 }
  | .fwrite p size count => (fwrite calls fuel h.state p size count).map fun r => { h with state := r.2 }
  | .fputc c => (fputc calls fuel h.state c).map fun r => { h with state := r.2 }
  | .fgetc => some { h with state := (fgetc calls h.state).2 }
  | .fflush => (fflush calls fuel h.state).map fun r => { h with state := r.2 }
  | .fclose => none

/-- No byte of the buffer at `buffer` at or beyond `size` is touched, and it is not freed. -/
def Event.Respects (block buffer size : ℕ) : Event → Prop
  | .touch lo hi => block = buffer → lo = hi ∨ hi ≤ size
  | .free freed => freed ≠ buffer

/-- All calls of the kind `P`, after any such calls. -/
def Respected (P : Operation → Prop) (fuel : ℕ) (h : Handle σ) (buffer size : ℕ) : Prop :=
  ∀ ops h', Run (fun h op h' => P op ∧ Handle.after calls fuel h op = some h') h ops h' → ∀ op, P op →
    ∀ e ∈ h'.events calls fuel op, e.Respects h'.block buffer size

end Functions

/-- What is documented of `read`. -/
def Short {σ : Type*} (calls : Calls σ) : Prop :=
  ∀ fd n got fd', calls.read fd n = (some got, fd') → got.length ≤ n.toNat

/-- The positions of a stream. -/
structure Sound (f : File) : Prop where
  le : f.readPos.toNat ≤ f.readEnd.toNat
  low : 8 ≤ f.readEnd.toNat
  high : f.readEnd.toNat ≤ 4096
  writePos : f.writePos.toNat ≤ 4096
  atEnd : f.flags &&& fileFlagEof ≠ 0 → f.readPos = f.readEnd

/-- The positions are good for a buffer of `n` bytes. -/
structure Fits (n : ℕ) (f : File) : Prop extends Sound f where
  unread : f.readPos = f.readEnd ∨ f.readEnd.toNat ≤ n
  written : f.writePos.toNat ≤ n
  room : 4096 ≤ n ∨ f.flags &&& fileFlagBuffered = 0

section Positions
variable {σ : Type*} {calls : Calls σ} {s t : State σ} {f : File} {fuel n : ℕ}

lemma fdopen_sound (stale : Memory) (fd : σ) : Sound (fdopen stale fd).file := by
  have h8 : ungetBytes.toNat = 8 := rfl
  exact ⟨le_rfl, h8.ge, h8.trans_le (by norm_num), Nat.zero_le _, fun _ => rfl⟩

lemma Sound.fits (h : Sound f) (hn : 4096 ≤ n) : Fits n f :=
  ⟨h, Or.inr (h.high.trans hn), h.writePos.trans hn, Or.inl hn⟩

/-- The flags for the end of the file and for the buffer are what matters. -/
lemma Fits.setFlags (h : Fits n f) {flags : BitVec 32} (heof : flags &&& fileFlagEof ≠ 0 → f.readPos = f.readEnd)
    (hbuf : flags &&& fileFlagBuffered = f.flags &&& fileFlagBuffered) : Fits n { f with flags := flags } :=
  ⟨⟨h.le, h.low, h.high, h.writePos, heof⟩, h.unread, h.written, hbuf ▸ h.room⟩

/-- The buffer has been emptied or not filled yet. -/
lemma Fits.setRead (h : Fits n f) (pos : BitVec 64) (hpos : pos.toNat ≤ 4096) (hlow : 8 ≤ pos.toNat) :
    Fits n { f with readPos := pos, readEnd := pos } :=
  ⟨⟨le_rfl, hlow, hpos, h.writePos, fun _ => rfl⟩, Or.inl rfl, h.written, h.room⟩

lemma Fits.setBuf (h : Fits n f) (buf : Memory) : Fits n { f with buf := buf } :=
  ⟨⟨h.le, h.low, h.high, h.writePos, h.atEnd⟩, h.unread, h.written, h.room⟩

lemma Fits.setWritePos (h : Fits n f) {pos : BitVec 64} (hpos : pos.toNat ≤ 4096) (hn : pos.toNat ≤ n) :
    Fits n { f with writePos := pos } :=
  ⟨⟨h.le, h.low, h.high, hpos, h.atEnd⟩, h.unread, hn, h.room⟩

lemma or_error_eof (flags : BitVec 32) : (flags ||| fileFlagError) &&& fileFlagEof = flags &&& fileFlagEof := by
  have hnone : fileFlagError &&& fileFlagEof = 0#32 := by decide
  rw [BitVec.and_or_distrib_right, hnone, BitVec.or_zero]

lemma or_error_buffered (flags : BitVec 32) :
    (flags ||| fileFlagError) &&& fileFlagBuffered = flags &&& fileFlagBuffered := by
  have hnone : fileFlagError &&& fileFlagBuffered = 0#32 := by decide
  rw [BitVec.and_or_distrib_right, hnone, BitVec.or_zero]

lemma or_eof_buffered (flags : BitVec 32) :
    (flags ||| fileFlagEof) &&& fileFlagBuffered = flags &&& fileFlagBuffered := by
  have hnone : fileFlagEof &&& fileFlagBuffered = 0#32 := by decide
  rw [BitVec.and_or_distrib_right, hnone, BitVec.or_zero]

lemma Fits.raiseError (h : Fits n f) : Fits n { f with flags := f.flags ||| fileFlagError } :=
  h.setFlags (by rw [or_error_eof]; exact h.atEnd) (or_error_buffered _)

lemma readBytesOf_short (hshort : Short calls) (s : State σ) (n : BitVec 64) : ∃ got fd flags,
    readBytesOf calls s n = (got, { s with file := { s.file with flags := flags }, fd := fd }) ∧ got.length ≤ n.toNat ∧
      flags &&& fileFlagBuffered = s.file.flags &&& fileFlagBuffered ∧
      (flags &&& fileFlagEof ≠ 0 → s.file.flags &&& fileFlagEof = 0 → got = []) := by
  rw [readBytesOf]
  rcases hread : calls.read s.fd n with ⟨_ | _ | ⟨b, bs⟩, fd⟩
  · exact ⟨[], fd, s.file.flags ||| fileFlagError, rfl, Nat.zero_le _, or_error_buffered _, fun _ _ => rfl⟩
  · exact ⟨[], fd, s.file.flags ||| fileFlagEof, rfl, Nat.zero_le _, or_eof_buffered _, fun _ _ => rfl⟩
  · exact ⟨b :: bs, fd, s.file.flags, rfl, hshort _ _ _ _ hread, rfl, fun hset hclear => absurd hclear hset⟩

lemma writeBytesOf_file {buf : List Byte} {w : ℕ} {r : ℕ × State σ} (hw : writeBytesOf calls fuel s buf w = some r) :
    r.2.file = s.file ∨ r.2.file = { s.file with flags := s.file.flags ||| fileFlagError } := by
  induction fuel generalizing s buf w with
  | zero => cases hw
  | succ fuel ih =>
    rw [writeBytesOf] at hw
    dsimp only at hw
    split_ifs at hw
    · cases hw
      exact Or.inl rfl
    · cases hw
      exact Or.inr rfl
    · have hrest := ih hw
      exact hrest

lemma Fits.writeBytesOf (h : Fits n s.file) {buf : List Byte} {w : ℕ} {r : ℕ × State σ}
    (hw : writeBytesOf calls fuel s buf w = some r) : Fits n r.2.file := by
  rcases writeBytesOf_file hw with hfile | hfile
  · rwa [hfile]
  · rw [hfile]
    exact h.raiseError

/-- The touched parts lie within the first `n` bytes. -/
def Inside (n : ℕ) (events : List Event) : Prop := ∀ e ∈ events, ∃ lo hi, e = .touch lo hi ∧ (lo = hi ∨ hi ≤ n)

lemma inside_nil (n : ℕ) : Inside n [] := fun _ h => absurd h List.not_mem_nil

lemma inside_cons {lo hi : ℕ} {events : List Event} (h : lo = hi ∨ hi ≤ n) (hrest : Inside n events) :
    Inside n (.touch lo hi :: events) :=
  List.forall_mem_cons.mpr ⟨⟨lo, hi, rfl, h⟩, hrest⟩

lemma Fits.filled (h : Fits n f) : (f.readEnd - f.readPos).toNat = f.readEnd.toNat - f.readPos.toNat :=
  BitVec.toNat_sub_of_le (BitVec.le_def.mpr h.le)

lemma Fits.hi_le (h : Fits n f) {m : ℕ} (hm : m ≤ f.readEnd.toNat - f.readPos.toNat) :
    f.readPos.toNat = f.readPos.toNat + m ∨ f.readPos.toNat + m ≤ n := by
  have hle := h.le
  rcases h.unread with heq | hend
  · rw [heq] at hm
    omega
  · omega

/-- What `fread` touches lies inside, and the positions stay good. -/
lemma Fits.freadTouches (hshort : Short calls) (h : Fits n s.file) (size count : BitVec 64) :
    Inside n (freadTouches calls s size count) := by
  unfold Stream.freadTouches
  dsimp only
  by_cases hzero : size * count = 0
  · rw [if_pos hzero]
    exact inside_nil n
  rw [if_neg hzero]
  by_cases heof : s.file.flags &&& fileFlagEof ≠ 0
  · rw [if_pos heof]
    exact inside_nil n
  rw [if_neg heof]
  have hfilled := h.filled
  by_cases hle : s.file.readEnd - s.file.readPos ≤ size * count
  · rw [if_pos hle]
    refine inside_cons (h.hi_le hfilled.le) ?_
    split_ifs with hdirect
    · exact inside_nil n
    · have hbuffered : ¬ s.file.flags &&& fileFlagBuffered = 0 := fun hb => hdirect (Or.inr (Or.inr hb))
      have hroom := h.room.resolve_right hbuffered
      obtain ⟨got, fd, flags, hread, hlen, -, -⟩ := readBytesOf_short hshort (s.setRead ungetBytes ungetBytes)
        (bufsiz - ungetBytes)
      have h4088 : (bufsiz - ungetBytes).toNat = 4088 := by decide
      rw [h4088] at hlen
      rw [hread]
      exact inside_cons (Or.inr (by dsimp only; omega)) (inside_cons (Or.inr (by dsimp only; omega)) (inside_nil n))
  · rw [if_neg hle]
    refine inside_cons (h.hi_le ?_) (inside_nil n)
    rw [BitVec.le_def] at hle
    omega

lemma Fits.fread (hshort : Short calls) (h : Fits n s.file) (size count : BitVec 64) :
    Fits n (fread calls s size count).2.file := by
  have h8 : ungetBytes.toNat = 8 := rfl
  have hempty : Fits n { s.file with readPos := ungetBytes, readEnd := ungetBytes } :=
    h.setRead ungetBytes (h8.trans_le (by norm_num)) h8.ge
  unfold Stream.fread
  dsimp only
  by_cases hzero : size * count = 0
  · rw [if_pos hzero]
    exact h
  rw [if_neg hzero]
  by_cases heof : s.file.flags &&& fileFlagEof ≠ 0
  · rw [if_pos heof]
    exact h
  rw [if_neg heof]
  by_cases hle : s.file.readEnd - s.file.readPos ≤ size * count
  · rw [if_pos hle]
    by_cases hall : size * count - (s.file.readEnd - s.file.readPos) = 0
    · rw [if_pos hall]
      exact hempty
    rw [if_neg hall]
    by_cases hdirect : size * count - (s.file.readEnd - s.file.readPos) ≥
        bufsiz - (s.setRead ungetBytes ungetBytes).file.readEnd ∨
      (s.setRead ungetBytes ungetBytes).file.flags &&& fileFlagBuffered = 0
    · rw [if_pos hdirect]
      obtain ⟨got, fd, flags, hread, -, hbuf, -⟩ := readBytesOf_short hshort (s.setRead ungetBytes ungetBytes)
        (size * count - (s.file.readEnd - s.file.readPos))
      rw [hread]
      exact hempty.setFlags (fun _ => rfl) hbuf
    · rw [if_neg hdirect]
      have hroom := h.room.resolve_right fun hb => hdirect (Or.inr hb)
      have h4088 : bufsiz - (s.setRead ungetBytes ungetBytes).file.readEnd = 4088 := by
        change bufsiz - ungetBytes = 4088
        decide
      obtain ⟨got, fd, flags, hread, hlen, hbuf, hend⟩ :=
        readBytesOf_short hshort (s.setRead ungetBytes ungetBytes) 4088
      rw [h4088, hread]
      dsimp only [State.setBuf, State.setRead]
      have hgot : (BitVec.ofNat 64 got.length).toNat = got.length := by
        change got.length ≤ 4088 at hlen
        rw [BitVec.toNat_ofNat]
        omega
      change got.length ≤ 4088 at hlen
      have hcopied := toNat_lesser (size * count - (s.file.readEnd - s.file.readPos)) (BitVec.ofNat 64 got.length)
      rw [hgot] at hcopied
      generalize (if size * count - (s.file.readEnd - s.file.readPos) > BitVec.ofNat 64 got.length then
        BitVec.ofNat 64 got.length else size * count - (s.file.readEnd - s.file.readPos)) = copied at hcopied ⊢
      have hpos : (ungetBytes + copied).toNat = 8 + copied.toNat := by
        rw [BitVec.toNat_add, h8, Nat.mod_eq_of_lt (by omega)]
      have hendNat : (ungetBytes + BitVec.ofNat 64 got.length).toNat = 8 + got.length := by
        rw [BitVec.toNat_add, h8, hgot, Nat.mod_eq_of_lt (by omega)]
      refine ⟨⟨?_, ?_, ?_, h.writePos, fun he => ?_⟩, Or.inr ?_, h.written, Or.inl hroom⟩
      · dsimp only
        omega
      · dsimp only
        omega
      · dsimp only
        omega
      · have hnone := hend he (not_not.mp heof)
        refine congrArg (ungetBytes + ·) (BitVec.eq_of_toNat_eq ?_)
        rw [hcopied, hgot, hnone]
        exact Nat.min_zero _
      · dsimp only
        omega
  · rw [if_neg hle]
    have hfilled := h.filled
    have hlt : (size * count).toNat < s.file.readEnd.toNat - s.file.readPos.toNat := by
      rw [BitVec.le_def] at hle
      omega
    have hhigh := h.high
    have hadd : (s.file.readPos + size * count).toNat = s.file.readPos.toNat + (size * count).toNat := by
      rw [BitVec.toNat_add, Nat.mod_eq_of_lt (by omega)]
    refine ⟨⟨?_, h.low, hhigh, h.writePos, fun he => absurd he heof⟩, Or.inr ?_, h.written, h.room⟩
    · dsimp only [State.setRead]
      omega
    · rcases h.unread with heq | hend
      · rw [heq] at hlt
        omega
      · exact hend

/-- The last part of `fwrite`, after it has made room. -/
def store (calls : Calls σ) (fuel : ℕ) (s : State σ) (p : Memory) (size count : BitVec 64) :
    Option (BitVec 64 × State σ) :=
  let bytes := size * count
  if bytes > bufsiz then
    (writeBytesOf calls fuel s (readBytes p 0 bytes.toNat) 0).map fun r => (BitVec.ofNat 64 r.1 / size, r.2)
  else
    let i := upToNewline p bytes.toNat
    if s.file.flags &&& fileFlagTty ≠ 0 ∧ 0 < i then
      let s := s.setBuf (blit s.file.buf s.file.writePos.toNat p i)
      (writeBytesOf calls fuel s (readBytes s.file.buf 0 (s.file.writePos.toNat + i)) 0).map fun r =>
        if r.1 < s.file.writePos.toNat + i then
          (BitVec.ofNat 64 (r.1 - s.file.writePos.toNat) / size, r.2.setWritePos 0)
        else (count, keepRest (r.2.setWritePos 0) p bytes.toNat i)
    else some (count, keepRest s p bytes.toNat 0)

lemma fwrite_eq (s : State σ) (p : Memory) (size count : BitVec 64) : fwrite calls fuel s p size count =
    if size * count = 0 then some (0, s)
    else if s.file.flags &&& fileFlagBuffered = 0 then
      (writeBytesOf calls fuel s (readBytes p 0 (size * count).toNat) 0).map fun r => (BitVec.ofNat 64 r.1 / size, r.2)
    else
      (if size * count > bufsiz - s.file.writePos then
        (writeBytesOf calls fuel s (readBytes s.file.buf 0 s.file.writePos.toNat) 0).map fun r =>
          (decide (r.1 < s.file.writePos.toNat), r.2.setWritePos 0)
      else some (false, s)).bind fun (failed, s) =>
        if failed then some (0, s) else store calls fuel s p size count := rfl

/-- There is room for what is stored. -/
def Roomy (s : State σ) (bytes : BitVec 64) : Prop :=
  bytes.toNat ≤ 4096 → s.file.writePos.toNat + bytes.toNat ≤ 4096

lemma storeTouches_inside (hn : 4096 ≤ n) {bytes : BitVec 64} (hroomy : Roomy s bytes) (p : Memory) :
    Inside n (storeTouches calls fuel s p bytes) := by
  have h4096 : bufsiz.toNat = 4096 := rfl
  have hi := upToNewline_le p bytes.toNat
  unfold storeTouches
  dsimp only
  by_cases hlarge : bytes > bufsiz
  · rw [if_pos hlarge]
    exact inside_nil n
  rw [if_neg hlarge]
  rw [gt_iff_lt, BitVec.lt_def, h4096, not_lt] at hlarge
  have hfit := hroomy hlarge
  by_cases hline : s.file.flags &&& fileFlagTty ≠ 0 ∧ 0 < upToNewline p bytes.toNat
  · rw [if_pos hline]
    refine inside_cons (Or.inr (by omega)) (inside_cons (Or.inr (by omega)) ?_)
    cases writeBytesOf calls fuel (s.setBuf (blit s.file.buf s.file.writePos.toNat p (upToNewline p bytes.toNat)))
        (readBytes (s.setBuf (blit s.file.buf s.file.writePos.toNat p (upToNewline p bytes.toNat))).file.buf 0
          (s.file.writePos.toNat + upToNewline p bytes.toNat)) 0 with
    | none => exact inside_nil n
    | some r =>
      dsimp only
      split_ifs
      · exact inside_nil n
      · exact inside_cons (Or.inr (by omega)) (inside_nil n)
  · rw [if_neg hline]
    exact inside_cons (Or.inr (by omega)) (inside_nil n)

lemma Fits.keepRest (h : Fits n s.file) (hn : 4096 ≤ n) {bytes written : ℕ}
    (hfit : s.file.writePos.toNat + (bytes - written) ≤ 4096) (p : Memory) :
    Fits n (keepRest s p bytes written).file := by
  have hpos : (s.file.writePos + BitVec.ofNat 64 (bytes - written)).toNat =
      s.file.writePos.toNat + (bytes - written) := by
    rw [BitVec.toNat_add, BitVec.toNat_ofNat]
    omega
  exact (h.setBuf _).setWritePos (hpos.trans_le hfit) (hpos.trans_le (hfit.trans hn))

lemma Fits.store (h : Fits n s.file) (hn : 4096 ≤ n) {size count : BitVec 64} (hroomy : Roomy s (size * count))
    {p : Memory} {r : BitVec 64 × State σ} (hs : store calls fuel s p size count = some r) : Fits n r.2.file := by
  have h4096 : bufsiz.toNat = 4096 := rfl
  have hi := upToNewline_le p (size * count).toNat
  unfold Stream.store at hs
  dsimp only at hs
  by_cases hlarge : size * count > bufsiz
  · rw [if_pos hlarge] at hs
    obtain ⟨w, hw, rfl⟩ := Option.map_eq_some_iff.mp hs
    exact h.writeBytesOf hw
  rw [if_neg hlarge] at hs
  rw [gt_iff_lt, BitVec.lt_def, h4096, not_lt] at hlarge
  have hfit := hroomy hlarge
  by_cases hline : s.file.flags &&& fileFlagTty ≠ 0 ∧ 0 < upToNewline p (size * count).toNat
  · rw [if_pos hline] at hs
    obtain ⟨w, hw, rfl⟩ := Option.map_eq_some_iff.mp hs
    have hset : Fits n (s.setBuf (blit s.file.buf s.file.writePos.toNat p (upToNewline p (size * count).toNat))).file :=
      h.setBuf _
    have hzero : Fits n (w.2.setWritePos 0).file := (hset.writeBytesOf hw).setWritePos (Nat.zero_le _) (Nat.zero_le _)
    split_ifs
    · exact hzero
    · refine Fits.keepRest (s := w.2.setWritePos 0) hzero hn ?_ p
      change 0 + _ ≤ 4096
      omega
  · rw [if_neg hline] at hs
    cases hs
    exact h.keepRest hn hfit p

lemma roomy_zero (bytes : BitVec 64) : Roomy (s.setWritePos 0) bytes := fun h => by
  change 0 + _ ≤ 4096
  omega

lemma Sound.roomy (h : Sound s.file) {bytes : BitVec 64} (hfit : ¬ bytes > bufsiz - s.file.writePos) :
    Roomy s bytes := by
  intro _
  have h4096 : bufsiz.toNat = 4096 := rfl
  have hle := h.writePos
  have hroom : (bufsiz - s.file.writePos).toNat = 4096 - s.file.writePos.toNat := by
    rw [BitVec.toNat_sub_of_le (BitVec.le_def.mpr (hle.trans_eq h4096.symm)), h4096]
  rw [gt_iff_lt, BitVec.lt_def, hroom, not_lt] at hfit
  omega

/-- What `fwrite` touches lies inside, and the positions stay good. -/
lemma Fits.fwriteTouches (h : Fits n s.file) (p : Memory) (size count : BitVec 64) :
    Inside n (fwriteTouches calls fuel s p size count) := by
  unfold Stream.fwriteTouches
  dsimp only
  by_cases hzero : size * count = 0
  · rw [if_pos hzero]
    exact inside_nil n
  rw [if_neg hzero]
  by_cases hbuffered : s.file.flags &&& fileFlagBuffered = 0
  · rw [if_pos hbuffered]
    exact inside_nil n
  rw [if_neg hbuffered]
  have hroom := h.room.resolve_right hbuffered
  by_cases hflush : size * count > bufsiz - s.file.writePos
  · rw [if_pos hflush]
    refine inside_cons (Or.inr h.written) ?_
    cases Stream.writeBytesOf calls fuel s (readBytes s.file.buf 0 s.file.writePos.toNat) 0 with
    | none => exact inside_nil n
    | some r =>
      dsimp only
      split_ifs
      · exact inside_nil n
      · exact storeTouches_inside hroom (roomy_zero _) p
  · rw [if_neg hflush]
    exact storeTouches_inside hroom (h.toSound.roomy hflush) p

lemma Fits.fwrite (h : Fits n s.file) {p : Memory} {size count : BitVec 64} {r : BitVec 64 × State σ}
    (hw : fwrite calls fuel s p size count = some r) : Fits n r.2.file := by
  rw [fwrite_eq] at hw
  by_cases hzero : size * count = 0
  · rw [if_pos hzero] at hw
    cases hw
    exact h
  rw [if_neg hzero] at hw
  by_cases hbuffered : s.file.flags &&& fileFlagBuffered = 0
  · rw [if_pos hbuffered] at hw
    obtain ⟨w, hwb, rfl⟩ := Option.map_eq_some_iff.mp hw
    exact h.writeBytesOf hwb
  rw [if_neg hbuffered] at hw
  have hroom := h.room.resolve_right hbuffered
  by_cases hflush : size * count > bufsiz - s.file.writePos
  · rw [if_pos hflush] at hw
    obtain ⟨⟨failed, t⟩, hmap, hrest⟩ := Option.bind_eq_some_iff.mp hw
    obtain ⟨w, hwb, heq⟩ := Option.map_eq_some_iff.mp hmap
    cases heq
    have hset : Fits n (w.2.setWritePos 0).file := (h.writeBytesOf hwb).setWritePos (Nat.zero_le _) (Nat.zero_le _)
    dsimp only at hrest
    split_ifs at hrest
    · cases hrest
      exact hset
    · exact hset.store hroom (roomy_zero _) hrest
  · rw [if_neg hflush] at hw
    exact h.store hroom (h.toSound.roomy hflush) hw

lemma Fits.fflushTouches (h : Fits n s.file) : Inside n (fflushTouches calls s) := by
  unfold Stream.fflushTouches
  split_ifs
  · exact inside_nil n
  · exact inside_cons (Or.inr h.written) (inside_nil n)
  · exact inside_nil n

/-- The first part of `fflush`: whether it goes on, and the stream. -/
def seekBack (calls : Calls σ) (s : State σ) : Bool × State σ :=
  if s.file.readPos ≠ 0 then
    let offset := -(s.file.readEnd - s.file.readPos)
    let s := if s.file.readPos < ungetBytes then s.setRead ungetBytes s.file.readEnd else s
    let r := calls.lseek s.fd offset .seekCur
    let s := { s with fd := r.2 }
    if r.1.slt 0 then (false, s.raise fileFlagError) else (true, s.setRead ungetBytes ungetBytes)
  else (true, s)

lemma fflush_eq (s : State σ) : fflush calls fuel s =
    if (seekBack calls s).1 = false then some (eof, (seekBack calls s).2)
    else if (seekBack calls s).2.file.writePos ≠ 0 then
      (writeBytesOf calls fuel (seekBack calls s).2
        (readBytes (seekBack calls s).2.file.buf 0 (seekBack calls s).2.file.writePos.toNat) 0).map fun r =>
          (if r.1 < (seekBack calls s).2.file.writePos.toNat then eof else 0, r.2.setWritePos 0)
    else some (0, (seekBack calls s).2) := rfl

lemma Fits.seekBack (h : Fits n s.file) : Fits n (seekBack calls s).2.file := by
  have h8 : ungetBytes.toNat = 8 := rfl
  have hlow : Fits n (if s.file.readPos < ungetBytes then s.setRead ungetBytes s.file.readEnd else s).file := by
    by_cases hlt : s.file.readPos < ungetBytes
    · rw [if_pos hlt]
      rw [BitVec.lt_def, h8] at hlt
      have hend := h.low
      have hne : s.file.readPos ≠ s.file.readEnd := fun heq => by
        rw [heq] at hlt
        omega
      exact ⟨⟨h8.trans_le h.low, h.low, h.high, h.writePos, fun he => absurd (h.atEnd he) hne⟩,
        Or.inr (h.unread.resolve_left hne), h.written, h.room⟩
    · rw [if_neg hlt]
      exact h
  unfold Stream.seekBack
  dsimp only
  by_cases hpos : s.file.readPos ≠ 0
  · rw [if_pos hpos]
    generalize (if s.file.readPos < ungetBytes then s.setRead ungetBytes s.file.readEnd else s) = u at hlow ⊢
    split_ifs
    · exact hlow.raiseError
    · exact hlow.setRead ungetBytes (h8.trans_le (by norm_num)) h8.ge
  · rw [if_neg hpos]
    exact h

lemma Fits.fflush (h : Fits n s.file) {r : BitVec 32 × State σ} (hf : fflush calls fuel s = some r) :
    Fits n r.2.file := by
  have hs : Fits n (Stream.seekBack calls s).2.file := h.seekBack
  rw [fflush_eq] at hf
  split_ifs at hf
  · cases hf
    exact hs
  · obtain ⟨w, hw, rfl⟩ := Option.map_eq_some_iff.mp hf
    exact (hs.writeBytesOf hw).setWritePos (Nat.zero_le _) (Nat.zero_le _)
  · cases hf
    exact hs

end Positions

section Sequences
variable {σ : Type*} {calls : Calls σ} {h h' : Handle σ} {fuel n buffer : ℕ} {size : BitVec 64} {op : Operation}
  {type : BitVec 32} {contents : Memory} {evs : List Event}

lemma Inside.respects (hin : Inside n evs) {block : ℕ} : ∀ e ∈ evs, e.Respects block buffer n := by
  intro e he
  obtain ⟨lo, hi, rfl, hle⟩ := hin e he
  exact fun _ => hle

lemma Inside.of_other (hin : Inside n evs) {block k : ℕ} (hne : block ≠ buffer) :
    ∀ e ∈ evs, e.Respects block buffer k := by
  intro e he
  obtain ⟨lo, hi, rfl, -⟩ := hin e he
  exact fun heq => absurd heq hne

/-- Any call but `fclose`. -/
def Open (op : Operation) : Prop := op ≠ .fclose

lemma Fits.events (hshort : Short calls) (hf : Fits n h.state.file) (hop : Open op) :
    Inside n (h.events calls fuel op) := by
  cases op with
  | fread size count => exact hf.freadTouches hshort size count
  | fwrite p size count => exact hf.fwriteTouches p size count
  | fputc c => exact hf.fwriteTouches _ 1 1
  | fgetc => exact hf.freadTouches hshort 1 1
  | fflush => exact hf.fflushTouches
  | fclose => exact absurd rfl hop

lemma Fits.after (hshort : Short calls) (hf : Fits n h.state.file) (ha : h.after calls fuel op = some h') :
    Fits n h'.state.file ∧ h'.block = h.block := by
  cases op with
  | fread size count =>
    cases ha
    exact ⟨hf.fread hshort size count, rfl⟩
  | fwrite p size count =>
    obtain ⟨r, hr, rfl⟩ := Option.map_eq_some_iff.mp ha
    exact ⟨hf.fwrite hr, rfl⟩
  | fputc c =>
    obtain ⟨r, hr, rfl⟩ := Option.map_eq_some_iff.mp ha
    obtain ⟨w, hw, rfl⟩ := Option.map_eq_some_iff.mp hr
    exact ⟨hf.fwrite hw, rfl⟩
  | fgetc =>
    cases ha
    refine ⟨?_, rfl⟩
    rw [fgetc]
    dsimp only
    split_ifs
    · exact hf.fread hshort 1 1
    · exact hf.fread hshort 1 1
  | fflush =>
    obtain ⟨r, hr, rfl⟩ := Option.map_eq_some_iff.mp ha
    exact ⟨hf.fflush hr, rfl⟩
  | fclose => cases ha

/-- Positions that are good for the buffer stay so over all calls. -/
lemma Fits.run (hshort : Short calls) {P : Operation → Prop} {ops : List Operation} (hf : Fits n h.state.file)
    (hrun : Run (fun h op h' => P op ∧ Handle.after calls fuel h op = some h') h ops h') :
    Fits n h'.state.file ∧ h'.block = h.block := by
  have hkeep : ∀ (g : Handle σ) (op : Operation) (g' : Handle σ), (Fits n g.state.file ∧ g.block = h.block) →
      (P op ∧ g.after calls fuel op = some g') → Fits n g'.state.file ∧ g'.block = h.block := fun g op g' hg hstep => by
    obtain ⟨hfit, hblock⟩ := hg.1.after hshort hstep.2
    exact ⟨hfit, hblock.trans hg.2⟩
  exact hrun.invariant hkeep ⟨hf, rfl⟩

/-- A kernel that reads and writes nothing. -/
def deadCalls : Calls σ where
  read fd _ := (none, fd)
  write fd _ := (-1, fd)
  lseek fd _ _ := (0, fd)

lemma deadCalls_short : Short (deadCalls (σ := σ)) := by
  intro fd n got fd' h
  cases h

lemma setFlags_eof {flags flags' : BitVec 32} (hf : setFlags flags type = some flags') :
    flags' &&& fileFlagEof = flags &&& fileFlagEof := by
  have h1 : ~~~fileFlagLinebuffer &&& fileFlagEof = fileFlagEof := by decide
  have h2 : fileFlagBuffered &&& fileFlagEof = 0#32 := by decide
  have h3 : (fileFlagBuffered ||| fileFlagLinebuffer) &&& fileFlagEof = 0#32 := by decide
  have h4 : ~~~(fileFlagBuffered ||| fileFlagLinebuffer) &&& fileFlagEof = fileFlagEof := by decide
  rw [setFlags] at hf
  split_ifs at hf
  · cases hf
    rw [BitVec.and_assoc, h1, BitVec.and_or_distrib_right, h2, BitVec.or_zero]
  · cases hf
    rw [BitVec.and_or_distrib_right, h3, BitVec.or_zero]
  · cases hf
    rw [BitVec.and_assoc, h4]

lemma setFlags_buffered {flags flags' : BitVec 32} (hf : setFlags flags type = some flags') :
    flags' &&& fileFlagBuffered = 0 ↔ type = ioNbf := by
  have h1 : ~~~fileFlagLinebuffer &&& fileFlagBuffered = fileFlagBuffered := by decide
  have h3 : (fileFlagBuffered ||| fileFlagLinebuffer) &&& fileFlagBuffered = fileFlagBuffered := by decide
  have h4 : ~~~(fileFlagBuffered ||| fileFlagLinebuffer) &&& fileFlagBuffered = 0#32 := by decide
  have hset : ¬ flags &&& fileFlagBuffered ||| fileFlagBuffered = 0 := fun h =>
    absurd (BitVec.or_eq_zero_iff.mp h).2 (by decide)
  rw [setFlags] at hf
  split_ifs at hf with htype htype' htype''
  · cases hf
    rw [BitVec.and_assoc, h1, BitVec.and_or_distrib_right, BitVec.and_self, htype]
    exact iff_of_false hset (by decide)
  · cases hf
    rw [BitVec.and_or_distrib_right, h3, htype']
    exact iff_of_false hset (by decide)
  · cases hf
    rw [BitVec.and_assoc, h4, BitVec.and_zero]
    exact iff_of_true rfl htype''

/-- What `setvbuf` leaves as it was, and what it changes. -/
structure Supplied (h h' : Handle σ) (buffer : ℕ) (type : BitVec 32) (size : BitVec 64) : Prop where
  readPos : h'.state.file.readPos = h.state.file.readPos
  readEnd : h'.state.file.readEnd = h.state.file.readEnd
  writePos : h'.state.file.writePos = h.state.file.writePos
  eof : h'.state.file.flags &&& fileFlagEof = h.state.file.flags &&& fileFlagEof
  buffered : h'.state.file.flags &&& fileFlagBuffered = 0 ↔ type = ioNbf
  block : h'.block = if 8 ≤ size.toNat then buffer else h.block

lemma setvbuf_supplied (hb : buffer ≠ 0) (hset : setvbuf h buffer contents type size = (0, evs, h')) :
    Supplied h h' buffer type size := by
  unfold setvbuf at hset
  cases hflags : setFlags h.state.file.flags type with
  | none =>
    rw [hflags] at hset
    exact absurd (Prod.mk.inj hset).1 (by decide)
  | some flags =>
    have heof := setFlags_eof hflags
    have hbuf := setFlags_buffered hflags
    have htake : (buffer ≠ 0 ∧ size ≥ ungetBytes) ↔ 8 ≤ size.toNat := by
      rw [and_iff_right hb, ge_iff_le, BitVec.le_def]
      rfl
    rw [hflags] at hset
    dsimp only at hset
    by_cases hlarge : 8 ≤ size.toNat
    · rw [if_pos (htake.mpr hlarge)] at hset
      cases hset
      have h1 : fileFlagUserBuffer &&& fileFlagEof = 0#32 := by decide
      have h2 : fileFlagUserBuffer &&& fileFlagBuffered = 0#32 := by decide
      refine ⟨rfl, rfl, rfl, ?_, ?_, (if_pos hlarge).symm⟩
      · dsimp only
        rw [BitVec.and_or_distrib_right, h1, BitVec.or_zero, heof]
      · dsimp only
        rw [BitVec.and_or_distrib_right, h2, BitVec.or_zero, hbuf]
    · rw [if_neg (mt htake.mp hlarge)] at hset
      cases hset
      exact ⟨rfl, rfl, rfl, heof, hbuf, (if_neg hlarge).symm⟩

lemma Supplied.sound (h1 : Supplied h h' buffer type size) (hs : Sound h.state.file) : Sound h'.state.file := by
  refine ⟨?_, ?_, ?_, ?_, fun he => ?_⟩
  · rw [h1.readPos, h1.readEnd]
    exact hs.le
  · rw [h1.readEnd]
    exact hs.low
  · rw [h1.readEnd]
    exact hs.high
  · rw [h1.writePos]
    exact hs.writePos
  · rw [h1.readPos, h1.readEnd]
    rw [h1.eof] at he
    exact hs.atEnd he

/-- The stream does not use the caller's buffer. -/
def NotTaken (h : Handle σ) (buffer : ℕ) (size : BitVec 64) : Prop := size.toNat < 8 ∧ h.block ≠ buffer

lemma Supplied.block_ne_iff (h1 : Supplied h h' buffer type size) : h'.block ≠ buffer ↔ NotTaken h buffer size := by
  rw [h1.block, NotTaken]
  split_ifs with hlarge
  · exact iff_of_false (fun hne => hne rfl) fun hsmall => by omega
  · rw [and_iff_right (not_le.mp hlarge)]

/-- Any calls, `fclose` among them. -/
def Any (_ : Operation) : Prop := True

/-- `fclose` frees the buffer of the stream, whoever has supplied it. -/
lemma fclose_frees (h : Handle σ) : Event.free h.block ∈ h.events deadCalls 1 .fclose := by
  have hreturns : (fflush deadCalls 1 h.state).isSome = true := by
    rw [fflush_eq]
    split_ifs with hsought hwritten
    · rfl
    · rw [Option.isSome_map, writeBytesOf]
      split_ifs with hnil
      · rfl
      · rfl
    · rfl
  obtain ⟨r, hr⟩ := Option.isSome_iff_exists.mp hreturns
  rw [Handle.events, hr]
  exact List.mem_append_right _ (List.mem_singleton_self _)

/-- All calls respect a buffer that is not used. -/
lemma respected_of_ne (hshort : Short calls) (hs : Sound h.state.file) (hne : h.block ≠ buffer) (k : ℕ)
    (P : Operation → Prop) : Respected calls P fuel h buffer k := by
  intro ops h' hrun op _ e he
  obtain ⟨hfit, hblock⟩ := (hs.fits le_rfl).run hshort hrun
  have hne' : h'.block ≠ buffer := hblock ▸ hne
  by_cases hop : op = .fclose
  · subst hop
    rcases List.mem_append.mp he with hflush | hfree
    · exact hfit.fflushTouches.of_other hne' e hflush
    · cases hret : fflush calls fuel h'.state with
      | none =>
        rw [hret] at hfree
        exact absurd hfree List.not_mem_nil
      | some r =>
        rw [hret] at hfree
        rw [List.mem_singleton.mp hfree]
        exact hne'
  · exact (hfit.events hshort hop).of_other hne' e he

lemma respected_of_fits (hshort : Short calls) (hf : Fits n h.state.file) : Respected calls Open fuel h buffer n := by
  intro ops h' hrun op hop e he
  exact ((hf.run hshort hrun).1.events hshort hop).respects e he

/-- The first call touches too much. -/
lemma not_respected {P : Operation → Prop} {k lo hi : ℕ} (hblock : h.block = buffer) (hop : P op)
    (he : Event.touch lo hi ∈ h.events calls fuel op) (hne : lo ≠ hi) (hlt : k < hi) :
    ¬ Respected calls P fuel h buffer k := by
  intro hr
  rcases hr [] h (.nil h) op hop _ he hblock with heq | hle
  · exact hne heq
  · omega

/-- The last byte of `BUFSIZ` is reached by one call of `fwrite` without a newline. -/
lemma fwrite_fills (hs : Sound h.state.file) (hbuf : ¬ h.state.file.flags &&& fileFlagBuffered = 0) :
    ∃ op lo, Open op ∧ .touch lo 4096 ∈ h.events calls 1 op ∧ lo ≠ 4096 := by
  have h4096 : bufsiz.toNat = 4096 := rfl
  have hle := hs.writePos
  have hone : ∀ x : BitVec 64, 1 * x = x := fun x => BitVec.one_mul x
  have hroom : (bufsiz - h.state.file.writePos).toNat = 4096 - h.state.file.writePos.toNat := by
    rw [BitVec.toNat_sub_of_le (BitVec.le_def.mpr (hle.trans_eq h4096.symm)), h4096]
  have hnone : ∀ k, upToNewline (fun _ => 0) k = 0 := by
    intro k
    induction k with
    | zero => rfl
    | succ k ih => rw [upToNewline, if_pos (by decide), ih]
  by_cases hfull : h.state.file.writePos.toNat = 4096
  · refine ⟨.fwrite (fun _ => 0) 1 1, 0, by simp [Open], ?_, by decide⟩
    have hmore : (1 : BitVec 64) > bufsiz - h.state.file.writePos := by
      rw [gt_iff_lt, BitVec.lt_def, hroom, hfull]
      decide
    rw [Handle.events, fwriteTouches, hone, if_neg (by decide), if_neg hbuf, if_pos hmore, hfull]
    exact List.mem_cons_self
  · refine ⟨.fwrite (fun _ => 0) 1 (bufsiz - h.state.file.writePos), h.state.file.writePos.toNat, by simp [Open], ?_, hfull⟩
    have hzero : ¬ bufsiz - h.state.file.writePos = 0 := fun h0 => by
      rw [h0] at hroom
      change 0 = _ at hroom
      omega
    have hsmall : ¬ bufsiz - h.state.file.writePos > bufsiz := by
      rw [gt_iff_lt, BitVec.lt_def, hroom, h4096]
      omega
    rw [Handle.events, fwriteTouches, hone, if_neg hzero, if_neg hbuf, if_neg (BitVec.lt_irrefl _), storeTouches]
    dsimp only
    rw [hnone, if_neg hsmall, if_neg fun hline => absurd hline.2 (lt_irrefl 0), hroom]
    rw [Nat.add_sub_cancel' hle]
    exact List.mem_singleton_self _

/-- What is left in the buffer is read. -/
lemma fread_reaches (hs : Sound h.state.file) (hne : h.state.file.readPos ≠ h.state.file.readEnd) :
    .touch h.state.file.readPos.toNat h.state.file.readEnd.toNat ∈
      h.events calls fuel (.fread 1 (h.state.file.readEnd - h.state.file.readPos)) := by
  have hle := hs.le
  have hfilled : (h.state.file.readEnd - h.state.file.readPos).toNat =
      h.state.file.readEnd.toNat - h.state.file.readPos.toNat := BitVec.toNat_sub_of_le (BitVec.le_def.mpr hle)
  have hone : (1 : BitVec 64) * (h.state.file.readEnd - h.state.file.readPos) =
      h.state.file.readEnd - h.state.file.readPos := BitVec.one_mul _
  have hzero : ¬ h.state.file.readEnd - h.state.file.readPos = 0 := fun h0 => by
    rw [h0] at hfilled
    change 0 = _ at hfilled
    exact hne (BitVec.eq_of_toNat_eq (by omega))
  have heof : ¬ h.state.file.flags &&& fileFlagEof ≠ 0 := fun he => hne (hs.atEnd he)
  rw [Handle.events, freadTouches, hone, if_neg hzero, if_neg heof, if_pos (BitVec.le_refl _), hfilled,
    Nat.add_sub_cancel' hle]
  exact List.mem_cons_self

/-- What is to be written is read. -/
lemma fflush_reaches (h : Handle σ) (hpos : 0 < h.state.file.writePos.toNat) :
    .touch 0 h.state.file.writePos.toNat ∈ h.events deadCalls fuel .fflush := by
  have hne : h.state.file.writePos ≠ 0 := fun h0 => by
    rw [h0] at hpos
    exact absurd hpos (lt_irrefl 0)
  have hseek : ¬ (h.state.file.readPos ≠ 0 ∧ ((deadCalls (σ := σ)).lseek h.state.fd
      (-(h.state.file.readEnd - h.state.file.readPos)) .seekCur).1.slt 0 = true) := fun hs =>
    absurd hs.2 (by change ¬ (0 : BitVec 64).slt 0 = true; decide)
  rw [Handle.events, fflushTouches, if_neg hseek, if_pos hne]
  exact List.mem_singleton_self _

/-- The buffer that the caller has supplied is respected by every sequence of calls if and only if the stream does not
use it, for `fclose` frees it; and by those without `fclose` if and only if it is not used, or is large enough for the
constant that the calls compute with, or the stream is unbuffered and what is left in it fits. -/
theorem user_buffer_iff (hs : Sound h.state.file) (hb : buffer ≠ 0)
    (hset : setvbuf h buffer contents type size = (0, evs, h')) :
    ((∀ calls : Calls σ, Short calls → ∀ fuel, Respected calls Any fuel h' buffer size.toNat) ↔
      NotTaken h buffer size) ∧
    ((∀ calls : Calls σ, Short calls → ∀ fuel, Respected calls Open fuel h' buffer size.toNat) ↔
      NotTaken h buffer size ∨ 4096 ≤ size.toNat ∨ (type = ioNbf ∧
        (h.state.file.readPos = h.state.file.readEnd ∨ h.state.file.readEnd.toNat ≤ size.toNat) ∧
        h.state.file.writePos.toNat ≤ size.toNat)) := by
  have hsup := setvbuf_supplied hb hset
  have hs' := hsup.sound hs
  rw [← hsup.block_ne_iff]
  refine ⟨⟨fun hall heq => ?_, fun hne calls hshort fuel => respected_of_ne hshort hs' hne _ _⟩, ⟨fun hall => ?_, ?_⟩⟩
  · exact hall deadCalls deadCalls_short 1 [] h' (.nil h') .fclose trivial _ (fclose_frees h') heq
  · by_contra hnot
    rw [not_or, not_or, not_not] at hnot
    obtain ⟨hblock, hsmall, hun⟩ := hnot
    by_cases htype : type = ioNbf
    · by_cases hwritten : h.state.file.writePos.toNat ≤ size.toNat
      · rw [htype, and_iff_right rfl, and_iff_left hwritten, not_or, not_le] at hun
        rw [← hsup.readPos, ← hsup.readEnd] at hun
        exact not_respected hblock nofun (fread_reaches hs' hun.1) (fun heq => hun.1 (BitVec.eq_of_toNat_eq heq)) hun.2
          (hall deadCalls deadCalls_short 1)
      · rw [not_le, ← hsup.writePos] at hwritten
        exact not_respected hblock nofun (fflush_reaches h' (by omega)) (by omega) hwritten
          (hall deadCalls deadCalls_short 1)
    · have hfills : ∃ op lo, Open op ∧ .touch lo 4096 ∈ h'.events deadCalls 1 op ∧ lo ≠ 4096 :=
        fwrite_fills hs' (mt hsup.buffered.mp htype)
      obtain ⟨op, lo, hop, he, hne⟩ := hfills
      exact not_respected hblock hop he hne (not_le.mp hsmall) (hall deadCalls deadCalls_short 1)
  · rintro (hne | hlarge | ⟨htype, hunread, hwritten⟩)
    · exact fun calls hshort fuel => respected_of_ne hshort hs' hne _ _
    · exact fun calls hshort fuel => respected_of_fits hshort (hs'.fits hlarge)
    · have hfit : Fits size.toNat h'.state.file := by
        refine ⟨hs', ?_, ?_, Or.inr (hsup.buffered.mpr htype)⟩
        · rw [hsup.readPos, hsup.readEnd]
          exact hunread
        · rw [hsup.writePos]
          exact hwritten
      exact fun calls hshort fuel => respected_of_fits hshort hfit

end Sequences

/-- A stream that has just been opened, with its buffer at 0x1000. -/
def openedHandle : Handle Unit := ⟨fdopen (fun _ => 0) (), 0x1000, bufsiz⟩

/-- The same stream with a buffer of the caller at 0x2000. -/
def suppliedHandle (size : BitVec 64) : Handle Unit := (setvbuf openedHandle 0x2000 (fun _ => 0) ioFbf size).2.2

theorem user_buffer_small : Respected deadCalls Any 1 (suppliedHandle 7) 0x2000 7 := by
  have hset : setvbuf openedHandle 0x2000 (fun _ => 0) ioFbf 7 = (0, [], suppliedHandle 7) := rfl
  have hsound : Sound openedHandle.state.file := fdopen_sound (fun _ => 0) ()
  exact (user_buffer_iff hsound (by decide) hset).1.mpr ⟨by decide, by decide⟩ deadCalls deadCalls_short 1

/-- A call of `fwrite` passes the end of a buffer of 64 bytes, and `fclose` frees it. -/
theorem user_buffer_overrun : ¬ Respected deadCalls Open 1 (suppliedHandle 64) 0x2000 64 ∧
    Event.touch 0 100 ∈ (suppliedHandle 64).events deadCalls 1 (.fwrite (fun _ => 0) 1 100) ∧
    Event.free 0x2000 ∈ (suppliedHandle 64).events deadCalls 1 .fclose := by
  have htouch : Event.touch 0 100 ∈ (suppliedHandle 64).events deadCalls 1 (.fwrite (fun _ => 0) 1 100) :=
    List.mem_singleton.mpr rfl
  have hopen : Open (.fwrite (fun _ => 0) 1 100) := nofun
  exact ⟨not_respected rfl hopen htouch (by decide) (by decide), htouch, List.mem_singleton.mpr rfl⟩

end PiggyOs.Stream
