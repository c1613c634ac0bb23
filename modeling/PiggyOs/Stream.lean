import PiggyOs.ByteMemory
import PiggyOs.CString

/-! The streams of the C library over the calls of the kernel. -/
namespace PiggyOs.Stream
open ByteMemory

abbrev Byte := BitVec 8

def fileFlagError : BitVec 32 := 1
def fileFlagEof : BitVec 32 := 2
def fileFlagBuffered : BitVec 32 := 4
def fileFlagTty : BitVec 32 := 8

def bufsiz : BitVec 64 := 4096
def ungetBytes : BitVec 64 := 8
def eof : BitVec 32 := -1

structure File where
  flags : BitVec 32
  buf : Memory
  readPos : BitVec 64
  readEnd : BitVec 64
  writePos : BitVec 64

inductive Whence
  | seekSet | seekCur | seekEnd
  deriving DecidableEq, Repr

/-- The calls of the kernel on one descriptor. `read` gives the bytes that are put into the buffer, or none if its
result is negative; `write` and `lseek` give their results. -/
structure Calls (σ : Type*) where
  read : σ → BitVec 64 → Option (List Byte) × σ
  write : σ → List Byte → BitVec 64 × σ
  lseek : σ → BitVec 64 → Whence → BitVec 64 × σ

/-- A stream, what the kernel has behind it, and the bytes that `write` has taken so far. -/
structure State (σ : Type*) where
  file : File
  fd : σ
  taken : List Byte

/-- The result of `fdopen`; `stale` is what the buffer held before. -/
def fdopen {σ : Type*} (stale : Memory) (fd : σ) : State σ where
  file :=
    { flags := fileFlagBuffered
      buf := stale
      readPos := ungetBytes
      readEnd := ungetBytes
      writePos := 0 }
  fd := fd
  taken := []

section Functions
variable {σ : Type*} (calls : Calls σ)

def State.raise (s : State σ) (flag : BitVec 32) : State σ := { s with file := { s.file with flags := s.file.flags ||| flag } }

def State.setWritePos (s : State σ) (writePos : BitVec 64) : State σ := { s with file := { s.file with writePos := writePos } }

def State.setRead (s : State σ) (readPos readEnd : BitVec 64) : State σ :=
  { s with file := { s.file with readPos := readPos, readEnd := readEnd } }

def State.setBuf (s : State σ) (buf : Memory) : State σ := { s with file := { s.file with buf := buf } }

/-- `__read_bytes`, with the bytes that it gets. -/
def readBytesOf (s : State σ) (size : BitVec 64) : List Byte × State σ :=
  match calls.read s.fd size with
  | (none, fd) => ([], { s with fd := fd }.raise fileFlagError)
  | (some [], fd) => ([], { s with fd := fd }.raise fileFlagEof)
  | (some (b :: bs), fd) => (b :: bs, { s with fd := fd })

/-- `__write_bytes`, with what is left to write and the number of bytes written; `none` if the loop does not end
within the fuel. -/
def writeBytesOf : ℕ → State σ → List Byte → ℕ → Option (ℕ × State σ)
  | 0, _, _, _ => none
  | fuel + 1, s, buf, written =>
      if buf = [] then some (written, s)
      else
        let r := calls.write s.fd buf
        if r.1.slt 0 then some (written, { s with fd := r.2 }.raise fileFlagError)
        else writeBytesOf fuel { s with fd := r.2, taken := s.taken ++ buf.take r.1.toNat } (buf.drop r.1.toNat)
          (written + r.1.toNat)

/-- The result and the bytes stored at `ptr`. -/
def fread (s : State σ) (size count : BitVec 64) : (BitVec 64 × List Byte) × State σ :=
  let bytes := size * count
  if bytes = 0 then ((0, []), s)
  else if s.file.flags &&& fileFlagEof ≠ 0 then ((0, []), s)
  else
    let bufFilled := s.file.readEnd - s.file.readPos
    if bufFilled ≤ bytes then
      let front := readBytes s.file.buf s.file.readPos.toNat bufFilled.toNat
      let s := s.setRead ungetBytes ungetBytes
      let remaining := bytes - bufFilled
      if remaining = 0 then ((count, front), s)
      else if remaining ≥ bufsiz - s.file.readEnd ∨ s.file.flags &&& fileFlagBuffered = 0 then
        let r := readBytesOf calls s remaining
        (((bufFilled + BitVec.ofNat 64 r.1.length) / size, front ++ r.1), r.2)
      else
        let r := readBytesOf calls s (bufsiz - s.file.readEnd)
        let read := BitVec.ofNat 64 r.1.length
        let s := r.2.setBuf (blit r.2.file.buf r.2.file.readEnd.toNat (fun k => r.1.getD k 0) r.1.length)
        let copied := if remaining > read then read else remaining
        (((bufFilled + copied) / size, front ++ readBytes s.file.buf s.file.readPos.toNat copied.toNat),
          s.setRead (s.file.readPos + copied) (s.file.readEnd + read))
    else
      ((count, readBytes s.file.buf s.file.readPos.toNat bytes.toNat),
        s.setRead (s.file.readPos + bytes) s.file.readEnd)

def fgetc (s : State σ) : BitVec 32 × State σ :=
  let r := fread calls s 1 1
  if r.1.1 ≠ 1 then (eof, r.2) else ((r.1.2.headD 0).setWidth 32, r.2)

/-- The loop of `fgets`, when `n` more characters fit. -/
def fgetsLoop : ℕ → State σ → List Byte × State σ
  | 0, s => ([], s)
  | n + 1, s =>
      let r := fgetc calls s
      if r.1 = eof then ([], r.2)
      else
        let c := r.1.setWidth 8
        if r.1 = 10 then ([c], r.2)
        else (c :: (fgetsLoop n r.2).1, (fgetsLoop n r.2).2)

/-- The characters before the terminating zero, or none for `NULL`. -/
def fgets (s : State σ) (size : BitVec 32) : Option (List Byte) × State σ :=
  let r := fgetsLoop calls (size.toInt - 1).toNat s
  (if r.1 = [] then none else some r.1, r.2)

/-- For a stream that is not `NULL`. -/
def fflush (fuel : ℕ) (s : State σ) : Option (BitVec 32 × State σ) :=
  let sought : Bool × State σ :=
    if s.file.readPos ≠ 0 then
      let offset := -(s.file.readEnd - s.file.readPos)
      let s := if s.file.readPos < ungetBytes then s.setRead ungetBytes s.file.readEnd else s
      let r := calls.lseek s.fd offset .seekCur
      let s := { s with fd := r.2 }
      if r.1.slt 0 then (false, s.raise fileFlagError) else (true, s.setRead ungetBytes ungetBytes)
    else (true, s)
  if sought.1 = false then some (eof, sought.2)
  else
    let s := sought.2
    if s.file.writePos ≠ 0 then
      (writeBytesOf calls fuel s (readBytes s.file.buf 0 s.file.writePos.toNat) 0).map fun r =>
        (if r.1 < s.file.writePos.toNat then eof else 0, r.2.setWritePos 0)
    else some (0, s)

/-- The result of `__builtin_sub_overflow`, or none if there is an overflow. -/
def subOverflow (offset : BitVec 64) (n : BitVec 64) : Option (BitVec 64) :=
  if -2 ^ 63 ≤ offset.toInt - n.toNat ∧ offset.toInt - n.toNat < 2 ^ 63 then some (offset - n) else none

def fseek (fuel : ℕ) (s : State σ) (offset : BitVec 64) (whence : Whence) : Option (BitVec 32 × State σ) :=
  (if s.file.writePos ≠ 0 then fflush calls fuel s else some (0, s)).map fun (flushed, s) =>
    if flushed = eof then (-1, s)
    else
      match if whence = .seekCur then subOverflow offset (s.file.readEnd - s.file.readPos) else some offset with
      | none => (-1, s)
      | some offset =>
          let r := calls.lseek s.fd offset whence
          let s := { s with fd := r.2 }
          if r.1.slt 0 then (-1, s)
          else
            (0, { s with file :=
              { s.file with flags := s.file.flags &&& ~~~fileFlagEof, readPos := ungetBytes, readEnd := ungetBytes } })

def ftell (s : State σ) : BitVec 64 × State σ :=
  let r := calls.lseek s.fd 0 .seekCur
  let s := { s with fd := r.2 }
  if r.1.slt 0 then (r.1, s) else (r.1 + s.file.writePos - (s.file.readEnd - s.file.readPos), s)

/-- The number of characters up to the last newline among the first ones. -/
def upToNewline (p : Memory) : ℕ → ℕ
  | 0 => 0
  | i + 1 => if p i ≠ 10 then upToNewline p i else i + 1

lemma upToNewline_le (p : Memory) (n : ℕ) : upToNewline p n ≤ n := by
  induction n with
  | zero => exact le_rfl
  | succ n ih =>
    rw [upToNewline]
    split_ifs
    · exact ih.trans (Nat.le_succ n)
    · exact le_rfl

/-- What the last lines of `fwrite` do: the rest goes into the buffer. -/
def keepRest (s : State σ) (p : Memory) (bytes written : ℕ) : State σ :=
  (s.setBuf (blit s.file.buf s.file.writePos.toNat (fun k => p (written + k)) (bytes - written))).setWritePos
    (s.file.writePos + BitVec.ofNat 64 (bytes - written))

/-- `p` are the bytes from `ptr` on. -/
def fwrite (fuel : ℕ) (s : State σ) (p : Memory) (size count : BitVec 64) : Option (BitVec 64 × State σ) :=
  let bytes := size * count
  if bytes = 0 then some (0, s)
  else if s.file.flags &&& fileFlagBuffered = 0 then
    (writeBytesOf calls fuel s (readBytes p 0 bytes.toNat) 0).map fun r => (BitVec.ofNat 64 r.1 / size, r.2)
  else
    (if bytes > bufsiz - s.file.writePos then
      (writeBytesOf calls fuel s (readBytes s.file.buf 0 s.file.writePos.toNat) 0).map fun r =>
        (decide (r.1 < s.file.writePos.toNat), r.2.setWritePos 0)
    else some (false, s)).bind fun (failed, s) =>
      if failed then some (0, s)
      else if bytes > bufsiz then
        (writeBytesOf calls fuel s (readBytes p 0 bytes.toNat) 0).map fun r => (BitVec.ofNat 64 r.1 / size, r.2)
      else
        let i := upToNewline p bytes.toNat
        if s.file.flags &&& fileFlagTty ≠ 0 ∧ 0 < i then
          let s := s.setBuf (blit s.file.buf s.file.writePos.toNat p i)
          (writeBytesOf calls fuel s (readBytes s.file.buf 0 (s.file.writePos.toNat + i)) 0).map fun r =>
            if r.1 < s.file.writePos.toNat + i then
              (BitVec.ofNat 64 (r.1 - s.file.writePos.toNat) / size, r.2.setWritePos 0)
            else (count, keepRest (r.2.setWritePos 0) p bytes.toNat i)
        else some (count, keepRest s p bytes.toNat 0)

def fputc (fuel : ℕ) (s : State σ) (c : BitVec 32) : Option (BitVec 32 × State σ) :=
  (fwrite calls fuel s (fun _ => c.setWidth 8) 1 1).map fun r => (if r.1 ≠ 1 then eof else c, r.2)

def fputs (fuel : ℕ) (s : State σ) (str : CString) : Option (BitVec 32 × State σ) :=
  let len := BitVec.ofNat 64 str.1.length
  (fwrite calls fuel s (fun k => str.1.getD k 0) 1 len).map fun r => (if r.1 ≠ len then eof else 0, r.2)

end Functions

end PiggyOs.Stream
