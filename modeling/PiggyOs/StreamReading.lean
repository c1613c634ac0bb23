import PiggyOs.Simulation
import PiggyOs.Stream

/-! Reading through the buffer of a stream, and a cursor on the file that has none. -/
namespace PiggyOs.Stream
open ByteMemory Simulation

/-- A regular file that does not change, with the offset of the kernel. -/
structure RegularFile where
  content : List Byte
  offset : ℕ

def RegularFile.next (f : RegularFile) (n : ℕ) : List Byte := (f.content.drop f.offset).take n

/-- Where `lseek` leads, if it is an offset at all. -/
def seekTarget (length pos : ℕ) (offset : BitVec 64) : Whence → Option ℕ
  | .seekSet => if 0 ≤ offset.toInt then some offset.toInt.toNat else none
  | .seekCur => if 0 ≤ pos + offset.toInt ∧ pos + offset.toInt < 2 ^ 63 then some (pos + offset.toInt).toNat else none
  | .seekEnd =>
      if 0 ≤ length + offset.toInt ∧ length + offset.toInt < 2 ^ 63 then some (length + offset.toInt).toNat else none

def regularCalls : Calls RegularFile where
  read f n := (some (f.next n.toNat), { f with offset := f.offset + (f.next n.toNat).length })
  write f _ := (-1, f)
  lseek f offset whence := match seekTarget f.content.length f.offset offset whence with
    | none => (-1, f)
    | some pos => (BitVec.ofNat 64 pos, { f with offset := pos })

inductive Call
  | fread (count : BitVec 64)
  | fgetc
  | fgets (size : BitVec 32)
  | fseek (offset : BitVec 64) (whence : Whence)
  | ftell

inductive Answer
  | data (count : BitVec 64) (bytes : List Byte)
  | char (c : BitVec 32)
  | line (chars : Option (List Byte))
  | status (r : BitVec 32)
  | position (p : BitVec 64)
  deriving DecidableEq, Repr

def State.call (fuel : ℕ) (s : State RegularFile) : Call → Option (Answer × State RegularFile)
  | .fread count => some (.data (fread regularCalls s 1 count).1.1 (fread regularCalls s 1 count).1.2,
      (fread regularCalls s 1 count).2)
  | .fgetc => some (.char (fgetc regularCalls s).1, (fgetc regularCalls s).2)
  | .fgets size => some (.line (fgets regularCalls s size).1, (fgets regularCalls s size).2)
  | .fseek offset whence => (fseek regularCalls fuel s offset whence).map fun r => (.status r.1, r.2)
  | .ftell => some (.position (ftell regularCalls s).1, (ftell regularCalls s).2)

/-- What the calls return, if all of them do. -/
def State.answers (fuel : ℕ) : State RegularFile → List Call → Option (List Answer)
  | _, [] => some []
  | s, call :: calls => (s.call fuel call).bind fun r => (State.answers fuel r.2 calls).map fun as => r.1 :: as

/-- A cursor on a file. -/
structure Cursor where
  content : List Byte
  pos : ℕ

def Cursor.rest (c : Cursor) : List Byte := c.content.drop c.pos

def Cursor.move (c : Cursor) (n : ℕ) : Cursor := { c with pos := c.pos + n }

/-- The bytes up to the first newline. -/
def firstLine : List Byte → List Byte
  | [] => []
  | b :: bytes => if b = 10 then [b] else b :: firstLine bytes

/-- What the calls are for. -/
def Cursor.call (c : Cursor) : Call → Answer × Cursor
  | .fread count => (.data (BitVec.ofNat 64 (c.rest.take count.toNat).length) (c.rest.take count.toNat),
      c.move (c.rest.take count.toNat).length)
  | .fgetc => match c.rest with
      | [] => (.char eof, c)
      | b :: _ => (.char (b.setWidth 32), c.move 1)
  | .fgets size =>
      let chars := firstLine (c.rest.take (size.toInt - 1).toNat)
      (.line (if chars = [] then none else some chars), c.move chars.length)
  | .fseek offset whence => match seekTarget c.content.length c.pos offset whence with
      | none => (.status (-1), c)
      | some pos => (.status 0, { c with pos := pos })
  | .ftell => (.position (BitVec.ofNat 64 c.pos), c)

section Reading
variable {s : State RegularFile} {c : Cursor} {k n : ℕ}

/-- The logical position is the offset of the kernel less the bytes in the buffer that have not been read. -/
structure Reads (s : State RegularFile) (c : Cursor) (k : ℕ) : Prop where
  content : s.fd.content = c.content
  offset : s.fd.offset = c.pos + k
  filled : s.file.readEnd.toNat = s.file.readPos.toNat + k
  low : 8 ≤ s.file.readPos.toNat
  high : s.file.readEnd.toNat ≤ 4096
  bytes : readBytes s.file.buf s.file.readPos.toNat k = c.rest.take k
  atEnd : s.file.flags &&& fileFlagEof ≠ 0 → c.rest = []
  buffered : s.file.flags &&& fileFlagBuffered ≠ 0
  written : s.file.writePos = 0
  small : c.content.length < 2 ^ 63
  reach : c.pos + k < 2 ^ 63

lemma Reads.length_rest (h : Reads s c k) : k ≤ c.rest.length := by
  have hlen := congrArg List.length h.bytes
  rw [length_readBytes, List.length_take] at hlen
  omega

lemma Reads.next (h : Reads s c k) (n : ℕ) : s.fd.next n = (c.rest.drop k).take n := by
  rw [RegularFile.next, h.content, h.offset, Cursor.rest, List.drop_drop]

/-- The bytes that are in the buffer. -/
lemma Reads.front (h : Reads s c k) (hn : n ≤ k) : readBytes s.file.buf s.file.readPos.toNat n = c.rest.take n := by
  have hpart := take_drop_readBytes s.file.buf s.file.readPos.toNat k 0 n
  rw [h.bytes, List.drop_zero, List.take_take, Nat.sub_zero, Nat.add_zero, min_eq_left hn] at hpart
  exact hpart.symm

lemma Reads.bufFilled (h : Reads s c k) : (s.file.readEnd - s.file.readPos).toNat = k := by
  have hle : s.file.readPos ≤ s.file.readEnd := by
    rw [BitVec.le_def, h.filled]
    omega
  rw [BitVec.toNat_sub_of_le hle, h.filled, Nat.add_sub_cancel_left]

lemma readBytesOf_regular {n : BitVec 64} {got : List Byte} (hgot : s.fd.next n.toNat = got) :
    readBytesOf regularCalls s n = (got,
      { s with
        file := { s.file with flags := if got = [] then s.file.flags ||| fileFlagEof else s.file.flags }
        fd := { s.fd with offset := s.fd.offset + got.length } }) := by
  have hread : regularCalls.read s.fd n = (some got, { s.fd with offset := s.fd.offset + got.length }) := by
    rw [← hgot]
    rfl
  rw [readBytesOf, hread]
  cases got with
  | nil => rfl
  | cons b bs => rfl

lemma raise_buffered {flags : BitVec 32} (h : flags &&& fileFlagBuffered ≠ 0) :
    (flags ||| fileFlagEof) &&& fileFlagBuffered ≠ 0 := by
  have hnone : fileFlagEof &&& fileFlagBuffered = 0#32 := by decide
  rwa [BitVec.and_or_distrib_right, hnone, BitVec.or_zero]

@[simp] lemma move_rest (c : Cursor) (n : ℕ) : (c.move n).rest = c.rest.drop n := by
  rw [Cursor.rest, Cursor.rest, Cursor.move, List.drop_drop]

lemma take_append_take_drop (l : List Byte) {k n : ℕ} (h : k ≤ n) : l.take k ++ (l.drop k).take (n - k) = l.take n := by
  have hn : n = k + (n - k) := by omega
  conv_rhs => rw [hn, List.take_add]

/-- A stream with an empty buffer whose kernel offset is the position of the cursor. -/
lemma Reads.empty {file : File} {f : RegularFile} {taken : List Byte} (hcontent : f.content = c.content)
    (hoffset : f.offset = c.pos) (hpos : file.readPos = ungetBytes) (hend : file.readEnd = ungetBytes)
    (heof : file.flags &&& fileFlagEof ≠ 0 → c.rest = []) (hbuf : file.flags &&& fileFlagBuffered ≠ 0)
    (hwritten : file.writePos = 0) (hsmall : c.content.length < 2 ^ 63) (hreach : c.pos < 2 ^ 63) :
    Reads ⟨file, f, taken⟩ c 0 := by
  have h8 : ungetBytes.toNat = 8 := rfl
  refine ⟨hcontent, hoffset, ?_, ?_, ?_, rfl, heof, hbuf, hwritten, hsmall, hreach⟩
  · rw [hpos, hend]
    rfl
  · rw [hpos, h8]
  · rw [hend, h8]
    norm_num

/-- Reading to the end of the file leaves nothing. -/
lemma drop_of_next_nil {l : List Byte} {k n : ℕ} (hn : k < n) (hnil : (l.drop k).take (n - k) = []) :
    l.drop (l.take n).length = [] := by
  rw [List.take_eq_nil_iff, List.drop_eq_nil_iff] at hnil
  rw [List.drop_eq_nil_iff, List.length_take]
  omega

lemma Reads.reach_rest (h : Reads s c k) (n : ℕ) : c.pos + (c.rest.take n).length < 2 ^ 63 := by
  have hreach := h.reach
  have hsmall := h.small
  have hle : (c.rest.take n).length ≤ c.content.length - c.pos := by
    rw [List.length_take, Cursor.rest, List.length_drop]
    omega
  omega

/-- What the kernel gives after the bytes that are in the buffer. -/
lemma Reads.readBytesOf (h : Reads s c k) (n : BitVec 64) :
    readBytesOf regularCalls (s.setRead ungetBytes ungetBytes) n = ((c.rest.drop k).take n.toNat,
      { s with
        file :=
          { s.file with
            flags := if (c.rest.drop k).take n.toNat = [] then s.file.flags ||| fileFlagEof else s.file.flags
            readPos := ungetBytes
            readEnd := ungetBytes }
        fd := { s.fd with offset := c.pos + k + ((c.rest.drop k).take n.toNat).length } }) := by
  rw [readBytesOf_regular (s := s.setRead ungetBytes ungetBytes) (h.next n.toNat)]
  dsimp only [State.setRead]
  rw [h.offset]

/-- The flag for the end of the file is right after a read behind the buffer. -/
lemma atEnd_read {n m : ℕ} (hn : k < n) (hm : 0 < m) (heof : ¬ s.file.flags &&& fileFlagEof ≠ 0)
    (he : (if (c.rest.drop k).take m = [] then s.file.flags ||| fileFlagEof else s.file.flags) &&& fileFlagEof ≠ 0) :
    (c.move (c.rest.take n).length).rest = [] := by
  split_ifs at he with hnil
  · rw [List.take_eq_nil_iff, List.drop_eq_nil_iff] at hnil
    rw [move_rest, List.drop_eq_nil_iff, List.length_take]
    omega
  · exact absurd he heof

lemma Reads.buffered_read (h : Reads s c k) (m : ℕ) :
    (if (c.rest.drop k).take m = [] then s.file.flags ||| fileFlagEof else s.file.flags) &&& fileFlagBuffered ≠ 0 := by
  split_ifs
  · exact raise_buffered h.buffered
  · exact h.buffered

lemma readBytes_blit_list (m : Memory) (a : ℕ) (l : List Byte) :
    readBytes (blit m a (fun i => l.getD i 0) l.length) a l.length = l := by
  apply List.ext_getElem
  · rw [length_readBytes]
  · intro i h1 h2
    rw [getElem_readBytes, blit_inside _ _ h2]
    simp [h2]

lemma readBytes_blit_part (m : Memory) (a : ℕ) (l : List Byte) (i k : ℕ) :
    readBytes (blit m a (fun i => l.getD i 0) l.length) (a + i) (min k (l.length - i)) = (l.drop i).take k := by
  rw [← take_drop_readBytes, readBytes_blit_list]

lemma toNat_lesser (a b : BitVec 64) : (if a > b then b else a).toNat = min a.toNat b.toNat := by
  split_ifs with h
  · rw [gt_iff_lt, BitVec.lt_def] at h
    omega
  · rw [gt_iff_lt, BitVec.lt_def] at h
    omega

/-- A buffer that is filled again, of which `j` bytes are taken at once. -/
lemma Reads.refill (h : Reads s c k) {got : List Byte} {n j : ℕ} (hgot : (c.rest.drop k).take 4088 = got)
    (hkn : k < n) (hn : n - k < 4088) (hj : j = min (n - k) got.length) (heof : ¬ s.file.flags &&& fileFlagEof ≠ 0) :
    c.rest.take k ++ got.take j = c.rest.take n ∧ k + j = (c.rest.take n).length ∧
    Reads
      ⟨{ flags := if got = [] then s.file.flags ||| fileFlagEof else s.file.flags
         buf := blit s.file.buf 8 (fun i => got.getD i 0) got.length
         readPos := ungetBytes + BitVec.ofNat 64 j
         readEnd := ungetBytes + BitVec.ofNat 64 got.length
         writePos := s.file.writePos }, { s.fd with offset := c.pos + k + got.length }, s.taken⟩
      (c.move (k + j)) (got.length - j) := by
  have hrest := h.length_rest
  have hlen : got.length = min 4088 (c.rest.length - k) := by rw [← hgot, List.length_take, List.length_drop]
  have h8 : ungetBytes.toNat = 8 := rfl
  have hpos : (ungetBytes + BitVec.ofNat 64 j).toNat = 8 + j := by
    rw [BitVec.toNat_add, BitVec.toNat_ofNat, h8]
    omega
  have hend : (ungetBytes + BitVec.ofNat 64 got.length).toNat = 8 + got.length := by
    rw [BitVec.toNat_add, BitVec.toNat_ofNat, h8]
    omega
  have htake : got.take j = (c.rest.drop k).take (n - k) := by
    rw [← hgot, List.take_take, List.take_eq_take_iff, List.length_drop]
    omega
  have hfill : got.drop j = (c.rest.drop (k + j)).take (got.length - j) := by
    rw [← hgot, List.drop_take, List.drop_drop, List.take_eq_take_iff, List.length_drop, List.length_take,
      List.length_drop]
    omega
  have htotal : k + j = (c.rest.take n).length := by
    rw [List.length_take]
    omega
  refine ⟨by rw [htake, take_append_take_drop c.rest hkn.le], htotal, ?_⟩
  refine ⟨h.content, ?_, ?_, ?_, ?_, ?_, fun he => ?_, ?_, h.written, h.small, ?_⟩
  · dsimp only [Cursor.move]
    omega
  · dsimp only
    rw [hpos, hend]
    omega
  · dsimp only
    omega
  · dsimp only
    omega
  · have hpart := readBytes_blit_part s.file.buf 8 got j got.length
    rw [min_eq_right (Nat.sub_le _ _), List.take_of_length_le (by rw [List.length_drop]; omega)] at hpart
    dsimp only
    rw [hpos, hpart, hfill, move_rest]
  · rw [htotal]
    subst hgot
    exact atEnd_read hkn (by norm_num) heof he
  · subst hgot
    exact h.buffered_read 4088
  · have hreach := h.reach
    have hsmall := h.small
    have hcontent : c.rest.length = c.content.length - c.pos := List.length_drop
    dsimp only [Cursor.move]
    omega

/-- `fread` does what the cursor does. -/
lemma Reads.fread (h : Reads s c k) (count : BitVec 64) :
    (fread regularCalls s 1 count).1 =
      (BitVec.ofNat 64 (c.rest.take count.toNat).length, c.rest.take count.toNat) ∧
    ∃ k', Reads (fread regularCalls s 1 count).2 (c.move (c.rest.take count.toNat).length) k' := by
  have hk : s.file.readEnd - s.file.readPos = BitVec.ofNat 64 k := by
    rw [← h.bufFilled, BitVec.ofNat_toNat, BitVec.setWidth_eq]
  have hktoNat := h.bufFilled
  have hrest := h.length_rest
  have hcount := count.isLt
  have hone : (1 : BitVec 64) * count = count := BitVec.one_mul count
  have hdiv : ∀ x : BitVec 64, x / 1 = x := fun x => BitVec.udiv_one
  unfold Stream.fread
  dsimp only
  rw [hone]
  by_cases hzero : count = 0
  · rw [if_pos hzero, hzero]
    exact ⟨rfl, k, h⟩
  have hpos : 0 < count.toNat := Nat.pos_of_ne_zero fun h0 => hzero (BitVec.eq_of_toNat_eq h0)
  rw [if_neg hzero]
  by_cases heof : s.file.flags &&& fileFlagEof ≠ 0
  · rw [if_pos heof, h.atEnd heof, List.take_nil]
    exact ⟨rfl, k, h⟩
  rw [if_neg heof]
  by_cases hle : s.file.readEnd - s.file.readPos ≤ count
  · have hkn : k ≤ count.toNat := by rwa [BitVec.le_def, hktoNat] at hle
    rw [if_pos hle, hktoNat, h.front le_rfl]
    have hremaining : (count - (s.file.readEnd - s.file.readPos)).toNat = count.toNat - k := by
      rw [BitVec.toNat_sub_of_le hle, hktoNat]
    by_cases hall : count - (s.file.readEnd - s.file.readPos) = 0
    · have hn : count.toNat = k := by
        rw [hall] at hremaining
        change 0 = _ at hremaining
        omega
      rw [if_pos hall, hn, List.length_take, min_eq_left hrest, ← hn, BitVec.ofNat_toNat, BitVec.setWidth_eq]
      exact ⟨rfl, 0, .empty h.content (hn ▸ h.offset) rfl rfl (fun he => absurd he heof) h.buffered h.written h.small
        (hn ▸ h.reach)⟩
    have hmore : k < count.toNat := by
      refine lt_of_le_of_ne hkn fun heq => hall (BitVec.eq_of_toNat_eq ?_)
      rw [hremaining, heq, Nat.sub_self]
      rfl
    rw [if_neg hall]
    have hjoin := take_append_take_drop c.rest hkn
    have hlen : k + ((c.rest.drop k).take (count.toNat - k)).length = (c.rest.take count.toNat).length := by
      rw [← hjoin, List.length_append, List.length_take_of_le hrest]
    have hreach := h.reach_rest count.toNat
    by_cases hdirect : count - (s.file.readEnd - s.file.readPos) ≥
        bufsiz - (s.setRead ungetBytes ungetBytes).file.readEnd ∨
      (s.setRead ungetBytes ungetBytes).file.flags &&& fileFlagBuffered = 0
    · rw [if_pos hdirect, h.readBytesOf, hremaining, hk]
      dsimp only
      rw [hdiv, ← BitVec.ofNat_add, hlen, hjoin]
      refine ⟨rfl, 0, .empty h.content ?_ rfl rfl (atEnd_read hmore (by omega) heof) (h.buffered_read _) h.written
        h.small hreach⟩
      dsimp only [Cursor.move]
      rw [Nat.add_assoc, hlen]
    · obtain ⟨hshort, -⟩ := not_or.mp hdirect
      have h4088 : (bufsiz - (s.setRead ungetBytes ungetBytes).file.readEnd).toNat = 4088 := by
        change (bufsiz - ungetBytes).toNat = 4088
        decide
      rw [ge_iff_le, BitVec.le_def, hremaining, h4088, not_le] at hshort
      obtain ⟨got, hgot⟩ : ∃ got, (c.rest.drop k).take 4088 = got := ⟨_, rfl⟩
      have hgotlen : got.length ≤ 4088 := by
        rw [← hgot]
        exact List.length_take_le _ _
      obtain ⟨j, hj⟩ : ∃ j, j = min (count.toNat - k) got.length := ⟨_, rfl⟩
      obtain ⟨hbytes, hcnt, hreads⟩ := h.refill hgot hmore hshort hj heof
      have hcopied : (if count - (s.file.readEnd - s.file.readPos) > BitVec.ofNat 64 got.length then
          BitVec.ofNat 64 got.length else count - (s.file.readEnd - s.file.readPos)) = BitVec.ofNat 64 j := by
        apply BitVec.eq_of_toNat_eq
        rw [BitVec.toNat_ofNat]
        split_ifs with hgt
        · rw [gt_iff_lt, BitVec.lt_def, hremaining, BitVec.toNat_ofNat] at hgt
          rw [BitVec.toNat_ofNat]
          omega
        · rw [gt_iff_lt, BitVec.lt_def, hremaining, BitVec.toNat_ofNat] at hgt
          rw [hremaining]
          omega
      have hjbytes : readBytes (blit s.file.buf 8 (fun i => got.getD i 0) got.length) 8 j = got.take j := by
        have hpart := readBytes_blit_part s.file.buf 8 got 0 j
        rwa [List.drop_zero, Nat.sub_zero, Nat.add_zero, min_eq_left (by omega)] at hpart
      rw [if_neg hdirect, h.readBytesOf, h4088, hgot]
      dsimp only [State.setBuf, State.setRead]
      rw [hcopied, hdiv, hk, ← BitVec.ofNat_add, hcnt]
      have hjnat : (BitVec.ofNat 64 j).toNat = j := by
        rw [BitVec.toNat_ofNat]
        omega
      have h8 : ungetBytes.toNat = 8 := rfl
      rw [hjnat, h8, hjbytes, hbytes]
      rw [hcnt] at hreads
      exact ⟨rfl, got.length - j, hreads⟩
  · have hlt : count.toNat < k := by
      rw [BitVec.le_def, hktoNat] at hle
      omega
    have hlen : (c.rest.take count.toNat).length = count.toNat := List.length_take_of_le (by omega)
    have hadd : (s.file.readPos + count).toNat = s.file.readPos.toNat + count.toNat := by
      have hhigh := h.high
      have hfilled := h.filled
      rw [BitVec.toNat_add, Nat.mod_eq_of_lt (by omega)]
    rw [if_neg hle, h.front hlt.le, hlen, BitVec.ofNat_toNat, BitVec.setWidth_eq]
    refine ⟨rfl, k - count.toNat, h.content, ?_, ?_, ?_, h.high, ?_, fun he => absurd he heof, h.buffered, h.written,
      h.small, ?_⟩
    · dsimp only [Cursor.move, State.setRead]
      rw [h.offset]
      omega
    · dsimp only [State.setRead]
      rw [hadd, h.filled]
      omega
    · dsimp only [State.setRead]
      have := h.low
      omega
    · dsimp only [State.setRead]
      have hpart := take_drop_readBytes s.file.buf s.file.readPos.toNat k count.toNat (k - count.toNat)
      rw [min_self, List.take_of_length_le (by rw [List.length_drop, length_readBytes])] at hpart
      rw [hadd, move_rest, ← List.drop_take, ← h.bytes, hpart]
    · dsimp only [Cursor.move]
      have := h.reach
      omega

lemma move_zero (c : Cursor) : c.move 0 = c := rfl

/-- One byte, or the end of the file. -/
lemma Reads.fgetc (h : Reads s c k) :
    (fgetc regularCalls s).1 = (match c.rest with
      | [] => eof
      | b :: _ => b.setWidth 32) ∧
    ∃ k', Reads (fgetc regularCalls s).2 (c.move (c.rest.take 1).length) k' := by
  obtain ⟨hans, k', hreads⟩ := h.fread 1
  have hone : (1 : BitVec 64).toNat = 1 := rfl
  rw [hone] at hans hreads
  unfold Stream.fgetc
  dsimp only
  rw [hans]
  cases hrest : c.rest with
  | nil =>
    rw [hrest] at hreads
    exact ⟨rfl, k', hreads⟩
  | cons b bs =>
    rw [hrest] at hreads
    exact ⟨rfl, k', hreads⟩

lemma setWidth_ne_eof (b : Byte) : b.setWidth 32 ≠ eof := by
  revert b
  decide

lemma setWidth_eq_newline (b : Byte) : b.setWidth 32 = 10 ↔ b = 10 := by
  revert b
  decide

lemma setWidth_setWidth_byte (b : Byte) : (b.setWidth 32).setWidth 8 = b := by
  revert b
  decide

lemma Reads.fgetsLoop (h : Reads s c k) (n : ℕ) :
    (fgetsLoop regularCalls n s).1 = firstLine (c.rest.take n) ∧
    ∃ k', Reads (fgetsLoop regularCalls n s).2 (c.move (firstLine (c.rest.take n)).length) k' := by
  induction n generalizing s c k with
  | zero => exact ⟨rfl, k, h⟩
  | succ n ih =>
    obtain ⟨hans, k1, hreads⟩ := h.fgetc
    rw [Stream.fgetsLoop]
    dsimp only
    cases hrest : c.rest with
    | nil =>
      rw [hrest] at hans hreads
      rw [if_pos hans]
      exact ⟨rfl, k1, hreads⟩
    | cons b bs =>
      rw [hrest] at hans hreads
      dsimp only at hans
      have hmove : (c.move 1).rest = bs := by rw [move_rest, hrest, List.drop_succ_cons, List.drop_zero]
      have hreads1 : Reads (Stream.fgetc regularCalls s).2 (c.move 1) k1 := hreads
      rw [hans, if_neg (setWidth_ne_eof b), setWidth_setWidth_byte, List.take_succ_cons, firstLine]
      by_cases hnl : b = 10
      · rw [if_pos ((setWidth_eq_newline b).mpr hnl), if_pos hnl]
        exact ⟨rfl, k1, hreads1⟩
      · obtain ⟨hline, k2, hreads2⟩ := ih hreads1
        rw [hmove] at hline hreads2
        rw [if_neg (hnl ∘ (setWidth_eq_newline b).mp), if_neg hnl, hline, List.length_cons]
        refine ⟨rfl, k2, ?_⟩
        rwa [Cursor.move, Cursor.move, Nat.add_assoc, Nat.add_comm 1] at hreads2

lemma seekTarget_lt {length pos p : ℕ} {offset : BitVec 64} {whence : Whence}
    (h : seekTarget length pos offset whence = some p) : p < 2 ^ 63 := by
  have hlt := BitVec.toInt_lt (x := offset)
  cases whence with
  | seekSet =>
    rw [seekTarget] at h
    split_ifs at h
    cases h
    omega
  | seekCur =>
    rw [seekTarget] at h
    split_ifs at h
    cases h
    omega
  | seekEnd =>
    rw [seekTarget] at h
    split_ifs at h
    cases h
    omega

lemma slt_zero_of_lt {p : ℕ} (h : p < 2 ^ 63) : (BitVec.ofNat 64 p).slt 0 = false := by
  have hnat : (BitVec.ofNat 64 p).toNat = p := by
    rw [BitVec.toNat_ofNat]
    omega
  have hint : (BitVec.ofNat 64 p).toInt = p := by rw [BitVec.toInt_eq_toNat_of_lt (by omega), hnat]
  have hzero : (0 : BitVec 64).toInt = 0 := rfl
  rw [BitVec.slt, hint, hzero]
  exact decide_eq_false (by omega)

lemma lseek_none {f : RegularFile} {offset : BitVec 64} {whence : Whence}
    (h : seekTarget f.content.length f.offset offset whence = none) : regularCalls.lseek f offset whence = (-1, f) := by
  simp only [regularCalls, h]

lemma lseek_some {f : RegularFile} {offset : BitVec 64} {whence : Whence} {p : ℕ}
    (h : seekTarget f.content.length f.offset offset whence = some p) :
    regularCalls.lseek f offset whence = (BitVec.ofNat 64 p, { f with offset := p }) := by
  simp only [regularCalls, h]

/-- The bytes in the buffer are taken off a relative offset, which changes nothing for the cursor. -/
lemma Reads.subOverflow (h : Reads s c k) (offset : BitVec 64) :
    ((subOverflow offset (s.file.readEnd - s.file.readPos)).bind fun offset =>
      seekTarget s.fd.content.length s.fd.offset offset .seekCur) =
    seekTarget c.content.length c.pos offset .seekCur := by
  have hlt := BitVec.toInt_lt (x := offset)
  have hle := BitVec.le_toInt offset
  have hreach := h.reach
  rw [Stream.subOverflow, h.bufFilled, h.content, h.offset]
  have hk : (s.file.readEnd - s.file.readPos).toInt = k := by
    rw [BitVec.toInt_eq_toNat_of_lt (by rw [h.bufFilled]; omega), h.bufFilled]
  split_ifs with hfit
  · have hsub : (offset - (s.file.readEnd - s.file.readPos)).toInt = offset.toInt - k := by
      rw [BitVec.toInt_sub, hk]
      apply Int.bmod_eq_of_le <;> omega
    have hsame : ((c.pos + k : ℕ) : ℤ) + (offset.toInt - k) = c.pos + offset.toInt := by
      push_cast
      ring
    rw [Option.bind_some, seekTarget, seekTarget, hsub, hsame]
  · rw [Option.bind_none, seekTarget, if_neg]
    omega

lemma Reads.fseek (h : Reads s c k) (fuel : ℕ) (offset : BitVec 64) (whence : Whence) :
    ∃ s' k', fseek regularCalls fuel s offset whence =
      some ((if (seekTarget c.content.length c.pos offset whence).isSome then 0 else -1), s') ∧
      Reads s' { c with pos := (seekTarget c.content.length c.pos offset whence).getD c.pos } k' := by
  have hflags : (s.file.flags &&& ~~~fileFlagEof) &&& fileFlagEof = 0 := by
    have hnone : ~~~fileFlagEof &&& fileFlagEof = 0 := by decide
    rw [BitVec.and_assoc, hnone]
    exact BitVec.and_zero
  have hbuf : (s.file.flags &&& ~~~fileFlagEof) &&& fileFlagBuffered ≠ 0 := by
    have hsame : ~~~fileFlagEof &&& fileFlagBuffered = fileFlagBuffered := by decide
    rw [BitVec.and_assoc, hsame]
    exact h.buffered
  have hseek : Stream.fseek regularCalls fuel s offset whence =
      some ((if whence = .seekCur then Stream.subOverflow offset (s.file.readEnd - s.file.readPos)
        else some offset).elim (-1, s) fun offset =>
          let r := regularCalls.lseek s.fd offset whence
          let s := { s with fd := r.2 }
          if r.1.slt 0 then (-1, s)
          else
            (0, { s with file :=
              { s.file with flags := s.file.flags &&& ~~~fileFlagEof, readPos := ungetBytes, readEnd := ungetBytes } })) := by
    rw [Stream.fseek, if_neg (not_not.mpr h.written), Option.map_some]
    dsimp only
    rw [if_neg (by decide)]
    cases if whence = .seekCur then Stream.subOverflow offset (s.file.readEnd - s.file.readPos) else some offset with
    | none => rfl
    | some offset => rfl
  have htarget : ((if whence = .seekCur then Stream.subOverflow offset (s.file.readEnd - s.file.readPos)
      else some offset).bind fun offset => seekTarget s.fd.content.length s.fd.offset offset whence) =
      seekTarget c.content.length c.pos offset whence := by
    cases whence with
    | seekCur => exact h.subOverflow offset
    | seekSet => rfl
    | seekEnd =>
      rw [if_neg (by decide), Option.bind_some, h.content]
      rfl
  rw [hseek, ← htarget]
  cases if whence = .seekCur then Stream.subOverflow offset (s.file.readEnd - s.file.readPos) else some offset with
  | none => exact ⟨s, k, rfl, h⟩
  | some offset =>
    rw [Option.bind_some, Option.elim_some]
    cases hp : seekTarget s.fd.content.length s.fd.offset offset whence with
    | none =>
      dsimp only
      rw [lseek_none hp]
      exact ⟨s, k, rfl, h⟩
    | some p =>
      have hlt := seekTarget_lt hp
      dsimp only
      rw [lseek_some hp, slt_zero_of_lt hlt]
      exact ⟨_, 0, rfl, .empty h.content rfl rfl rfl (fun he => absurd hflags he) hbuf h.written h.small hlt⟩

lemma Reads.ftell (h : Reads s c k) :
    (ftell regularCalls s).1 = BitVec.ofNat 64 c.pos ∧ Reads (ftell regularCalls s).2 c k := by
  have hreach := h.reach
  have hp : seekTarget s.fd.content.length s.fd.offset 0 .seekCur = some s.fd.offset := by
    have hzero : (0 : BitVec 64).toInt = 0 := rfl
    rw [seekTarget, hzero, h.offset, if_pos (by omega), add_zero, Int.toNat_natCast]
  have hk : s.file.readEnd - s.file.readPos = BitVec.ofNat 64 k := by
    rw [← h.bufFilled, BitVec.ofNat_toNat, BitVec.setWidth_eq]
  have hpos : BitVec.ofNat 64 s.fd.offset + s.file.writePos - (s.file.readEnd - s.file.readPos) = BitVec.ofNat 64 c.pos := by
    rw [h.offset, h.written, hk, BitVec.ofNat_add]
    grind
  have htell : Stream.ftell regularCalls s = (BitVec.ofNat 64 c.pos, s) := by
    simp only [Stream.ftell, lseek_some hp, slt_zero_of_lt (h.offset ▸ hreach), Bool.false_eq_true, if_false, hpos]
  rw [htell]
  exact ⟨rfl, h⟩

/-- A call on the stream is a call on the cursor. -/
lemma Reads.call (h : Reads s c k) (fuel : ℕ) (call : Call) :
    ∃ s' k', s.call fuel call = some ((c.call call).1, s') ∧ Reads s' (c.call call).2 k' := by
  cases call with
  | fread count =>
    obtain ⟨hans, k', hreads⟩ := h.fread count
    refine ⟨_, k', ?_, hreads⟩
    rw [State.call, hans]
    rfl
  | fgetc =>
    obtain ⟨hans, k', hreads⟩ := h.fgetc
    refine ⟨(Stream.fgetc regularCalls s).2, k', ?_, ?_⟩
    · rw [State.call, hans, Cursor.call]
      cases c.rest <;> rfl
    · rw [Cursor.call]
      cases hrest : c.rest with
      | nil =>
        rw [hrest] at hreads
        exact hreads
      | cons b bs =>
        rw [hrest] at hreads
        exact hreads
  | fgets size =>
    obtain ⟨hline, k', hreads⟩ := h.fgetsLoop (size.toInt - 1).toNat
    refine ⟨(Stream.fgets regularCalls s size).2, k', ?_, hreads⟩
    rw [State.call, Cursor.call, Stream.fgets]
    dsimp only
    rw [hline]
  | fseek offset whence =>
    obtain ⟨s', k', hseek, hreads⟩ := h.fseek fuel offset whence
    refine ⟨s', k', ?_, ?_⟩
    · rw [State.call, hseek, Cursor.call]
      cases seekTarget c.content.length c.pos offset whence <;> rfl
    · rw [Cursor.call]
      cases hp : seekTarget c.content.length c.pos offset whence with
      | none =>
        rw [hp] at hreads
        exact hreads
      | some p =>
        rw [hp] at hreads
        exact hreads
  | ftell =>
    obtain ⟨hpos, hreads⟩ := h.ftell
    refine ⟨_, k, ?_, hreads⟩
    rw [State.call, hpos]
    rfl

lemma Reads.answers (h : Reads s c k) (fuel : ℕ) (calls : List Call) :
    s.answers fuel calls = some (outputs Cursor.call c calls) := by
  induction calls generalizing s c k with
  | nil => rfl
  | cons call calls ih =>
    obtain ⟨s', k', hcall, hreads⟩ := h.call fuel call
    rw [State.answers, hcall, Option.bind_some, ih hreads]
    rfl

end Reading

/-- Every sequence of reads, seeks and questions for the position is answered as by a cursor on the file. -/
theorem reading_refines_cursor (stale : Memory) (content : List Byte) (offset : ℕ) (hsmall : content.length < 2 ^ 63)
    (hoffset : offset < 2 ^ 63) (fuel : ℕ) (calls : List Call) :
    (fdopen stale (RegularFile.mk content offset)).answers fuel calls =
      some (outputs Cursor.call ⟨content, offset⟩ calls) := by
  have hflags : fileFlagBuffered &&& fileFlagEof = 0 := by decide
  have hbuf : fileFlagBuffered &&& fileFlagBuffered ≠ 0 := by decide
  have hopen : Reads (fdopen stale (RegularFile.mk content offset)) ⟨content, offset⟩ 0 :=
    .empty rfl rfl rfl rfl (fun he => absurd hflags he) hbuf rfl hsmall hoffset
  exact hopen.answers fuel calls

theorem reading_refines_cursor_hello :
    (fdopen (fun _ => 0) (RegularFile.mk [104, 105, 10, 120] 0)).answers 0
      [.fgets 10, .ftell, .fgetc, .fgetc, .fseek (-2) .seekEnd, .fread 5, .ftell] =
    some [.line (some [104, 105, 10]), .position 3, .char 120, .char (-1), .status 0, .data 2 [10, 120], .position 4] := by
  rw [reading_refines_cursor _ _ _ (by decide) (by decide)]
  decide

end PiggyOs.Stream
