import PiggyOs.ByteMemory

/-! Regular files of `tmpfs`: a buffer that doubles when it is too small, and `st_size`. Offsets,
counts and sizes are 64-bit numbers, and `off_t` is compared as a signed one. -/
namespace PiggyOs.Tmpfs
open ByteMemory

structure TmpFile where
  capacity : BitVec 64
  size : BitVec 64
  data : Memory

/-- `kmalloc` of 4096 bytes does not clear them. -/
def tmpfsCreate (stale : Memory) : TmpFile := ⟨4096, 0, stale⟩

/-- `krealloc` of a block of pages; `stale` is what the new pages held before. -/
def krealloc (stale data : Memory) (oldSize newSize : ℕ) : Memory :=
  if (oldSize + 4095) / 4096 = (newSize + 4095) / 4096 then data
  else fun k => if k < min oldSize newSize then data k else stale k

/-- After 64 doublings the capacity is 0 and the loop does not end. -/
def doubleUntil (enough : BitVec 64 → Bool) : ℕ → BitVec 64 → Option (BitVec 64)
  | 0, _ => none
  | rounds + 1, c => if enough c then some c else doubleUntil enough rounds (c * 2)

def rounds : ℕ := 65

/-- The block that moves the data to a larger buffer. -/
def grow (stale : Memory) (enough : BitVec 64 → Bool) (file : TmpFile) : Option TmpFile :=
  (doubleUntil enough rounds file.capacity).map fun c =>
    { file with capacity := c, data := krealloc stale file.data file.capacity.toNat c.toNat }

/-- How many bytes `tmpfs_read` copies. -/
def actualCount (size offset count : BitVec 64) : BitVec 64 :=
  if size.sle (offset + count) then count - ((offset + count) - size) else count

/-- The bytes that are copied to the user. A copy with a negative count does not return. -/
def tmpfsRead (file : TmpFile) (offset count : BitVec 64) : Option (List (BitVec 8)) :=
  let actual := actualCount file.size offset count
  if actual.slt 0 then none else some (readBytes file.data offset.toNat actual.toNat)

/-- The buffer before the bytes are stored. -/
def writeBuffer (stale : Memory) (file : TmpFile) (offset count : BitVec 64) : Option TmpFile :=
  if file.capacity.ule (offset + count) then grow stale (fun c => (offset + count).ult c) file
  else some file

def tmpfsWrite (stale : Memory) (file : TmpFile) (buf : Memory) (offset count : BitVec 64) :
    Option TmpFile :=
  (writeBuffer stale file offset count).map fun f =>
    { f with
      data := blit f.data offset.toNat buf count.toNat
      size := if f.size.sle (offset + count) then offset + count else f.size }

def truncateBuffer (stale : Memory) (file : TmpFile) (length : BitVec 64) : Option TmpFile :=
  if file.capacity.ult length then grow stale (fun c => length.ule c) file else some file

def tmpfsTruncate (stale : Memory) (file : TmpFile) (length : BitVec 64) : Option TmpFile :=
  (truncateBuffer stale file length).map fun f => { f with size := length }

section Counts
variable {size offset count : BitVec 64}

lemma toNat_add_of_lt (h : offset.toNat + count.toNat < 2 ^ 63) :
    (offset + count).toNat = offset.toNat + count.toNat := by
  rw [BitVec.toNat_add, Nat.mod_eq_of_lt (by omega)]

lemma sle_iff_of_lt (h1 : size.toNat < 2 ^ 63) (h2 : count.toNat < 2 ^ 63) :
    size.sle count = true ↔ size.toNat ≤ count.toNat := by
  rw [BitVec.sle, decide_eq_true_eq, BitVec.toInt_eq_toNat_of_lt (by omega),
    BitVec.toInt_eq_toNat_of_lt (by omega)]
  norm_cast

lemma slt_zero_iff (x : BitVec 64) : x.slt 0 = true ↔ 2 ^ 63 ≤ x.toNat := by
  rw [BitVec.slt, decide_eq_true_eq, BitVec.toInt_eq_toNat_cond]
  have := x.isLt
  split_ifs with h
  · simp
    omega
  · simp
    omega

/-- Inside the file `tmpfs_read` stops at its end. -/
lemma actualCount_inside (hsize : size.toNat < 2 ^ 63) (hsum : offset.toNat + count.toNat < 2 ^ 63)
    (hoff : offset.toNat ≤ size.toNat) :
    (actualCount size offset count).toNat = min count.toNat (size.toNat - offset.toNat) := by
  have hadd := toNat_add_of_lt hsum
  have hle := sle_iff_of_lt hsize (hadd ▸ hsum)
  rw [hadd] at hle
  rw [actualCount]
  by_cases h : size.toNat ≤ offset.toNat + count.toNat
  · rw [if_pos (hle.mpr h), BitVec.toNat_sub, BitVec.toNat_sub, hadd]
    omega
  · rw [if_neg (h ∘ hle.mp)]
    omega

/-- Behind the end the count does not matter. -/
lemma actualCount_outside (hsize : size.toNat < 2 ^ 63) (hsum : offset.toNat + count.toNat < 2 ^ 63)
    (hoff : size.toNat < offset.toNat) :
    (actualCount size offset count).toNat = 2 ^ 64 - (offset.toNat - size.toNat) := by
  have hadd := toNat_add_of_lt hsum
  have hle : size.sle (offset + count) = true := by
    rw [sle_iff_of_lt hsize (hadd ▸ hsum), hadd]
    omega
  rw [actualCount, if_pos hle, BitVec.toNat_sub, BitVec.toNat_sub, hadd]
  omega

end Counts

/-- What holds of every file: the capacity is a power of two, and the file fits into it. -/
structure Fits (file : TmpFile) : Prop where
  capacity : ∃ k, 12 ≤ k ∧ k ≤ 63 ∧ file.capacity.toNat = 2 ^ k
  size : file.size.toNat ≤ file.capacity.toNat
  low : file.size.toNat < 2 ^ 63

lemma tmpfsCreate_fits (stale : Memory) : Fits (tmpfsCreate stale) := by
  have hsize : (tmpfsCreate stale).size.toNat = 0 := rfl
  refine ⟨⟨12, le_rfl, by norm_num, rfl⟩, ?_, ?_⟩
  · rw [hsize]
    exact Nat.zero_le _
  · rw [hsize]
    norm_num

/-- The loop ends if `2 ^ 63` would be enough. -/
lemma doubleUntil_some {enough : BitVec 64 → Bool} (htop : ∀ c : BitVec 64, c.toNat = 2 ^ 63 → enough c = true)
    {n k : ℕ} {c : BitVec 64} (hc : c.toNat = 2 ^ k) (hk : k ≤ 63) (hn : 63 < k + n) :
    ∃ c' k', doubleUntil enough n c = some c' ∧ enough c' = true ∧ c'.toNat = 2 ^ k' ∧ k ≤ k' ∧ k' ≤ 63 := by
  induction n generalizing k c with
  | zero => omega
  | succ n ih =>
    rw [doubleUntil]
    by_cases he : enough c = true
    · rw [if_pos he]
      exact ⟨c, k, rfl, he, hc, le_rfl, hk⟩
    · rw [if_neg he]
      have hlt : k < 63 := by
        refine lt_of_le_of_ne hk fun h => he (htop c ?_)
        rw [hc, h]
      have hpow : 2 ^ (k + 1) < 2 ^ 64 := Nat.pow_lt_pow_right (by norm_num) (by omega)
      have hdouble : (c * 2).toNat = 2 ^ (k + 1) := by
        have htwo : (2 : BitVec 64).toNat = 2 := rfl
        rw [BitVec.toNat_mul, hc, htwo, ← pow_succ, Nat.mod_eq_of_lt hpow]
      obtain ⟨c', k', h1, h2, h3, h4, h5⟩ := ih hdouble (by omega) (by omega)
      exact ⟨c', k', h1, h2, h3, by omega, h5⟩

section Buffers
variable {stale buf : Memory} {file f : TmpFile} {offset count length : BitVec 64}

/-- The buffer `f` holds what `file` holds, and is large enough for `last` bytes. -/
structure Buffered (file f : TmpFile) (last : ℕ) : Prop where
  capacity : ∃ k, 12 ≤ k ∧ k ≤ 63 ∧ f.capacity.toNat = 2 ^ k
  larger : file.capacity.toNat ≤ f.capacity.toNat
  room : last ≤ f.capacity.toNat
  size : f.size = file.size
  data : ∀ k < file.capacity.toNat, f.data k = file.data k

lemma krealloc_inside (stale data : Memory) {oldSize newSize k : ℕ} (h : oldSize ≤ newSize) (hk : k < oldSize) :
    krealloc stale data oldSize newSize k = data k := by
  unfold krealloc
  split_ifs
  · rfl
  · exact if_pos (by omega)

lemma grow_buffered {enough : BitVec 64 → Bool} {last : ℕ} (hfile : Fits file)
    (htop : ∀ c : BitVec 64, c.toNat = 2 ^ 63 → enough c = true)
    (hroom : ∀ c, enough c = true → last ≤ c.toNat) : ∃ f, grow stale enough file = some f ∧ Buffered file f last := by
  obtain ⟨k, h12, h63, hk⟩ := hfile.capacity
  obtain ⟨c, k', hc, he, hk', hle, h63'⟩ := doubleUntil_some htop hk h63 (show 63 < k + rounds by simp [rounds])
  have hlarger : file.capacity.toNat ≤ c.toNat := by
    rw [hk, hk']
    exact Nat.pow_le_pow_right (by norm_num) hle
  rw [grow, hc]
  exact ⟨_, rfl, ⟨k', by omega, h63', hk'⟩, hlarger, hroom c he, rfl, fun j hj => krealloc_inside _ _ hlarger hj⟩

lemma fits_buffered {last : ℕ} (hfile : Fits file) (h : last ≤ file.capacity.toNat) : Buffered file file last :=
  ⟨hfile.capacity, le_rfl, h, rfl, fun _ _ => rfl⟩

variable (stale) in
lemma writeBuffer_buffered (hfile : Fits file) (hsum : offset.toNat + count.toNat < 2 ^ 63) :
    ∃ f, writeBuffer stale file offset count = some f ∧ Buffered file f (offset.toNat + count.toNat) := by
  have hadd := toNat_add_of_lt hsum
  unfold writeBuffer
  split_ifs with h
  · refine grow_buffered hfile (fun c hc => ?_) fun c hc => ?_
    · rw [BitVec.ult, hadd, hc, decide_eq_true_eq]
      exact hsum
    · rw [BitVec.ult, hadd, decide_eq_true_eq] at hc
      exact hc.le
  · rw [BitVec.ule, hadd, decide_eq_true_eq] at h
    exact ⟨file, rfl, fits_buffered hfile (by omega)⟩

variable (stale) in
lemma truncateBuffer_buffered (hfile : Fits file) (hlen : length.toNat < 2 ^ 63) :
    ∃ f, truncateBuffer stale file length = some f ∧ Buffered file f length.toNat := by
  unfold truncateBuffer
  split_ifs with h
  · refine grow_buffered hfile (fun c hc => ?_) fun c hc => ?_
    · rw [BitVec.ule, hc, decide_eq_true_eq]
      exact hlen.le
    · rwa [BitVec.ule, decide_eq_true_eq] at hc
  · rw [BitVec.ult, decide_eq_true_eq] at h
    exact ⟨file, rfl, fits_buffered hfile (by omega)⟩

variable (stale buf) in
/-- What `tmpfs_write` does to a file. -/
lemma tmpfsWrite_some (hfile : Fits file) (hsum : offset.toNat + count.toNat < 2 ^ 63) :
    ∃ f f', writeBuffer stale file offset count = some f ∧ Buffered file f (offset.toNat + count.toNat) ∧
      tmpfsWrite stale file buf offset count = some f' ∧ Fits f' ∧
      f'.size.toNat = max file.size.toNat (offset.toNat + count.toNat) ∧
      f'.data = blit f.data offset.toNat buf count.toNat := by
  obtain ⟨f, hf, hb⟩ := writeBuffer_buffered stale hfile hsum
  have hadd := toNat_add_of_lt hsum
  have hle := sle_iff_of_lt hfile.low (hadd ▸ hsum)
  have hsize : (if f.size.sle (offset + count) then offset + count else f.size).toNat =
      max file.size.toNat (offset.toNat + count.toNat) := by
    rw [hb.size]
    split_ifs with h
    · rw [hadd, max_eq_right]
      rw [hle, hadd] at h
      exact h
    · rw [max_eq_left]
      rw [hle, hadd] at h
      omega
  have hfits := hfile.size
  have hlow := hfile.low
  have hlarger := hb.larger
  have hroom := hb.room
  rw [tmpfsWrite, hf]
  refine ⟨f, _, rfl, hb, rfl, ⟨hb.capacity, ?_, ?_⟩, hsize, rfl⟩
  · dsimp only
    rw [hsize]
    omega
  · dsimp only
    rw [hsize]
    omega

variable (stale) in
lemma tmpfsTruncate_some (hfile : Fits file) (hlen : length.toNat < 2 ^ 63) :
    ∃ f f', truncateBuffer stale file length = some f ∧ Buffered file f length.toNat ∧
      tmpfsTruncate stale file length = some f' ∧ Fits f' ∧ f'.size = length ∧ f'.data = f.data := by
  obtain ⟨f, hf, hb⟩ := truncateBuffer_buffered stale hfile hlen
  rw [tmpfsTruncate, hf]
  exact ⟨f, _, rfl, hb, rfl, ⟨hb.capacity, hb.room, hlen⟩, rfl, rfl⟩

/-- A read that starts inside the file. -/
lemma tmpfsRead_inside (hsize : file.size.toNat < 2 ^ 63) (hsum : offset.toNat + count.toNat < 2 ^ 63)
    (hoff : offset.toNat ≤ file.size.toNat) :
    tmpfsRead file offset count =
      some (readBytes file.data offset.toNat (min count.toNat (file.size.toNat - offset.toNat))) := by
  have hcount := actualCount_inside hsize hsum hoff
  have hneg : ¬ (actualCount file.size offset count).slt 0 = true := by
    rw [slt_zero_iff, hcount]
    omega
  rw [tmpfsRead]
  simp only [if_neg hneg, hcount]

/-- A read that starts behind the end does not return. -/
lemma tmpfsRead_outside (hsize : file.size.toNat < 2 ^ 63) (hsum : offset.toNat + count.toNat < 2 ^ 63)
    (hoff : file.size.toNat < offset.toNat) : tmpfsRead file offset count = none := by
  have hneg : (actualCount file.size offset count).slt 0 = true := by
    rw [slt_zero_iff, actualCount_outside hsize hsum hoff]
    omega
  rw [tmpfsRead]
  exact if_pos hneg

end Buffers

end PiggyOs.Tmpfs
