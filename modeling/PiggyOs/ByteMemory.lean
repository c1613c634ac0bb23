import Mathlib.Tactic

/-! Byte-addressed memory with little-endian 64-bit words, block clears and block copies. -/
namespace PiggyOs.ByteMemory

abbrev Memory := ℕ → BitVec 8

def byteOf (v : BitVec 64) (k : ℕ) : BitVec 8 := BitVec.ofNat 8 (v.toNat / 256 ^ k)

/-- The number in the `k` bytes from `a` on. -/
def readNat (m : Memory) : ℕ → ℕ → ℕ
  | _, 0 => 0
  | a, k + 1 => (m a).toNat + 256 * readNat m (a + 1) k

def read64 (m : Memory) (a : ℕ) : BitVec 64 := BitVec.ofNat 64 (readNat m a 8)

def write64 (m : Memory) (a : ℕ) (v : BitVec 64) : Memory := fun b =>
  if a ≤ b ∧ b < a + 8 then byteOf v (b - a) else m b

def clear (m : Memory) (a n : ℕ) : Memory := fun b => if a ≤ b ∧ b < a + n then 0 else m b

def copy (m : Memory) (dest src n : ℕ) : Memory := fun b =>
  if dest ≤ b ∧ b < dest + n then m (src + (b - dest)) else m b

/-- The `n` bytes from `a` on. -/
def readBytes (m : Memory) (a n : ℕ) : List (BitVec 8) := (List.range n).map fun k => m (a + k)

/-- The first `n` bytes of another block of memory, at `dest`. -/
def blit (m : Memory) (dest : ℕ) (src : Memory) (n : ℕ) : Memory := fun b =>
  if dest ≤ b ∧ b < dest + n then src (b - dest) else m b

/-- Bytes moved one after the other, lowest first. -/
def movsb (m : Memory) (dest src n : ℕ) : Memory :=
  (List.range n).foldl (fun m k => Function.update m (dest + k) (m (src + k))) m

lemma readNat_congr {m m' : Memory} {a b n : ℕ} (h : ∀ k < n, m' (b + k) = m (a + k)) :
    readNat m' b n = readNat m a n := by
  induction n generalizing a b with
  | zero => rfl
  | succ n ih =>
    have h0 : m' b = m a := h 0 (by omega)
    have htail : readNat m' (b + 1) n = readNat m (a + 1) n := by
      apply ih
      intro k hk
      have := h (k + 1) (by omega)
      rwa [Nat.add_assoc, Nat.add_assoc, Nat.add_comm 1 k]
    rw [readNat, readNat, h0, htail]

/-- Reading back the bytes of a number, lowest first. -/
lemma readNat_bytes {m : Memory} {a n v : ℕ} (h : ∀ k < n, m (a + k) = BitVec.ofNat 8 (v / 256 ^ k)) :
    readNat m a n = v % 256 ^ n := by
  induction n generalizing a v with
  | zero => simp [readNat, Nat.mod_one]
  | succ n ih =>
    have h0 : (m a).toNat = v % 256 := by
      have := h 0 (by omega)
      simp only [Nat.add_zero, pow_zero, Nat.div_one] at this
      simp [this]
    have htail : readNat m (a + 1) n = v / 256 % 256 ^ n := by
      apply ih
      intro k hk
      have := h (k + 1) (by omega)
      rw [Nat.add_assoc, Nat.add_comm 1 k, this, pow_succ', ← Nat.div_div_eq_div_mul]
    rw [readNat, h0, htail, pow_succ', Nat.mod_mul]

lemma read64_congr {m m' : Memory} {a b : ℕ} (h : ∀ k < 8, m' (b + k) = m (a + k)) :
    read64 m' b = read64 m a := by
  rw [read64, read64, readNat_congr h]

lemma write64_outside (m : Memory) {a b : ℕ} (v : BitVec 64) (h : b < a ∨ a + 8 ≤ b) :
    write64 m a v b = m b := if_neg (by omega)

lemma clear_outside (m : Memory) {a n b : ℕ} (h : b < a ∨ a + n ≤ b) : clear m a n b = m b :=
  if_neg (by omega)

lemma copy_outside (m : Memory) {dest src n b : ℕ} (h : b < dest ∨ dest + n ≤ b) :
    copy m dest src n b = m b := if_neg (by omega)

lemma copy_inside (m : Memory) {dest n k : ℕ} (src : ℕ) (h : k < n) :
    copy m dest src n (dest + k) = m (src + k) := by
  rw [copy, if_pos (by omega), Nat.add_sub_cancel_left]

lemma readBytes_congr {m m' : Memory} {a b n : ℕ} (h : ∀ k < n, m' (b + k) = m (a + k)) :
    readBytes m' b n = readBytes m a n :=
  List.map_congr_left fun k hk => h k (List.mem_range.mp hk)

@[simp] lemma length_readBytes (m : Memory) (a n : ℕ) : (readBytes m a n).length = n := by simp [readBytes]

@[simp] lemma getElem_readBytes (m : Memory) (a n : ℕ) {k : ℕ} (h : k < (readBytes m a n).length) :
    (readBytes m a n)[k] = m (a + k) := by simp [readBytes]

/-- A part of a block. -/
lemma take_drop_readBytes (m : Memory) (a n i k : ℕ) :
    ((readBytes m a n).drop i).take k = readBytes m (a + i) (min k (n - i)) := by
  apply List.ext_getElem
  · simp
  · intro j h1 h2
    simp only [List.getElem_take, List.getElem_drop, getElem_readBytes]
    rw [Nat.add_assoc]

lemma blit_outside (m : Memory) {dest n b : ℕ} (src : Memory) (h : b < dest ∨ dest + n ≤ b) :
    blit m dest src n b = m b := if_neg (by omega)

lemma blit_inside (m : Memory) {dest n k : ℕ} (src : Memory) (h : k < n) :
    blit m dest src n (dest + k) = src k := by
  rw [blit, if_pos (by omega), Nat.add_sub_cancel_left]

lemma clear_inside (m : Memory) {a n b : ℕ} (h1 : a ≤ b) (h2 : b < a + n) : clear m a n b = 0 :=
  if_pos ⟨h1, h2⟩

lemma movsb_succ (m : Memory) (dest src n : ℕ) : movsb m dest src (n + 1) =
    Function.update (movsb m dest src n) (dest + n) (movsb m dest src n (src + n)) := by
  simp only [movsb, List.range_succ, List.foldl_append, List.foldl_cons, List.foldl_nil]

lemma movsb_outside (m : Memory) {dest src n b : ℕ} (h : b < dest ∨ dest + n ≤ b) :
    movsb m dest src n b = m b := by
  induction n with
  | zero => rfl
  | succ n ih =>
    rw [movsb_succ, Function.update_of_ne (by omega)]
    exact ih (by omega)

/-- Between blocks that do not overlap the bytes are copied. -/
lemma movsb_inside (m : Memory) {dest src n k : ℕ} (h : src + n ≤ dest ∨ dest + n ≤ src) (hk : k < n) :
    movsb m dest src n (dest + k) = m (src + k) := by
  induction n with
  | zero => omega
  | succ n ih =>
    rw [movsb_succ]
    by_cases hlast : k = n
    · rw [hlast, Function.update_self]
      exact movsb_outside m (by omega)
    · rw [Function.update_of_ne (by omega)]
      exact ih (by omega) (by omega)

lemma write64_inside (m : Memory) (a : ℕ) (v : BitVec 64) {k : ℕ} (h : k < 8) :
    write64 m a v (a + k) = byteOf v k := by
  rw [write64, if_pos (by omega), Nat.add_sub_cancel_left]

@[simp] theorem read64_write64 (m : Memory) (a : ℕ) (v : BitVec 64) :
    read64 (write64 m a v) a = v := by
  have hbytes : readNat (write64 m a v) a 8 = v.toNat % 256 ^ 8 :=
    readNat_bytes fun k hk => write64_inside m a v hk
  have hv : v.toNat < 256 ^ 8 := by
    have := v.isLt
    norm_num
    omega
  rw [read64, hbytes, Nat.mod_eq_of_lt hv, BitVec.ofNat_toNat, BitVec.setWidth_eq]

lemma read64_write64_of_apart (m : Memory) {a b : ℕ} (v : BitVec 64) (h : a + 8 ≤ b ∨ b + 8 ≤ a) :
    read64 (write64 m a v) b = read64 m b :=
  read64_congr fun k hk => write64_outside m v (by omega)

@[simp] lemma read64_zero (a : ℕ) : read64 (fun _ => 0) a = 0 := by
  simp [read64, readNat]

lemma read64_clear (m : Memory) {a n b : ℕ} (h1 : a ≤ b) (h2 : b + 8 ≤ a + n) :
    read64 (clear m a n) b = 0 := by
  rw [← read64_zero b]
  apply read64_congr
  intro k hk
  exact if_pos (by omega)

lemma read64_clear_of_apart (m : Memory) {a n b : ℕ} (h : a + n ≤ b ∨ b + 8 ≤ a) :
    read64 (clear m a n) b = read64 m b :=
  read64_congr fun k hk => clear_outside m (by omega)

@[simp] lemma write64_write64 (m : Memory) (a : ℕ) (v w : BitVec 64) :
    write64 (write64 m a v) a w = write64 m a w := by
  funext b
  simp only [write64]
  split_ifs <;> rfl

end PiggyOs.ByteMemory
