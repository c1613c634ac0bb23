import PiggyOs.ByteMemory

/-! `memmove`, which is the same in the kernel and in the C library: bytes up to a word boundary, whole words, and the
bytes that are left, upwards or downwards. -/
namespace PiggyOs.Memmove
open ByteMemory Function

section Copies

/-- Going up, what has been copied is not read again. -/
lemma copy_up (m : Memory) {d s : ℕ} (h : d ≤ s) (i k : ℕ) :
    copy (copy m d s i) (d + i) (s + i) k = copy m d s (i + k) := by
  funext a
  simp only [copy]
  split_ifs <;> first | omega | (congr 1; omega) | rfl

/-- Going down likewise. -/
lemma copy_down (m : Memory) {d s : ℕ} (h : s ≤ d) (i k : ℕ) :
    copy (copy m (d + k) (s + k) i) d s k = copy m d s (k + i) := by
  funext a
  simp only [copy]
  split_ifs <;> first | omega | (congr 1; omega) | rfl

@[simp] lemma copy_zero (m : Memory) (d s : ℕ) : copy m d s 0 = m := funext fun a => copy_outside m (by omega)

lemma copy_self (m : Memory) (d n : ℕ) : copy m d d n = m := by
  funext a
  rw [copy]
  split_ifs
  · congr 1
    omega
  · rfl

lemma update_eq_copy (m : Memory) (d s : ℕ) : update m d (m s) = copy m d s 1 := by
  funext a
  by_cases h : a = d
  · subst h
    rw [update_self, copy, if_pos (by omega), Nat.sub_self, Nat.add_zero]
  · rw [update_of_ne h, copy_outside m (by omega)]

lemma readNat_lt (m : Memory) (a n : ℕ) : readNat m a n < 256 ^ n := by
  induction n generalizing a with
  | zero => exact one_pos
  | succ n ih =>
    have htail := ih (a + 1)
    have hbyte := (m a).isLt
    rw [readNat, pow_succ']
    omega

lemma readNat_div (m : Memory) (a n k : ℕ) (h : k < n) : readNat m a n / 256 ^ k % 256 = (m (a + k)).toNat := by
  induction k generalizing a n with
  | zero =>
    obtain ⟨n, rfl⟩ := Nat.exists_eq_succ_of_ne_zero h.ne'
    rw [readNat, pow_zero, Nat.div_one, Nat.add_mul_mod_self_left, Nat.mod_eq_of_lt (m a).isLt, Nat.add_zero]
  | succ k ih =>
    obtain ⟨n, rfl⟩ := Nat.exists_eq_succ_of_ne_zero (show n ≠ 0 by omega)
    have hbyte := (m a).isLt
    rw [readNat, pow_succ', ← Nat.div_div_eq_div_mul, Nat.add_mul_div_left _ _ (by decide), Nat.div_eq_of_lt hbyte,
      Nat.zero_add, ih (a + 1) n (by omega), add_assoc, add_comm 1 k]

/-- A word is read as a whole before it is written. -/
lemma write64_read64 (m : Memory) (d s : ℕ) : write64 m d (read64 m s) = copy m d s 8 := by
  funext a
  by_cases h : d ≤ a ∧ a < d + 8
  · obtain ⟨k, rfl⟩ := Nat.exists_eq_add_of_le h.1
    have hk : k < 8 := by omega
    rw [write64_inside m d _ hk, copy_inside m s hk]
    apply BitVec.eq_of_toNat_eq
    have hlt : readNat m s 8 < 2 ^ 64 := readNat_lt m s 8
    rw [byteOf, read64, BitVec.toNat_ofNat, BitVec.toNat_ofNat, ← readNat_div m s 8 k hk, Nat.mod_eq_of_lt hlt]
  · rw [write64_outside m _ (by omega), copy_outside m (by omega)]

end Copies

/-- Where a loop stands: the memory and the pointers, and how many bytes are left. -/
@[ext]
structure Cursor where
  mem : Memory
  d : ℕ
  s : ℕ
  n : ℕ

namespace Cursor

/-- `*d++ = *s++`. -/
def stepUp (c : Cursor) : Cursor := ⟨update c.mem c.d (c.mem c.s), c.d + 1, c.s + 1, c.n - 1⟩

/-- The bytes up to a word boundary. The early return leaves nothing for the loops behind. -/
def alignUp (c : Cursor) : Cursor := if c.d % 8 ≠ 0 ∧ c.n ≠ 0 then c.stepUp.alignUp else c
termination_by c.n
decreasing_by exact Nat.sub_lt (Nat.pos_of_ne_zero (And.right ‹_›)) one_pos

def wordsUp (c : Cursor) : Cursor :=
  if 8 ≤ c.n then wordsUp ⟨write64 c.mem c.d (read64 c.mem c.s), c.d + 8, c.s + 8, c.n - 8⟩ else c
termination_by c.n

def bytesUp (c : Cursor) : Cursor := if c.n ≠ 0 then c.stepUp.bytesUp else c
termination_by c.n
decreasing_by exact Nat.sub_lt (Nat.pos_of_ne_zero ‹_›) one_pos

/-- `n--` and `d[n] = s[n]`. -/
def stepDown (c : Cursor) : Cursor :=
  ⟨update c.mem (c.d + (c.n - 1)) (c.mem (c.s + (c.n - 1))), c.d, c.s, c.n - 1⟩

def alignDown (c : Cursor) : Cursor := if (c.d + c.n) % 8 ≠ 0 ∧ c.n ≠ 0 then c.stepDown.alignDown else c
termination_by c.n
decreasing_by exact Nat.sub_lt (Nat.pos_of_ne_zero (And.right ‹_›)) one_pos

def wordsDown (c : Cursor) : Cursor :=
  if 8 ≤ c.n then
    wordsDown ⟨write64 c.mem (c.d + (c.n - 8)) (read64 c.mem (c.s + (c.n - 8))), c.d, c.s, c.n - 8⟩
  else c
termination_by c.n

def bytesDown (c : Cursor) : Cursor := if c.n ≠ 0 then c.stepDown.bytesDown else c
termination_by c.n
decreasing_by exact Nat.sub_lt (Nat.pos_of_ne_zero ‹_›) one_pos

/-- Some bytes have been copied, the lowest first. -/
def Up (c c' : Cursor) : Prop := ∃ i ≤ c.n, c' = ⟨copy c.mem c.d c.s i, c.d + i, c.s + i, c.n - i⟩

/-- Some bytes have been copied, the highest first. -/
def Down (c c' : Cursor) : Prop :=
  ∃ i ≤ c.n, c' = ⟨copy c.mem (c.d + (c.n - i)) (c.s + (c.n - i)) i, c.d, c.s, c.n - i⟩

lemma Up.refl (c : Cursor) : c.Up c := ⟨0, Nat.zero_le _, by ext <;> simp⟩

lemma Up.trans {c c' c'' : Cursor} (hle : c.d ≤ c.s) (h : c.Up c') (h' : c'.Up c'') : c.Up c'' := by
  obtain ⟨i, hi, rfl⟩ := h
  obtain ⟨k, hk, rfl⟩ := h'
  refine ⟨i + k, by dsimp only at hk; omega, ?_⟩
  dsimp only
  rw [copy_up c.mem hle, add_assoc, add_assoc, Nat.sub_sub]

lemma Up.le {c c' : Cursor} (hle : c.d ≤ c.s) (h : c.Up c') : c'.d ≤ c'.s := by
  obtain ⟨i, -, rfl⟩ := h
  exact Nat.add_le_add_right hle i

lemma up_stepUp {c : Cursor} (hn : c.n ≠ 0) : c.Up c.stepUp :=
  ⟨1, Nat.pos_of_ne_zero hn, by rw [stepUp, update_eq_copy]⟩

lemma up_alignUp (c : Cursor) (hle : c.d ≤ c.s) : c.Up c.alignUp := by
  induction c using alignUp.induct with
  | case1 c h ih =>
    have hstep := up_stepUp h.2
    rw [alignUp, if_pos h]
    exact hstep.trans hle (ih (hstep.le hle))
  | case2 c h =>
    rw [alignUp, if_neg h]
    exact .refl c

lemma up_wordsUp (c : Cursor) (hle : c.d ≤ c.s) : c.Up c.wordsUp := by
  induction c using wordsUp.induct with
  | case1 c h ih =>
    have hword : c.Up ⟨write64 c.mem c.d (read64 c.mem c.s), c.d + 8, c.s + 8, c.n - 8⟩ :=
      ⟨8, h, by rw [write64_read64]⟩
    rw [wordsUp, if_pos h]
    exact hword.trans hle (ih (hword.le hle))
  | case2 c h =>
    rw [wordsUp, if_neg h]
    exact .refl c

lemma up_bytesUp (c : Cursor) (hle : c.d ≤ c.s) : c.Up c.bytesUp ∧ c.bytesUp.n = 0 := by
  induction c using bytesUp.induct with
  | case1 c h ih =>
    have hstep := up_stepUp h
    rw [bytesUp, if_pos h]
    exact ⟨hstep.trans hle (ih (hstep.le hle)).1, (ih (hstep.le hle)).2⟩
  | case2 c h =>
    rw [bytesUp, if_neg h]
    exact ⟨.refl c, not_not.mp h⟩

/-- Once nothing is left, the whole block has been copied. -/
lemma Up.mem_eq {c c' : Cursor} (h : c.Up c') (h0 : c'.n = 0) : c'.mem = copy c.mem c.d c.s c.n := by
  obtain ⟨i, hi, rfl⟩ := h
  rw [show i = c.n by dsimp only at h0; omega]

lemma Down.refl (c : Cursor) : c.Down c := ⟨0, Nat.zero_le _, by ext <;> simp⟩

lemma Down.trans {c c' c'' : Cursor} (hle : c.s ≤ c.d) (h : c.Down c') (h' : c'.Down c'') : c.Down c'' := by
  obtain ⟨i, hi, rfl⟩ := h
  obtain ⟨k, hk, rfl⟩ := h'
  dsimp only at hk
  refine ⟨k + i, by omega, ?_⟩
  have hcopy := copy_down c.mem (show c.s + (c.n - (k + i)) ≤ c.d + (c.n - (k + i)) by omega) i k
  have hrest : c.n - (k + i) + k = c.n - i := by omega
  rw [add_assoc, add_assoc, hrest] at hcopy
  dsimp only
  rw [show c.n - i - k = c.n - (k + i) by omega, hcopy]

lemma Down.le {c c' : Cursor} (hle : c.s ≤ c.d) (h : c.Down c') : c'.s ≤ c'.d := by
  obtain ⟨i, -, rfl⟩ := h
  exact hle

lemma down_stepDown {c : Cursor} (hn : c.n ≠ 0) : c.Down c.stepDown :=
  ⟨1, Nat.pos_of_ne_zero hn, by rw [stepDown, update_eq_copy]⟩

lemma down_alignDown (c : Cursor) (hle : c.s ≤ c.d) : c.Down c.alignDown := by
  induction c using alignDown.induct with
  | case1 c h ih =>
    have hstep := down_stepDown h.2
    rw [alignDown, if_pos h]
    exact hstep.trans hle (ih (hstep.le hle))
  | case2 c h =>
    rw [alignDown, if_neg h]
    exact .refl c

lemma down_wordsDown (c : Cursor) (hle : c.s ≤ c.d) : c.Down c.wordsDown := by
  induction c using wordsDown.induct with
  | case1 c h ih =>
    have hword : c.Down ⟨write64 c.mem (c.d + (c.n - 8)) (read64 c.mem (c.s + (c.n - 8))), c.d, c.s, c.n - 8⟩ :=
      ⟨8, h, by rw [write64_read64]⟩
    rw [wordsDown, if_pos h]
    exact hword.trans hle (ih (hword.le hle))
  | case2 c h =>
    rw [wordsDown, if_neg h]
    exact .refl c

lemma down_bytesDown (c : Cursor) (hle : c.s ≤ c.d) : c.Down c.bytesDown ∧ c.bytesDown.n = 0 := by
  induction c using bytesDown.induct with
  | case1 c h ih =>
    have hstep := down_stepDown h
    rw [bytesDown, if_pos h]
    exact ⟨hstep.trans hle (ih (hstep.le hle)).1, (ih (hstep.le hle)).2⟩
  | case2 c h =>
    rw [bytesDown, if_neg h]
    exact ⟨.refl c, not_not.mp h⟩

lemma Down.mem_eq {c c' : Cursor} (h : c.Down c') (h0 : c'.n = 0) : c'.mem = copy c.mem c.d c.s c.n := by
  obtain ⟨i, hi, rfl⟩ := h
  dsimp only at h0
  rw [show i = c.n by omega, Nat.sub_self]
  rfl

end Cursor

def forward (c : Cursor) : Cursor :=
  if c.s % 8 = c.d % 8 then c.alignUp.wordsUp.bytesUp else c.bytesUp

def backward (c : Cursor) : Cursor :=
  if c.s % 8 = c.d % 8 then c.alignDown.wordsDown.bytesDown else c.bytesDown

/-- The memory that a call leaves. The comparisons are those of pointers, which may wrap around. -/
def memmove (m : Memory) (d s n : BitVec 64) : Memory :=
  if d = s then m
  else if s + n ≤ d ∨ d + n ≤ s then movsb m d.toNat s.toNat n.toNat
  else if d < s then (forward ⟨m, d.toNat, s.toNat, n.toNat⟩).mem
  else (backward ⟨m, d.toNat, s.toNat, n.toNat⟩).mem

lemma forward_mem (c : Cursor) (hle : c.d ≤ c.s) : (forward c).mem = copy c.mem c.d c.s c.n := by
  rw [forward]
  split_ifs
  · have halign := c.up_alignUp hle
    have hwords := halign.trans hle (c.alignUp.up_wordsUp (halign.le hle))
    obtain ⟨hbytes, h0⟩ := c.alignUp.wordsUp.up_bytesUp (hwords.le hle)
    exact (hwords.trans hle hbytes).mem_eq h0
  · obtain ⟨hbytes, h0⟩ := c.up_bytesUp hle
    exact hbytes.mem_eq h0

lemma backward_mem (c : Cursor) (hle : c.s ≤ c.d) : (backward c).mem = copy c.mem c.d c.s c.n := by
  rw [backward]
  split_ifs
  · have halign := c.down_alignDown hle
    have hwords := halign.trans hle (c.alignDown.down_wordsDown (halign.le hle))
    obtain ⟨hbytes, h0⟩ := c.alignDown.wordsDown.down_bytesDown (hwords.le hle)
    exact (hwords.trans hle hbytes).mem_eq h0
  · obtain ⟨hbytes, h0⟩ := c.down_bytesDown hle
    exact hbytes.mem_eq h0

lemma movsb_eq_copy (m : Memory) {d s n : ℕ} (h : s + n ≤ d ∨ d + n ≤ s) : movsb m d s n = copy m d s n := by
  funext a
  by_cases ha : d ≤ a ∧ a < d + n
  · obtain ⟨k, rfl⟩ := Nat.exists_eq_add_of_le ha.1
    have hk : k < n := by omega
    rw [movsb_inside m h hk, copy_inside m s hk]
  · rw [movsb_outside m (by omega), copy_outside m (by omega)]

lemma memmove_eq_copy (m : Memory) (d s n : BitVec 64) (hd : d.toNat + n.toNat < 2 ^ 64)
    (hs : s.toNat + n.toNat < 2 ^ 64) : memmove m d s n = copy m d.toNat s.toNat n.toNat := by
  have hsn : (s + n).toNat = s.toNat + n.toNat := by rw [BitVec.toNat_add, Nat.mod_eq_of_lt hs]
  have hdn : (d + n).toNat = d.toNat + n.toNat := by rw [BitVec.toNat_add, Nat.mod_eq_of_lt hd]
  rw [memmove]
  split_ifs with heq hapart hlt
  · rw [heq, copy_self]
  · rw [BitVec.le_def, BitVec.le_def, hsn, hdn] at hapart
    exact movsb_eq_copy m hapart
  · exact forward_mem ⟨m, d.toNat, s.toNat, n.toNat⟩ (BitVec.lt_def.mp hlt).le
  · exact backward_mem ⟨m, d.toNat, s.toNat, n.toNat⟩ (not_lt.mp fun h => hlt (BitVec.lt_def.mpr h))

/-- Every byte of the block arrives, and no other byte changes. -/
theorem memmove_spec (m : Memory) (d s n : BitVec 64) (hd : d.toNat + n.toNat < 2 ^ 64)
    (hs : s.toNat + n.toNat < 2 ^ 64) :
    (∀ i < n.toNat, memmove m d s n (d.toNat + i) = m (s.toNat + i)) ∧
      ∀ a, a < d.toNat ∨ d.toNat + n.toNat ≤ a → memmove m d s n a = m a := by
  rw [memmove_eq_copy m d s n hd hs]
  exact ⟨fun i hi => copy_inside m s.toNat hi, fun a ha => copy_outside m ha⟩

/-- Twenty bytes, moved up by 8. -/
theorem memmove_spec_overlap : memmove (fun a => BitVec.ofNat 8 a) 16 8 20 35 = 27 :=
  (memmove_spec (fun a => BitVec.ofNat 8 a) 16 8 20 (by decide) (by decide)).1 19 (by decide)

end PiggyOs.Memmove
