import PiggyOs.Tmpfs

/-! The two loops that look for a larger capacity. A capacity that has been doubled 52 times is zero and
stays zero. -/
namespace PiggyOs.Tmpfs
open ByteMemory

/-- Some number of rounds is enough for the loop. -/
def LoopEnds (enough : BitVec 64 → Bool) (capacity : BitVec 64) : Prop :=
  ∃ n c, doubleUntil enough n capacity = some c

/-- The loop of `tmpfs_write` is not entered or it ends. -/
def WriteEnds (capacity offset count : BitVec 64) : Prop :=
  capacity.ule (offset + count) = true → LoopEnds (fun c => (offset + count).ult c) capacity

/-- The loop of `tmpfs_truncate` is not entered or it ends. -/
def TruncateEnds (capacity length : BitVec 64) : Prop :=
  capacity.ult length = true → LoopEnds (fun c => length.ule c) capacity

/-- A capacity that the loops can come to. -/
def doubled (k : ℕ) : BitVec 64 := (fun c => c * 2)^[k] 4096

section Doubling
variable {enough : BitVec 64 → Bool} {c c' offset count length : BitVec 64} {k n : ℕ}

lemma doubled_toNat (k : ℕ) : (doubled k).toNat = 2 ^ (12 + k) % 2 ^ 64 := by
  induction k with
  | zero => rfl
  | succ k ih =>
    have htwo : (2 : BitVec 64).toNat = 2 := rfl
    rw [doubled, Function.iterate_succ_apply', ← doubled, BitVec.toNat_mul, ih, htwo, Nat.mod_mul_mod, ← Nat.add_assoc, pow_succ 2 (12 + k)]

/-- A capacity that is not zero is a power of two that fits. -/
lemma doubled_pow (h : doubled k ≠ 0) : 12 + k ≤ 63 ∧ (doubled k).toNat = 2 ^ (12 + k) := by
  have hle : 12 + k ≤ 63 := by
    by_contra hgt
    refine h (BitVec.eq_of_toNat_eq ?_)
    rw [doubled_toNat]
    exact Nat.mod_eq_zero_of_dvd (Nat.pow_dvd_pow 2 (by omega))
  exact ⟨hle, by rw [doubled_toNat, Nat.mod_eq_of_lt (Nat.pow_lt_pow_right (by norm_num) (by omega))]⟩

/-- The loop only comes to further doublings. -/
lemma doubleUntil_doubled (h : doubleUntil enough n (doubled k) = some c) : enough c = true ∧ ∃ j, c = doubled j := by
  induction n generalizing k with
  | zero => simp [doubleUntil] at h
  | succ n ih =>
    rw [doubleUntil] at h
    split_ifs at h with he
    · obtain rfl := Option.some.inj h
      exact ⟨he, k, rfl⟩
    · refine ih (k := k + 1) ?_
      rwa [doubled, Function.iterate_succ_apply', ← doubled]

lemma doubled_le (k : ℕ) : (doubled k).toNat ≤ 2 ^ 63 := by
  by_cases h : doubled k = 0
  · rw [h]
    exact Nat.zero_le _
  · obtain ⟨hle, hpow⟩ := doubled_pow h
    rw [hpow]
    exact Nat.pow_le_pow_right (by norm_num) hle

/-- Among the capacities `2 ^ 63` is the largest. -/
lemma loopEnds_iff (hpos : doubled k ≠ 0) (hmono : ∀ c c', c.toNat ≤ c'.toNat → enough c = true → enough c' = true) :
    LoopEnds enough (doubled k) ↔ enough (BitVec.ofNat 64 (2 ^ 63)) = true := by
  have htop : (BitVec.ofNat 64 (2 ^ 63)).toNat = 2 ^ 63 := by decide
  constructor
  · rintro ⟨n, c, h⟩
    obtain ⟨he, j, rfl⟩ := doubleUntil_doubled h
    exact hmono _ _ (by rw [htop]; exact doubled_le j) he
  · intro he
    obtain ⟨hle, hpow⟩ := doubled_pow hpos
    obtain ⟨c', -, hc', -⟩ := doubleUntil_some (fun c hc => by rwa [BitVec.eq_of_toNat_eq (hc.trans htop.symm)]) hpow hle
      (show 63 < 12 + k + 64 by omega)
    exact ⟨_, c', hc'⟩

lemma writeEnds_iff (hpos : doubled k ≠ 0) : WriteEnds (doubled k) offset count ↔ (offset + count).toNat < 2 ^ 63 := by
  have hloop : LoopEnds (fun c => (offset + count).ult c) (doubled k) ↔ (offset + count).toNat < 2 ^ 63 := by
    rw [loopEnds_iff hpos]
    · simp [BitVec.ult]
    · intro c c' hc he
      rw [BitVec.ult, decide_eq_true_eq] at he ⊢
      omega
  rw [WriteEnds, hloop, BitVec.ule, decide_eq_true_eq]
  have hle := doubled_le k
  constructor
  · intro h
    by_contra hbig
    exact hbig (h (by omega))
  · exact fun h _ => h

lemma truncateEnds_iff (hpos : doubled k ≠ 0) : TruncateEnds (doubled k) length ↔ length.toNat ≤ 2 ^ 63 := by
  have hloop : LoopEnds (fun c => length.ule c) (doubled k) ↔ length.toNat ≤ 2 ^ 63 := by
    rw [loopEnds_iff hpos]
    · simp [BitVec.ule]
    · intro c c' hc he
      rw [BitVec.ule, decide_eq_true_eq] at he ⊢
      omega
  rw [TruncateEnds, hloop, BitVec.ult, decide_eq_true_eq]
  have hle := doubled_le k
  constructor
  · intro h
    by_contra hbig
    exact hbig (h (by omega))
  · exact fun h _ => h

end Doubling

/-- Both loops end if and only if neither asks for more than `2 ^ 63` bytes. -/
theorem tmpfs_loops_end_iff {k : ℕ} (hpos : doubled k ≠ 0) (offset count length : BitVec 64) :
    (WriteEnds (doubled k) offset count ∧ TruncateEnds (doubled k) length) ↔
      (offset + count).toNat < 2 ^ 63 ∧ length.toNat ≤ 2 ^ 63 := by
  rw [writeEnds_iff hpos, truncateEnds_iff hpos]

/-- A new file, to which a page is written at the end of a page. -/
theorem tmpfs_loops_end_page : WriteEnds (doubled 0) 4095 4096 ∧ TruncateEnds (doubled 0) 8191 :=
  (tmpfs_loops_end_iff (by decide) 4095 4096 8191).mpr (by decide)

/-- The length -1 of a program. -/
theorem tmpfs_loop_endless : (tmpfsCreate fun _ => 0).capacity = doubled 0 ∧ doubled 0 ≠ 0 ∧
    ¬ TruncateEnds (doubled 0) (-1) ∧ ¬ WriteEnds (doubled 0) 0 (-1) := by
  have hpos : doubled 0 ≠ 0 := by decide
  rw [truncateEnds_iff hpos, writeEnds_iff hpos]
  exact ⟨rfl, hpos, by decide, by decide⟩

end PiggyOs.Tmpfs
