import Mathlib.Order.Filter.AtTopBot.Basic
import PiggyOs.Stream

/-! The loop of `__write_bytes` over a device whose handler answers according to the offset. -/
namespace PiggyOs.Stream
open Filter

/-- `syscall_write` over a handler that is given the offset and the number of bytes. -/
def deviceCalls (answer : ℕ → ℕ → BitVec 64) : Calls ℕ where
  read offset _ := (none, offset)
  write offset b :=
    let written := answer offset b.length
    (written, if 0 < written.toInt then offset + written.toNat else offset)
  lseek offset _ _ := (-1, offset)

/-- The handler fails, or takes some of the bytes, or none. -/
def Allowed (answer : ℕ → ℕ → BitVec 64) : Prop := ∀ offset n, (answer offset n).toInt ≤ n

/-- How many of `n` bytes have been taken when the loop calls the handler. -/
inductive Reached (answer : ℕ → ℕ → BitVec 64) (offset n : ℕ) : ℕ → Prop
  | start : Reached answer offset n 0
  | more {w : ℕ} (before : Reached answer offset n w) (left : w < n)
      (took : 0 < (answer (offset + w) (n - w)).toInt) :
      Reached answer offset n (w + (answer (offset + w) (n - w)).toNat)

/-- The loop ends, and its result is the number of bytes that the handler has taken. -/
def Reports (answer : ℕ → ℕ → BitVec 64) (s : State ℕ) (b : List Byte) : Prop :=
  ∃ r s', (∀ᶠ fuel in atTop, writeBytesOf (deviceCalls answer) fuel s b 0 = some (r, s')) ∧
    s'.taken = s.taken ++ b.take r ∧ s'.fd = s.fd + r ∧ r ≤ b.length

section Loop
variable {answer : ℕ → ℕ → BitVec 64} {s : State ℕ} {b : List Byte} {w fuel : ℕ}

/-- The stream after `w` bytes have been taken. -/
def State.after (s : State ℕ) (b : List Byte) (w : ℕ) : State ℕ :=
  { s with fd := s.fd + w, taken := s.taken ++ b.take w }

lemma after_zero (s : State ℕ) (b : List Byte) : s.after b 0 = s := by
  rw [State.after, Nat.add_zero, List.take_zero, List.append_nil]

lemma toNat_of_pos {a : BitVec 64} (h : 0 < a.toInt) : (a.toNat : ℤ) = a.toInt := by
  rw [BitVec.toInt_eq_toNat_cond] at h ⊢
  split_ifs at h ⊢
  · rfl
  · have := a.isLt
    omega

lemma slt_zero_iff (a : BitVec 64) : a.slt 0 = true ↔ a.toInt < 0 := by
  have hzero : (0 : BitVec 64).toInt = 0 := rfl
  rw [BitVec.slt, hzero]
  exact decide_eq_true_iff

lemma reached_le (hallowed : Allowed answer) {offset n : ℕ} (h : Reached answer offset n w) : w ≤ n := by
  induction h with
  | start => exact Nat.zero_le n
  | @more w before left took ih =>
    have hle := hallowed (offset + w) (n - w)
    have hnat := toNat_of_pos took
    omega

/-- One turn of the loop in which some bytes are taken. -/
lemma writeBytesOf_more (hleft : w < b.length) (took : 0 < (answer (s.fd + w) (b.length - w)).toInt) :
    writeBytesOf (deviceCalls answer) (fuel + 1) (s.after b w) (b.drop w) w =
      writeBytesOf (deviceCalls answer) fuel (s.after b (w + (answer (s.fd + w) (b.length - w)).toNat))
        (b.drop (w + (answer (s.fd + w) (b.length - w)).toNat)) (w + (answer (s.fd + w) (b.length - w)).toNat) := by
  have hnil : b.drop w ≠ [] := by
    rw [ne_eq, List.drop_eq_nil_iff, not_le]
    exact hleft
  have hlen : (b.drop w).length = b.length - w := List.length_drop
  have hslt : ¬ (answer (s.fd + w) (b.length - w)).slt 0 = true := by
    rw [slt_zero_iff]
    omega
  rw [writeBytesOf, if_neg hnil]
  dsimp only [deviceCalls, State.after]
  rw [hlen, if_neg hslt, if_pos took, List.drop_drop, List.append_assoc, ← List.take_add, Nat.add_assoc]

/-- A handler that takes nothing is called again and again. -/
lemma writeBytesOf_stuck (hleft : w < b.length) (hzero : answer (s.fd + w) (b.length - w) = 0) (fuel : ℕ) :
    writeBytesOf (deviceCalls answer) fuel (s.after b w) (b.drop w) w = none := by
  have hnil : b.drop w ≠ [] := by
    rw [ne_eq, List.drop_eq_nil_iff, not_le]
    exact hleft
  have hlen : (b.drop w).length = b.length - w := List.length_drop
  induction fuel with
  | zero => rfl
  | succ fuel ih =>
    have hslt : ¬ (0 : BitVec 64).slt 0 = true := by decide
    have hpos : ¬ 0 < (0 : BitVec 64).toInt := by decide
    have h0 : (0 : BitVec 64).toNat = 0 := rfl
    rw [writeBytesOf, if_neg hnil]
    dsimp only [deviceCalls, State.after] at ih ⊢
    rw [hlen, hzero, if_neg hslt, if_neg hpos, h0, List.take_zero, List.append_nil, List.drop_zero, Nat.add_zero]
    exact ih

/-- The loop comes to every number of bytes that is reached. -/
lemma Reached.runs (h : Reached answer s.fd b.length w) : ∃ k, ∀ fuel,
    writeBytesOf (deviceCalls answer) (fuel + k) s b 0 =
      writeBytesOf (deviceCalls answer) fuel (s.after b w) (b.drop w) w := by
  induction h with
  | start => exact ⟨0, fun fuel => by rw [after_zero, List.drop_zero, Nat.add_zero]⟩
  | @more w before left took ih =>
    obtain ⟨k, hk⟩ := ih
    refine ⟨k + 1, fun fuel => ?_⟩
    rw [← Nat.add_assoc, Nat.add_right_comm, hk, writeBytesOf_more left took]

/-- From a number of bytes on the loop ends if the handler always takes some or fails. -/
lemma ends_from (hallowed : Allowed answer) (hmore : ∀ w, Reached answer s.fd b.length w → w < b.length →
      answer (s.fd + w) (b.length - w) ≠ 0) (m : ℕ) (hw : Reached answer s.fd b.length w) (hm : b.length - w ≤ m) :
    ∃ r s', (∀ᶠ fuel in atTop, writeBytesOf (deviceCalls answer) fuel (s.after b w) (b.drop w) w = some (r, s')) ∧
      s'.taken = s.taken ++ b.take r ∧ s'.fd = s.fd + r ∧ r ≤ b.length := by
  induction m generalizing w with
  | zero =>
    have hle := reached_le hallowed hw
    have hnil : b.drop w = [] := List.drop_eq_nil_iff.mpr (by omega)
    refine ⟨w, s.after b w, ?_, rfl, rfl, hle⟩
    filter_upwards [eventually_gt_atTop 0] with fuel hf
    obtain ⟨fuel, rfl⟩ := Nat.exists_eq_succ_of_ne_zero hf.ne'
    rw [writeBytesOf, if_pos hnil]
  | succ m ih =>
    have hle := reached_le hallowed hw
    by_cases hleft : w < b.length
    · rcases lt_trichotomy (answer (s.fd + w) (b.length - w)).toInt 0 with hneg | hzero | hpos
      · have hnil : b.drop w ≠ [] := by
          rw [ne_eq, List.drop_eq_nil_iff, not_le]
          exact hleft
        have hlen : (b.drop w).length = b.length - w := List.length_drop
        refine ⟨w, (s.after b w).raise fileFlagError, ?_, rfl, rfl, hle⟩
        filter_upwards [eventually_gt_atTop 0] with fuel hf
        obtain ⟨fuel, rfl⟩ := Nat.exists_eq_succ_of_ne_zero hf.ne'
        rw [writeBytesOf, if_neg hnil]
        dsimp only [deviceCalls, State.after]
        rw [hlen, if_pos ((slt_zero_iff _).mpr hneg), if_neg (by omega)]
      · exact absurd (BitVec.eq_of_toInt_eq (hzero.trans rfl)) (hmore w hw hleft)
      · have hnat := toNat_of_pos hpos
        obtain ⟨r, s', hev, hrest⟩ := ih (.more hw hleft hpos) (by omega)
        refine ⟨r, s', ?_, hrest⟩
        filter_upwards [tendsto_sub_atTop_nat 1 |>.eventually hev, eventually_gt_atTop 0] with fuel hf hf0
        obtain ⟨fuel, rfl⟩ := Nat.exists_eq_succ_of_ne_zero hf0.ne'
        rw [writeBytesOf_more hleft hpos]
        exact hf
    · exact ih hw (by omega)

lemma reports_of_takes (hallowed : Allowed answer) (hmore : ∀ w, Reached answer s.fd b.length w → w < b.length →
    answer (s.fd + w) (b.length - w) ≠ 0) : Reports answer s b := by
  have hends := ends_from hallowed hmore b.length .start (Nat.sub_le _ _)
  rwa [after_zero, List.drop_zero] at hends

lemma not_reports_of_zero (hw : Reached answer s.fd b.length w) (hleft : w < b.length)
    (hzero : answer (s.fd + w) (b.length - w) = 0) : ¬ Reports answer s b := by
  rintro ⟨r, s', hev, -⟩
  obtain ⟨k, hk⟩ := hw.runs
  obtain ⟨n, hn⟩ := eventually_atTop.mp hev
  have hsome := hn (n + k) (Nat.le_add_right n k)
  rw [hk, writeBytesOf_stuck hleft hzero] at hsome
  cases hsome

/-- The loop ends, with the number of bytes taken, if and only if the handler never takes nothing at an offset that the
loop comes to with bytes left. -/
theorem writeBytes_reports_iff (hallowed : Allowed answer) (s : State ℕ) (b : List Byte) :
    Reports answer s b ↔
      ∀ w, Reached answer s.fd b.length w → w < b.length → answer (s.fd + w) (b.length - w) ≠ 0 :=
  ⟨fun h _ hw hleft hzero => not_reports_of_zero hw hleft hzero h, reports_of_takes hallowed⟩

end Loop

/-- The answers of `fbdev_write` for a framebuffer of `mmioLen` bytes. -/
def fbdevWrite (mmioLen : BitVec 32) (offset count : ℕ) : BitVec 64 :=
  let offset := BitVec.ofNat 64 offset
  let count := BitVec.ofNat 64 count
  let size := mmioLen.setWidth 64
  if count = 0 then 0
  else if offset ≥ size then 0
  else if count + offset > size then size - offset
  else count

section Framebuffer
variable {mmioLen : BitVec 32} {offset n : ℕ}

lemma toNat_mmioLen (mmioLen : BitVec 32) : (mmioLen.setWidth 64).toNat = mmioLen.toNat := by
  have := mmioLen.isLt
  rw [BitVec.toNat_setWidth, Nat.mod_eq_of_lt (by omega)]

/-- The bytes up to the end of the device are taken. -/
lemma fbdevWrite_toNat (ho : offset < 2 ^ 63) (hn : n < 2 ^ 63) :
    (fbdevWrite mmioLen offset n).toNat = min n (mmioLen.toNat - offset) := by
  have hlen := toNat_mmioLen mmioLen
  have hlt := mmioLen.isLt
  have hon : (BitVec.ofNat 64 offset).toNat = offset := by rw [BitVec.toNat_ofNat, Nat.mod_eq_of_lt (by omega)]
  have hnn : (BitVec.ofNat 64 n).toNat = n := by rw [BitVec.toNat_ofNat, Nat.mod_eq_of_lt (by omega)]
  have hsum : (BitVec.ofNat 64 n + BitVec.ofNat 64 offset).toNat = n + offset := by
    rw [BitVec.toNat_add, hon, hnn, Nat.mod_eq_of_lt (by omega)]
  unfold fbdevWrite
  dsimp only
  split_ifs with hzero hend hcut
  · have h0 : n = 0 := by
      rw [← hnn, hzero]
      rfl
    rw [h0, Nat.zero_min]
    rfl
  · rw [ge_iff_le, BitVec.le_def, hlen, hon] at hend
    rw [Nat.sub_eq_zero_of_le hend, Nat.min_zero]
    rfl
  · rw [gt_iff_lt, BitVec.lt_def, hlen, hsum] at hcut
    rw [ge_iff_le, BitVec.le_def, hlen, hon, not_le] at hend
    rw [BitVec.toNat_sub_of_le (BitVec.le_def.mpr (by rw [hlen, hon]; exact hend.le)), hlen, hon]
    omega
  · rw [gt_iff_lt, BitVec.lt_def, hlen, hsum, not_lt] at hcut
    rw [hnn]
    omega

lemma toInt_le_toNat (a : BitVec 64) : a.toInt ≤ a.toNat := by
  rw [BitVec.toInt_eq_toNat_cond]
  split_ifs <;> omega

lemma fbdevWrite_allowed (mmioLen : BitVec 32) : Allowed (fbdevWrite mmioLen) := by
  intro offset n
  have hlen := toNat_mmioLen mmioLen
  have hlt := mmioLen.isLt
  have hon := (BitVec.ofNat 64 offset).isLt
  have hnn : (BitVec.ofNat 64 n).toNat ≤ n := by
    rw [BitVec.toNat_ofNat]
    exact Nat.mod_le _ _
  have hsum : (BitVec.ofNat 64 n + BitVec.ofNat 64 offset).toNat =
      ((BitVec.ofNat 64 n).toNat + (BitVec.ofNat 64 offset).toNat) % 2 ^ 64 := BitVec.toNat_add _ _
  refine (toInt_le_toNat _).trans (Int.ofNat_le.mpr ?_)
  unfold fbdevWrite
  dsimp only
  split_ifs with hzero hend hcut
  · exact Nat.zero_le n
  · exact Nat.zero_le n
  · rw [gt_iff_lt, BitVec.lt_def, hlen, hsum] at hcut
    rw [ge_iff_le, BitVec.le_def, hlen, not_le] at hend
    rw [BitVec.toNat_sub_of_le (BitVec.le_def.mpr (by rw [hlen]; exact hend.le)), hlen]
    omega
  · exact hnn

/-- What is flushed to the framebuffer is reported if and only if it fits. -/
theorem fbdev_reports_iff {s : State ℕ} {b : List Byte} (hsmall : s.fd + b.length < 2 ^ 63) :
    Reports (fbdevWrite mmioLen) s b ↔ b = [] ∨ s.fd + b.length ≤ mmioLen.toNat := by
  have hlt := mmioLen.isLt
  have hzero : ∀ w, w < b.length → mmioLen.toNat ≤ s.fd + w → fbdevWrite mmioLen (s.fd + w) (b.length - w) = 0 := by
    intro w hw hend
    apply BitVec.eq_of_toNat_eq
    rw [fbdevWrite_toNat (by omega) (by omega), Nat.sub_eq_zero_of_le hend, Nat.min_zero]
    rfl
  constructor
  · intro h
    by_contra hnot
    obtain ⟨hnil, hpast⟩ := not_or.mp hnot
    have hpos : 0 < b.length := List.length_pos_iff.mpr hnil
    rw [not_le] at hpast
    by_cases hstart : mmioLen.toNat ≤ s.fd
    · exact not_reports_of_zero .start hpos (hzero 0 hpos hstart) h
    · have htaken : (fbdevWrite mmioLen (s.fd + 0) (b.length - 0)).toNat = mmioLen.toNat - s.fd := by
        rw [fbdevWrite_toNat (by omega) (by omega), Nat.add_zero, Nat.sub_zero]
        exact min_eq_right (by omega)
      have htook : 0 < (fbdevWrite mmioLen (s.fd + 0) (b.length - 0)).toInt := by
        rw [BitVec.toInt_eq_toNat_of_lt (by omega), htaken]
        omega
      have hreached := Reached.start.more hpos htook
      rw [htaken, Nat.zero_add] at hreached
      exact not_reports_of_zero hreached (by omega) (hzero _ (by omega) (by omega)) h
  · intro hfit
    refine reports_of_takes (fbdevWrite_allowed mmioLen) fun w _ hw hz => ?_
    have hnat := congrArg BitVec.toNat hz
    rw [fbdevWrite_toNat (by omega) (by omega)] at hnat
    rcases hfit with hnil | hfit
    · rw [hnil] at hw
      exact absurd hw (Nat.not_lt_zero w)
    · change _ = 0 at hnat
      omega

end Framebuffer

/-- A stream at an offset. -/
def streamAt (offset : ℕ) : State ℕ := fdopen (fun _ => 0) offset

theorem writeBytes_reports_fits : Reports (fbdevWrite 4) (streamAt 0) [1, 2, 3] := by
  refine (writeBytes_reports_iff (fbdevWrite_allowed 4) (streamAt 0) [1, 2, 3]).mpr fun w _ hw => ?_
  change w < 3 at hw
  interval_cases w <;> decide

/-- Two bytes for the last one of a framebuffer: the second call, at its end, is made for ever. -/
theorem writeBytes_at_end : (∀ fuel, writeBytesOf (deviceCalls (fbdevWrite 4)) fuel (streamAt 3) [1, 2] 0 = none) ∧
    ¬ Reports (fbdevWrite 4) (streamAt 3) [1, 2] := by
  have hnone : ∀ fuel, writeBytesOf (deviceCalls (fbdevWrite 4)) fuel (streamAt 3) [1, 2] 0 = none := by
    intro fuel
    cases fuel with
    | zero => rfl
    | succ fuel =>
      have hmore : writeBytesOf (deviceCalls (fbdevWrite 4)) (fuel + 1) ((streamAt 3).after [1, 2] 0)
          (List.drop 0 [1, 2]) 0 = _ := writeBytesOf_more (by decide) (by decide)
      rw [after_zero, List.drop_zero] at hmore
      rw [hmore]
      exact writeBytesOf_stuck (by decide) (by decide) fuel
  refine ⟨hnone, ?_⟩
  rintro ⟨r, s', hev, -⟩
  obtain ⟨fuel, hf⟩ := hev.exists
  rw [hnone] at hf
  cases hf

end PiggyOs.Stream
