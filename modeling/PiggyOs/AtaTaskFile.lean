import PiggyOs.AtaTransfers

/-! The task file of an ATA channel: the registers that `ata_channel_set_sectors` writes, and what they say to the
device. -/
namespace PiggyOs.AtaTaskFile

inductive Register
  | control | device | sectorCount | lbaLow | lbaMid | lbaHigh
  deriving DecidableEq, Repr

/-- A register that keeps the value before the last one. -/
structure TwoDeep where
  current : BitVec 8
  previous : BitVec 8
  deriving DecidableEq, Repr

def TwoDeep.push (r : TwoDeep) (value : BitVec 8) : TwoDeep := ⟨value, r.current⟩

structure TaskFile where
  control : BitVec 8
  device : BitVec 8
  sectorCount : TwoDeep
  lbaLow : TwoDeep
  lbaMid : TwoDeep
  lbaHigh : TwoDeep
  deriving DecidableEq, Repr

def TaskFile.outb (t : TaskFile) : Register × BitVec 8 → TaskFile
  | (.control, v) => { t with control := v }
  | (.device, v) => { t with device := v }
  | (.sectorCount, v) => { t with sectorCount := t.sectorCount.push v }
  | (.lbaLow, v) => { t with lbaLow := t.lbaLow.push v }
  | (.lbaMid, v) => { t with lbaMid := t.lbaMid.push v }
  | (.lbaHigh, v) => { t with lbaHigh := t.lbaHigh.push v }

/-- The writes, and whether a 48-bit command has to follow. -/
def ataChannelSetSectors (sectorCount lba : BitVec 64) (isSecondary : Bool) : Bool × List (Register × BitVec 8) :=
  let secondary : BitVec 8 := if isSecondary then 0x10 else 0
  if lba > 0xfffffff ∨ sectorCount > 256 then
    let count : BitVec 16 := if sectorCount = 0xffff then 0 else sectorCount.setWidth 16
    (true, [
      (.device, (0xe0 : BitVec 8) ||| secondary),
      (.sectorCount, (count >>> 8).setWidth 8),
      (.lbaLow, (lba >>> 24).setWidth 8),
      (.lbaMid, (lba >>> 32).setWidth 8),
      (.lbaHigh, (lba >>> 40).setWidth 8),
      (.sectorCount, count.setWidth 8),
      (.lbaLow, lba.setWidth 8),
      (.lbaMid, (lba >>> 8).setWidth 8),
      (.lbaHigh, (lba >>> 16).setWidth 8)])
  else
    let count : BitVec 8 := if sectorCount = 256 then 0 else sectorCount.setWidth 8
    (false, [
      (.control, 0),
      (.device, (0xe0 : BitVec 8) ||| secondary ||| ((lba >>> 24) &&& 0xf).setWidth 8),
      (.sectorCount, count),
      (.lbaLow, lba.setWidth 8),
      (.lbaMid, (lba >>> 8).setWidth 8),
      (.lbaHigh, (lba >>> 16).setWidth 8)])

/-- The sectors of a command with 28-bit addresses: how many, and the first of them. -/
def TaskFile.sectors28 (t : TaskFile) : ℕ × ℕ :=
  (if t.sectorCount.current = 0 then 256 else t.sectorCount.current.toNat,
    t.lbaLow.current.toNat + t.lbaMid.current.toNat * 2 ^ 8 + t.lbaHigh.current.toNat * 2 ^ 16 +
      (t.device.setWidth 4).toNat * 2 ^ 24)

/-- The sectors of a command with 48-bit addresses. -/
def TaskFile.sectors48 (t : TaskFile) : ℕ × ℕ :=
  let count := t.sectorCount.current.toNat + t.sectorCount.previous.toNat * 2 ^ 8
  (if count = 0 then 0x10000 else count,
    t.lbaLow.current.toNat + t.lbaMid.current.toNat * 2 ^ 8 + t.lbaHigh.current.toNat * 2 ^ 16 +
      t.lbaLow.previous.toNat * 2 ^ 24 + t.lbaMid.previous.toNat * 2 ^ 32 + t.lbaHigh.previous.toNat * 2 ^ 40)

def TaskFile.sectors (t : TaskFile) (lba48 : Bool) : ℕ × ℕ := if lba48 then t.sectors48 else t.sectors28

/-- The device, and that it is addressed by sectors. -/
def TaskFile.selected (t : TaskFile) : Bool × Bool := (t.device.getLsbD 4, t.device.getLsbD 6)

/-- Whatever the registers held before, they denote the sectors for the device, and the form with 28 bits only sectors
below 2^28. -/
def Denotes (sectorCount lba : BitVec 64) : Prop :=
  ∀ (t : TaskFile) (isSecondary : Bool),
    let call := ataChannelSetSectors sectorCount lba isSecondary
    let t' := call.2.foldl TaskFile.outb t
    t'.sectors call.1 = (sectorCount.toNat, lba.toNat) ∧ t'.selected = (isSecondary, true) ∧
      (call.1 = false → lba.toNat + sectorCount.toNat ≤ 2 ^ 28)

section Decoding
variable {n lba : BitVec 64}

lemma byte_toNat {w : ℕ} (v : BitVec w) (k : ℕ) : ((v >>> k).setWidth 8).toNat = v.toNat / 2 ^ k % 2 ^ 8 := by
  rw [BitVec.toNat_setWidth, BitVec.toNat_ushiftRight, Nat.shiftRight_eq_div_pow]

lemma low_toNat {w : ℕ} (v : BitVec w) : (v.setWidth 8).toNat = v.toNat % 2 ^ 8 := BitVec.toNat_setWidth ..

lemma count_bytes (count : BitVec 16) :
    (count.setWidth 8).toNat + ((count >>> 8).setWidth 8).toNat * 2 ^ 8 = count.toNat := by
  have := count.isLt
  rw [byte_toNat, low_toNat]
  omega

/-- The bits of the sector number in the device register. -/
lemma device_nibble (lba : BitVec 64) {high : BitVec 8} (hhigh : high.setWidth 4 = 0) :
    ((high ||| ((lba >>> 24) &&& 0xf).setWidth 8).setWidth 4).toNat = lba.toNat / 2 ^ 24 % 2 ^ 4 := by
  have hmask : (0xf : BitVec 64).setWidth 4 = BitVec.allOnes 4 := by decide
  rw [BitVec.setWidth_or, hhigh, BitVec.setWidth_setWidth_of_le _ (by decide), BitVec.setWidth_and, hmask,
    BitVec.and_allOnes]
  simp [Nat.shiftRight_eq_div_pow]

/-- What the registers say to the device: the two numbers that its transfers are made of. -/
lemma sectors_eq (t : TaskFile) (n lba : BitVec 64) (isSecondary : Bool) :
    ((ataChannelSetSectors n lba isSecondary).2.foldl TaskFile.outb t).sectors
      (ataChannelSetSectors n lba isSecondary).1 = AtaTransfers.ataChannelSetSectors n lba := by
  unfold ataChannelSetSectors AtaTransfers.ataChannelSetSectors
  dsimp only
  by_cases h : lba > 0xfffffff ∨ n > 256
  · rw [if_pos h, if_pos h]
    generalize (if n = 0xffff then 0 else n.setWidth 16 : BitVec 16) = count
    simp only [List.foldl_cons, List.foldl_nil, TaskFile.outb, TwoDeep.push, TaskFile.sectors, if_true,
      TaskFile.sectors48, count_bytes, Prod.mk.injEq]
    refine ⟨?_, ?_⟩
    · have hzero : count.toNat = 0 ↔ count = 0 := by
        rw [← BitVec.toNat_inj]
        rfl
      simp only [hzero]
    · simp only [byte_toNat]
      rw [low_toNat]
      omega
  · rw [if_neg h, if_neg h]
    have hhigh : ((0xe0 : BitVec 8) ||| (if isSecondary then 0x10 else 0)).setWidth 4 = 0 := by
      cases isSecondary <;> decide
    simp only [List.foldl_cons, List.foldl_nil, TaskFile.outb, TwoDeep.push, TaskFile.sectors, Bool.false_eq_true,
      if_false, TaskFile.sectors28, byte_toNat, Prod.mk.injEq]
    refine ⟨rfl, ?_⟩
    rw [device_nibble lba hhigh, low_toNat]
    omega

/-- The device register selects the device in both forms. -/
lemma selected_eq (t : TaskFile) (n lba : BitVec 64) (isSecondary : Bool) :
    ((ataChannelSetSectors n lba isSecondary).2.foldl TaskFile.outb t).selected = (isSecondary, true) := by
  unfold ataChannelSetSectors
  dsimp only
  by_cases h : lba > 0xfffffff ∨ n > 256
  · rw [if_pos h]
    simp only [List.foldl_cons, List.foldl_nil, TaskFile.outb, TaskFile.selected]
    cases isSecondary <;> decide
  · rw [if_neg h]
    simp only [List.foldl_cons, List.foldl_nil, TaskFile.outb, TaskFile.selected]
    cases isSecondary <;> simp

lemma setSectors_form (n lba : BitVec 64) (isSecondary : Bool) :
    (ataChannelSetSectors n lba isSecondary).1 = false ↔ lba.toNat < 2 ^ 28 ∧ n.toNat ≤ 256 := by
  unfold ataChannelSetSectors
  dsimp only
  have h1 : lba > 0xfffffff ↔ 0xfffffff < lba.toNat := BitVec.lt_def
  have h2 : n > 256 ↔ 256 < n.toNat := BitVec.lt_def
  split_ifs with h <;> simp only [h1, h2] at h <;> simp <;> omega

/-- The count that is asked for is the right one, but for 65535 sectors and for more than the largest count. -/
lemma setSectors_count_iff (hpos : 1 ≤ n.toNat) :
    (AtaTransfers.ataChannelSetSectors n lba).1 = n.toNat ↔ n.toNat ≤ 0x10000 ∧ n.toNat ≠ 0xffff := by
  have hne : n ≠ 0 := by
    rintro rfl
    exact absurd hpos (by decide)
  have hasked := AtaTransfers.setSectors_asked lba hne
  have hwidth : (n.setWidth 16).toNat = n.toNat % 2 ^ 16 := BitVec.toNat_setWidth ..
  have hwidth8 : (n.setWidth 8).toNat = n.toNat % 2 ^ 8 := BitVec.toNat_setWidth ..
  by_cases hlarge : n.toNat ≤ 0x10000
  · rw [AtaTransfers.ataChannelSetSectors]
    by_cases h : lba > 0xfffffff ∨ n > 256
    · rw [if_pos h]
      dsimp only
      by_cases hbad : n = 0xffff
      · subst hbad
        decide
      rw [if_neg hbad]
      have hne' : n.toNat ≠ 0xffff := fun heq => hbad (BitVec.eq_of_toNat_eq heq)
      by_cases hfull : n = 0x10000
      · subst hfull
        decide
      · have hlt : n.toNat ≠ 0x10000 := fun heq => hfull (BitVec.eq_of_toNat_eq heq)
        rw [AtaTransfers.asked_of_ne (hwidth.trans (Nat.mod_eq_of_lt (by omega))) (by omega)]
        exact iff_of_true rfl ⟨hlarge, hne'⟩
    · have hle : n.toNat ≤ 256 := BitVec.not_lt.mp fun hlt => h (Or.inr hlt)
      rw [if_neg h]
      dsimp only
      by_cases hfull : n = 256
      · subst hfull
        decide
      · have hlt : n.toNat ≠ 256 := fun heq => hfull (BitVec.eq_of_toNat_eq heq)
        rw [if_neg hfull, AtaTransfers.asked_of_ne (hwidth8.trans (Nat.mod_eq_of_lt (by omega))) (by omega)]
        exact iff_of_true rfl ⟨hlarge, by omega⟩
  · exact iff_of_false (fun heq => hlarge (hasked.mp heq.ge)) fun h => hlarge h.1

end Decoding

/-- The registers denote the request exactly if a command can move that many sectors at once, there are not 65535 of
them, and no request that begins below sector 2^28 with at most 256 sectors reaches over it. -/
theorem setSectors_denotes_iff (sectorCount lba : BitVec 64) (hpos : 1 ≤ sectorCount.toNat)
    (hend : lba.toNat + sectorCount.toNat ≤ 2 ^ 48) :
    Denotes sectorCount lba ↔ sectorCount.toNat ≤ 0x10000 ∧ sectorCount.toNat ≠ 0xffff ∧
      (lba.toNat < 2 ^ 28 → sectorCount.toNat ≤ 256 → lba.toNat + sectorCount.toNat ≤ 2 ^ 28) := by
  have hdenotes : Denotes sectorCount lba ↔ AtaTransfers.ataChannelSetSectors sectorCount lba =
      (sectorCount.toNat, lba.toNat) ∧
      (lba.toNat < 2 ^ 28 ∧ sectorCount.toNat ≤ 256 → lba.toNat + sectorCount.toNat ≤ 2 ^ 28) := by
    constructor
    · intro h
      obtain ⟨hsectors, -, hform⟩ := h ⟨0, 0, ⟨0, 0⟩, ⟨0, 0⟩, ⟨0, 0⟩, ⟨0, 0⟩⟩ false
      rw [sectors_eq] at hsectors
      rw [setSectors_form] at hform
      exact ⟨hsectors, hform⟩
    · rintro ⟨hsectors, hform⟩ t isSecondary
      exact ⟨(sectors_eq t _ _ _).trans hsectors, selected_eq t _ _ _, fun h => hform ((setSectors_form _ _ _).mp h)⟩
  rw [hdenotes, Prod.ext_iff, AtaTransfers.setSectors_first, setSectors_count_iff hpos, Nat.mod_eq_of_lt (by omega)]
  tauto

theorem setSectors_denotes_straddling : Denotes 300 0xfffff00 := by
  refine (setSectors_denotes_iff 300 0xfffff00 (by decide) (by decide)).mpr ⟨by decide, by decide, ?_⟩
  exact fun _ h => absurd h (by decide)

/-- 65535 sectors are asked for as 65536, and a command with 28-bit addresses is given the sector 2^28. -/
theorem setSectors_not_denotes : ¬ Denotes 0xffff 0 ∧ ¬ Denotes 2 0xfffffff := by
  refine ⟨fun h => ?_, fun h => ?_⟩
  · exact absurd (h ⟨0, 0, ⟨0, 0⟩, ⟨0, 0⟩, ⟨0, 0⟩, ⟨0, 0⟩⟩ false).1 (by decide)
  · exact absurd (h ⟨0, 0, ⟨0, 0⟩, ⟨0, 0⟩, ⟨0, 0⟩, ⟨0, 0⟩⟩ false).2.2 (by decide)

end PiggyOs.AtaTaskFile
