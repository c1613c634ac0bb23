import Mathlib.Tactic

/-! The base address registers of PCI devices. Reads and writes of the configuration space do what they should: a write
changes the writable bits of the register. -/
namespace PiggyOs.PciBars
open Function

/-- The place of a register of 32 bits. -/
structure Location where
  bus : BitVec 8
  slot : BitVec 8
  function : BitVec 8
  offset : BitVec 16
  deriving DecidableEq, Repr

structure ConfigSpace where
  value : Location → BitVec 32
  writable : Location → BitVec 32

def ConfigSpace.write (c : ConfigSpace) (l : Location) (v : BitVec 32) : ConfigSpace :=
  { c with value := update c.value l ((c.value l &&& ~~~c.writable l) ||| (v &&& c.writable l)) }

structure PciDevice where
  bus : BitVec 8
  slot : BitVec 8
  function : BitVec 8
  deriving DecidableEq, Repr

structure PciBar where
  baseAddress : BitVec 64
  length : BitVec 64
  isMmio : Bool
  deriving DecidableEq, Repr

def pciGetBar (c : ConfigSpace) (dev : PciDevice) (index : BitVec 8) : PciBar × ConfigSpace :=
  if index > 5 then (⟨0, 0, false⟩, c)
  else
    let offset : BitVec 16 := 0x10 + index.setWidth 16 * 4
    let l : Location := ⟨dev.bus, dev.slot, 0, offset⟩
    let baseLow := c.value l
    let c := c.write l 0xffffffff
    let lengthLow := c.value l
    let c := c.write l baseLow
    if baseLow &&& 1 ≠ 0 then
      (⟨(baseLow &&& ~~~3).setWidth 64, ((~~~lengthLow &&& ~~~3) + 1).setWidth 64, false⟩, c)
    else
      let type := (baseLow >>> 1) &&& 3
      let baseHigh := c.value { l with offset := offset + 4 }
      let baseAddress := (baseLow &&& 0xfffffff0).setWidth 64
      (⟨if type = 2 then baseAddress ||| baseHigh.setWidth 64 <<< 32 else baseAddress,
        (~~~(lengthLow &&& 0xfffffff0) + 1).setWidth 64, true⟩, c)

inductive BarKind
  | io | memory32 | memory64
  deriving DecidableEq, Repr

/-- A region of `2 ^ order` bytes at a multiple of its size. -/
structure Bar where
  kind : BarKind
  prefetchable : Bool
  base : BitVec 64
  order : ℕ
  order_ge : (if kind = .io then 2 else 4) ≤ order
  order_lt : order < if kind = .memory64 then 64 else 32
  aligned : 2 ^ order ∣ base.toNat
  base_lt : kind ≠ .memory64 → base.toNat < 2 ^ 32

/-- The bits of the register that say what it is. -/
def Bar.flags (bar : Bar) : BitVec 32 :=
  match bar.kind with
  | .io => 1
  | .memory32 => if bar.prefetchable then 8 else 0
  | .memory64 => if bar.prefetchable then 12 else 4

/-- The bits of an address that can be set, from the size on. -/
def Bar.mask (bar : Bar) : BitVec 64 := BitVec.allOnes 64 <<< bar.order

/-- The register of a BAR holds its base and its flags, and keeps the bits of addresses that are written to it. -/
structure Holds (c : ConfigSpace) (l : Location) (bar : Bar) : Prop where
  value : c.value l = bar.base.setWidth 32 ||| bar.flags
  writable : c.writable l = bar.mask.setWidth 32
  high : bar.kind = .memory64 → c.value { l with offset := l.offset + 4 } = (bar.base >>> 32).setWidth 32 ∧
    c.writable { l with offset := l.offset + 4 } = (bar.mask >>> 32).setWidth 32

def barLocation (dev : PciDevice) (index : BitVec 8) : Location :=
  ⟨dev.bus, dev.slot, dev.function, 0x10 + index.setWidth 16 * 4⟩

/-- Base and size are those of the device's BAR, and the configuration space is as before. -/
def Probes (c : ConfigSpace) (dev : PciDevice) (index : BitVec 8) (bar : Bar) : Prop :=
  (pciGetBar c dev index).1.baseAddress = bar.base ∧ (pciGetBar c dev index).1.length.toNat = 2 ^ bar.order ∧
    (pciGetBar c dev index).2 = c

/-- The register looks like that of a memory BAR below 4 GiB in size with the base and the size of the BAR. -/
structure LooksLike (c : ConfigSpace) (l : Location) (bar : Bar) : Prop where
  memory : (c.value l).getLsbD 0 = false
  size : bar.order < 32
  mask : (c.value l ||| c.writable l) &&& 0xfffffff0 = bar.mask.setWidth 32
  low : c.value l &&& 0xfffffff0 = bar.base.setWidth 32
  high : (bar.base >>> 32).setWidth 32 =
    if (c.value l >>> 1) &&& 3 = 2 then c.value { l with offset := l.offset + 4 } else 0

section Probing
variable {c : ConfigSpace} {l : Location} {bar : Bar} {x : BitVec 32} {v : BitVec 32}

lemma readback (v w : BitVec 32) : (v &&& ~~~w) ||| (0xffffffff &&& w) = v ||| w := by
  have hones : (0xffffffff : BitVec 32) = BitVec.allOnes 32 := by decide
  rw [hones, BitVec.allOnes_and]
  apply BitVec.eq_of_getLsbD_eq
  intro i hi
  simp only [BitVec.getLsbD_or, BitVec.getLsbD_and, BitVec.getLsbD_not, hi]
  cases v.getLsbD i <;> cases w.getLsbD i <;> rfl

lemma restored (v w : BitVec 32) : ((v ||| w) &&& ~~~w) ||| (v &&& w) = v := by
  apply BitVec.eq_of_getLsbD_eq
  intro i hi
  simp only [BitVec.getLsbD_or, BitVec.getLsbD_and, BitVec.getLsbD_not, hi]
  cases v.getLsbD i <;> cases w.getLsbD i <;> rfl

/-- The probe reads the value and the writable bits, and restores the register. -/
lemma probe_eq (c : ConfigSpace) (l : Location) : (c.write l 0xffffffff).value l = c.value l ||| c.writable l ∧
    (c.write l 0xffffffff).write l (c.value l) = c := by
  have hback : (c.write l 0xffffffff).value l = c.value l ||| c.writable l := by
    simp only [ConfigSpace.write, update_self, readback]
  refine ⟨hback, ?_⟩
  cases c with
  | mk value writable =>
    have hrest := restored (value l) (writable l)
    simp only [ConfigSpace.write, update_self, readback, update_idem, ConfigSpace.mk.injEq, and_true]
    rw [hrest, update_eq_self]

lemma low_bit (v : BitVec 32) : v &&& 1 = 0 ↔ v.getLsbD 0 = false := by
  constructor
  · intro h
    have hbit := congrArg (BitVec.getLsbD · 0) h
    simpa using hbit
  · intro h
    apply BitVec.eq_of_getLsbD_eq
    intro i hi
    rcases Nat.eq_zero_or_pos i with rfl | hpos
    · rw [BitVec.getLsbD_and, h]
      rfl
    · simp [show i ≠ 0 by omega]

/-- The size of an I/O BAR comes out odd. -/
lemma io_length (x : BitVec 32) : ((~~~x &&& ~~~3) + 1).toNat % 4 = 1 := by
  have hclear : (~~~x &&& ~~~3) &&& 3 = (0 : BitVec 32) := by
    have hmask : ~~~3 &&& 3 = (0#32) := by decide
    rw [BitVec.and_assoc, hmask, BitVec.and_zero]
    rfl
  have hmod : (~~~x &&& ~~~3).toNat % 4 = 0 := by
    have hnat := congrArg BitVec.toNat hclear
    rw [BitVec.toNat_and] at hnat
    exact (Nat.and_two_pow_sub_one_eq_mod _ 2).symm.trans hnat
  rw [BitVec.toNat_add]
  have hone : (1 : BitVec 32).toNat = 1 := rfl
  omega

lemma mask_low_toNat (h : bar.order < 32) : (bar.mask.setWidth 32).toNat = 2 ^ 32 - 2 ^ bar.order := by
  have hpow : 2 ^ bar.order < 2 ^ 32 := Nat.pow_lt_pow_right (by decide) h
  have hpos := Nat.two_pow_pos bar.order
  rw [Bar.mask, BitVec.toNat_setWidth, BitVec.toNat_shiftLeft, BitVec.toNat_allOnes, Nat.shiftLeft_eq]
  have hsplit : (2 ^ 64 - 1) * 2 ^ bar.order = (2 ^ bar.order - 1) * 2 ^ 64 + (2 ^ 64 - 2 ^ bar.order) := by
    rw [Nat.sub_mul, Nat.sub_mul]
    have := Nat.mul_le_mul_left (2 ^ 64) hpos
    omega
  rw [hsplit, Nat.mul_add_mod_self_right]
  omega

/-- The size of a memory BAR comes out right if its register reads back the right mask. -/
lemma memory_length (x : BitVec 32) :
    ((~~~(x &&& 0xfffffff0) + 1).setWidth 64).toNat = 2 ^ bar.order ↔
      bar.order < 32 ∧ x &&& 0xfffffff0 = bar.mask.setWidth 32 := by
  obtain ⟨y, hy⟩ : ∃ y, y = x &&& 0xfffffff0 := ⟨_, rfl⟩
  have hpos := Nat.two_pow_pos bar.order
  have hylt := y.isLt
  have hlength : ((~~~y + 1).setWidth 64).toNat = (2 ^ 32 - y.toNat) % 2 ^ 32 := by
    have hneg : ~~~y + 1 = -y := (BitVec.neg_eq_not_add y).symm
    rw [hneg, BitVec.toNat_setWidth, BitVec.toNat_neg]
    omega
  rw [← hy, hlength]
  constructor
  · intro h
    have horder : bar.order < 32 := by
      apply (Nat.pow_lt_pow_iff_right (show 1 < 2 by decide)).mp
      omega
    refine ⟨horder, BitVec.eq_of_toNat_eq ?_⟩
    rw [mask_low_toNat horder]
    omega
  · rintro ⟨horder, rfl⟩
    have hpow : 2 ^ bar.order < 2 ^ 32 := Nat.pow_lt_pow_right (by decide) horder
    rw [mask_low_toNat horder]
    omega

/-- The two halves of a base. -/
lemma base_halves (low high : BitVec 32) (base : BitVec 64) :
    low.setWidth 64 ||| high.setWidth 64 <<< 32 = base ↔
      low = base.setWidth 32 ∧ high = (base >>> 32).setWidth 32 := by
  constructor
  · rintro rfl
    constructor
    · apply BitVec.eq_of_getLsbD_eq
      intro i hi
      simp [hi]
    · apply BitVec.eq_of_getLsbD_eq
      intro i hi
      simp [hi, show 32 + i < 64 by omega]
  · rintro ⟨rfl, rfl⟩
    apply BitVec.eq_of_getLsbD_eq
    intro i hi
    by_cases h : i < 32
    · simp [h, hi]
    · simp [h, hi, show i - 32 < 32 by omega, show i - 32 < 64 by omega, show 32 + (i - 32) = i by omega]

/-- What is computed from the register, its writable bits and the next register. -/
lemma pciGetBar_eq {dev : PciDevice} {index : BitVec 8} (hindex : ¬ index > 5)
    (hl : l = barLocation { dev with function := 0 } index) : pciGetBar c dev index =
    (if c.value l &&& 1 ≠ 0 then
      ⟨(c.value l &&& ~~~3).setWidth 64,
        ((~~~(c.value l ||| c.writable l) &&& ~~~3) + 1).setWidth 64, false⟩
    else
      ⟨if (c.value l >>> 1) &&& 3 = 2 then
          (c.value l &&& 0xfffffff0).setWidth 64 ||| (c.value { l with offset := l.offset + 4 }).setWidth 64 <<< 32
        else (c.value l &&& 0xfffffff0).setWidth 64,
        (~~~((c.value l ||| c.writable l) &&& 0xfffffff0) + 1).setWidth 64, true⟩, c) := by
  obtain ⟨hback, hrest⟩ := probe_eq c l
  rw [hl, barLocation] at hback hrest
  rw [pciGetBar, if_neg hindex, hl, barLocation]
  dsimp only at hback hrest ⊢
  rw [hback, hrest]
  split_ifs <;> rfl

/-- Where the base and the size come from: the register of function 0. -/
lemma probes_iff {dev : PciDevice} {index : BitVec 8} (hindex : ¬ index > 5) :
    Probes c dev index bar ↔ LooksLike c (barLocation { dev with function := 0 } index) bar := by
  obtain ⟨l, hl⟩ : ∃ l, l = barLocation { dev with function := 0 } index := ⟨_, rfl⟩
  rw [Probes, pciGetBar_eq hindex hl, ← hl]
  by_cases hio : c.value l &&& 1 = 0
  · have hbit := (low_bit _).mp hio
    rw [if_neg (not_not.mpr hio)]
    dsimp only
    rw [memory_length, and_iff_left rfl]
    have hbase : (if (c.value l >>> 1) &&& 3 = 2 then (c.value l &&& 0xfffffff0).setWidth 64 |||
          (c.value { l with offset := l.offset + 4 }).setWidth 64 <<< 32
        else (c.value l &&& 0xfffffff0).setWidth 64) = bar.base ↔
        c.value l &&& 0xfffffff0 = bar.base.setWidth 32 ∧ (bar.base >>> 32).setWidth 32 =
          if (c.value l >>> 1) &&& 3 = 2 then c.value { l with offset := l.offset + 4 } else 0 := by
      split_ifs
      · rw [base_halves, eq_comm (a := c.value { l with offset := l.offset + 4 })]
      · have hzero := base_halves (c.value l &&& 0xfffffff0) 0 bar.base
        rw [eq_comm (a := (0 : BitVec 32))] at hzero
        simpa using hzero
    rw [hbase]
    constructor
    · rintro ⟨⟨hlow, hhigh⟩, hsize, hmask⟩
      exact ⟨hbit, hsize, hmask, hlow, hhigh⟩
    · intro h
      exact ⟨⟨h.low, h.high⟩, h.size, h.mask⟩
  · rw [if_pos hio]
    refine iff_of_false (fun h => ?_) fun h => hio ((low_bit _).mpr h.memory)
    have hlength := h.2.1
    have hodd := io_length (c.value l ||| c.writable l)
    have hge := bar.order_ge
    have hpow : 2 ^ bar.order % 4 = 0 := by
      obtain ⟨k, hk⟩ : ∃ k, bar.order = 2 + k := ⟨bar.order - 2, by split_ifs at hge <;> omega⟩
      rw [hk, pow_add]
      exact Nat.mul_mod_right _ _
    dsimp only at hlength
    rw [BitVec.toNat_setWidth, Nat.mod_eq_of_lt (by omega)] at hlength
    omega

lemma base_bit (bar : Bar) {i : ℕ} (h : i < bar.order) : bar.base.getLsbD i = false := by
  obtain ⟨k, hk⟩ := bar.aligned
  rw [BitVec.getLsbD, hk, Nat.testBit_two_pow_mul]
  simp [show ¬ bar.order ≤ i by omega]

lemma flags_bit (bar : Bar) {i : ℕ} (h : 4 ≤ i) : bar.flags.getLsbD i = false := by
  have hsmall : bar.flags.toNat < 2 ^ 4 := by
    unfold Bar.flags
    cases bar.kind <;> cases bar.prefetchable <;> decide
  exact Nat.testBit_lt_two_pow (hsmall.trans_le (Nat.pow_le_pow_right (by decide) h))

lemma mask_bit (bar : Bar) {i : ℕ} (h : i < 32) : (bar.mask.setWidth 32).getLsbD i = decide (bar.order ≤ i) := by
  rw [Bar.mask, BitVec.getLsbD_setWidth, BitVec.getLsbD_shiftLeft, BitVec.getLsbD_allOnes]
  by_cases horder : bar.order ≤ i
  · simp [h, horder, show i < 64 by omega, show i - bar.order < 64 by omega]
  · simp [horder, show i < bar.order by omega]

lemma address_bits {i : ℕ} (h : i < 32) : (0xfffffff0 : BitVec 32).getLsbD i = decide (4 ≤ i) := by
  have hall : ∀ i < 32, (0xfffffff0 : BitVec 32).getLsbD i = decide (4 ≤ i) := by decide
  exact hall i h

lemma type_bits {i : ℕ} (h : i < 32) : (3 : BitVec 32).getLsbD i = decide (i < 2) := by
  have hall : ∀ i < 32, (3 : BitVec 32).getLsbD i = decide (i < 2) := by decide
  exact hall i h

/-- The type of a memory BAR is read from its flags. -/
lemma type_eq (bar : Bar) (h : bar.kind ≠ .io) :
    (bar.base.setWidth 32 ||| bar.flags) >>> 1 &&& 3 = if bar.kind = .memory64 then 2 else 0 := by
  have horder := bar.order_ge
  rw [if_neg h] at horder
  have hflags : bar.flags >>> 1 &&& 3 = if bar.kind = .memory64 then 2 else 0 := by
    unfold Bar.flags
    cases hkind : bar.kind with
    | io => exact absurd hkind h
    | memory32 => cases bar.prefetchable <;> decide
    | memory64 => cases bar.prefetchable <;> decide
  rw [← hflags]
  apply BitVec.eq_of_getLsbD_eq
  intro i hi
  simp only [BitVec.getLsbD_and, BitVec.getLsbD_ushiftRight, BitVec.getLsbD_or, BitVec.getLsbD_setWidth, type_bits hi]
  by_cases hlow : i < 2
  · rw [base_bit bar (show 1 + i < bar.order by omega)]
    simp
  · simp [hlow]

/-- The device's own BAR, if it is one of memory and below 4 GiB. -/
lemma looksLike_own (h : Holds c l bar) : LooksLike c l bar ↔ bar.kind ≠ .io ∧ bar.order < 32 := by
  have horder := bar.order_ge
  constructor
  · intro hlike
    refine ⟨fun hkind => ?_, hlike.size⟩
    have hbit := hlike.memory
    rw [h.value, BitVec.getLsbD_or, Bar.flags, hkind] at hbit
    simp at hbit
  · rintro ⟨hkind, hsize⟩
    rw [if_neg hkind] at horder
    refine ⟨?_, hsize, ?_, ?_, ?_⟩
    · rw [h.value, BitVec.getLsbD_or, BitVec.getLsbD_setWidth, base_bit bar (by omega)]
      unfold Bar.flags
      cases hk : bar.kind with
      | io => exact absurd hk hkind
      | memory32 => cases bar.prefetchable <;> rfl
      | memory64 => cases bar.prefetchable <;> rfl
    · rw [h.value, h.writable]
      apply BitVec.eq_of_getLsbD_eq
      intro i hi
      rw [BitVec.getLsbD_and, BitVec.getLsbD_or, BitVec.getLsbD_or, mask_bit bar hi, address_bits hi,
        BitVec.getLsbD_setWidth]
      by_cases hlow : bar.order ≤ i
      · simp [hlow, show 4 ≤ i by omega]
      · rw [base_bit bar (by omega)]
        by_cases hi4 : 4 ≤ i
        · simp [hlow, flags_bit bar hi4]
        · simp [hlow, hi4]
    · rw [h.value]
      apply BitVec.eq_of_getLsbD_eq
      intro i hi
      rw [BitVec.getLsbD_and, BitVec.getLsbD_or, address_bits hi, BitVec.getLsbD_setWidth]
      by_cases hi4 : 4 ≤ i
      · simp [hi4, flags_bit bar hi4]
      · rw [base_bit bar (by omega)]
        simp [hi4]
    · rw [h.value, type_eq bar hkind]
      by_cases h64 : bar.kind = .memory64
      · rw [if_pos h64, if_pos rfl, (h.high h64).1]
      · have hlt := bar.base_lt h64
        rw [if_neg h64, if_neg (by decide)]
        apply BitVec.eq_of_toNat_eq
        rw [BitVec.toNat_setWidth, BitVec.toNat_ushiftRight, Nat.shiftRight_eq_div_pow, Nat.div_eq_of_lt hlt]
        rfl

end Probing

/-- A BAR is probed right exactly if the register of function 0 looks like it, and so for function 0 exactly if it is a
memory BAR of less than 4 GiB. -/
theorem pciGetBar_probes_iff (c : ConfigSpace) (dev : PciDevice) (index : BitVec 8) (hindex : index ≤ 5) (bar : Bar)
    (h : Holds c (barLocation dev index) bar) :
    (Probes c dev index bar ↔ LooksLike c (barLocation { dev with function := 0 } index) bar) ∧
    (dev.function = 0 → (Probes c dev index bar ↔ bar.kind ≠ .io ∧ bar.order < 32)) := by
  have hle : ¬ index > 5 := BitVec.not_lt.mpr hindex
  refine ⟨probes_iff hle, fun hfunction => ?_⟩
  rw [probes_iff hle, ← hfunction]
  exact looksLike_own h

/-- The registers of 16 bytes at 0xfebf0000. -/
lemma smallBar_aligned : 2 ^ 4 ∣ (0xfebf0000 : BitVec 64).toNat := by decide

def smallBar : Bar where
  kind := .memory32
  prefetchable := false
  base := 0xfebf0000
  order := 4
  order_ge := le_rfl
  order_lt := Nat.le_of_ble_eq_true rfl
  aligned := smallBar_aligned
  base_lt := fun _ => Nat.le_of_ble_eq_true rfl

/-- A device of one function with this BAR. -/
def smallSpace : ConfigSpace where
  value := fun l => if l = ⟨0, 3, 0, 0x10⟩ then 0xfebf0000 else 0
  writable := fun l => if l = ⟨0, 3, 0, 0x10⟩ then 0xfffffff0 else 0

theorem pciGetBar_small : Probes smallSpace ⟨0, 3, 0⟩ 0 smallBar := by
  refine ((pciGetBar_probes_iff smallSpace ⟨0, 3, 0⟩ 0 (by decide) smallBar ⟨by decide, by decide, ?_⟩).2 rfl).mpr ?_
  · intro h
    cases h
  · exact ⟨by decide, by decide⟩

lemma ports_aligned : 2 ^ 5 ∣ (0xc000 : BitVec 64).toNat := by decide

/-- 32 ports at 0xc000. -/
def ports : Bar where
  kind := .io
  prefetchable := false
  base := 0xc000
  order := 5
  order_ge := Nat.le_of_ble_eq_true rfl
  order_lt := Nat.le_of_ble_eq_true rfl
  aligned := ports_aligned
  base_lt := fun _ => Nat.le_of_ble_eq_true rfl

def portSpace : ConfigSpace where
  value := fun l => if l = ⟨0, 3, 0, 0x10⟩ then 0xc001 else 0
  writable := fun l => if l = ⟨0, 3, 0, 0x10⟩ then 0xffffffe0 else 0

/-- The registers of 16 bytes, at the second function of a device whose first one has no BAR. -/
def secondSpace : ConfigSpace where
  value := fun l => if l = ⟨0, 3, 1, 0x10⟩ then 0xfebf0000 else 0
  writable := fun l => if l = ⟨0, 3, 1, 0x10⟩ then 0xfffffff0 else 0

/-- The length of ports comes out as 29 of 32, and the BAR of function 1 as that of function 0. -/
theorem pciGetBar_wrong : (Holds portSpace (barLocation ⟨0, 3, 0⟩ 0) ports ∧ ¬ Probes portSpace ⟨0, 3, 0⟩ 0 ports) ∧
    Holds secondSpace (barLocation ⟨0, 3, 1⟩ 0) smallBar ∧ ¬ Probes secondSpace ⟨0, 3, 1⟩ 0 smallBar := by
  refine ⟨⟨⟨by decide, by decide, ?_⟩, ?_⟩, ⟨by decide, by decide, ?_⟩, ?_⟩
  · intro h
    cases h
  · intro h
    exact absurd h.2.1 (by decide)
  · intro h
    cases h
  · intro h
    exact absurd h.2.1 (by decide)

end PiggyOs.PciBars
