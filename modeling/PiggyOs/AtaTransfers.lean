import PiggyOs.Partition

/-! The sectors that ATA requests move in their two modes, from and to which bytes of the buffer. -/
namespace PiggyOs.AtaTransfers
open PiggyOs.Partition

section Identify
variable (data : ℕ → BitVec 16)

/-- Two words as a number of 32 bits, which has a sign. -/
def word32 (i : ℕ) : BitVec 32 := (data i).setWidth 32 ||| (data (i + 1)).setWidth 32 <<< 16

def identifiedCount : BitVec 64 :=
  if (data 83).getLsbD 10 then
    (word32 data 100).signExtend 64 ||| (data 102).setWidth 64 <<< 32 ||| (data 103).setWidth 64 <<< 48
  else (word32 data 60).signExtend 64

def identifiedSize : BitVec 64 :=
  if (data 106).getLsbD 14 ∧ ¬ (data 106).getLsbD 15 ∧ (data 106).getLsbD 12 then (2 * word32 data 117).signExtend 64
  else 512

/-- The device from what it says about itself; `none` where it is not taken. -/
def ataChannelIdentifyDevice (lbaMid lbaHigh : BitVec 8) : Option AtaDevice :=
  if (data 0).getLsbD 15 then none
  else if lbaMid = 0xff ∧ lbaHigh = 0xff then none
  else if 2 ^ 64 ≤ (identifiedCount data).toNat * (identifiedSize data).toNat then none
  else
    some {
      type :=
        if lbaMid = 0x00 ∧ lbaHigh = 0x00 then .pata
        else if lbaMid = 0x3c ∧ lbaHigh = 0xc3 then .sata
        else if lbaMid = 0x14 ∧ lbaHigh = 0xeb then .patapi
        else if lbaMid = 0x69 ∧ lbaHigh = 0x96 then .satapi
        else .unknown
      dmaSupported := (data 49).getLsbD 8
      sectorCount := identifiedCount data
      sectorSize := identifiedSize data }

end Identify

/-- What the registers ask the device for: how many sectors, and the first of them. -/
def ataChannelSetSectors (sectorCount lba : BitVec 64) : ℕ × ℕ :=
  if lba > 0xfffffff ∨ sectorCount > 256 then
    let count : BitVec 16 := if sectorCount = 0xffff then 0 else sectorCount.setWidth 16
    (if count = 0 then 0x10000 else count.toNat, lba.toNat % 2 ^ 48)
  else
    let count : BitVec 8 := if sectorCount = 256 then 0 else sectorCount.setWidth 8
    (if count = 0 then 256 else count.toNat, lba.toNat % 2 ^ 28)

/-- A sector that is moved, and its place in the buffer. -/
structure Transfer where
  sector : ℕ
  pos : ℕ
  bytes : ℕ
  deriving DecidableEq, Repr

/-- The bytes that a descriptor of the bus master stands for: its field has 16 bits, and 0 is the largest count. -/
def prdBytes (bytes : ℕ) : ℕ := if bytes % 2 ^ 16 = 0 then 2 ^ 16 else bytes % 2 ^ 16

/-- A transfer through the page of the channel. -/
def ataDeviceDma (size : ℕ) (pos : ℕ) (sectorCount lba : BitVec 64) : List Transfer :=
  let (asked, first) := ataChannelSetSectors sectorCount lba
  (List.range (min sectorCount.toNat (min asked (prdBytes (sectorCount.toNat * size) / size)))).map fun k =>
    ⟨first + k, pos + k * size, size⟩

/-- A transfer word by word; `place` is where the words of a sector are put to or taken from. -/
def ataDevicePio (size : ℕ) (place : ℕ → ℕ) (sectorCount lba : BitVec 64) : List Transfer :=
  let (asked, first) := ataChannelSetSectors sectorCount lba
  (List.range (min sectorCount.toNat asked)).map fun k => ⟨first + k, place (k * size), 2 * (size / 2)⟩

def dmaPages (size : ℕ) (perPage leftover : BitVec 64) : ℕ → ℕ → BitVec 64 → List Transfer
  | 0, pos, lba => if leftover ≠ 0 then ataDeviceDma size pos leftover lba else []
  | n + 1, pos, lba =>
      ataDeviceDma size pos perPage lba ++
        dmaPages size perPage leftover n (pos + Partition.pageSize.toNat) (lba + perPage)

/-- A request on a device that reports no error: the result and the transfers; `none` for a division by zero. -/
def ataRequest (d : AtaDevice) (place : ℕ → ℕ) (offset count : BitVec 64) : Option (ℤ × List Transfer) :=
  if count = 0 then some (0, [])
  else if d.type ≠ .pata ∧ d.type ≠ .sata then some (-eperm, [])
  else if d.sectorSize = 0 then none
  else
    let sectorCount := count / d.sectorSize
    let lba := offset / d.sectorSize
    if d.dmaSupported then
      let perPage := Partition.pageSize / d.sectorSize
      if perPage = 0 then none
      else
        some (count.toInt,
          dmaPages d.sectorSize.toNat perPage (sectorCount % perPage) (sectorCount / perPage).toNat 0 lba)
    else some (count.toInt, ataDevicePio d.sectorSize.toNat place sectorCount lba)

/-- `insw` stores to its buffer. -/
def ataRead (d : AtaDevice) (offset count : BitVec 64) : Option (ℤ × List Transfer) := ataRequest d id offset count

/-- `outsw` is given its buffer in another register than the one the instruction reads: `outsw` is where it finds the
words instead. -/
def ataWrite (outsw : ℕ → ℕ) (d : AtaDevice) (offset count : BitVec 64) : Option (ℤ × List Transfer) :=
  ataRequest d outsw offset count

/-- All sectors of the request, one behind the other. -/
def consecutive (lba n size : ℕ) : List Transfer := (List.range n).map fun k => ⟨lba + k, k * size, size⟩

def requested (d : AtaDevice) (offset count : BitVec 64) : List Transfer :=
  if d.type = .pata ∨ d.type = .sata then
    consecutive (offset.toNat / d.sectorSize.toNat) (count.toNat / d.sectorSize.toNat) d.sectorSize.toNat
  else []

/-- In both modes the request is done, and exactly its sectors are moved. -/
def Equivalent (outsw : ℕ → ℕ) (d : AtaDevice) (offset count : BitVec 64) : Prop :=
  ∀ dma, (ataRead { d with dmaSupported := dma } offset count).map Prod.snd = some (requested d offset count) ∧
    (ataWrite outsw { d with dmaSupported := dma } offset count).map Prod.snd = some (requested d offset count)

section Registers
variable {n lba : BitVec 64}

lemma setSectors_first (n lba : BitVec 64) : (ataChannelSetSectors n lba).2 = lba.toNat % 2 ^ 48 := by
  by_cases h : lba > 0xfffffff ∨ n > 256
  · rw [ataChannelSetSectors, if_pos h]
  · have hle : lba ≤ 0xfffffff := BitVec.not_lt.mp fun hlt => h (Or.inl hlt)
    have hnat : lba.toNat ≤ 0xfffffff := hle
    rw [ataChannelSetSectors, if_neg h]
    dsimp only
    omega

lemma asked_of_ne {w : ℕ} {v : BitVec w} {m : ℕ} (h : v.toNat = m) (hm : m ≠ 0) (full : ℕ) :
    (if v = 0 then full else v.toNat) = m := by
  rw [if_neg fun heq => hm ?_, h]
  rw [← h, heq]
  exact BitVec.toNat_ofNat ..|>.trans (Nat.zero_mod _)

/-- The registers ask for enough sectors up to 65536 of them. -/
lemma setSectors_asked (lba : BitVec 64) (hn : n ≠ 0) :
    n.toNat ≤ (ataChannelSetSectors n lba).1 ↔ n.toNat ≤ 0x10000 := by
  have hpos : n.toNat ≠ 0 := fun h => hn (BitVec.eq_of_toNat_eq h)
  by_cases h : lba > 0xfffffff ∨ n > 256
  · rw [ataChannelSetSectors, if_pos h]
    dsimp only
    by_cases hfull : n = 0xffff
    · subst hfull
      exact iff_of_true (by decide) (by decide)
    · have hwidth : (n.setWidth 16).toNat = n.toNat % 2 ^ 16 := BitVec.toNat_setWidth ..
      rw [if_neg hfull]
      by_cases hzero : n.setWidth 16 = 0
      · rw [if_pos hzero]
      · have hnat : (n.setWidth 16).toNat ≠ 0 := fun h0 => hzero (BitVec.eq_of_toNat_eq h0)
        rw [if_neg hzero]
        omega
  · have hle : n ≤ 256 := BitVec.not_lt.mp fun hlt => h (Or.inr hlt)
    have hnat : n.toNat ≤ 256 := hle
    have hwidth : (n.setWidth 8).toNat = n.toNat % 2 ^ 8 := BitVec.toNat_setWidth ..
    rw [ataChannelSetSectors, if_neg h]
    dsimp only
    by_cases hfull : n = 256
    · subst hfull
      exact iff_of_true (by decide) (by decide)
    · have hlt : n.toNat ≠ 256 := fun heq => hfull (BitVec.eq_of_toNat_eq heq)
      rw [if_neg hfull, asked_of_ne (hwidth.trans (Nat.mod_eq_of_lt (by omega))) hpos]
      exact iff_of_true le_rfl (by omega)

end Registers

section Transfers
variable {size : ℕ} {n lba : BitVec 64}

lemma toNat_ne_zero (hn : n ≠ 0) : n.toNat ≠ 0 := fun h => hn (BitVec.eq_of_toNat_eq h)

/-- A transfer through a page that is large enough for it. -/
lemma ataDeviceDma_eq (hsize : 0 < size) (hn : n ≠ 0) (hpage : n.toNat * size ≤ 4096) (pos : ℕ) (lba : BitVec 64) :
    ataDeviceDma size pos n lba =
      (List.range n.toNat).map fun k => ⟨lba.toNat % 2 ^ 48 + k, pos + k * size, size⟩ := by
  have hpos := Nat.mul_pos (Nat.pos_of_ne_zero (toNat_ne_zero hn)) hsize
  have hle := Nat.le_mul_of_pos_right n.toNat hsize
  have hasked := (setSectors_asked lba hn).mpr (by omega)
  have hprd : prdBytes (n.toNat * size) = n.toNat * size := by
    rw [prdBytes, Nat.mod_eq_of_lt (by omega), if_neg (by omega)]
  rw [ataDeviceDma]
  dsimp only
  rw [hprd, Nat.mul_div_cancel _ hsize, setSectors_first, Nat.min_eq_right hasked, Nat.min_self]

/-- The bursts of a request: each starts at a page of the buffer. -/
lemma dmaPages_eq {perPage leftover : BitVec 64} (hsize : 0 < size) (hpos : perPage ≠ 0)
    (hpage : perPage.toNat * size ≤ 4096) (hleft : leftover.toNat < perPage.toNat) (b pos : ℕ) (lba : BitVec 64) :
    dmaPages size perPage leftover b pos lba =
      (List.range (b * perPage.toNat + leftover.toNat)).map fun j =>
        ⟨(lba.toNat + j / perPage.toNat * perPage.toNat) % 2 ^ 48 + j % perPage.toNat,
          pos + j / perPage.toNat * 4096 + j % perPage.toNat * size, size⟩ := by
  have hq := Nat.pos_of_ne_zero (toNat_ne_zero hpos)
  induction b generalizing pos lba with
  | zero =>
    have hsmall : ∀ j ∈ List.range leftover.toNat, j / perPage.toNat = 0 ∧ j % perPage.toNat = j := by
      intro j hj
      have hlt := (List.mem_range.mp hj).trans hleft
      exact ⟨Nat.div_eq_of_lt hlt, Nat.mod_eq_of_lt hlt⟩
    rw [dmaPages, Nat.zero_mul, Nat.zero_add]
    split_ifs with h
    · rw [ataDeviceDma_eq hsize h ((Nat.mul_le_mul_right size hleft.le).trans hpage)]
      refine List.map_congr_left fun j hj => ?_
      rw [(hsmall j hj).1, (hsmall j hj).2, Nat.zero_mul, Nat.zero_mul, Nat.add_zero, Nat.add_zero]
    · have hzero : leftover.toNat = 0 := by rw [not_not.mp h]; rfl
      rw [hzero]
      rfl
  | succ b ih =>
    have hcount : (b + 1) * perPage.toNat + leftover.toNat = perPage.toNat + (b * perPage.toNat + leftover.toNat) := by
      ring
    rw [dmaPages, ih, ataDeviceDma_eq hsize hpos hpage, hcount]
    generalize b * perPage.toNat + leftover.toNat = rest
    rw [List.range_add, List.map_append, List.map_map]
    congr 1
    · refine List.map_congr_left fun j hj => ?_
      have hlt := List.mem_range.mp hj
      rw [Nat.div_eq_of_lt hlt, Nat.mod_eq_of_lt hlt, Nat.zero_mul, Nat.zero_mul, Nat.add_zero, Nat.add_zero]
    · refine List.map_congr_left fun j _ => ?_
      have hwrap : ((lba + perPage).toNat + j / perPage.toNat * perPage.toNat) % 2 ^ 48 =
          (lba.toNat + (j / perPage.toNat + 1) * perPage.toNat) % 2 ^ 48 := by
        rw [BitVec.toNat_add, Nat.succ_mul]
        omega
      have hplace : pos + Partition.pageSize.toNat + j / perPage.toNat * 4096 =
          pos + (j / perPage.toNat + 1) * 4096 := by
        have hpageSize : Partition.pageSize.toNat = 4096 := rfl
        omega
      rw [Function.comp_apply, Nat.add_div_left _ hq, Nat.add_mod_left, hwrap, hplace]

/-- The bursts are the sectors of the request exactly if they follow one another in the buffer, and the last one starts
at a sector that the registers can hold. -/
lemma pages_consecutive_iff {b q n : ℕ} (hq : 0 < q) (hn : 0 < n) :
    ((List.range n).map fun j =>
      (⟨(b + j / q * q) % 2 ^ 48 + j % q, 0 + j / q * 4096 + j % q * size, size⟩ : Transfer)) =
      consecutive b n size ↔ (q * size = 4096 ∨ n ≤ q) ∧ b + (n - 1) / q * q < 2 ^ 48 := by
  rw [consecutive, List.map_inj_left]
  have hsplit : ∀ j, j = j / q * q + j % q := fun j => (Nat.div_add_mod' j q).symm
  constructor
  · intro h
    constructor
    · by_contra hnot
      obtain ⟨hne, hlt⟩ := not_or.mp hnot
      have hsecond := congrArg Transfer.pos (h q (List.mem_range.mpr (not_le.mp hlt)))
      dsimp only at hsecond
      rw [Nat.div_self hq, Nat.mod_self, Nat.zero_mul] at hsecond
      omega
    · have hlast := congrArg Transfer.sector (h (n - 1) (List.mem_range.mpr (by omega)))
      have hmod := Nat.mod_lt (b + (n - 1) / q * q) (show 0 < 2 ^ 48 by decide)
      have := hsplit (n - 1)
      dsimp only at hlast
      omega
  · rintro ⟨hfull, hlast⟩ j hj
    have hlt := List.mem_range.mp hj
    have hmono : j / q * q ≤ (n - 1) / q * q := Nat.mul_le_mul_right q (Nat.div_le_div_right (by omega))
    have hplace : j / q * 4096 + j % q * size = j * size := by
      obtain hfull | hone := hfull
      · rw [← hfull, ← Nat.mul_assoc, ← Nat.add_mul, ← hsplit]
      · rw [Nat.div_eq_of_lt (by omega), Nat.mod_eq_of_lt (by omega), Nat.zero_mul, Nat.zero_add]
    have := hsplit j
    rw [Nat.mod_eq_of_lt (by omega), Nat.zero_add, hplace, Nat.add_assoc, ← hsplit]

/-- The words of the request are its sectors exactly if the registers can hold their number and the first of them, and
all have their places. -/
lemma pio_consecutive_iff (hn : n ≠ 0) (heven : size % 2 = 0) (place : ℕ → ℕ) (lba : BitVec 64) :
    ataDevicePio size place n lba = consecutive lba.toNat n.toNat size ↔
      n.toNat ≤ 0x10000 ∧ lba.toNat < 2 ^ 48 ∧ ∀ k < n.toNat, place (k * size) = k * size := by
  have hpos := toNat_ne_zero hn
  have hbytes : 2 * (size / 2) = size := by omega
  rw [ataDevicePio, consecutive]
  dsimp only
  rw [setSectors_first, hbytes, ← setSectors_asked lba hn]
  constructor
  · intro h
    have hlen := congrArg List.length h
    rw [List.length_map, List.length_map, List.length_range, List.length_range] at hlen
    rw [hlen, List.map_inj_left] at h
    have hfirst := congrArg Transfer.sector (h 0 (List.mem_range.mpr (by omega)))
    have hmod := Nat.mod_lt lba.toNat (show 0 < 2 ^ 48 by decide)
    dsimp only at hfirst
    exact ⟨by omega, by omega, fun k hk => congrArg Transfer.pos (h k (List.mem_range.mpr hk))⟩
  · rintro ⟨hasked, hlba, hplace⟩
    rw [Nat.min_eq_left hasked, Nat.mod_eq_of_lt hlba]
    exact List.map_congr_left fun k hk => by rw [hplace k (List.mem_range.mp hk)]

end Transfers

section Requests
variable {d : AtaDevice} {offset count : BitVec 64}

lemma even_identifiedSize (data : ℕ → BitVec 16) : (identifiedSize data).toNat % 2 = 0 := by
  have heven : ∀ w : BitVec 32, ((2 * w).signExtend 64).getLsbD 0 = false := by
    intro w
    have hbit : (2 * w).getLsbD 0 = false := by
      rw [BitVec.getLsbD, BitVec.toNat_mul, Nat.testBit_zero]
      have hdouble : (2 : BitVec 32).toNat * w.toNat % 2 ^ 32 % 2 = 0 := by
        rw [show (2 : BitVec 32).toNat = 2 from rfl]
        omega
      rw [hdouble]
      rfl
    rw [BitVec.getLsbD_signExtend, hbit]
    rfl
  rw [identifiedSize]
  split_ifs
  · have hbit := heven (word32 data 117)
    rw [BitVec.getLsbD, Nat.testBit_zero] at hbit
    have hodd := of_decide_eq_false hbit
    omega
  · rfl

/-- Sectors have whole words. -/
lemma even_of_identify {data : ℕ → BitVec 16} {lbaMid lbaHigh : BitVec 8}
    (h : ataChannelIdentifyDevice data lbaMid lbaHigh = some d) : d.sectorSize.toNat % 2 = 0 := by
  rw [ataChannelIdentifyDevice, Option.ite_none_left_eq_some, Option.ite_none_left_eq_some,
    Option.ite_none_left_eq_some] at h
  obtain rfl := Option.some.inj h.2.2.2
  exact even_identifiedSize data

/-- The requests whose sectors keep their places in both modes. -/
structure Regular (outsw : ℕ → ℕ) (size n lba : ℕ) : Prop where
  page : size ≤ 4096
  bursts : size ∣ 4096 ∨ n ≤ 4096 / size
  count : n ≤ 0x10000
  start : lba + (n - 1) / (4096 / size) * (4096 / size) < 2 ^ 48
  words : ∀ k < n, outsw (k * size) = k * size

/-- A request that moves nothing. -/
lemma equivalent_of_idle (h : count = 0 ∨ ¬ (d.type = .pata ∨ d.type = .sata)) (outsw : ℕ → ℕ) :
    Equivalent outsw d offset count := by
  have hrequest : ∀ place dma,
      (ataRequest { d with dmaSupported := dma } place offset count).map Prod.snd = some [] := by
    intro place dma
    rw [ataRequest]
    split_ifs with hcount htype
    · rfl
    · rfl
    all_goals exact absurd h (not_or.mpr ⟨hcount, not_not.mpr (by tauto)⟩)
  have hrequested : requested d offset count = [] := by
    rw [requested]
    split_ifs with htype
    · obtain rfl := h.resolve_right (not_not.mpr htype)
      rw [show (0 : BitVec 64).toNat = 0 from rfl, Nat.zero_div]
      rfl
    · rfl
  intro dma
  rw [hrequested]
  exact ⟨hrequest id dma, hrequest outsw dma⟩

variable (offset) (place : ℕ → ℕ) (hcount : count ≠ 0) (htype : d.type = .pata ∨ d.type = .sata)
  (hmultiple : d.sectorSize.toNat ∣ count.toNat)

section
include hcount hmultiple

lemma sectorSize_ne : d.sectorSize ≠ 0 := fun h0 => by
  rw [h0] at hmultiple
  exact toNat_ne_zero hcount (Nat.eq_zero_of_zero_dvd hmultiple)

lemma sectors_ne_zero : count / d.sectorSize ≠ 0 := fun h0 => by
  have hdiv := congrArg BitVec.toNat h0
  rw [BitVec.toNat_udiv] at hdiv
  have hcountPos := Nat.pos_of_ne_zero (toNat_ne_zero hcount)
  have hpos := Nat.pos_of_ne_zero (toNat_ne_zero (sectorSize_ne hcount hmultiple))
  exact absurd hdiv (Nat.div_pos (Nat.le_of_dvd hcountPos hmultiple) hpos).ne'

end

include hcount htype hmultiple

lemma request_pio_iff (heven : d.sectorSize.toNat % 2 = 0) :
    (ataRequest { d with dmaSupported := false } place offset count).map Prod.snd =
        some (requested d offset count) ↔
      count.toNat / d.sectorSize.toNat ≤ 0x10000 ∧ offset.toNat / d.sectorSize.toNat < 2 ^ 48 ∧
        ∀ k < count.toNat / d.sectorSize.toNat, place (k * d.sectorSize.toNat) = k * d.sectorSize.toNat := by
  have hrun : (ataRequest { d with dmaSupported := false } place offset count).map Prod.snd =
      some (ataDevicePio d.sectorSize.toNat place (count / d.sectorSize) (offset / d.sectorSize)) := by
    rw [ataRequest, if_neg hcount, if_neg fun h => htype.elim h.1 h.2, if_neg (sectorSize_ne hcount hmultiple)]
    rfl
  have hpio := pio_consecutive_iff (sectors_ne_zero hcount hmultiple) heven place (offset / d.sectorSize)
  rw [BitVec.toNat_udiv, BitVec.toNat_udiv] at hpio
  rw [hrun, Option.some.injEq, requested, if_pos htype, hpio]

/-- Without a sector that fits a page there is a division by zero. -/
lemma request_dma_iff :
    (ataRequest { d with dmaSupported := true } place offset count).map Prod.snd =
        some (requested d offset count) ↔
      d.sectorSize.toNat ≤ 4096 ∧
        (d.sectorSize.toNat ∣ 4096 ∨ count.toNat / d.sectorSize.toNat ≤ 4096 / d.sectorSize.toNat) ∧
        offset.toNat / d.sectorSize.toNat +
          (count.toNat / d.sectorSize.toNat - 1) / (4096 / d.sectorSize.toNat) * (4096 / d.sectorSize.toNat) <
            2 ^ 48 := by
  have hsize := sectorSize_ne hcount hmultiple
  have hpos := Nat.pos_of_ne_zero (toNat_ne_zero hsize)
  have hq : (Partition.pageSize / d.sectorSize).toNat = 4096 / d.sectorSize.toNat := BitVec.toNat_udiv
  have hrun : (ataRequest { d with dmaSupported := true } place offset count).map Prod.snd =
      if Partition.pageSize / d.sectorSize = 0 then none
      else some (dmaPages d.sectorSize.toNat (Partition.pageSize / d.sectorSize)
        (count / d.sectorSize % (Partition.pageSize / d.sectorSize))
        (count / d.sectorSize / (Partition.pageSize / d.sectorSize)).toNat 0 (offset / d.sectorSize)) := by
    rw [ataRequest, if_neg hcount, if_neg fun h => htype.elim h.1 h.2, if_neg hsize]
    dsimp only
    rw [if_pos rfl]
    split_ifs <;> rfl
  by_cases hperPage : Partition.pageSize / d.sectorSize = 0
  · rw [hrun, if_pos hperPage]
    refine iff_of_false nofun fun h => ?_
    rw [hperPage] at hq
    exact absurd hq (Nat.div_pos h.1 hpos).ne
  · have hqPos := Nat.pos_of_ne_zero (toNat_ne_zero hperPage)
    have hn := Nat.pos_of_ne_zero (toNat_ne_zero (sectors_ne_zero hcount hmultiple))
    have hpage : (Partition.pageSize / d.sectorSize).toNat * d.sectorSize.toNat ≤ 4096 := by
      rw [hq]
      exact Nat.div_mul_le_self _ _
    have hleft : (count / d.sectorSize % (Partition.pageSize / d.sectorSize)).toNat <
        (Partition.pageSize / d.sectorSize).toNat := by
      rw [BitVec.toNat_umod]
      exact Nat.mod_lt _ hqPos
    have hle : d.sectorSize.toNat ≤ 4096 := by
      rw [hq] at hqPos
      exact (Nat.div_pos_iff.mp hqPos).2
    have hdvd : (Partition.pageSize / d.sectorSize).toNat * d.sectorSize.toNat = 4096 ↔ d.sectorSize.toNat ∣ 4096 := by
      rw [hq, ← Nat.dvd_iff_div_mul_eq]
    rw [hrun, if_neg hperPage, Option.some.injEq, dmaPages_eq hpos hperPage hpage hleft, pages_add_leftover, requested,
      if_pos htype, ← BitVec.toNat_udiv, ← BitVec.toNat_udiv, pages_consecutive_iff hqPos hn, hdvd, and_iff_right hle,
      hq]

end Requests

/-- Both modes move the same sectors exactly if the request is regular, or moves none. -/
theorem equivalent_iff {data : ℕ → BitVec 16} {lbaMid lbaHigh : BitVec 8} {d : AtaDevice}
    (h : ataChannelIdentifyDevice data lbaMid lbaHigh = some d) (outsw : ℕ → ℕ) (offset : BitVec 64) {count : BitVec 64}
    (hmultiple : d.sectorSize.toNat ∣ count.toNat) : Equivalent outsw d offset count ↔
      (count = 0 ∨ ¬ (d.type = .pata ∨ d.type = .sata)) ∨
        Regular outsw d.sectorSize.toNat (count.toNat / d.sectorSize.toNat) (offset.toNat / d.sectorSize.toNat) := by
  have heven := even_of_identify h
  by_cases hidle : count = 0 ∨ ¬ (d.type = .pata ∨ d.type = .sata)
  · exact iff_of_true (equivalent_of_idle hidle outsw) (Or.inl hidle)
  rw [or_iff_right hidle]
  obtain ⟨hcount, htype⟩ := not_or.mp hidle
  rw [not_not] at htype
  have hpio := fun place => request_pio_iff offset place hcount htype hmultiple heven
  have hdma := fun place => request_dma_iff offset place hcount htype hmultiple
  constructor
  · intro hall
    obtain ⟨hpage, hbursts, hstart⟩ := (hdma id).mp (hall true).1
    obtain ⟨hn, -, hwords⟩ := (hpio outsw).mp (hall false).2
    exact ⟨hpage, hbursts, hn, hstart, hwords⟩
  · rintro ⟨hpage, hbursts, hn, hstart, hwords⟩ dma
    have hlba := (Nat.le_add_right _ _).trans_lt hstart
    cases dma with
    | false => exact ⟨(hpio id).mpr ⟨hn, hlba, fun _ _ => rfl⟩, (hpio outsw).mpr ⟨hn, hlba, hwords⟩⟩
    | true => exact ⟨(hdma id).mpr ⟨hpage, hbursts, hstart⟩, (hdma outsw).mpr ⟨hpage, hbursts, hstart⟩⟩

/-- What a device with 1000 sectors of this size says about itself. -/
def identityOf (size : BitVec 16) : ℕ → BitVec 16 := fun i =>
  if i = 49 then 0x100 else if i = 60 then 1000 else if i = 106 then 0x5000 else if i = 117 then size / 2 else 0

theorem equivalent_standard : Equivalent id ⟨.pata, true, 1000, 512⟩ 512 8192 := by
  have hidentity : ataChannelIdentifyDevice (identityOf 512) 0 0 = some ⟨.pata, true, 1000, 512⟩ := rfl
  refine (equivalent_iff hidentity id 512 (by decide)).mpr (Or.inr ⟨by decide, Or.inl ?_, by decide, by decide, ?_⟩)
  · exact ⟨8, rfl⟩
  · exact fun _ _ => rfl

/-- Seven sectors of 520 bytes fit a page, and the eighth of a request goes behind the page; a sector of 8192 bytes is a
division by zero. -/
theorem not_equivalent : ataChannelIdentifyDevice (identityOf 520) 0 0 = some ⟨.pata, true, 1000, 520⟩ ∧
    (ataRead ⟨.pata, true, 1000, 520⟩ 0 4160).map (fun r => r.2.getLast?) = some (some ⟨7, 4096, 520⟩) ∧
    (requested ⟨.pata, true, 1000, 520⟩ 0 4160).getLast? = some ⟨7, 3640, 520⟩ ∧
    ¬ Equivalent id ⟨.pata, true, 1000, 520⟩ 0 4160 ∧
    ataChannelIdentifyDevice (identityOf 8192) 0 0 = some ⟨.pata, true, 1000, 8192⟩ ∧
    ataRead ⟨.pata, true, 1000, 8192⟩ 0 8192 = none := by
  have hread : (ataRead ⟨.pata, true, 1000, 520⟩ 0 4160).map (fun r => r.2.getLast?) = some (some ⟨7, 4096, 520⟩) := by
    decide +kernel
  have hrequested : (requested ⟨.pata, true, 1000, 520⟩ 0 4160).getLast? = some ⟨7, 3640, 520⟩ := by decide +kernel
  refine ⟨rfl, hread, hrequested, fun h => ?_, rfl, by decide +kernel⟩
  have hsame := congrArg (Option.map List.getLast?) (h true).1
  rw [Option.map_map] at hsame
  have hlast := hread.symm.trans (hsame.trans (congrArg some hrequested))
  exact absurd hlast (by decide)

end PiggyOs.AtaTransfers
