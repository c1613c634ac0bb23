import PiggyOs.ByteMemory

/-! Partitions of an ATA device, down to the commands that the device is given. -/
namespace PiggyOs.Partition
open ByteMemory

def eio : ℤ := 6
def eperm : ℤ := 18
def pageSize : BitVec 64 := 4096

inductive DeviceType
  | pata | sata | patapi | satapi | unknown
  deriving DecidableEq, Repr

structure AtaDevice where
  type : DeviceType
  dmaSupported : Bool
  sectorCount : BitVec 64
  sectorSize : BitVec 64

structure PartitionMetadata where
  device : AtaDevice
  startLba : BitVec 64
  sectorCount : BitVec 64

/-- The bytes of the device, how many commands it has been given, and whether the last write has failed without a
report so far. -/
structure Medium where
  disk : Memory
  commands : ℕ
  pendingError : Bool

/-- For each command none if it succeeds, or after how many sectors it fails. -/
abbrev Faults := ℕ → Option ℕ

def transferred (fault : Option ℕ) (n : ℕ) : ℕ :=
  match fault with
  | none => n
  | some k => min k n

section Ata
variable (faults : Faults)

/-- The sectors go to the device while the call returns; the next call reports a failure. -/
def ataDeviceWriteDma (size : ℕ) (buf : Memory) (sectorCount lba : BitVec 64) (m : Medium) : Bool × Medium :=
  if m.pendingError then (false, { m with pendingError := false })
  else
    (true,
      { disk := blit m.disk (lba.toNat * size) buf (transferred (faults m.commands) sectorCount.toNat * size)
        commands := m.commands + 1
        pendingError := (faults m.commands).isSome })

def ataDeviceWritePio (size : ℕ) (buf : Memory) (sectorCount lba : BitVec 64) (m : Medium) : Bool × Medium :=
  ((faults m.commands).isNone,
    { m with
      disk := blit m.disk (lba.toNat * size) buf (transferred (faults m.commands) sectorCount.toNat * size)
      commands := m.commands + 1 })

/-- With the buffer, in which the sectors stand from `pos` on. -/
def ataDeviceReadDma (size pos : ℕ) (sectorCount lba : BitVec 64) (buf : Memory) (m : Medium) :
    Bool × Memory × Medium :=
  if m.pendingError then (false, buf, { m with pendingError := false })
  else if (faults m.commands).isSome then (false, buf, { m with commands := m.commands + 1 })
  else
    (true, blit buf pos (fun k => m.disk (lba.toNat * size + k)) (sectorCount.toNat * size),
      { m with commands := m.commands + 1 })

def ataDeviceReadPio (size : ℕ) (sectorCount lba : BitVec 64) (buf : Memory) (m : Medium) : Bool × Memory × Medium :=
  ((faults m.commands).isNone,
    blit buf 0 (fun k => m.disk (lba.toNat * size + k)) (transferred (faults m.commands) sectorCount.toNat * size),
    { m with commands := m.commands + 1 })

/-- The loop over full pages and the rest behind it. -/
def writePages (size : ℕ) (perPage leftover : BitVec 64) (buf : Memory) :
    ℕ → ℕ → BitVec 64 → Medium → Bool × Medium
  | 0, pos, lba, m =>
      if leftover ≠ 0 then ataDeviceWriteDma faults size (fun k => buf (pos + k)) leftover lba m else (true, m)
  | n + 1, pos, lba, m =>
      let r := ataDeviceWriteDma faults size (fun k => buf (pos + k)) perPage lba m
      if !r.1 then r else writePages size perPage leftover buf n (pos + pageSize.toNat) (lba + perPage) r.2

def readPages (size : ℕ) (perPage leftover : BitVec 64) :
    ℕ → ℕ → BitVec 64 → Memory → Medium → Bool × Memory × Medium
  | 0, pos, lba, buf, m =>
      if leftover ≠ 0 then ataDeviceReadDma faults size pos leftover lba buf m else (true, buf, m)
  | n + 1, pos, lba, buf, m =>
      let r := ataDeviceReadDma faults size pos perPage lba buf m
      if !r.1 then r else readPages size perPage leftover n (pos + pageSize.toNat) (lba + perPage) r.2.1 r.2.2

/-- `none` for a division by zero. -/
def ataWrite (d : AtaDevice) (buf : Memory) (offset count : BitVec 64) (m : Medium) : Option (ℤ × Medium) :=
  if count = 0 then some (0, m)
  else if d.type ≠ .pata ∧ d.type ≠ .sata then some (-eperm, m)
  else if d.sectorSize = 0 then none
  else
    let sectorCount := count / d.sectorSize
    let lba := offset / d.sectorSize
    if d.dmaSupported then
      let perPage := pageSize / d.sectorSize
      if perPage = 0 then none
      else
        let r := writePages faults d.sectorSize.toNat perPage (sectorCount % perPage) buf (sectorCount / perPage).toNat 0
          lba m
        some (if r.1 then count.toInt else -eio, r.2)
    else
      let r := ataDeviceWritePio faults d.sectorSize.toNat buf sectorCount lba m
      some (if r.1 then count.toInt else -eio, r.2)

def ataRead (d : AtaDevice) (buf : Memory) (offset count : BitVec 64) (m : Medium) : Option (ℤ × Memory × Medium) :=
  if count = 0 then some (0, buf, m)
  else if d.type ≠ .pata ∧ d.type ≠ .sata then some (-eperm, buf, m)
  else if d.sectorSize = 0 then none
  else
    let sectorCount := count / d.sectorSize
    let lba := offset / d.sectorSize
    if d.dmaSupported then
      let perPage := pageSize / d.sectorSize
      if perPage = 0 then none
      else
        let r := readPages faults d.sectorSize.toNat perPage (sectorCount % perPage) (sectorCount / perPage).toNat 0 lba
          buf m
        some (if r.1 then count.toInt else -eio, r.2)
    else
      let r := ataDeviceReadPio faults d.sectorSize.toNat sectorCount lba buf m
      some (if r.1 then count.toInt else -eio, r.2)

def partitionWrite (p : PartitionMetadata) (buf : Memory) (offset count : BitVec 64) (m : Medium) : Option (ℤ × Medium) :=
  if (p.sectorCount * p.device.sectorSize).toInt ≤ offset.toInt then some (0, m)
  else ataWrite faults p.device buf (offset + p.startLba * p.device.sectorSize) count m

/-- The result, the buffer and the device. -/
def partitionRead (p : PartitionMetadata) (buf : Memory) (offset count : BitVec 64) (m : Medium) :
    Option (ℤ × Memory × Medium) :=
  if (p.sectorCount * p.device.sectorSize).toInt ≤ offset.toInt then some (0, buf, m)
  else ataRead faults p.device buf (offset + p.startLba * p.device.sectorSize) count m

end Ata

/-- A partition that lies on its device; the scan has read from the device, and its sectors fit into a page. -/
structure OnDevice (p : PartitionMetadata) : Prop where
  type : p.device.type = .pata ∨ p.device.type = .sata
  size : 1 ≤ p.device.sectorSize.toNat ∧ p.device.sectorSize.toNat ≤ 4096
  fits : p.startLba.toNat + p.sectorCount.toNat ≤ p.device.sectorCount.toNat
  small : p.device.sectorCount.toNat * p.device.sectorSize.toNat < 2 ^ 63

def PartitionMetadata.first (p : PartitionMetadata) : ℕ := p.startLba.toNat * p.device.sectorSize.toNat

def PartitionMetadata.bytes (p : PartitionMetadata) : ℕ := p.sectorCount.toNat * p.device.sectorSize.toNat

/-- What a request may transfer. -/
def shortened (p : PartitionMetadata) (offset count : BitVec 64) : ℕ := min count.toNat (p.bytes - offset.toNat)

/-- No command fails. -/
def NoFaults (faults : Faults) (m : Medium) : Prop := (∀ i, faults i = none) ∧ m.pendingError = false

/-- Two contents of the device that are the same within the partition. -/
def SameWithin (p : PartitionMetadata) (disk disk' : Memory) : Prop :=
  ∀ a, p.first ≤ a → a < p.first + p.bytes → disk' a = disk a

/-- A write changes nothing outside the partition, a read depends on nothing outside it, and both return what they may
transfer unless a command fails. -/
structure Isolated (p : PartitionMetadata) (offset count : BitVec 64) : Prop where
  write : ∀ faults buf m, ∃ ret m', partitionWrite faults p buf offset count m = some (ret, m') ∧
    (∀ a, a < p.first ∨ p.first + p.bytes ≤ a → m'.disk a = m.disk a) ∧
    (NoFaults faults m → ret = shortened p offset count)
  read : ∀ faults buf m, ∃ ret buf' m', partitionRead faults p buf offset count m = some (ret, buf', m') ∧
    (∀ disk, SameWithin p m.disk disk →
      partitionRead faults p buf offset count { m with disk := disk } = some (ret, buf', { m' with disk := disk })) ∧
    (NoFaults faults m → ret = shortened p offset count)

section Pages
variable {faults : Faults} {size lo hi : ℕ} {perPage leftover lba n : BitVec 64} {buf : Memory} {m : Medium} {pos : ℕ}

lemma transferred_le (fault : Option ℕ) (n : ℕ) : transferred fault n ≤ n := by
  cases fault with
  | none => exact le_rfl
  | some k => exact Nat.min_le_right k n

/-- Sectors within a range of the device. -/
def Sectors (lo hi size : ℕ) (lba : ℕ) (n : ℕ) : Prop := lo ≤ lba * size ∧ (lba + n) * size ≤ hi

lemma blit_sectors (h : Sectors lo hi size lba.toNat n.toNat) (disk src : Memory) (fault : Option ℕ) {a : ℕ}
    (ha : a < lo ∨ hi ≤ a) : blit disk (lba.toNat * size) src (transferred fault n.toNat * size) a = disk a := by
  have hle := Nat.mul_le_mul_right size (transferred_le fault n.toNat)
  have hsum : (lba.toNat + n.toNat) * size = lba.toNat * size + n.toNat * size := Nat.add_mul _ _ _
  obtain ⟨hlo, hhi⟩ := h
  refine blit_outside disk src ?_
  omega

lemma writeDma_outside (h : Sectors lo hi size lba.toNat n.toNat) (src : Memory) (m : Medium) {a : ℕ}
    (ha : a < lo ∨ hi ≤ a) : (ataDeviceWriteDma faults size src n lba m).2.disk a = m.disk a := by
  rw [ataDeviceWriteDma]
  split_ifs
  · rfl
  · exact blit_sectors h m.disk src _ ha

lemma writePio_outside (h : Sectors lo hi size lba.toNat n.toNat) (src : Memory) (m : Medium) {a : ℕ}
    (ha : a < lo ∨ hi ≤ a) : (ataDeviceWritePio faults size src n lba m).2.disk a = m.disk a :=
  blit_sectors h m.disk src _ ha

lemma Sectors.mono {b c k l : ℕ} (h : Sectors lo hi size b k) (hb : b ≤ c) (hl : c + l ≤ b + k) : Sectors lo hi size c l :=
  ⟨h.1.trans (Nat.mul_le_mul_right _ hb), (Nat.mul_le_mul_right _ hl).trans h.2⟩

lemma writePages_outside {k : ℕ} (h : Sectors lo hi size lba.toNat (k * perPage.toNat + leftover.toNat))
    (hfit : lba.toNat + k * perPage.toNat < 2 ^ 64) {a : ℕ} (ha : a < lo ∨ hi ≤ a) :
    (writePages faults size perPage leftover buf k pos lba m).2.disk a = m.disk a := by
  induction k generalizing pos lba m with
  | zero =>
    rw [writePages]
    split_ifs
    · exact writeDma_outside (h.mono le_rfl (by omega)) _ m ha
    · rfl
  | succ k ih =>
    rw [Nat.succ_mul] at h hfit
    have hnext : (lba + perPage).toNat = lba.toNat + perPage.toNat := by
      rw [BitVec.toNat_add, Nat.mod_eq_of_lt (by omega)]
    have hfirst : (ataDeviceWriteDma faults size (fun k => buf (pos + k)) perPage lba m).2.disk a = m.disk a :=
      writeDma_outside (h.mono le_rfl (by omega)) _ m ha
    rw [writePages]
    split_ifs
    · exact hfirst
    · rw [ih (h.mono (by omega) (by omega)) (by omega)]
      exact hfirst

/-- Without a fault every command succeeds. -/
lemma writePages_ok (h : NoFaults faults m) (k : ℕ) :
    (writePages faults size perPage leftover buf k pos lba m).1 = true := by
  induction k generalizing pos lba m with
  | zero =>
    rw [writePages]
    split_ifs
    · rw [ataDeviceWriteDma, h.2, if_neg Bool.false_ne_true]
    · rfl
  | succ k ih =>
    rw [writePages, ataDeviceWriteDma, h.2, if_neg Bool.false_ne_true]
    exact ih ⟨h.1, by rw [h.1]; rfl⟩

/-- Sectors that are read are the same for both contents. -/
lemma blit_same (h : Sectors lo hi size lba.toNat n.toNat) {disk disk' : Memory}
    (hsame : ∀ a, lo ≤ a → a < hi → disk' a = disk a) (pos : ℕ) (fault : Option ℕ) :
    blit buf pos (fun k => disk' (lba.toNat * size + k)) (transferred fault n.toNat * size) =
      blit buf pos (fun k => disk (lba.toNat * size + k)) (transferred fault n.toNat * size) := by
  have hle := Nat.mul_le_mul_right size (transferred_le fault n.toNat)
  have hsum : (lba.toNat + n.toNat) * size = lba.toNat * size + n.toNat * size := Nat.add_mul _ _ _
  obtain ⟨hlo, hhi⟩ := h
  funext a
  rw [blit, blit]
  split_ifs with hin
  · exact hsame _ (by omega) (by omega)
  · rfl

lemma readDma_same (h : Sectors lo hi size lba.toNat n.toNat) {disk : Memory}
    (hsame : ∀ a, lo ≤ a → a < hi → disk a = m.disk a) (pos : ℕ) :
    ataDeviceReadDma faults size pos n lba buf { m with disk := disk } =
      ((ataDeviceReadDma faults size pos n lba buf m).1, (ataDeviceReadDma faults size pos n lba buf m).2.1,
        { (ataDeviceReadDma faults size pos n lba buf m).2.2 with disk := disk }) ∧
    (ataDeviceReadDma faults size pos n lba buf m).2.2.disk = m.disk := by
  have hblit : blit buf pos (fun k => disk (lba.toNat * size + k)) _ = _ := blit_same h hsame pos none
  rw [transferred] at hblit
  rw [ataDeviceReadDma, ataDeviceReadDma]
  dsimp only
  rw [hblit]
  split_ifs
  · exact ⟨rfl, rfl⟩
  · exact ⟨rfl, rfl⟩
  · exact ⟨rfl, rfl⟩

lemma readPages_same {k : ℕ} (h : Sectors lo hi size lba.toNat (k * perPage.toNat + leftover.toNat))
    (hfit : lba.toNat + k * perPage.toNat < 2 ^ 64) {disk : Memory}
    (hsame : ∀ a, lo ≤ a → a < hi → disk a = m.disk a) :
    readPages faults size perPage leftover k pos lba buf { m with disk := disk } =
      ((readPages faults size perPage leftover k pos lba buf m).1,
        (readPages faults size perPage leftover k pos lba buf m).2.1,
        { (readPages faults size perPage leftover k pos lba buf m).2.2 with disk := disk }) := by
  induction k generalizing pos lba buf m with
  | zero =>
    rw [readPages, readPages]
    split_ifs
    · exact (readDma_same (h.mono le_rfl (by omega)) hsame pos).1
    · rfl
  | succ k ih =>
    rw [Nat.succ_mul] at h hfit
    have hnext : (lba + perPage).toNat = lba.toNat + perPage.toNat := by
      rw [BitVec.toNat_add, Nat.mod_eq_of_lt (by omega)]
    obtain ⟨hfirst, hdisk⟩ : ataDeviceReadDma faults size pos perPage lba buf { m with disk := disk } = _ ∧ _ :=
      readDma_same (h.mono le_rfl (by omega)) hsame pos
    rw [readPages, readPages, hfirst]
    dsimp only
    split_ifs
    · rfl
    · refine ih (h.mono (by omega) (by omega)) (by omega) fun a hlo hhi => ?_
      rw [hdisk]
      exact hsame a hlo hhi

lemma readPages_ok (h : NoFaults faults m) (k : ℕ) :
    (readPages faults size perPage leftover k pos lba buf m).1 = true := by
  have hnone : ∀ i, (faults i).isSome = false := fun i => by rw [h.1]; rfl
  induction k generalizing pos lba buf m with
  | zero =>
    rw [readPages]
    split_ifs
    · rw [ataDeviceReadDma, h.2, if_neg Bool.false_ne_true, hnone, if_neg Bool.false_ne_true]
    · rfl
  | succ k ih =>
    rw [readPages, ataDeviceReadDma, h.2, if_neg Bool.false_ne_true, hnone, if_neg Bool.false_ne_true]
    exact ih ⟨h.1, rfl⟩

end Pages

section Requests
variable {p : PartitionMetadata} {offset count : BitVec 64}

/-- The bytes of the partition as the code computes them. -/
lemma OnDevice.bytes_lt (hp : OnDevice p) : p.first + p.bytes < 2 ^ 63 := by
  have hle := Nat.mul_le_mul_right p.device.sectorSize.toNat hp.fits
  rw [Nat.add_mul] at hle
  exact hle.trans_lt hp.small

lemma OnDevice.toInt_bytes (hp : OnDevice p) : (p.sectorCount * p.device.sectorSize).toInt = p.bytes := by
  have hlt := hp.bytes_lt
  have hnat : (p.sectorCount * p.device.sectorSize).toNat = p.bytes := by
    rw [BitVec.toNat_mul]
    exact Nat.mod_eq_of_lt (by rw [PartitionMetadata.bytes] at hlt; omega)
  rw [BitVec.toInt_eq_toNat_cond, hnat, if_pos (by omega)]

lemma toInt_of_nonneg (h : 0 ≤ offset.toInt) : offset.toInt = offset.toNat := by
  rw [BitVec.toInt_eq_toNat_cond] at h ⊢
  split_ifs at h ⊢
  · rfl
  · have := offset.isLt
    omega

/-- The first sector of a request is the partition's first one and those before the offset. -/
lemma OnDevice.lba (hp : OnDevice p) (h : offset.toNat < p.bytes) :
    ((offset + p.startLba * p.device.sectorSize) / p.device.sectorSize).toNat =
      p.startLba.toNat + offset.toNat / p.device.sectorSize.toNat := by
  have hlt := hp.bytes_lt
  have hmul : (p.startLba * p.device.sectorSize).toNat = p.first := by
    rw [BitVec.toNat_mul]
    exact Nat.mod_eq_of_lt (by rw [PartitionMetadata.first] at hlt; omega)
  rw [BitVec.toNat_udiv, BitVec.toNat_add, hmul, Nat.mod_eq_of_lt (by omega), PartitionMetadata.first,
    Nat.add_mul_div_right _ _ (show 0 < p.device.sectorSize.toNat from hp.size.1), Nat.add_comm]

/-- The sectors of a request that ends within the partition. -/
lemma OnDevice.sectors (hp : OnDevice p) (h : offset.toNat < p.bytes) (hend : offset.toNat + count.toNat ≤ p.bytes) :
    Sectors p.first (p.first + p.bytes) p.device.sectorSize.toNat
      ((offset + p.startLba * p.device.sectorSize) / p.device.sectorSize).toNat (count / p.device.sectorSize).toNat := by
  rw [hp.lba h, BitVec.toNat_udiv]
  obtain ⟨size, hsize⟩ : ∃ size, p.device.sectorSize.toNat = size := ⟨_, rfl⟩
  have hoffset := Nat.div_mul_le_self offset.toNat size
  have hcount := Nat.div_mul_le_self count.toNat size
  rw [Sectors, PartitionMetadata.first, hsize, Nat.add_mul, Nat.add_mul, Nat.add_mul]
  omega

variable {faults : Faults} {d : AtaDevice} {lo hi : ℕ} {m : Medium} {buf : Memory}

/-- The full pages and the rest are all sectors of the request. -/
lemma pages_add_leftover (sectorCount perPage : BitVec 64) :
    (sectorCount / perPage).toNat * perPage.toNat + (sectorCount % perPage).toNat = sectorCount.toNat := by
  rw [BitVec.toNat_udiv, BitVec.toNat_umod]
  exact Nat.div_add_mod' _ _

lemma perPage_ne_zero (hsize : 1 ≤ d.sectorSize.toNat ∧ d.sectorSize.toNat ≤ 4096) : pageSize / d.sectorSize ≠ 0 := by
  intro h
  have hnat := congrArg BitVec.toNat h
  rw [BitVec.toNat_udiv] at hnat
  exact absurd hnat (Nat.div_pos hsize.2 hsize.1).ne'

lemma sectorSize_ne_zero (hsize : 1 ≤ d.sectorSize.toNat) : d.sectorSize ≠ 0 := by
  intro h
  rw [h] at hsize
  exact absurd hsize (by decide)

/-- What a write of the device does. -/
lemma ataWrite_spec (faults : Faults) (lo hi : ℕ) (offset : BitVec 64) (htype : d.type = .pata ∨ d.type = .sata)
    (hsize : 1 ≤ d.sectorSize.toNat ∧ d.sectorSize.toNat ≤ 4096) (hcount : count ≠ 0) (buf : Memory) (m : Medium) :
    ∃ ok m', ataWrite faults d buf offset count m = some (if ok then count.toInt else -eio, m') ∧
      (NoFaults faults m → ok = true) ∧
      (Sectors lo hi d.sectorSize.toNat (offset / d.sectorSize).toNat (count / d.sectorSize).toNat →
        (offset / d.sectorSize).toNat + (count / d.sectorSize).toNat < 2 ^ 64 →
        ∀ a, a < lo ∨ hi ≤ a → m'.disk a = m.disk a) := by
  have hsupported : ¬ (d.type ≠ .pata ∧ d.type ≠ .sata) := fun h => htype.elim h.1 h.2
  rw [ataWrite, if_neg hcount, if_neg hsupported, if_neg (sectorSize_ne_zero hsize.1)]
  dsimp only
  by_cases hdma : d.dmaSupported = true
  · have hpages := pages_add_leftover (count / d.sectorSize) (pageSize / d.sectorSize)
    rw [if_pos hdma, if_neg (perPage_ne_zero hsize)]
    refine ⟨_, _, rfl, fun h => writePages_ok h _, fun hsectors hfit a ha => ?_⟩
    exact writePages_outside (by rwa [hpages]) (by omega) ha
  · rw [if_neg hdma]
    refine ⟨_, _, rfl, fun h => ?_, fun hsectors _ a ha => writePio_outside hsectors buf m ha⟩
    rw [ataDeviceWritePio, h.1]
    rfl

lemma ataRead_spec (faults : Faults) (lo hi : ℕ) (offset : BitVec 64) (htype : d.type = .pata ∨ d.type = .sata)
    (hsize : 1 ≤ d.sectorSize.toNat ∧ d.sectorSize.toNat ≤ 4096) (hcount : count ≠ 0) (buf : Memory) (m : Medium) :
    ∃ ok buf' m', ataRead faults d buf offset count m = some (if ok then count.toInt else -eio, buf', m') ∧
      (NoFaults faults m → ok = true) ∧
      (Sectors lo hi d.sectorSize.toNat (offset / d.sectorSize).toNat (count / d.sectorSize).toNat →
        (offset / d.sectorSize).toNat + (count / d.sectorSize).toNat < 2 ^ 64 →
        ∀ disk, (∀ a, lo ≤ a → a < hi → disk a = m.disk a) → ataRead faults d buf offset count { m with disk := disk } =
          some (if ok then count.toInt else -eio, buf', { m' with disk := disk })) := by
  have hsupported : ¬ (d.type ≠ .pata ∧ d.type ≠ .sata) := fun h => htype.elim h.1 h.2
  simp only [ataRead, if_neg hcount, if_neg hsupported, if_neg (sectorSize_ne_zero hsize.1)]
  by_cases hdma : d.dmaSupported = true
  · have hpages := pages_add_leftover (count / d.sectorSize) (pageSize / d.sectorSize)
    simp only [if_pos hdma, if_neg (perPage_ne_zero hsize)]
    refine ⟨_, _, _, rfl, fun h => readPages_ok h _, fun hsectors hfit disk hsame => ?_⟩
    rw [readPages_same (by rwa [hpages]) (by omega) hsame]
  · simp only [if_neg hdma]
    refine ⟨_, _, _, rfl, fun h => ?_, fun hsectors _ disk hsame => ?_⟩
    · rw [ataDeviceReadPio, h.1]
      rfl
    · rw [ataDeviceReadPio, ataDeviceReadPio]
      dsimp only
      rw [blit_same hsectors hsame]

/-- Nothing happens behind the partition, or without bytes. -/
lemma isolated_none {p : PartitionMetadata}
    (h : (p.sectorCount * p.device.sectorSize).toInt ≤ offset.toInt ∨ count = 0)
    (hshort : shortened p offset count = 0) : Isolated p offset count := by
  have hwrite : ∀ faults buf m, partitionWrite faults p buf offset count m = some (0, m) := by
    intro faults buf m
    rw [partitionWrite]
    split_ifs with hbehind
    · rfl
    · exact if_pos (h.resolve_left hbehind)
  have hread : ∀ faults buf m, partitionRead faults p buf offset count m = some (0, buf, m) := by
    intro faults buf m
    rw [partitionRead]
    split_ifs with hbehind
    · rfl
    · exact if_pos (h.resolve_left hbehind)
  constructor
  · exact fun faults buf m => ⟨0, m, hwrite faults buf m, fun _ _ => rfl, fun _ => by rw [hshort]; rfl⟩
  · exact fun faults buf m =>
      ⟨0, buf, m, hread faults buf m, fun disk _ => hread faults buf _, fun _ => by rw [hshort]; rfl⟩

/-- A request of a partition is isolated exactly if it ends within the partition or starts behind it. -/
theorem isolated_iff {p : PartitionMetadata} (hp : OnDevice p) {offset count : BitVec 64} (h0 : 0 ≤ offset.toInt) :
    Isolated p offset count ↔ p.bytes ≤ offset.toNat ∨ offset.toNat + count.toNat ≤ p.bytes := by
  have hguard : (p.sectorCount * p.device.sectorSize).toInt ≤ offset.toInt ↔ p.bytes ≤ offset.toNat := by
    rw [hp.toInt_bytes, toInt_of_nonneg h0, Nat.cast_le]
  have hbytes := hp.bytes_lt
  by_cases hbehind : p.bytes ≤ offset.toNat
  · refine iff_of_true (isolated_none (Or.inl (hguard.mpr hbehind)) ?_) (Or.inl hbehind)
    rw [shortened, Nat.sub_eq_zero_of_le hbehind, Nat.min_zero]
  by_cases hcount : count = 0
  · refine iff_of_true (isolated_none (Or.inr hcount) ?_) (Or.inr ?_)
    · rw [shortened, hcount]
      exact Nat.zero_min _
    · rw [hcount]
      exact (not_le.mp hbehind).le
  rw [or_iff_right hbehind]
  constructor
  · intro h
    by_contra hbeyond
    obtain ⟨ret, m', hrun, -, hret⟩ := h.write (fun _ => none) (fun _ => 0) ⟨fun _ => 0, 0, false⟩
    obtain ⟨ok, m'', hata, hok, -⟩ := ataWrite_spec (fun _ => none) 0 0
      (offset + p.startLba * p.device.sectorSize) hp.type hp.size hcount (fun _ => 0) ⟨fun _ => 0, 0, false⟩
    rw [partitionWrite, if_neg (mt hguard.mp hbehind), hata, hok ⟨fun _ => rfl, rfl⟩, if_pos rfl] at hrun
    have hsame : count.toInt = ret := congrArg Prod.fst (Option.some.inj hrun)
    rw [hret ⟨fun _ => rfl, rfl⟩, shortened, BitVec.toInt_eq_toNat_cond] at hsame
    have := count.isLt
    split_ifs at hsame <;> omega
  · intro hend
    have hoffset : offset.toNat < p.bytes := not_le.mp hbehind
    have hsectors := hp.sectors hoffset hend
    have hret : count.toInt = shortened p offset count := by
      rw [shortened, BitVec.toInt_eq_toNat_cond, if_pos (by omega), Nat.min_eq_left (by omega)]
    have hfit : ((offset + p.startLba * p.device.sectorSize) / p.device.sectorSize).toNat +
        (count / p.device.sectorSize).toNat < 2 ^ 64 := by
      have hone := Nat.le_mul_of_pos_right (((offset + p.startLba * p.device.sectorSize) / p.device.sectorSize).toNat +
        (count / p.device.sectorSize).toNat) hp.size.1
      exact (hone.trans hsectors.2).trans_lt (by omega)
    constructor
    · intro faults buf m
      obtain ⟨ok, m', hata, hok, houtside⟩ := ataWrite_spec faults _ _
        (offset + p.startLba * p.device.sectorSize) hp.type hp.size hcount buf m
      refine ⟨_, m', (if_neg (mt hguard.mp hbehind)).trans hata, houtside hsectors hfit, fun hno => ?_⟩
      rw [hok hno, if_pos rfl, hret]
    · intro faults buf m
      obtain ⟨ok, buf', m', hata, hok, hsame⟩ := ataRead_spec faults _ _
        (offset + p.startLba * p.device.sectorSize) hp.type hp.size hcount buf m
      refine ⟨_, buf', m', (if_neg (mt hguard.mp hbehind)).trans hata, fun disk hdisk => ?_, fun hno => ?_⟩
      · exact (if_neg (mt hguard.mp hbehind)).trans (hsame hsectors hfit disk hdisk)
      · rw [hok hno, if_pos rfl, hret]

end Requests

/-- The second sector of a device with four sectors. -/
def second : PartitionMetadata := ⟨⟨.pata, false, 4, 512⟩, 1, 1⟩

lemma second_onDevice : OnDevice second := ⟨Or.inl rfl, by decide, by decide, by decide⟩

theorem isolated_iff_second : Isolated second 0 512 :=
  (isolated_iff second_onDevice (show 0 ≤ (0 : BitVec 64).toInt by decide)).mpr (Or.inr (by decide))

/-- A write of two sectors to a partition of one sector reaches the sector behind it. -/
theorem write_reaches_neighbour : OnDevice second ∧ ¬ Isolated second 0 1024 ∧
    ∃ m, partitionWrite (fun _ => none) second (fun _ => 120) 0 1024 ⟨fun _ => 0, 0, false⟩ = some (1024, m) ∧
      m.disk (second.first + second.bytes) = 120 := by
  have hrun : partitionWrite (fun _ => none) second (fun _ => 120) 0 1024 ⟨fun _ => 0, 0, false⟩ =
      some (1024, ⟨blit (fun _ => 0) 512 (fun _ => 120) 1024, 1, false⟩) := rfl
  have hreach : blit (fun _ => 0) 512 (fun _ => 120) 1024 (second.first + second.bytes) = 120 := by decide
  refine ⟨second_onDevice, fun h => ?_, _, hrun, hreach⟩
  obtain ⟨ret, m', hrun', houtside, -⟩ := h.write (fun _ => none) (fun _ => 120) ⟨fun _ => 0, 0, false⟩
  obtain ⟨-, rfl⟩ := Prod.mk.inj (Option.some.inj (hrun.symm.trans hrun'))
  have hzero := houtside (second.first + second.bytes) (Or.inr le_rfl)
  exact absurd (hreach.symm.trans hzero) (by decide)

end PiggyOs.Partition
