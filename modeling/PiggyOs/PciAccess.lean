import PiggyOs.ByteMemory

/-! The two ways to the configuration space of PCI devices: the ports, and the memory that the MCFG table tells of. -/
namespace PiggyOs.PciAccess
open ByteMemory

def highVma : BitVec 64 := 0xffff800000000000

def pciConfigDataPort : BitVec 16 := 0xcfc

structure McfgEntry where
  ecmBaseAddr : BitVec 64
  segment : BitVec 16
  busStart : BitVec 8
  busEnd : BitVec 8
  deriving DecidableEq, Repr

/-- A register of a function, for accesses of 1, 2 or 4 bytes. -/
structure Register where
  bus : BitVec 8
  slot : BitVec 8
  function : BitVec 8
  offset : BitVec 16
  accessSize : BitVec 8
  deriving DecidableEq, Repr

/-- What an access of this size can hold. -/
def truncated (value : BitVec 32) (accessSize : BitVec 8) : BitVec 32 :=
  BitVec.ofNat 32 (value.toNat % 256 ^ accessSize.toNat)

/-- `n` bytes, the lowest one first. -/
def load (m : Memory) (a n : ℕ) : BitVec 32 := BitVec.ofNat 32 (readNat m a n)

def store (m : Memory) (a n : ℕ) (value : BitVec 32) : Memory := fun b =>
  if a ≤ b ∧ b < a + n then BitVec.ofNat 8 (value.toNat / 256 ^ (b - a)) else m b

/-- The address port, and the configuration space behind the data ports. -/
structure Ports where
  address : BitVec 32
  config : Memory

/-- The byte that a data port stands for: the address has the number of a register of 32 bits. -/
def Ports.index (p : Ports) (port : BitVec 16) : ℕ :=
  (p.address.toNat / 4 % 2 ^ 22) * 4 + (port - pciConfigDataPort).toNat

def Ports.enabled (p : Ports) : Bool := p.address.getLsbD 31

def Ports.input (p : Ports) (port : BitVec 16) (n : ℕ) : BitVec 32 :=
  if p.enabled then load p.config (p.index port) n else -1

def Ports.output (p : Ports) (port : BitVec 16) (n : ℕ) (value : BitVec 32) : Ports :=
  if p.enabled then { p with config := store p.config (p.index port) n value } else p

def legacyAddress (r : Register) : BitVec 32 :=
  r.bus.setWidth 32 <<< 16 ||| r.slot.setWidth 32 <<< 11 ||| r.function.setWidth 32 <<< 8 |||
    (r.offset &&& 0xfffc).setWidth 32 ||| 1 <<< 31

def legacyIoRead (p : Ports) (r : Register) : BitVec 32 × Ports :=
  let p := { p with address := legacyAddress r }
  (if r.accessSize = 1 then p.input (pciConfigDataPort + (r.offset &&& 3)) 1
  else if r.accessSize = 2 then p.input (pciConfigDataPort + (r.offset &&& 2)) 2
  else if r.accessSize = 4 then p.input pciConfigDataPort 4
  else -1, p)

def legacyIoWrite (p : Ports) (r : Register) (value : BitVec 32) : Ports :=
  let p := { p with address := legacyAddress r }
  if r.accessSize = 1 then p.output (pciConfigDataPort + (r.offset &&& 3)) 1 value
  else if r.accessSize = 2 then p.output (pciConfigDataPort + (r.offset &&& 2)) 2 value
  else if r.accessSize = 4 then p.output pciConfigDataPort 4 value
  else p

def McfgEntry.Covers (e : McfgEntry) (bus : BitVec 8) : Prop := e.segment = 0 ∧ e.busStart ≤ bus ∧ bus ≤ e.busEnd

instance (e : McfgEntry) (bus : BitVec 8) : Decidable (e.Covers bus) := inferInstanceAs (Decidable (_ ∧ _))

/-- The loop of `ecm_read`. -/
def ecmReadEntry (bus : BitVec 8) : Option McfgEntry → List McfgEntry → Option McfgEntry
  | entry, [] => entry
  | entry, iter :: rest => if iter.Covers bus then some iter else ecmReadEntry bus entry rest

/-- The loop of `ecm_write`, which ends at the entry but does not keep it. -/
def ecmWriteEntry (bus : BitVec 8) : Option McfgEntry → List McfgEntry → Option McfgEntry
  | entry, [] => entry
  | entry, iter :: rest => if iter.Covers bus then entry else ecmWriteEntry bus entry rest

def ecmAddr (e : McfgEntry) (r : Register) : BitVec 64 :=
  ((e.ecmBaseAddr + ((r.bus.setWidth 64 - e.busStart.setWidth 64) <<< 20 ||| r.slot.setWidth 64 <<< 15 |||
    r.function.setWidth 64 <<< 12)) ||| r.offset.setWidth 64) + highVma

def ecmRead (entries : List McfgEntry) (m : Memory) (r : Register) : BitVec 32 :=
  match ecmReadEntry r.bus none entries with
  | none => -1
  | some entry =>
      let addr := (ecmAddr entry r).toNat
      if r.accessSize = 1 then load m addr 1
      else if r.accessSize = 2 then load m addr 2
      else if r.accessSize = 4 then load m addr 4
      else -1

def ecmWrite (entries : List McfgEntry) (m : Memory) (r : Register) (value : BitVec 32) : Memory :=
  match ecmWriteEntry r.bus none entries with
  | none => m
  | some entry =>
      let addr := (ecmAddr entry r).toNat
      if r.accessSize = 1 then store m addr 1 value
      else if r.accessSize = 2 then store m addr 2 value
      else if r.accessSize = 4 then store m addr 4 value
      else m

/-- The place of the register in the configuration space. -/
def Register.index (r : Register) : ℕ :=
  r.bus.toNat * 2 ^ 16 + r.slot.toNat * 2 ^ 11 + r.function.toNat * 2 ^ 8 + r.offset.toNat

/-- The place of the register in the memory of an entry: 2^20 bytes for a bus, from its first bus on. -/
def Register.place (r : Register) (e : McfgEntry) : BitVec 64 :=
  highVma + e.ecmBaseAddr + BitVec.ofNat 64 ((r.bus.toNat - e.busStart.toNat) * 2 ^ 20 + r.slot.toNat * 2 ^ 15 +
    r.function.toNat * 2 ^ 12 + r.offset.toNat)

/-- A register of a device, aligned to the size of the access. -/
structure Register.Valid (r : Register) : Prop where
  slot : r.slot.toNat < 32
  function : r.function.toNat < 8
  offset : r.offset.toNat < 256
  size : r.accessSize = 1 ∨ r.accessSize = 2 ∨ r.accessSize = 4
  aligned : r.accessSize.toNat ∣ r.offset.toNat

/-- Both ways access the register, give back what has been written, and leave all other bytes. -/
structure SameFile (entries : List McfgEntry) (p : Ports) (m : Memory) (r : Register) (value : BitVec 32) : Prop where
  legacyBack : (legacyIoRead (legacyIoWrite p r value) r).1 = truncated value r.accessSize
  legacyOthers : ∀ b, b < r.index ∨ r.index + r.accessSize.toNat ≤ b →
    (legacyIoWrite p r value).config b = p.config b
  legacyPlace : (legacyIoRead p r).1 = load p.config r.index r.accessSize.toNat
  ecmBack : ecmRead entries (ecmWrite entries m r value) r = truncated value r.accessSize
  ecmOthers : ∀ e, ecmReadEntry r.bus none entries = some e →
    ∀ b, b < (r.place e).toNat ∨ (r.place e).toNat + r.accessSize.toNat ≤ b → ecmWrite entries m r value b = m b
  ecmPlace : ∀ e, ecmReadEntry r.bus none entries = some e → ecmAddr e r = r.place e

section Bits
variable {r : Register} {a b i : ℕ}

lemma or_add_and (a b : ℕ) : (a ||| b) + (a &&& b) = a + b := by
  induction a using Nat.strong_induction_on generalizing b with
  | _ a ih =>
    rcases Nat.eq_zero_or_pos a with rfl | hpos
    · simp
    · have hhalf := ih (a / 2) (by omega) (b / 2)
      rw [← Nat.or_div_two, ← Nat.and_div_two] at hhalf
      have hor := Nat.or_mod_two_eq_one (a := a) (b := b)
      have hand := Nat.and_mod_two_eq_one (a := a) (b := b)
      omega

lemma or_eq_add (h : b < 2 ^ i) (hdvd : 2 ^ i ∣ a) : a ||| b = a + b := by
  obtain ⟨k, rfl⟩ := hdvd
  exact (Nat.two_pow_add_eq_or_of_lt h k).symm

lemma or_eq_add_iff (y o : BitVec 64) : y ||| o = y + o ↔ y &&& o = 0 := by
  constructor
  · intro h
    have hnat := congrArg BitVec.toNat h
    have hsum := or_add_and y.toNat o.toNat
    have hlt := (y ||| o).isLt
    rw [BitVec.toNat_add] at hnat
    rw [← BitVec.toNat_or, ← BitVec.toNat_and] at hsum
    have hand := (y &&& o).isLt
    apply BitVec.eq_of_toNat_eq
    have hzero : (0 : BitVec 64).toNat = 0 := rfl
    omega
  · intro h
    exact (BitVec.add_eq_or_of_and_eq_zero y o h).symm

lemma offset_dword (h : r.Valid) : (r.offset &&& 0xfffc).toNat = r.offset.toNat / 4 * 4 := by
  have hall : ∀ o < 256, o &&& 0xfffc = o / 4 * 4 := by decide +kernel
  rw [BitVec.toNat_and]
  exact hall _ h.offset

lemma toNat_field {w v : ℕ} (x : BitVec w) (k : ℕ) (h : x.toNat * 2 ^ k < 2 ^ v) :
    (x.setWidth v <<< k).toNat = x.toNat * 2 ^ k := by
  have hx : x.toNat < 2 ^ v := (Nat.le_mul_of_pos_right _ (Nat.two_pow_pos k)).trans_lt h
  rw [BitVec.toNat_shiftLeft, BitVec.toNat_setWidth, Nat.mod_eq_of_lt hx, Nat.shiftLeft_eq, Nat.mod_eq_of_lt h]

lemma legacyAddress_toNat (h : r.Valid) : (legacyAddress r).toNat =
    r.bus.toNat * 2 ^ 16 + r.slot.toNat * 2 ^ 11 + r.function.toNat * 2 ^ 8 + r.offset.toNat / 4 * 4 + 2 ^ 31 := by
  have hdword := offset_dword h
  have hbus := r.bus.isLt
  have hslot := h.slot
  have hfunction := h.function
  have hoffset := h.offset
  have hlow : ((r.offset &&& 0xfffc).setWidth 32).toNat = r.offset.toNat / 4 * 4 := by
    rw [BitVec.toNat_setWidth, hdword]
    omega
  have hhigh : (1 <<< 31 : BitVec 32).toNat = 2 ^ 31 := by decide
  have h1 : r.bus.toNat * 2 ^ 16 ||| r.slot.toNat * 2 ^ 11 = r.bus.toNat * 2 ^ 16 + r.slot.toNat * 2 ^ 11 :=
    or_eq_add (i := 16) (by omega) (by omega)
  have h2 : r.bus.toNat * 2 ^ 16 + r.slot.toNat * 2 ^ 11 ||| r.function.toNat * 2 ^ 8 =
      r.bus.toNat * 2 ^ 16 + r.slot.toNat * 2 ^ 11 + r.function.toNat * 2 ^ 8 :=
    or_eq_add (i := 11) (by omega) (by omega)
  have h3 : r.bus.toNat * 2 ^ 16 + r.slot.toNat * 2 ^ 11 + r.function.toNat * 2 ^ 8 ||| r.offset.toNat / 4 * 4 =
      r.bus.toNat * 2 ^ 16 + r.slot.toNat * 2 ^ 11 + r.function.toNat * 2 ^ 8 + r.offset.toNat / 4 * 4 :=
    or_eq_add (i := 8) (by omega) (by omega)
  rw [legacyAddress, BitVec.toNat_or, BitVec.toNat_or, BitVec.toNat_or, BitVec.toNat_or, hlow, hhigh,
    toNat_field _ _ (by omega), toNat_field _ _ (by omega), toNat_field _ _ (by omega), h1, h2, h3,
    Nat.or_two_pow_eq_add_of_lt (by omega)]

lemma legacy_enabled (r : Register) (config : Memory) : Ports.enabled ⟨legacyAddress r, config⟩ = true := by
  have hbit : (1 <<< 31 : BitVec 32).getLsbD 31 = true := by decide
  rw [Ports.enabled, legacyAddress, BitVec.getLsbD_or, hbit, Bool.or_true]

/-- The data port is at the byte that the register begins with. -/
lemma legacy_index (h : r.Valid) (config : Memory) (port : BitVec 16)
    (hport : (port - pciConfigDataPort).toNat = r.offset.toNat % 4) :
    Ports.index ⟨legacyAddress r, config⟩ port = r.index := by
  have hbus := r.bus.isLt
  have hslot := h.slot
  have hfunction := h.function
  have hoffset := h.offset
  rw [Ports.index, legacyAddress_toNat h, hport, Register.index]
  omega

/-- The three data ports. -/
lemma legacy_ports (h : r.Valid) :
    (r.accessSize = 1 → (pciConfigDataPort + (r.offset &&& 3) - pciConfigDataPort).toNat = r.offset.toNat % 4) ∧
    (r.accessSize = 2 → (pciConfigDataPort + (r.offset &&& 2) - pciConfigDataPort).toNat = r.offset.toNat % 4) ∧
    (r.accessSize = 4 → (pciConfigDataPort - pciConfigDataPort).toNat = r.offset.toNat % 4) := by
  have hthree : ∀ o < 256, o &&& 3 = o % 4 := by decide +kernel
  have htwo : ∀ o < 256, 2 ∣ o → o &&& 2 = o % 4 := by decide +kernel
  have haligned := h.aligned
  refine ⟨fun _ => ?_, fun hsize => ?_, fun hsize => ?_⟩
  · rw [BitVec.add_comm, BitVec.add_sub_cancel, BitVec.toNat_and]
    exact hthree _ h.offset
  · rw [hsize] at haligned
    rw [BitVec.add_comm, BitVec.add_sub_cancel, BitVec.toNat_and]
    exact htwo _ h.offset haligned
  · rw [hsize] at haligned
    have hzero : r.offset.toNat % 4 = 0 := Nat.mod_eq_zero_of_dvd haligned
    rw [BitVec.sub_self, hzero]
    rfl

end Bits

section Accesses
variable {r : Register} {p : Ports} {m : Memory} {value : BitVec 32} {entries : List McfgEntry} {e : McfgEntry}

lemma store_outside (m : Memory) {a n b : ℕ} (value : BitVec 32) (h : b < a ∨ a + n ≤ b) : store m a n value b = m b :=
  if_neg (by omega)

lemma load_store (m : Memory) (a n : ℕ) (value : BitVec 32) :
    load (store m a n value) a n = BitVec.ofNat 32 (value.toNat % 256 ^ n) := by
  rw [load]
  congr 1
  apply readNat_bytes
  intro k hk
  rw [store, if_pos (by omega), Nat.add_sub_cancel_left]

lemma legacyIoRead_eq (h : r.Valid) : (legacyIoRead p r).1 = load p.config r.index r.accessSize.toNat := by
  obtain ⟨hone, htwo, hfour⟩ := legacy_ports h
  have hindex := legacy_index h p.config
  have henabled := legacy_enabled r p.config
  unfold legacyIoRead Ports.input
  dsimp only
  rw [henabled]
  obtain hsize | hsize | hsize := h.size
  · rw [if_pos hsize, if_pos rfl, hindex _ (hone hsize), hsize]
    rfl
  · rw [if_neg (by rw [hsize]; decide), if_pos hsize, if_pos rfl, hindex _ (htwo hsize), hsize]
    rfl
  · rw [if_neg (by rw [hsize]; decide), if_neg (by rw [hsize]; decide), if_pos hsize, if_pos rfl,
      hindex _ (hfour hsize), hsize]
    rfl

lemma legacyIoWrite_config (h : r.Valid) :
    (legacyIoWrite p r value).config = store p.config r.index r.accessSize.toNat value := by
  obtain ⟨hone, htwo, hfour⟩ := legacy_ports h
  have hindex := legacy_index h p.config
  have henabled := legacy_enabled r p.config
  unfold legacyIoWrite Ports.output
  dsimp only
  rw [henabled]
  obtain hsize | hsize | hsize := h.size
  · rw [if_pos hsize, if_pos rfl, hindex _ (hone hsize), hsize]
    rfl
  · rw [if_neg (by rw [hsize]; decide), if_pos hsize, if_pos rfl, hindex _ (htwo hsize), hsize]
    rfl
  · rw [if_neg (by rw [hsize]; decide), if_neg (by rw [hsize]; decide), if_pos hsize, if_pos rfl,
      hindex _ (hfour hsize), hsize]
    rfl

lemma ecmWriteEntry_eq (bus : BitVec 8) (entry : Option McfgEntry) (entries : List McfgEntry) :
    ecmWriteEntry bus entry entries = entry := by
  induction entries with
  | nil => rfl
  | cons iter rest ih => simp [ecmWriteEntry, ih]

/-- Nothing is ever written through the memory. -/
lemma ecmWrite_eq (entries : List McfgEntry) (m : Memory) (r : Register) (value : BitVec 32) :
    ecmWrite entries m r value = m := by
  rw [ecmWrite, ecmWriteEntry_eq]

lemma ecmReadEntry_covers {bus : BitVec 8} (h : ecmReadEntry bus none entries = some e) : e.Covers bus := by
  induction entries with
  | nil => cases h
  | cons iter rest ih =>
    rw [ecmReadEntry] at h
    split_ifs at h with hcovers
    · cases h
      exact hcovers
    · exact ih h

lemma exists_ecmReadEntry {bus : BitVec 8} (h : ∃ e ∈ entries, e.Covers bus) :
    ∃ e, ecmReadEntry bus none entries = some e := by
  induction entries with
  | nil => simp at h
  | cons iter rest ih =>
    rw [ecmReadEntry]
    split_ifs with hcovers
    · exact ⟨iter, rfl⟩
    · obtain ⟨e, he, hcov⟩ := h
      obtain rfl | he := List.mem_cons.mp he
      · exact absurd hcov hcovers
      · exact ih ⟨e, he, hcov⟩

lemma ecmRead_eq (h : r.Valid) (he : ecmReadEntry r.bus none entries = some e) :
    ecmRead entries m r = load m (ecmAddr e r).toNat r.accessSize.toNat := by
  unfold ecmRead
  rw [he]
  dsimp only
  obtain hsize | hsize | hsize := h.size
  · rw [if_pos hsize, hsize]
    rfl
  · rw [if_neg (by rw [hsize]; decide), if_pos hsize, hsize]
    rfl
  · rw [if_neg (by rw [hsize]; decide), if_neg (by rw [hsize]; decide), if_pos hsize, hsize]
    rfl

lemma and_congr_low {y z o : BitVec 64} (ho : o.toNat < 2 ^ 8) (h : y.setWidth 8 = z.setWidth 8) :
    y &&& o = z &&& o := by
  apply BitVec.eq_of_getLsbD_eq
  intro i hi
  rw [BitVec.getLsbD_and, BitVec.getLsbD_and]
  by_cases hlow : i < 8
  · have hbit := congrArg (BitVec.getLsbD · i) h
    simp only [BitVec.getLsbD_setWidth, hlow, decide_true, Bool.true_and] at hbit
    rw [hbit]
  · have hzero : o.getLsbD i = false :=
      Nat.testBit_lt_two_pow (ho.trans_le (Nat.pow_le_pow_right (by decide) (by omega)))
    rw [hzero, Bool.and_false, Bool.and_false]

/-- The address is the place of the register if the base has no bit of the offset. -/
lemma ecmAddr_eq_iff (h : r.Valid) (hcovers : e.Covers r.bus) :
    ecmAddr e r = r.place e ↔ e.ecmBaseAddr &&& r.offset.setWidth 64 = 0 := by
  have hbus := r.bus.isLt
  have hslot := h.slot
  have hfunction := h.function
  have hstart : e.busStart.toNat ≤ r.bus.toNat := hcovers.2.1
  have hdiff : (r.bus.setWidth 64 - e.busStart.setWidth 64).toNat = r.bus.toNat - e.busStart.toNat := by
    rw [BitVec.toNat_sub_of_le] <;> simp only [BitVec.le_def, BitVec.toNat_setWidth] <;> omega
  obtain ⟨x, hx⟩ : ∃ x, x = (r.bus.setWidth 64 - e.busStart.setWidth 64) <<< 20 ||| r.slot.setWidth 64 <<< 15 |||
      r.function.setWidth 64 <<< 12 := ⟨_, rfl⟩
  have hxnat : x.toNat =
      (r.bus.toNat - e.busStart.toNat) * 2 ^ 20 + r.slot.toNat * 2 ^ 15 + r.function.toNat * 2 ^ 12 := by
    have h1 : (r.bus.toNat - e.busStart.toNat) * 2 ^ 20 ||| r.slot.toNat * 2 ^ 15 =
        (r.bus.toNat - e.busStart.toNat) * 2 ^ 20 + r.slot.toNat * 2 ^ 15 :=
      or_eq_add (i := 20) (by omega) (by omega)
    have h2 : (r.bus.toNat - e.busStart.toNat) * 2 ^ 20 + r.slot.toNat * 2 ^ 15 ||| r.function.toNat * 2 ^ 12 =
        (r.bus.toNat - e.busStart.toNat) * 2 ^ 20 + r.slot.toNat * 2 ^ 15 + r.function.toNat * 2 ^ 12 :=
      or_eq_add (i := 15) (by omega) (by omega)
    have h0 : ((r.bus.setWidth 64 - e.busStart.setWidth 64) <<< 20).toNat =
        (r.bus.toNat - e.busStart.toNat) * 2 ^ 20 := by
      rw [BitVec.toNat_shiftLeft, hdiff, Nat.shiftLeft_eq, Nat.mod_eq_of_lt (by omega)]
    rw [hx, BitVec.toNat_or, BitVec.toNat_or, h0, toNat_field _ _ (by omega), toNat_field _ _ (by omega), h1, h2]
  have hplace : r.place e = (e.ecmBaseAddr + x) + r.offset.setWidth 64 + highVma := by
    have hsum : BitVec.ofNat 64 ((r.bus.toNat - e.busStart.toNat) * 2 ^ 20 + r.slot.toNat * 2 ^ 15 +
        r.function.toNat * 2 ^ 12 + r.offset.toNat) = x + r.offset.setWidth 64 := by
      rw [← hxnat, BitVec.ofNat_add, BitVec.ofNat_toNat, BitVec.setWidth_eq, BitVec.ofNat_toNat]
    rw [Register.place, hsum]
    grind
  have hoffset : (r.offset.setWidth 64).toNat < 2 ^ 8 := by
    have := h.offset
    rw [BitVec.toNat_setWidth]
    omega
  have hlow : (e.ecmBaseAddr + x).setWidth 8 = e.ecmBaseAddr.setWidth 8 := by
    have hzero : x.setWidth 8 = 0#8 := by
      apply BitVec.eq_of_toNat_eq
      rw [BitVec.toNat_setWidth, hxnat]
      simp
      omega
    rw [BitVec.setWidth_add _ _ (by decide), hzero, BitVec.add_zero]
  rw [ecmAddr, ← hx, hplace, BitVec.add_left_inj, or_eq_add_iff, and_congr_low hoffset hlow]

end Accesses

/-- The two ways to the configuration space agree exactly where the register already holds what is written: the memory
is never written to. -/
theorem backends_same_iff (entries : List McfgEntry) (p : Ports) (m : Memory) (r : Register) (value : BitVec 32)
    (hcovers : ∃ e ∈ entries, e.Covers r.bus) (h : r.Valid) : SameFile entries p m r value ↔
    ∀ e, ecmReadEntry r.bus none entries = some e → e.ecmBaseAddr &&& r.offset.setWidth 64 = 0 ∧
      load m (r.place e).toNat r.accessSize.toNat = truncated value r.accessSize := by
  obtain ⟨e, he⟩ := exists_ecmReadEntry hcovers
  have haddr := ecmAddr_eq_iff h (ecmReadEntry_covers he)
  constructor
  · intro hsame e' he'
    cases he.symm.trans he'
    have hplace := hsame.ecmPlace e he
    refine ⟨haddr.mp hplace, ?_⟩
    have hback := hsame.ecmBack
    rwa [ecmWrite_eq, ecmRead_eq h he, hplace] at hback
  · intro hheld
    obtain ⟨hbase, hvalue⟩ := hheld e he
    have hplace := haddr.mpr hbase
    refine ⟨?_, fun b hb => ?_, legacyIoRead_eq h, ?_, fun e' _ b _ => ?_, fun e' he' => ?_⟩
    · rw [legacyIoRead_eq h, legacyIoWrite_config h, load_store, truncated]
    · rw [legacyIoWrite_config h, store_outside _ _ hb]
    · rw [ecmWrite_eq, ecmRead_eq h he, hplace, hvalue]
    · rw [ecmWrite_eq]
    · cases he.symm.trans he'
      exact hplace

def wholeSegment : McfgEntry := ⟨0xb0000000, 0, 0, 255⟩

/-- The command register of a device on bus 2. -/
def commandRegister : Register := ⟨2, 3, 1, 4, 2⟩

lemma commandRegister_valid : commandRegister.Valid := by constructor <;> decide

theorem backends_same_zero : SameFile [wholeSegment] ⟨0, fun _ => 0⟩ (fun _ => 0) commandRegister 0 := by
  refine (backends_same_iff [wholeSegment] ⟨0, fun _ => 0⟩ (fun _ => 0) commandRegister 0
    ⟨wholeSegment, by simp, by decide⟩ commandRegister_valid).mpr ?_
  intro e he
  have hentry : ecmReadEntry commandRegister.bus none [wholeSegment] = some wholeSegment := by decide
  cases hentry.symm.trans he
  decide

/-- Enabling the bus master through the memory does nothing. -/
theorem backends_differ : ¬ SameFile [wholeSegment] ⟨0, fun _ => 0⟩ (fun _ => 0) commandRegister 4 := by
  intro h
  exact absurd h.ecmBack (by decide)

end PiggyOs.PciAccess
