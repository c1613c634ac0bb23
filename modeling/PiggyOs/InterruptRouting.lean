import Mathlib.Tactic

/-! Interrupt routing. An IOAPIC is seen through the two windows at its base address, of which one selects the register
that the other one shows. The registers written are kept in a list. -/
namespace PiggyOs.InterruptRouting
open Function

def isaIrqNum : ℕ := 16

/-- `max_rentry` is the index of the last redirection entry, from the version register. -/
structure Ioapic where
  maxRentry : BitVec 8
  baseAddr : BitVec 64
  gsiBase : BitVec 32
  deriving DecidableEq, Repr

/-- An override that `madt_init` has kept: only those for the first interrupts are. -/
structure Iso where
  irqSource : BitVec 8
  gsi : BitVec 32
  flags : BitVec 16
  gsi_lt : gsi.toNat < isaIrqNum

structure Machine where
  select : BitVec 64 → BitVec 32
  regs : BitVec 64 → BitVec 32 → BitVec 32
  writes : List (BitVec 64 × BitVec 32)

def Machine.writeSelect (m : Machine) (base : BitVec 64) (reg : BitVec 32) : Machine :=
  { m with select := update m.select base reg }

def Machine.readWindow (m : Machine) (base : BitVec 64) : BitVec 32 := m.regs base (m.select base)

def Machine.writeWindow (m : Machine) (base : BitVec 64) (value : BitVec 32) : Machine :=
  { m with
    regs := update m.regs base (update (m.regs base) (m.select base) value)
    writes := m.writes ++ [(base, m.select base)] }

def getIoapicRentryIndex (irq : BitVec 8) : BitVec 32 := 0x10 + irq.setWidth 32 * 2

def ioapicRead64 (m : Machine) (base : BitVec 64) (reg : BitVec 32) : BitVec 64 × Machine :=
  let m := m.writeSelect base reg
  let low := m.readWindow base
  let m := m.writeSelect base (reg + 1)
  (low.setWidth 64 ||| (m.readWindow base).setWidth 64 <<< 32, m)

def ioapicWrite64 (m : Machine) (base : BitVec 64) (reg : BitVec 32) (value : BitVec 64) : Machine :=
  let m := (m.writeSelect base reg).writeWindow base ((value &&& 0xffffffff).setWidth 32)
  (m.writeSelect base (reg + 1)).writeWindow base (((value >>> 32) &&& 0xffffffff).setWidth 32)

def getIoapicForInterrupt (ioapics : List Ioapic) (irq : BitVec 8) : Option Ioapic :=
  ioapics.find? fun o => decide (o.gsiBase ≤ irq.setWidth 32 ∧ irq.setWidth 32 < o.gsiBase + o.maxRentry.setWidth 32)

/-- The override for the interrupt, if there is one. -/
def isoForIrq (isos : List (Option Iso)) (irq : BitVec 8) : Option Iso :=
  isos.findSome? fun slot => slot.filter fun iso => iso.irqSource = irq

def getIsoGsiForIrq (isos : List (Option Iso)) (irq : BitVec 8) : BitVec 32 :=
  match isoForIrq isos irq with
  | some iso => iso.gsi
  | none => irq.setWidth 32

/-- The fields of a redirection entry. -/
def setVector (rentry : BitVec 64) (vector : BitVec 8) : BitVec 64 := rentry &&& ~~~0xff ||| vector.setWidth 64

def setBit (rentry : BitVec 64) (i : ℕ) (b : Bool) : BitVec 64 :=
  if b then rentry ||| (1 : BitVec 64) <<< i else rentry &&& ~~~((1 : BitVec 64) <<< i)

def polarityBit : ℕ := 13
def triggerModeBit : ℕ := 15
def maskBit : ℕ := 16

def polarityOf (flags : BitVec 16) : Option Bool :=
  let polarity := flags &&& 3
  if polarity = 0 ∨ polarity = 3 then some true else if polarity = 1 then some false else none

def triggerModeOf (flags : BitVec 16) : Option Bool :=
  let triggerMode := (flags >>> 2) &&& 3
  if triggerMode = 0 ∨ triggerMode = 1 then some false else if triggerMode = 3 then some true else none

def redirectGsi (ioapics : List Ioapic) (m : Machine) (gsi : BitVec 32) (vector : BitVec 8) (flags : BitVec 16) :
    Bool × Machine :=
  match getIoapicForInterrupt ioapics (gsi.setWidth 8) with
  | none => (false, m)
  | some ioapic =>
      let reg := getIoapicRentryIndex (gsi.setWidth 8)
      let read := ioapicRead64 m ioapic.baseAddr reg
      match polarityOf flags with
      | none => (false, read.2)
      | some polarity =>
          match triggerModeOf flags with
          | none => (false, read.2)
          | some triggerMode =>
              (true, ioapicWrite64 read.2 ioapic.baseAddr reg
                (setBit (setBit (setVector read.1 vector) polarityBit polarity) triggerModeBit triggerMode))

def ioapicRedirectIrq (ioapics : List Ioapic) (isos : List (Option Iso)) (m : Machine) (irq vector : BitVec 8) :
    Bool × Machine :=
  match isoForIrq isos irq with
  | some iso => redirectGsi ioapics m iso.gsi vector iso.flags
  | none => redirectGsi ioapics m (irq.setWidth 32) vector 0

def ioapicSetIrqMask (ioapics : List Ioapic) (isos : List (Option Iso)) (m : Machine) (irq : BitVec 8) (mask : Bool) :
    Bool × Machine :=
  match getIoapicForInterrupt ioapics irq with
  | none => (false, m)
  | some ioapic =>
      let reg := getIoapicRentryIndex ((getIsoGsiForIrq isos irq).setWidth 8)
      let read := ioapicRead64 m ioapic.baseAddr reg
      (true, ioapicWrite64 read.2 ioapic.baseAddr reg (setBit read.1 maskBit mask))

/-- The interrupts whose entries the IOAPIC has. -/
def Ioapic.Owns (o : Ioapic) (gsi : ℕ) : Prop :=
  o.gsiBase.toNat ≤ gsi ∧ gsi ≤ o.gsiBase.toNat + o.maxRentry.toNat

/-- The interrupts for which the IOAPIC is found: not the last one that it has. -/
def Ioapic.Found (o : Ioapic) (gsi : ℕ) : Prop :=
  o.gsiBase.toNat ≤ gsi ∧ gsi < o.gsiBase.toNat + o.maxRentry.toNat

/-- The registers of entry `k`. -/
def entryRegs (k : ℕ) : BitVec 32 × BitVec 32 := (0x10 + BitVec.ofNat 32 (2 * k), 0x11 + BitVec.ofNat 32 (2 * k))

def rentry (m : Machine) (base : BitVec 64) (k : ℕ) : BitVec 64 :=
  (m.regs base (entryRegs k).1).setWidth 64 ||| (m.regs base (entryRegs k).2).setWidth 64 <<< 32

/-- Both halves of entry `k` are written, and no other register. -/
structure Modified (m m' : Machine) (base : BitVec 64) (k : ℕ) (entry : BitVec 64) : Prop where
  writes : m'.writes = m.writes ++ [(base, (entryRegs k).1), (base, (entryRegs k).2)]
  entry : rentry m' base k = entry
  others : ∀ b r, (b, r) ≠ (base, (entryRegs k).1) → (b, r) ≠ (base, (entryRegs k).2) → m'.regs b r = m.regs b r

/-- The entry of the interrupt is changed if an IOAPIC owns it, else nothing. -/
structure Reaches (ioapics : List Ioapic) (gsi : ℕ) (m : Machine) (result : Bool × Machine)
    (change : BitVec 64 → BitVec 64 → Prop) : Prop where
  owned : ∀ o ∈ ioapics, o.Owns gsi → result.1 = true ∧ ∃ entry,
    change (rentry m o.baseAddr (gsi - o.gsiBase.toNat)) entry ∧
      Modified m result.2 o.baseAddr (gsi - o.gsiBase.toNat) entry
  unowned : (∀ o ∈ ioapics, ¬ o.Owns gsi) → result.1 = false ∧ result.2.writes = m.writes ∧ result.2.regs = m.regs

/-- Redirecting sets the vector, masking the mask bit and nothing else. -/
def RoutedBy (ioapics : List Ioapic) (isos : List (Option Iso)) (irq : BitVec 8) : Prop :=
  ∀ m vector mask,
    Reaches ioapics (getIsoGsiForIrq isos irq).toNat m (ioapicRedirectIrq ioapics isos m irq vector)
      (fun _ entry => entry.setWidth 8 = vector) ∧
    Reaches ioapics (getIsoGsiForIrq isos irq).toNat m (ioapicSetIrqMask ioapics isos m irq mask)
      (fun old entry => entry = setBit old maskBit mask)

def flagsForIrq (isos : List (Option Iso)) (irq : BitVec 8) : BitVec 16 :=
  match isoForIrq isos irq with
  | some iso => iso.flags
  | none => 0

/-- The value 2 of the polarity and the trigger mode is reserved. -/
def Reserved (flags : BitVec 16) : Prop := flags &&& 3 = 2 ∨ (flags >>> 2) &&& 3 = 2

/-- The owner begins with the first interrupt, the interrupt is not its last one, the flags of the override are defined,
and the interrupt before the override is found at the same IOAPIC. -/
def Routable (ioapics : List Ioapic) (isos : List (Option Iso)) (irq : BitVec 8) : Prop :=
  (∀ o ∈ ioapics, o.Owns (getIsoGsiForIrq isos irq).toNat → o.gsiBase = 0 ∧
    (getIsoGsiForIrq isos irq).toNat < o.maxRentry.toNat ∧ ¬ Reserved (flagsForIrq isos irq) ∧
    ∃ o' ∈ ioapics, o'.baseAddr = o.baseAddr ∧ o'.Found irq.toNat) ∧
  ((∀ o ∈ ioapics, ¬ o.Owns (getIsoGsiForIrq isos irq).toNat) → ∀ o ∈ ioapics, ¬ o.Found irq.toNat)

section Registers
variable {m m' : Machine} {base b : BitVec 64} {reg : BitVec 32} {value : BitVec 64} {k l : ℕ}

lemma low_half (value : BitVec 64) : (value &&& 0xffffffff).setWidth 32 = value.setWidth 32 := by
  have hones : (0xffffffff : BitVec 64).setWidth 32 = BitVec.allOnes 32 := by decide
  rw [BitVec.setWidth_and, hones, BitVec.and_allOnes]

lemma halves_joined (value : BitVec 64) :
    (value.setWidth 32).setWidth 64 ||| ((value >>> 32).setWidth 32).setWidth 64 <<< 32 = value := by
  apply BitVec.eq_of_getLsbD_eq
  intro i hi
  by_cases h : i < 32
  · simp [h, hi]
  · simp [h, hi, show i - 32 < 32 by omega, show i - 32 < 64 by omega, show 32 + (i - 32) = i by omega]

lemma vector_setVector (rentry : BitVec 64) (vector : BitVec 8) : (setVector rentry vector).setWidth 8 = vector := by
  have hclear : (~~~0xff : BitVec 64).setWidth 8 = 0#8 := by decide
  rw [setVector, BitVec.setWidth_or, BitVec.setWidth_and, hclear, BitVec.and_zero, BitVec.zero_or,
    BitVec.setWidth_setWidth_of_le _ (by decide), BitVec.setWidth_eq]

/-- The other fields do not touch the vector. -/
lemma vector_setBit (rentry : BitVec 64) {i : ℕ} (hi : 8 ≤ i) (flag : Bool) :
    (setBit rentry i flag).setWidth 8 = rentry.setWidth 8 := by
  apply BitVec.eq_of_getLsbD_eq
  intro j hj
  cases flag
  · simp [setBit, hj, show j < i by omega]
  · simp [setBit, hj, show j < i by omega]

lemma ne_succ (reg : BitVec 32) : reg ≠ reg + 1 := by
  bv_omega

lemma entryRegs_succ (k : ℕ) : (entryRegs k).1 + 1 = (entryRegs k).2 := by
  simp only [entryRegs]
  bv_omega

lemma rentryIndex_eq {gsi : BitVec 32} (h : gsi.toNat < 256) :
    getIoapicRentryIndex (gsi.setWidth 8) = (entryRegs gsi.toNat).1 := by
  simp only [getIoapicRentryIndex, entryRegs]
  bv_omega

lemma entryRegs_inj (hk : k < 256) (hl : l < 256) (h : (entryRegs k).1 = (entryRegs l).1) : k = l := by
  simp only [entryRegs] at h
  bv_omega

/-- Reading an entry only selects registers. -/
lemma ioapicRead64_eq (m : Machine) (base : BitVec 64) (k : ℕ) :
    (ioapicRead64 m base (entryRegs k).1).1 = rentry m base k ∧
    (ioapicRead64 m base (entryRegs k).1).2.writes = m.writes ∧
    (ioapicRead64 m base (entryRegs k).1).2.regs = m.regs := by
  simp only [ioapicRead64, Machine.writeSelect, Machine.readWindow, rentry, entryRegs_succ, update_self, and_self]

lemma ioapicWrite64_modified (hwrites : m'.writes = m.writes) (hregs : m'.regs = m.regs) :
    Modified m (ioapicWrite64 m' base (entryRegs k).1 value) base k value := by
  have hne : (entryRegs k).1 ≠ (entryRegs k).2 := by
    rw [← entryRegs_succ]
    exact ne_succ _
  have hafter : (ioapicWrite64 m' base (entryRegs k).1 value).regs = update m.regs base
      (update (update (m.regs base) (entryRegs k).1 (value.setWidth 32)) (entryRegs k).2
        ((value >>> 32).setWidth 32)) := by
    simp only [ioapicWrite64, Machine.writeSelect, Machine.writeWindow, entryRegs_succ, update_self, update_idem,
      low_half, hregs]
  refine ⟨?_, ?_, fun b r h1 h2 => ?_⟩
  · simp only [ioapicWrite64, Machine.writeSelect, Machine.writeWindow, entryRegs_succ, update_self, hwrites,
      List.append_assoc, List.singleton_append]
  · rw [rentry, hafter, update_self, update_self, update_of_ne hne, update_self, halves_joined]
  · rw [hafter]
    by_cases hb : b = base
    · subst hb
      rw [update_self, update_of_ne fun h => h2 (by rw [h]), update_of_ne fun h => h1 (by rw [h])]
    · rw [update_of_ne hb]

/-- The two registers written tell the IOAPIC and the entry. -/
lemma Modified.place {entry entry' : BitVec 64} (h : Modified m m' base k entry) (h' : Modified m m' b l entry')
    (hk : k < 256) (hl : l < 256) : base = b ∧ k = l := by
  have heq := List.append_cancel_left (h.writes.symm.trans h'.writes)
  simp only [List.cons.injEq, Prod.mk.injEq] at heq
  exact ⟨heq.1.1, entryRegs_inj hk hl heq.1.2⟩

end Registers

section Lookup
variable {ioapics : List Ioapic} {isos : List (Option Iso)} {o o' : Ioapic} {irq : BitVec 8} {gsi : ℕ}

lemma Ioapic.Found.owns (h : o.Found gsi) : o.Owns gsi := ⟨h.1, h.2.le⟩

lemma found_iff (o : Ioapic) (irq : BitVec 8) :
    (o.gsiBase ≤ irq.setWidth 32 ∧ irq.setWidth 32 < o.gsiBase + o.maxRentry.setWidth 32) ↔ o.Found irq.toNat := by
  have hirq := irq.isLt
  have hmax := o.maxRentry.isLt
  have hbase := o.gsiBase.isLt
  rw [Ioapic.Found, BitVec.le_def, BitVec.lt_def, BitVec.toNat_add, BitVec.toNat_setWidth, BitVec.toNat_setWidth]
  omega

lemma found_of_lookup (h : getIoapicForInterrupt ioapics irq = some o) : o ∈ ioapics ∧ o.Found irq.toNat := by
  have hsome := List.find?_some h
  exact ⟨List.mem_of_find?_eq_some h, (found_iff o irq).mp (of_decide_eq_true hsome)⟩

lemma lookup_eq_none (h : getIoapicForInterrupt ioapics irq = none) : ∀ o ∈ ioapics, ¬ o.Found irq.toNat := by
  intro o ho hfound
  exact List.find?_eq_none.mp h o ho (decide_eq_true ((found_iff o irq).mpr hfound))

lemma owner_unique (hdisj : ioapics.Pairwise fun a b => ∀ g, ¬ (a.Owns g ∧ b.Owns g)) (ho : o ∈ ioapics)
    (ho' : o' ∈ ioapics) (h : o.Owns gsi) (h' : o'.Owns gsi) : o = o' := by
  by_contra hne
  have hsymm : Std.Symm fun a b : Ioapic => ∀ g, ¬ (a.Owns g ∧ b.Owns g) := ⟨fun a b h g hg => h g hg.symm⟩
  exact hdisj.forall ho ho' hne gsi ⟨h, h'⟩

lemma gsi_lt (isos : List (Option Iso)) (irq : BitVec 8) : (getIsoGsiForIrq isos irq).toNat < 256 := by
  unfold getIsoGsiForIrq
  cases isoForIrq isos irq with
  | none =>
    have := irq.isLt
    simp
    omega
  | some iso =>
    have := iso.gsi_lt
    simp only [isaIrqNum] at this ⊢
    omega

lemma reserved_iff (flags : BitVec 16) : Reserved flags ↔ polarityOf flags = none ∨ triggerModeOf flags = none := by
  have htwo : ∀ x : BitVec 16, x &&& 3 = 0 ∨ x &&& 3 = 1 ∨ x &&& 3 = 2 ∨ x &&& 3 = 3 := by
    intro x
    have : (x &&& 3).toNat ≤ 3 := by
      rw [BitVec.toNat_and]
      exact Nat.and_le_right
    bv_omega
  have hp := htwo flags
  have ht := htwo (flags >>> 2)
  simp only [Reserved, polarityOf, triggerModeOf]
  grind

end Lookup

section Requests
variable {ioapics : List Ioapic} {isos : List (Option Iso)} {o : Ioapic}

/-- Redirecting writes entry `gsi` of the IOAPIC that is found for it, or nothing. -/
lemma redirectGsi_cases (ioapics : List Ioapic) (m : Machine) {gsi : BitVec 32} (hgsi : gsi.toNat < 256)
    (vector : BitVec 8) (flags : BitVec 16) :
    (∃ o ∈ ioapics, o.Found gsi.toNat ∧ ¬ Reserved flags ∧ (redirectGsi ioapics m gsi vector flags).1 = true ∧
      ∃ entry, entry.setWidth 8 = vector ∧
        Modified m (redirectGsi ioapics m gsi vector flags).2 o.baseAddr gsi.toNat entry) ∨
    (((∀ o ∈ ioapics, ¬ o.Found gsi.toNat) ∨ Reserved flags) ∧ (redirectGsi ioapics m gsi vector flags).1 = false ∧
      (redirectGsi ioapics m gsi vector flags).2.writes = m.writes ∧
      (redirectGsi ioapics m gsi vector flags).2.regs = m.regs) := by
  have hsame : (gsi.setWidth 8).toNat = gsi.toNat := by
    simp
    omega
  unfold redirectGsi
  cases hfind : getIoapicForInterrupt ioapics (gsi.setWidth 8) with
  | none =>
    have hnone := lookup_eq_none hfind
    rw [hsame] at hnone
    exact Or.inr ⟨Or.inl hnone, rfl, rfl, rfl⟩
  | some o =>
    obtain ⟨ho, hfound⟩ := found_of_lookup hfind
    rw [hsame] at hfound
    rw [rentryIndex_eq hgsi]
    obtain ⟨-, hwrites, hregs⟩ := ioapicRead64_eq m o.baseAddr gsi.toNat
    have hres := reserved_iff flags
    cases hp : polarityOf flags with
    | none => exact Or.inr ⟨Or.inr (hres.mpr (Or.inl hp)), rfl, hwrites, hregs⟩
    | some polarity =>
      cases ht : triggerModeOf flags with
      | none => exact Or.inr ⟨Or.inr (hres.mpr (Or.inr ht)), rfl, hwrites, hregs⟩
      | some triggerMode =>
        refine Or.inl ⟨o, ho, hfound, ?_, rfl, _, ?_, ioapicWrite64_modified hwrites hregs⟩
        · rw [hres, hp, ht]
          simp
        · rw [vector_setBit _ (by decide), vector_setBit _ (by decide), vector_setVector]

/-- Masking writes the entry of the override at the IOAPIC that is found for the interrupt itself. -/
lemma setIrqMask_cases (ioapics : List Ioapic) (isos : List (Option Iso)) (m : Machine) (irq : BitVec 8) (mask : Bool) :
    (∃ o ∈ ioapics, o.Found irq.toNat ∧ (ioapicSetIrqMask ioapics isos m irq mask).1 = true ∧
      Modified m (ioapicSetIrqMask ioapics isos m irq mask).2 o.baseAddr (getIsoGsiForIrq isos irq).toNat
        (setBit (rentry m o.baseAddr (getIsoGsiForIrq isos irq).toNat) maskBit mask)) ∨
    ((∀ o ∈ ioapics, ¬ o.Found irq.toNat) ∧ ioapicSetIrqMask ioapics isos m irq mask = (false, m)) := by
  unfold ioapicSetIrqMask
  cases hfind : getIoapicForInterrupt ioapics irq with
  | none => exact Or.inr ⟨lookup_eq_none hfind, rfl⟩
  | some o =>
    obtain ⟨ho, hfound⟩ := found_of_lookup hfind
    rw [rentryIndex_eq (gsi_lt isos irq)]
    obtain ⟨hread, hwrites, hregs⟩ := ioapicRead64_eq m o.baseAddr (getIsoGsiForIrq isos irq).toNat
    refine Or.inl ⟨o, ho, hfound, rfl, ?_⟩
    dsimp only
    rw [hread]
    exact ioapicWrite64_modified hwrites hregs

lemma redirectIrq_eq (ioapics : List Ioapic) (isos : List (Option Iso)) (m : Machine) (irq vector : BitVec 8) :
    ioapicRedirectIrq ioapics isos m irq vector =
      redirectGsi ioapics m (getIsoGsiForIrq isos irq) vector (flagsForIrq isos irq) := by
  unfold ioapicRedirectIrq getIsoGsiForIrq flagsForIrq
  cases isoForIrq isos irq <;> rfl

end Requests

/-- Where the ranges of the IOAPICs are disjoint, redirecting and masking an interrupt both reach its entry, and fail
where it has none, exactly for such interrupts. -/
theorem routedBy_iff (ioapics : List Ioapic) (hdisj : ioapics.Pairwise fun a b => ∀ g, ¬ (a.Owns g ∧ b.Owns g))
    (isos : List (Option Iso)) (irq : BitVec 8) : RoutedBy ioapics isos irq ↔ Routable ioapics isos irq := by
  have hgsi := gsi_lt isos irq
  constructor
  · intro h
    obtain ⟨hredirect, hmask⟩ := h ⟨fun _ => 0, fun _ _ => 0, []⟩ 0 false
    rw [redirectIrq_eq] at hredirect
    refine ⟨fun o ho howns => ?_, fun hnone => ?_⟩
    · obtain ⟨htrue, entry, -, hmod⟩ := hredirect.owned o ho howns
      obtain ⟨htrue', entry', -, hmod'⟩ := hmask.owned o ho howns
      rcases redirectGsi_cases ioapics _ hgsi 0 (flagsForIrq isos irq) with
        ⟨o₁, ho₁, hfound₁, hflags, -, e₁, -, hmod₁⟩ | ⟨-, hfalse, -⟩
      · obtain rfl := owner_unique hdisj ho ho₁ howns hfound₁.owns
        obtain ⟨-, hplace⟩ := hmod.place hmod₁ (by omega) hgsi
        have hbase := howns.1
        refine ⟨BitVec.eq_of_toNat_eq (by simp; omega), by have := hfound₁.2; omega, hflags, ?_⟩
        rcases setIrqMask_cases ioapics isos _ irq false with ⟨o₂, ho₂, hfound₂, -, hmod₂⟩ | ⟨-, hfalse⟩
        · exact ⟨o₂, ho₂, (hmod'.place hmod₂ (by omega) hgsi).1.symm, hfound₂⟩
        · rw [hfalse] at htrue'
          cases htrue'
      · rw [hfalse] at htrue
        cases htrue
    · have hfalse := (hmask.unowned hnone).1
      rcases setIrqMask_cases ioapics isos ⟨fun _ => 0, fun _ _ => 0, []⟩ irq false with
        ⟨o₂, ho₂, hfound₂, htrue, -⟩ | ⟨hnot, -⟩
      · rw [hfalse] at htrue
        cases htrue
      · exact hnot
  · rintro ⟨howned, hunowned⟩ m vector mask
    rw [redirectIrq_eq]
    refine ⟨⟨fun o ho howns => ?_, fun hnone => ?_⟩, ⟨fun o ho howns => ?_, fun hnone => ?_⟩⟩
    · obtain ⟨hbase, hlt, hflags, -⟩ := howned o ho howns
      have hfound : o.Found (getIsoGsiForIrq isos irq).toNat := ⟨howns.1, by omega⟩
      rcases redirectGsi_cases ioapics m hgsi vector (flagsForIrq isos irq) with
        ⟨o₁, ho₁, hfound₁, -, htrue, entry, hvector, hmod⟩ | ⟨hnone | hres, -⟩
      · obtain rfl := owner_unique hdisj ho ho₁ howns hfound₁.owns
        rw [hbase]
        exact ⟨htrue, entry, hvector, hmod⟩
      · exact absurd hfound (hnone o ho)
      · exact absurd hres hflags
    · rcases redirectGsi_cases ioapics m hgsi vector (flagsForIrq isos irq) with
        ⟨o₁, ho₁, hfound₁, -⟩ | ⟨-, hfalse, hwrites, hregs⟩
      · exact absurd hfound₁.owns (hnone o₁ ho₁)
      · exact ⟨hfalse, hwrites, hregs⟩
    · obtain ⟨hbase, -, -, o', ho', haddr, hfound⟩ := howned o ho howns
      rcases setIrqMask_cases ioapics isos m irq mask with ⟨o₂, ho₂, hfound₂, htrue, hmod⟩ | ⟨hnot, -⟩
      · obtain rfl := owner_unique hdisj ho' ho₂ hfound.owns hfound₂.owns
        rw [hbase]
        rw [haddr] at hmod
        exact ⟨htrue, _, rfl, hmod⟩
      · exact absurd hfound (hnot o' ho')
    · rcases setIrqMask_cases ioapics isos m irq mask with ⟨o₂, ho₂, hfound₂, -⟩ | ⟨-, hsame⟩
      · exact absurd hfound₂ (hunowned hnone o₂ ho₂)
      · rw [hsame]
        exact ⟨rfl, rfl, rfl⟩

/-- The IOAPIC of a PC, on which the timer has the interrupt 2. -/
def pcIoapic : Ioapic := ⟨23, 0xfffffffffec00000, 0⟩

lemma timerGsi_lt : (2 : BitVec 32).toNat < isaIrqNum := by decide

def timerIso : Iso := ⟨0, 2, 0, timerGsi_lt⟩

theorem routedBy_timer : RoutedBy [pcIoapic] [some timerIso] 0 := by
  refine (routedBy_iff [pcIoapic] (List.pairwise_singleton _ _) [some timerIso] 0).mpr ⟨?_, ?_⟩
  · intro o ho howns
    obtain rfl := List.mem_singleton.mp ho
    have hflags : ¬ Reserved (flagsForIrq [some timerIso] 0) := by
      unfold Reserved
      decide
    have hfound : pcIoapic.Found (0 : BitVec 8).toNat := by
      unfold Ioapic.Found
      decide
    exact ⟨rfl, by decide, hflags, pcIoapic, List.mem_singleton_self _, rfl, hfound⟩
  · intro hnone
    exact absurd (by unfold Ioapic.Owns; decide) (hnone pcIoapic (List.mem_singleton_self _))

/-- A second IOAPIC, behind the first one. -/
def secondIoapic : Ioapic := ⟨23, 0xfffffffffec01000, 24⟩

def idle : Machine := ⟨fun _ => 0, fun _ _ => 0, []⟩

/-- The last interrupt of an IOAPIC is refused, and the registers written for one of the second IOAPIC are those of
entry 30 instead of entry 6. -/
theorem not_routedBy : ¬ RoutedBy [pcIoapic] [] 23 ∧
    (ioapicRedirectIrq [pcIoapic, secondIoapic] [] idle 30 0x40).2.writes =
      [(0xfffffffffec01000, 0x4c), (0xfffffffffec01000, 0x4d)] ∧
    ¬ RoutedBy [pcIoapic, secondIoapic] [] 30 := by
  refine ⟨fun h => ?_, by decide, fun h => ?_⟩
  · have htrue := ((h idle 0 false).1.owned pcIoapic (List.mem_singleton_self _) (by unfold Ioapic.Owns; decide)).1
    exact absurd htrue (by decide)
  · obtain ⟨-, entry, -, hmod⟩ := (h idle 0 false).1.owned secondIoapic (by simp) (by unfold Ioapic.Owns; decide)
    have hwrites := hmod.writes
    exact absurd hwrites (by decide)

end PiggyOs.InterruptRouting
