import PiggyOs.Traversal
import Mathlib.Data.Fintype.EquivFin

/-! The enumeration of PCI devices. Reads of the configuration space always give the same; memory for the devices is
always there. -/
namespace PiggyOs.PciEnumeration
open Traversal

/-- `pci_read`, with bus, slot, function, offset and size. -/
abbrev PciRead := BitVec 8 → BitVec 8 → BitVec 8 → BitVec 16 → BitVec 8 → BitVec 32

def pciConfigId : BitVec 16 := 0x00
def pciConfigStatus : BitVec 16 := 0x06
def pciConfigClass : BitVec 16 := 0x08
def pciConfigHeaderType : BitVec 16 := 0x0e
def pciConfigBus : BitVec 16 := 0x18
def pciConfigCapabilities : BitVec 16 := 0x34

structure PciDevice where
  bus : BitVec 8
  slot : BitVec 8
  function : BitVec 8
  deviceId : BitVec 16
  vendorId : BitVec 16
  classCode : BitVec 8
  subclass : BitVec 8
  progIf : BitVec 8
  revisionId : BitVec 8
  msiSupported : Bool
  msiOffset : BitVec 8
  deriving DecidableEq, Repr

section Model
variable (read : PciRead)

def read8 (bus slot function : BitVec 8) (offset : BitVec 16) : BitVec 8 :=
  (read bus slot function offset 1).setWidth 8

def read16 (bus slot function : BitVec 8) (offset : BitVec 16) : BitVec 16 :=
  (read bus slot function offset 2).setWidth 16

/-- The fields that are read first. -/
def deviceAt (bus slot function : BitVec 8) : PciDevice :=
  let id := read bus slot function pciConfigId 4
  let classes := read bus slot function pciConfigClass 4
  { bus := bus
    slot := slot
    function := function
    deviceId := (id >>> 16).setWidth 16
    vendorId := id.setWidth 16
    classCode := (classes >>> 24).setWidth 8
    subclass := (classes >>> 16).setWidth 8
    progIf := (classes >>> 8).setWidth 8
    revisionId := classes.setWidth 8
    msiSupported := false
    msiOffset := 0 }

/-- The loop over the capabilities. -/
def capabilityLoop (bus slot function : BitVec 8) : ℕ → BitVec 8 → PciDevice → Option PciDevice
  | 0, _, _ => none
  | fuel + 1, nextOff, dev =>
      if nextOff = 0 then some dev
      else
        capabilityLoop bus slot function fuel (read8 read bus slot function (nextOff.setWidth 16 + 1))
          (if read8 read bus slot function (nextOff.setWidth 16) = 5 then
            { dev with msiSupported := true, msiOffset := nextOff } else dev)

/-- The devices that are pushed, given what `enumerate_bus` pushes. -/
def enumerateFunction (fuel : ℕ) (enumerateBus : BitVec 8 → Option (List PciDevice)) (bus slot function : BitVec 8) :
    Option (List PciDevice) :=
  let dev := deviceAt read bus slot function
  (if dev.classCode = 0x06 ∧ dev.subclass = 0x04 then
    enumerateBus ((read16 read bus slot function pciConfigBus >>> 8).setWidth 8) else some []).bind fun pushed =>
  (if (read16 read bus slot function pciConfigStatus).getLsbD 4 then
    capabilityLoop read bus slot function fuel (read8 read bus slot function pciConfigCapabilities) dev
    else some dev).map fun dev => pushed ++ [dev]

def absent (bus slot function : BitVec 8) : Prop := read16 read bus slot function pciConfigId = 0xffff

instance (bus slot function : BitVec 8) : Decidable (absent read bus slot function) :=
  inferInstanceAs (Decidable (_ = _))

/-- `PCI_HEADER_TYPE_MULTIFUNCTION` -/
def multifunction (bus slot : BitVec 8) : Bool := (read16 read bus slot 0 pciConfigHeaderType).getLsbD 7

/-- The functions of the loops that begin behind the first one. -/
def otherFunctions : List (BitVec 8) := [1, 2, 3, 4, 5, 6, 7]

def enumerateSlot (enumerateFunction : BitVec 8 → BitVec 8 → BitVec 8 → Option (List PciDevice))
    (bus slot : BitVec 8) : Option (List PciDevice) :=
  if absent read bus slot 0 then some []
  else
    (enumerateFunction bus slot 0).bind fun first =>
      (if multifunction read bus slot then
        gather (fun function => if absent read bus slot function then some [] else enumerateFunction bus slot function)
          otherFunctions
      else some []).map fun rest => first ++ rest

def slots : List (BitVec 8) := (List.range 32).map fun slot => BitVec.ofNat 8 slot

def enumerateBus : ℕ → BitVec 8 → Option (List PciDevice)
  | 0, _ => none
  | fuel + 1, bus => gather (enumerateSlot read (enumerateFunction read fuel (enumerateBus fuel)) bus) slots

/-- The enumeration of `pci_init`. -/
def pciInit (fuel : ℕ) : Option (List PciDevice) :=
  (enumerateBus read fuel 0).bind fun first =>
    (if multifunction read 0 0 then
      gather (fun function => if absent read 0 0 function then some [] else enumerateBus read fuel function)
        otherFunctions
    else some []).map fun rest => first ++ rest

end Model

/-- A function by its bus, slot and number. -/
abbrev Location := BitVec 8 × BitVec 8 × BitVec 8

def PciDevice.location (dev : PciDevice) : Location := (dev.bus, dev.slot, dev.function)

section Levels
variable (read : PciRead)

/-- The functions of a slot that are enumerated. -/
def functionsOf (bus slot : BitVec 8) : List (BitVec 8) :=
  if absent read bus slot 0 then []
  else 0 :: if multifunction read bus slot then otherFunctions.filter fun f => ¬ absent read bus slot f else []

def functionsOn (bus : BitVec 8) : List Location :=
  slots.flatMap fun slot => (functionsOf read bus slot).map fun function => (bus, slot, function)

/-- The bus that a function leads to. -/
def secondaryBus (l : Location) : Option (BitVec 8) :=
  let dev := deviceAt read l.1 l.2.1 l.2.2
  if dev.classCode = 0x06 ∧ dev.subclass = 0x04 then
    some ((read16 read l.1 l.2.1 l.2.2 pciConfigBus >>> 8).setWidth 8) else none

def nextCapability (l : Location) (offset : BitVec 8) : BitVec 8 :=
  read8 read l.1 l.2.1 l.2.2 (offset.setWidth 16 + 1)

/-- The pointers from capability to capability come to 0. -/
def CapabilitiesEnd (l : Location) : Prop :=
  (read16 read l.1 l.2.1 l.2.2 pciConfigStatus).getLsbD 4 = true →
    ∃ k, (nextCapability read l)^[k] (read8 read l.1 l.2.1 l.2.2 pciConfigCapabilities) = 0

def pushedDevice (fuel : ℕ) (l : Location) : Option PciDevice :=
  if (read16 read l.1 l.2.1 l.2.2 pciConfigStatus).getLsbD 4 then
    capabilityLoop read l.1 l.2.1 l.2.2 fuel (read8 read l.1 l.2.1 l.2.2 pciConfigCapabilities)
      (deviceAt read l.1 l.2.1 l.2.2)
  else some (deviceAt read l.1 l.2.1 l.2.2)

/-- The buses on which `pci_init` itself begins. -/
def rootBuses : List (BitVec 8) :=
  0 :: if multifunction read 0 0 then otherFunctions.filter fun f => ¬ absent read 0 0 f else []

variable {read}

lemma capabilityLoop_succ {bus slot function nextOff : BitVec 8} {fuel : ℕ} {dev dev' : PciDevice}
    (h : capabilityLoop read bus slot function fuel nextOff dev = some dev') :
    capabilityLoop read bus slot function (fuel + 1) nextOff dev = some dev' := by
  induction fuel generalizing nextOff dev with
  | zero => cases h
  | succ fuel ih =>
    rw [capabilityLoop] at h ⊢
    by_cases hzero : nextOff = 0
    · rwa [if_pos hzero] at h ⊢
    · rw [if_neg hzero] at h ⊢
      exact ih h

lemma capabilityLoop_location {bus slot function nextOff : BitVec 8} {fuel : ℕ} {dev dev' : PciDevice}
    (h : capabilityLoop read bus slot function fuel nextOff dev = some dev') : dev'.location = dev.location := by
  induction fuel generalizing nextOff dev with
  | zero => cases h
  | succ fuel ih =>
    rw [capabilityLoop] at h
    by_cases hzero : nextOff = 0
    · rw [if_pos hzero] at h
      cases h
      rfl
    · rw [if_neg hzero] at h
      refine (ih h).trans ?_
      split_ifs <;> rfl

/-- The loop over the capabilities ends exactly if their pointers come to 0. -/
lemma capabilityLoop_iff (l : Location) (nextOff : BitVec 8) (dev : PciDevice) :
    (∃ fuel dev', capabilityLoop read l.1 l.2.1 l.2.2 fuel nextOff dev = some dev') ↔
      ∃ k, (nextCapability read l)^[k] nextOff = 0 := by
  constructor
  · rintro ⟨fuel, dev', h⟩
    induction fuel generalizing nextOff dev with
    | zero => cases h
    | succ fuel ih =>
      rw [capabilityLoop] at h
      split_ifs at h with hzero
      · exact ⟨0, hzero⟩
      · obtain ⟨k, hk⟩ := ih _ _ h
        exact ⟨k + 1, hk⟩
      · obtain ⟨k, hk⟩ := ih _ _ h
        exact ⟨k + 1, hk⟩
  · rintro ⟨k, hk⟩
    induction k generalizing nextOff dev with
    | zero => exact ⟨1, dev, if_pos hk⟩
    | succ k ih =>
      by_cases hzero : nextOff = 0
      · exact ⟨1, dev, if_pos hzero⟩
      · obtain ⟨fuel, dev', h⟩ := ih (nextCapability read l nextOff)
          (if read8 read l.1 l.2.1 l.2.2 (nextOff.setWidth 16) = 5 then
            { dev with msiSupported := true, msiOffset := nextOff } else dev) hk
        exact ⟨fuel + 1, dev', by rw [capabilityLoop, if_neg hzero]; exact h⟩

lemma mem_functionsOn {bus : BitVec 8} {l : Location} :
    l ∈ functionsOn read bus ↔ l.1 = bus ∧ l.2.1 ∈ slots ∧ l.2.2 ∈ functionsOf read bus l.2.1 := by
  rw [functionsOn, List.mem_flatMap]
  constructor
  · rintro ⟨slot, hslot, hl⟩
    obtain ⟨function, hfunction, rfl⟩ := List.mem_map.mp hl
    exact ⟨rfl, hslot, hfunction⟩
  · rintro ⟨rfl, hslot, hfunction⟩
    exact ⟨l.2.1, hslot, List.mem_map.mpr ⟨l.2.2, hfunction, rfl⟩⟩

lemma others_nodup (p : BitVec 8 → Bool) : (0 :: otherFunctions.filter p).Nodup := by
  have hall : (0 :: otherFunctions).Nodup := by decide
  exact hall.sublist (List.filter_sublist.cons_cons 0)

lemma functionsOf_nodup (bus slot : BitVec 8) : (functionsOf read bus slot).Nodup := by
  unfold functionsOf
  split_ifs
  · exact List.nodup_nil
  · exact others_nodup _
  · exact List.nodup_singleton 0

lemma slots_nodup : slots.Nodup := by decide

lemma functionsOn_nodup (bus : BitVec 8) : (functionsOn read bus).Nodup := by
  rw [functionsOn, List.nodup_flatMap]
  refine ⟨fun slot _ => (functionsOf_nodup bus slot).map fun f f' h => ?_,
    slots_nodup.imp fun {s s'} hne l hl hl' => ?_⟩
  · exact (Prod.mk.inj (Prod.mk.inj h).2).2
  · obtain ⟨f, -, rfl⟩ := List.mem_map.mp hl
    obtain ⟨f', -, heq⟩ := List.mem_map.mp hl'
    exact hne (Prod.mk.inj (Prod.mk.inj heq).2).1.symm

lemma pushedDevice_location {fuel : ℕ} {l : Location} {dev : PciDevice} (h : pushedDevice read fuel l = some dev) :
    dev.location = l := by
  unfold pushedDevice at h
  split_ifs at h
  · exact capabilityLoop_location h
  · cases h
    rfl

lemma pushedDevice_succ {fuel : ℕ} {l : Location} {dev : PciDevice} (h : pushedDevice read fuel l = some dev) :
    pushedDevice read (fuel + 1) l = some dev := by
  unfold pushedDevice at h ⊢
  split_ifs at h ⊢
  · exact capabilityLoop_succ h
  · exact h

lemma exists_pushedDevice (l : Location) :
    (∃ fuel dev, pushedDevice read fuel l = some dev) ↔ CapabilitiesEnd read l := by
  unfold pushedDevice CapabilitiesEnd
  split_ifs with hstatus
  · rw [capabilityLoop_iff]
    exact ⟨fun h _ => h, fun h => h hstatus⟩
  · exact iff_of_true ⟨0, _, rfl⟩ fun h => absurd h hstatus

/-- The buses, the functions on them, and where bridges lead. -/
def levels (read : PciRead) : Levels (BitVec 8) Location PciDevice where
  items := functionsOn read
  place := Prod.fst
  child := secondaryBus read
  own := pushedDevice read
  key := PciDevice.location
  items_nodup := functionsOn_nodup
  place_eq := fun _ _ h => (mem_functionsOn.mp h).1
  own_mono := fun _ _ _ => pushedDevice_succ
  key_own := fun _ _ _ => pushedDevice_location

lemma gather_flatMap {ι κ α : Type*} (f : κ → Option (List α)) (g : ι → List κ) (l : List ι) :
    gather f (l.flatMap g) = gather (fun i => gather f (g i)) l := by
  induction l with
  | nil => rfl
  | cons i l ih =>
    rw [List.flatMap_cons, gather, ← ih]
    ext r
    rw [gather_append]
    simp only [Option.bind_eq_some_iff, Option.map_eq_some_iff]
    constructor
    · rintro ⟨a, b, ha, hb, rfl⟩
      exact ⟨a, ha, b, hb, rfl⟩
    · rintro ⟨a, ha, b, hb, rfl⟩
      exact ⟨a, b, ha, hb, rfl⟩

lemma gather_skip {ι α : Type*} (p : ι → Prop) [DecidablePred p] (f : ι → Option (List α)) (l : List ι) :
    gather (fun i => if p i then some [] else f i) l = gather f (l.filter fun i => ¬ p i) := by
  induction l with
  | nil => rfl
  | cons i l ih =>
    by_cases hp : p i
    · rw [gather, if_pos hp, List.filter_cons_of_neg (by simpa using hp), ← ih]
      simp
    · rw [gather, if_neg hp, List.filter_cons_of_pos (by simpa using hp), gather, ih]

lemma gather_map {ι κ α : Type*} (f : κ → Option (List α)) (g : ι → κ) (l : List ι) :
    gather f (l.map g) = gather (fun i => f (g i)) l := by
  induction l with
  | nil => rfl
  | cons i l ih => rw [List.map_cons, gather, gather, ih]

/-- The first function, and the other ones that are there. -/
lemma gather_functions {α : Type*} (f : BitVec 8 → Option (List α)) (p : BitVec 8 → Prop) [DecidablePred p]
    (multi : Bool) :
    ((f 0).bind fun first => (if multi then gather (fun g => if p g then some [] else f g) otherFunctions
      else some []).map fun rest => first ++ rest) =
    gather f (0 :: if multi then otherFunctions.filter fun g => ¬ p g else []) := by
  cases multi
  · simp [gather]
  · rw [if_pos rfl, if_pos rfl, gather_skip, gather]

lemma enumerateSlot_eq (f : BitVec 8 → BitVec 8 → BitVec 8 → Option (List PciDevice)) (bus slot : BitVec 8) :
    enumerateSlot read f bus slot = gather (f bus slot) (functionsOf read bus slot) := by
  unfold enumerateSlot functionsOf
  split_ifs with habsent
  · rfl
  · exact gather_functions (f bus slot) (absent read bus slot) true
  · exact gather_functions (f bus slot) (absent read bus slot) false

lemma enumerateBus_eq (fuel : ℕ) (bus : BitVec 8) : enumerateBus read fuel bus = (levels read).visit fuel bus := by
  induction fuel generalizing bus with
  | zero => rfl
  | succ fuel ih =>
    have hvisit : enumerateBus read fuel = (levels read).visit fuel := funext ih
    have hitem : ∀ slot function, enumerateFunction read fuel (enumerateBus read fuel) bus slot function =
        ((levels read).below ((levels read).visit fuel) (bus, slot, function)).bind fun r =>
          ((levels read).own fuel (bus, slot, function)).map fun a => r ++ [a] := by
      intro slot function
      rw [hvisit]
      unfold enumerateFunction Levels.below levels secondaryBus pushedDevice
      dsimp only
      split_ifs <;> rfl
    have hslots : enumerateSlot read (enumerateFunction read fuel (enumerateBus read fuel)) bus =
        fun slot => gather ((fun i => ((levels read).below ((levels read).visit fuel) i).bind fun r =>
          ((levels read).own fuel i).map fun a => r ++ [a]))
          ((functionsOf read bus slot).map fun function => (bus, slot, function)) := by
      funext slot
      rw [enumerateSlot_eq, gather_map]
      exact congrArg (gather · _) (funext (hitem slot))
    rw [enumerateBus, Levels.visit, hslots, ← gather_flatMap]
    rfl

/-- The enumeration is a traversal from the buses that it begins with. -/
lemma pciInit_eq (fuel : ℕ) : pciInit read fuel = gather ((levels read).visit fuel) (rootBuses read) := by
  have hvisit : enumerateBus read fuel = (levels read).visit fuel := funext (enumerateBus_eq fuel)
  rw [pciInit, hvisit]
  exact gather_functions ((levels read).visit fuel) (absent read 0 0) (multifunction read 0 0)

end Levels

/-- The enumeration ends and pushes every function at most once, exactly if the capability pointers of all functions
that are reached come to 0, and no bus that has a function is entered twice: as a bus that `pci_init` begins with, or
from a bridge that is reached. -/
theorem pciInit_iff (read : PciRead) :
    (∃ fuel devices, pciInit read fuel = some devices ∧ (devices.map PciDevice.location).Nodup) ↔
    (∀ bus, (levels read).Reached (rootBuses read) bus → ∀ l ∈ functionsOn read bus, CapabilitiesEnd read l) ∧
      (levels read).EnteredOnce (rootBuses read) := by
  have hfinite : Finite (BitVec 8) :=
    Finite.of_equiv (Fin (2 ^ 8)) ⟨BitVec.ofFin, BitVec.toFin, fun _ => rfl, fun _ => rfl⟩
  have hroots : (rootBuses read).Nodup := by
    unfold rootBuses
    split_ifs
    · exact others_nodup _
    · exact List.nodup_singleton 0
  simp only [pciInit_eq]
  rw [show PciDevice.location = (levels read).key from rfl, Levels.traversal_iff (levels read) hroots, Levels.Ends]
  simp only [← exists_pushedDevice]
  rfl

/-- A configuration space with one function, that reads as `values` does. -/
def oneFunction (values : BitVec 16 → BitVec 32) : PciRead := fun bus slot function offset _ =>
  if (bus, slot, function) = ((0, 0, 0) : Location) then values offset else 0xffffffff

/-- A bridge that nobody has given a secondary bus. -/
def bridge : PciRead := oneFunction fun offset =>
  if offset = pciConfigId then 0x00011b36 else if offset = pciConfigClass then 0x06040000 else 0

/-- A device whose only capability is its own successor. -/
def circular : PciRead := oneFunction fun offset =>
  if offset = pciConfigId then 0x10001af4
  else if offset = pciConfigStatus then 0x0010
  else if offset = pciConfigCapabilities then 0x40
  else if offset = 0x41 then 0x40 else 0

theorem pciInit_circles : (¬ ∃ fuel devices, pciInit bridge fuel = some devices) ∧
    ¬ ∃ fuel devices, pciInit circular fuel = some devices := by
  constructor
  · rintro ⟨fuel, devices, h⟩
    rw [pciInit_eq] at h
    obtain ⟨l, hl, -⟩ := gather_part h (List.mem_cons_self ..)
    have hleads : (levels bridge).Leads 0 0 := ⟨(0, 0, 0), by decide +kernel, by decide +kernel⟩
    exact Levels.acyclic_of_visit hl (.single hleads)
  · rintro ⟨fuel, devices, h⟩
    rw [pciInit_eq] at h
    obtain ⟨l, hl, -⟩ := gather_part h (List.mem_cons_self ..)
    cases fuel with
    | zero => cases hl
    | succ fuel =>
      obtain ⟨r, dev, -, hdev, -⟩ := Levels.visit_item hl
        (show ((0, 0, 0) : Location) ∈ functionsOn circular 0 by decide +kernel)
      have hends : CapabilitiesEnd circular (0, 0, 0) := (exists_pushedDevice _).mp ⟨fuel, dev, hdev⟩
      obtain ⟨k, hk⟩ := hends (by decide +kernel)
      have hstay : nextCapability circular (0, 0, 0) 0x40 = 0x40 := by decide +kernel
      have hfirst : read8 circular 0 0 0 pciConfigCapabilities = 0x40 := by decide +kernel
      rw [hfirst, Function.iterate_fixed hstay] at hk
      exact absurd hk (by decide)

end PiggyOs.PciEnumeration
