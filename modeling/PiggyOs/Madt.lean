import PiggyOs.ByteMemory

/-! The walk of `madt_init` over the interrupt controllers of the MADT. A table is given by the bytes of memory from its
beginning on, of which it says itself how many are its own. The bytes that the walk reads and the places of the two
arrays that it writes are kept in a list; `ioapic_init` is taken to return. -/
namespace PiggyOs.Madt
open ByteMemory

def isaIrqNum : ℕ := 16
def isrNum : ℕ := 256
def lapicNmiNum : ℕ := 2

def madtIoapicEntry : BitVec 8 := 1
def madtIsoEntry : BitVec 8 := 2
def madtLapicNmiEntry : BitVec 8 := 4
def madtLapicAddrOverrideEntry : BitVec 8 := 5

def sizeofMadt : ℕ := 44

def sdtLength (t : Memory) : ℕ := readNat t 4 4

/-- The sum of all bytes of a table. -/
def verifyChecksum (sdt : Memory) : Bool :=
  decide ((readBytes sdt 0 (sdtLength sdt)).foldl (fun sum b => sum + b) 0 = (0 : BitVec 8))

/-- A byte of the table, or a place of `madt_iso_entries` or `madt_lapic_nmi_entries`. -/
inductive Access
  | byte (offset : ℕ)
  | iso (index : ℕ)
  | lapicNmi (index : ℕ)
  deriving DecidableEq, Repr

def Access.Inside (length : ℕ) : Access → Prop
  | .byte offset => offset < length
  | .iso index => index < isaIrqNum
  | .lapicNmi index => index < lapicNmiNum

def field (p offset n : ℕ) : List Access := (List.range n).map fun k => .byte (p + offset + k)

/-- The calls of `ioapic_init`, and where the entries in the two arrays begin. -/
structure State where
  lapicAddr : BitVec 64
  ioapics : List (BitVec 8 × ℕ × ℕ)
  isoEntries : ℕ → Option ℕ
  lapicNmiEntries : ℕ → Option ℕ
  accesses : List Access

def State.touch (s : State) (accesses : List Access) : State := { s with accesses := s.accesses ++ accesses }

/-- The entry at `p`. -/
def madtEntry (t : Memory) (p : ℕ) (s : State) : State :=
  if t p = madtIoapicEntry then
    let gsiBase := readNat t (p + 8) 4
    if gsiBase < isrNum then
      { s.touch (field p 8 4 ++ field p 2 1 ++ field p 4 4) with
        ioapics := s.ioapics ++ [(t (p + 2), readNat t (p + 4) 4, gsiBase)] }
    else s.touch (field p 8 4 ++ field p 2 1)
  else if t p = madtIsoEntry then
    if readNat t (p + 4) 4 < isaIrqNum then
      if t (p + 2) = 0 then
        let irqSource := (t (p + 3)).toNat
        { s.touch (field p 4 4 ++ field p 2 1 ++ field p 3 1 ++ [.iso irqSource]) with
          isoEntries := Function.update s.isoEntries irqSource (some p) }
      else s.touch (field p 4 4 ++ field p 2 1)
    else s.touch (field p 4 4)
  else if t p = madtLapicNmiEntry then
    let lint := (t (p + 5)).toNat
    { s.touch (field p 5 1 ++ [.lapicNmi lint]) with
      lapicNmiEntries := Function.update s.lapicNmiEntries lint (some p) }
  else if t p = madtLapicAddrOverrideEntry then { s.touch (field p 4 8) with lapicAddr := read64 t (p + 4) }
  else s

def madtWalk (t : Memory) : ℕ → ℕ → State → Option State
  | 0, _, _ => none
  | fuel + 1, p, s =>
      if p < sdtLength t then
        madtWalk t fuel (p + (t (p + 1)).toNat) ((madtEntry t p (s.touch (field p 0 1))).touch (field p 1 1))
      else some s

/-- `lapic_addr` and `flags` are read before the walk. -/
def headerAccesses : List Access := field 0 40 4 ++ field 0 36 4

def madtInit (t : Memory) (fuel : ℕ) : Option State :=
  madtWalk t fuel sizeofMadt
    { lapicAddr := BitVec.ofNat 64 (readNat t 36 4), ioapics := [], isoEntries := fun _ => none,
      lapicNmiEntries := fun _ => none, accesses := [] }

/-- The walk ends, inside the table and the two arrays. -/
def Robust (t : Memory) : Prop := ∃ fuel s, madtInit t fuel = some s ∧ ∀ a ∈ s.accesses, a.Inside (sdtLength t)

/-- The places of the entries from the one at the first place on. -/
inductive Entries (t : Memory) : ℕ → ℕ → Prop
  | here (p : ℕ) : Entries t p p
  | next {p q : ℕ} : p < sdtLength t → Entries t (p + (t (p + 1)).toNat) q → Entries t p q

/-- The entry has a length, its fields that are looked at are in the table, and its interrupt is one of the array. -/
structure Fits (t : Memory) (p : ℕ) : Prop where
  length : 0 < (t (p + 1)).toNat
  header : p + 2 ≤ sdtLength t
  ioapic : t p = madtIoapicEntry → p + 12 ≤ sdtLength t
  iso : t p = madtIsoEntry → p + 8 ≤ sdtLength t ∧
    (readNat t (p + 4) 4 < isaIrqNum → t (p + 2) = 0 → (t (p + 3)).toNat < isaIrqNum)
  lapicNmi : t p = madtLapicNmiEntry → p + 6 ≤ sdtLength t ∧ (t (p + 5)).toNat < lapicNmiNum
  addressOverride : t p = madtLapicAddrOverrideEntry → p + 12 ≤ sdtLength t

section Walks
variable {t : Memory} {p q fuel length : ℕ} {s s' : State}

lemma field_inside {offset n : ℕ} (hn : 0 < n) :
    (∀ a ∈ field p offset n, a.Inside length) ↔ p + offset + n ≤ length := by
  simp only [field, List.forall_mem_map, List.mem_range, Access.Inside]
  constructor
  · intro h
    have := h (n - 1) (by omega)
    omega
  · intro h k hk
    omega

lemma inside_iso (index : ℕ) : (Access.iso index).Inside length ↔ index < isaIrqNum := Iff.rfl

lemma inside_lapicNmi (index : ℕ) : (Access.lapicNmi index).Inside length ↔ index < lapicNmiNum := Iff.rfl

lemma accesses_touch (accesses : List Access) : (s.touch accesses).accesses = s.accesses ++ accesses := rfl

/-- What one entry touches. -/
lemma madtEntry_accesses (t : Memory) (p : ℕ) (s : State) : ∃ accesses,
    (madtEntry t p s).accesses = s.accesses ++ accesses ∧
    ((∀ a ∈ accesses, a.Inside (sdtLength t)) ↔
      (t p = madtIoapicEntry → p + 12 ≤ sdtLength t) ∧
      (t p = madtIsoEntry → p + 8 ≤ sdtLength t ∧
        (readNat t (p + 4) 4 < isaIrqNum → t (p + 2) = 0 → (t (p + 3)).toNat < isaIrqNum)) ∧
      (t p = madtLapicNmiEntry → p + 6 ≤ sdtLength t ∧ (t (p + 5)).toNat < lapicNmiNum) ∧
      (t p = madtLapicAddrOverrideEntry → p + 12 ≤ sdtLength t)) := by
  unfold madtEntry
  by_cases h1 : t p = madtIoapicEntry
  · obtain ⟨h2, h4, h5⟩ : t p ≠ madtIsoEntry ∧ t p ≠ madtLapicNmiEntry ∧ t p ≠ madtLapicAddrOverrideEntry := by
      rw [h1]
      decide
    rw [if_pos h1]
    dsimp only
    split_ifs
    · refine ⟨field p 8 4 ++ field p 2 1 ++ field p 4 4, rfl, ?_⟩
      simp (disch := decide) only [List.forall_mem_append, field_inside, eq_true h1, h2, h4, h5, true_imp_iff,
        false_imp_iff, and_true]
      omega
    · refine ⟨field p 8 4 ++ field p 2 1, rfl, ?_⟩
      simp (disch := decide) only [List.forall_mem_append, field_inside, eq_true h1, h2, h4, h5, true_imp_iff,
        false_imp_iff, and_true]
      omega
  rw [if_neg h1]
  by_cases h2 : t p = madtIsoEntry
  · obtain ⟨h4, h5⟩ : t p ≠ madtLapicNmiEntry ∧ t p ≠ madtLapicAddrOverrideEntry := by
      rw [h2]
      decide
    rw [if_pos h2]
    split_ifs with hgsi hbus
    · refine ⟨field p 4 4 ++ field p 2 1 ++ field p 3 1 ++ [.iso (t (p + 3)).toNat], rfl, ?_⟩
      simp (disch := decide) only [List.forall_mem_append, List.forall_mem_singleton, field_inside, inside_iso, h1,
        eq_true h2, h4, h5, hgsi, eq_true hbus, true_imp_iff, false_imp_iff, and_true, true_and]
      omega
    · refine ⟨field p 4 4 ++ field p 2 1, rfl, ?_⟩
      simp (disch := decide) only [List.forall_mem_append, field_inside, h1, eq_true h2, h4, h5, hbus, true_imp_iff,
        false_imp_iff, imp_true_iff, and_true, true_and]
      omega
    · refine ⟨field p 4 4, rfl, ?_⟩
      simp (disch := decide) only [field_inside, h1, eq_true h2, h4, h5, hgsi, true_imp_iff, false_imp_iff, and_true,
        true_and]
  rw [if_neg h2]
  by_cases h4 : t p = madtLapicNmiEntry
  · have h5 : t p ≠ madtLapicAddrOverrideEntry := by
      rw [h4]
      decide
    rw [if_pos h4]
    refine ⟨field p 5 1 ++ [.lapicNmi (t (p + 5)).toNat], rfl, ?_⟩
    simp (disch := decide) only [List.forall_mem_append, List.forall_mem_singleton, field_inside, inside_lapicNmi, h1,
      h2, eq_true h4, h5, true_imp_iff, false_imp_iff, and_true, true_and]
  rw [if_neg h4]
  by_cases h5 : t p = madtLapicAddrOverrideEntry
  · rw [if_pos h5]
    refine ⟨field p 4 8, rfl, ?_⟩
    simp (disch := decide) only [field_inside, h1, h2, h4, eq_true h5, true_imp_iff, false_imp_iff, true_and]
  · rw [if_neg h5]
    exact ⟨[], by simp, by simp [h1, h2, h4, h5]⟩

/-- One round of the walk. -/
lemma round_accesses (t : Memory) (p : ℕ) (s : State) : ∃ accesses,
    ((madtEntry t p (s.touch (field p 0 1))).touch (field p 1 1)).accesses = s.accesses ++ accesses ∧
    (0 < (t (p + 1)).toNat → ((∀ a ∈ accesses, a.Inside (sdtLength t)) ↔ Fits t p)) := by
  obtain ⟨accesses, heq, hiff⟩ := madtEntry_accesses t p (s.touch (field p 0 1))
  refine ⟨field p 0 1 ++ accesses ++ field p 1 1, ?_, fun hlen => ?_⟩
  · rw [accesses_touch, heq, accesses_touch, List.append_assoc, List.append_assoc, List.append_assoc]
  · rw [List.forall_mem_append, List.forall_mem_append, field_inside Nat.one_pos, field_inside Nat.one_pos, hiff]
    constructor
    · rintro ⟨⟨-, h1, h2, h4, h5⟩, h⟩
      exact ⟨hlen, by omega, h1, h2, h4, h5⟩
    · intro h
      have := h.header
      exact ⟨⟨by omega, h.ioapic, h.iso, h.lapicNmi, h.addressOverride⟩, by omega⟩

/-- An entry of length 0 is walked over forever. -/
lemma madtWalk_stuck (hp : p < sdtLength t) (hlen : (t (p + 1)).toNat = 0) : madtWalk t fuel p s = none := by
  induction fuel generalizing s with
  | zero => rfl
  | succ fuel ih =>
    rw [madtWalk, if_pos hp, hlen]
    exact ih

lemma madtWalk_accesses (h : madtWalk t fuel p s = some s') : ∀ a ∈ s.accesses, a ∈ s'.accesses := by
  induction fuel generalizing p s with
  | zero => cases h
  | succ fuel ih =>
    intro a ha
    rw [madtWalk] at h
    split_ifs at h with hp
    · obtain ⟨accesses, heq, -⟩ := round_accesses t p s
      apply ih h
      rw [heq]
      exact List.mem_append_left _ ha
    · cases h
      exact ha

/-- A walk that ends inside has only seen entries that fit. -/
lemma fits_of_walk (h : madtWalk t fuel p s = some s') (hinside : ∀ a ∈ s'.accesses, a.Inside (sdtLength t))
    (hq : Entries t p q) (hlt : q < sdtLength t) : Fits t q := by
  induction fuel generalizing p s with
  | zero => cases h
  | succ fuel ih =>
    have hp : p < sdtLength t := by
      cases hq with
      | here => exact hlt
      | next hp _ => exact hp
    have hlen : 0 < (t (p + 1)).toNat := by
      by_contra hzero
      rw [madtWalk_stuck hp (by omega)] at h
      cases h
    rw [madtWalk, if_pos hp] at h
    cases hq with
    | next _ hq => exact ih h hq
    | here =>
      obtain ⟨accesses, heq, hiff⟩ := round_accesses t q s
      have hmem := madtWalk_accesses h
      rw [heq] at hmem
      exact (hiff hlen).mp fun a ha => hinside a (hmem a (List.mem_append_right _ ha))

/-- Entries that fit lead to the end of the table. -/
lemma walk_of_fits (hinside : ∀ a ∈ s.accesses, a.Inside (sdtLength t))
    (hfits : ∀ q, Entries t p q → q < sdtLength t → Fits t q) :
    ∃ fuel s', madtWalk t fuel p s = some s' ∧ ∀ a ∈ s'.accesses, a.Inside (sdtLength t) := by
  induction hn : sdtLength t - p using Nat.strong_induction_on generalizing p s with
  | _ n ih =>
    by_cases hp : p < sdtLength t
    · have hfit := hfits p (.here p) hp
      have hlen := hfit.length
      obtain ⟨accesses, heq, hiff⟩ := round_accesses t p s
      obtain ⟨fuel, s', hwalk, hend⟩ := ih (sdtLength t - (p + (t (p + 1)).toNat)) (by omega)
        (s := (madtEntry t p (s.touch (field p 0 1))).touch (field p 1 1))
        (by
          rw [heq, List.forall_mem_append]
          exact ⟨hinside, (hiff hlen).mpr hfit⟩)
        (fun q hq => hfits q (.next hp hq)) rfl
      exact ⟨fuel + 1, s', by rwa [madtWalk, if_pos hp], hend⟩
    · exact ⟨1, s, by rw [madtWalk, if_neg hp], hinside⟩

end Walks

/-- The walk is robust exactly on the tables whose entries, each found by the lengths of those before it, all fit. The
fields that are read before it are in the table if it is as long as its header. -/
theorem madtInit_robust_iff (t : Memory) :
    (Robust t ↔ ∀ p, Entries t sizeofMadt p → p < sdtLength t → Fits t p) ∧
    ((∀ a ∈ headerAccesses, a.Inside (sdtLength t)) ↔ sizeofMadt ≤ sdtLength t) := by
  constructor
  · constructor
    · rintro ⟨fuel, s, hwalk, hinside⟩ p hp hlt
      exact fits_of_walk hwalk hinside hp hlt
    · intro hfits
      exact walk_of_fits (by simp) hfits
  · rw [headerAccesses, List.forall_mem_append, field_inside (by decide), field_inside (by decide), sizeofMadt]
    omega

/-- A table of 46 bytes with an entry of length 0. -/
def zeroLength : Memory := fun k => if k = 4 then 46 else if k = 9 then 210 else 0

/-- A table of 54 bytes that says where the interrupt 16 of the ISA bus goes. -/
def isoSixteen : Memory := fun k =>
  if k = 4 then 54 else if k = 9 then 174 else if k = 44 then 2 else if k = 45 then 10 else if k = 47 then 16 else 0

theorem madtInit_not_robust : (verifyChecksum zeroLength = true ∧ ¬ Robust zeroLength) ∧
    (verifyChecksum isoSixteen = true ∧ ¬ Robust isoSixteen) := by
  have hzero : sdtLength zeroLength = 46 := by decide
  refine ⟨⟨by decide, ?_⟩, ⟨by decide, ?_⟩⟩
  · rintro ⟨fuel, s, hwalk, -⟩
    rw [madtInit, madtWalk_stuck (by decide) (by decide)] at hwalk
    cases hwalk
  · rintro ⟨fuel, s, hwalk, hinside⟩
    have hfit := fits_of_walk hwalk hinside (.here _) (by decide)
    exact absurd ((hfit.iso (by decide)).2 (by decide) (by decide)) (by decide)

end PiggyOs.Madt
