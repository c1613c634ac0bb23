import PiggyOs.AddressSpace

/-! How the processor translates an address. Every entry on the way to a page limits what is
allowed there. The links that `vmm_map_page` writes for a page of a user program limit nothing, so
only the entry of the page itself counts. -/
namespace PiggyOs.Vmm
open ByteMemory Walk

/-- What an entry, or all entries on the way, allow to a user program. -/
structure Access where
  user : Bool
  writable : Bool
  executable : Bool
  deriving DecidableEq, Repr

def accessOf (e : BitVec 64) : Access where
  user := decide (e &&& pteUser ≠ 0)
  writable := decide (e &&& pteWritable ≠ 0)
  executable := decide (e &&& pteNx = 0)

def Access.meet (a b : Access) : Access where
  user := a.user && b.user
  writable := a.writable && b.writable
  executable := a.executable && b.executable

def Access.all : Access := ⟨true, true, true⟩

@[simp] lemma Access.all_meet (a : Access) : Access.all.meet a = a := rfl

/-- The processor's walk to a page of 4 KiB: its frame, and what all entries on the way allow. -/
def translate {σ : Type} (m : Machine σ) : ℕ → List (Fin 512) → Option (ℕ × Access)
  | _, [] => none
  | t, [i] =>
      if Present (m.entry t i) then some (frameOf (m.entry t i), accessOf (m.entry t i)) else none
  | t, i :: j :: is =>
      if Present (m.entry t i) ∧ ¬ Large (m.entry t i) then
        (translate m (frameOf (m.entry t i)) (j :: is)).map fun r =>
          (r.1, (accessOf (m.entry t i)).meet r.2)
      else none

/-- A link to the next table that limits nothing. -/
structure OpenLink (e : BitVec 64) : Prop where
  access : accessOf e = Access.all
  small : ¬ Large e

lemma accessOf_eq (e : BitVec 64) : accessOf e = ⟨e.getLsbD 2, e.getLsbD 1, !e.getLsbD 63⟩ := by
  have huser : e &&& pteUser ≠ 0 ↔ e.getLsbD 2 = true := and_twoPow_ne_zero e (k := 2) (by decide)
  have hwrite : e &&& pteWritable ≠ 0 ↔ e.getLsbD 1 = true := and_twoPow_ne_zero e (k := 1) (by decide)
  have hnx : e &&& pteNx ≠ 0 ↔ e.getLsbD 63 = true := and_twoPow_ne_zero e (k := 63) (by decide)
  rw [accessOf, Access.mk.injEq]
  refine ⟨?_, ?_, ?_⟩
  · rw [Bool.eq_iff_iff, decide_eq_true_eq, huser]
  · rw [Bool.eq_iff_iff, decide_eq_true_eq, hwrite]
  · rw [Bool.eq_iff_iff, decide_eq_true_eq, ← not_iff_not, ← Ne, hnx]
    simp

lemma ofNat_high_bit {f : ℕ} (hf : f * pageSize < 2 ^ 63) :
    (BitVec.ofNat 64 (f * pageSize)).getLsbD 63 = false := by
  rw [BitVec.getLsbD_ofNat, Nat.testBit_lt_two_pow hf, Bool.and_false]

/-- The address of a frame adds nothing to what the flags allow. -/
lemma accessOf_or {f : ℕ} (hf : f * pageSize < 2 ^ 63) (flags : BitVec 64) :
    accessOf (BitVec.ofNat 64 (f * pageSize) ||| flags) = accessOf flags := by
  simp only [accessOf_eq, BitVec.getLsbD_or, ofNat_high_bit hf,
    ofNat_low_bit (f := f) (k := 1) (by decide), ofNat_low_bit (f := f) (k := 2) (by decide), Bool.false_or]

lemma openLink_link {f : ℕ} {flags : BitVec 64} (hf : f * pageSize < 2 ^ 63) (hu : flags &&& pteUser ≠ 0) :
    OpenLink (link f flags) where
  access := by
    have huser : flags.getLsbD 2 = true := (and_twoPow_ne_zero flags (k := 2) (by decide)).mp hu
    have h2 : maskedFlags.getLsbD 2 = true := by decide
    have h63 : maskedFlags.getLsbD 63 = false := by decide
    have hw : pteWritable.getLsbD 1 = true := by decide
    have hw63 : pteWritable.getLsbD 63 = false := by decide
    rw [link, accessOf_or hf, accessOf_eq]
    simp only [BitVec.getLsbD_or, BitVec.getLsbD_and, huser, h2, h63, hw, hw63]
    simp [Access.all]
  small := not_large_link f flags

section Tables
variable {σ : Type} {highVma : ℕ} {src : PageSource σ highVma} {U : Fin 512 → Prop}
  {m m' : Machine σ} {top n t f : ℕ} {i : Fin 512} {π : List (Fin 512)}

/-- All links of the tree limit nothing. -/
def OpenTables (U : Fin 512 → Prop) (top n : ℕ) (m : Machine σ) : Prop :=
  ∀ π i, π ++ [i] ∈ words U n → ∀ t, walk m.next top π = some t → Present (m.entry t i) →
    OpenLink (m.entry t i)

/-- The links depend on the bytes of the tables only. -/
lemma OpenTables.congr (ho : OpenTables U top n m)
    (hwalk : ∀ ρ ∈ words U n, walk m'.next top ρ = walk m.next top ρ)
    (hb : ∀ ρ ∈ words U n, ∀ s, walk m.next top ρ = some s → ∀ b, b / pageSize = s → m'.mem b = m.mem b) :
    OpenTables U top n m' := by
  intro π i hπi t hw hp
  have hπ := words_prefixClosed U n π i hπi
  rw [hwalk π hπ] at hw
  rw [entry_congr (hb π hπ t hw)] at hp ⊢
  exact ho π i hπi t hw hp

lemma OpenTables.linked {flags : BitVec 64} (ho : OpenTables U top n m)
    (hg : Grown U m m' top n t f i π) (hl : Linked src m m' t i f (link f flags))
    (hu : flags &&& pteUser ≠ 0) : OpenTables U top n m' := by
  intro ρ j hρj s hs hp
  have hρ := words_prefixClosed U n ρ j hρj
  rcases hg.cases ρ hρ s hs with ⟨rfl, rfl⟩ | ⟨-, hs⟩
  · have hnone := hg.leaf j
    rw [next_present hp] at hnone
    simp at hnone
  · by_cases hj : s = t ∧ j = i
    · rw [hl.entry, if_pos hj]
      exact openLink_link hl.low hu
    · rw [hg.same ρ hρ s hs j hj] at hp ⊢
      exact ho ρ j hρj s hs hp

/-- Writing an entry of a table that maps pages is no link. -/
lemma OpenTables.setEntry {e : BitVec 64} (ho : OpenTables U top n m) (inv : TreeInv src U m top n)
    (hπ : walk m.next top π = some t) (hπW : π ∈ words U n) (hn : π.length = n) :
    OpenTables U top n (m.setEntry t i e) := by
  have hW := words_prefixClosed U n
  have hoff : AgreeOff m.next (m.setEntry t i e).next top (words U n) t i := by
    intro ρ _ s _ j hj
    refine next_congr ?_
    rw [entry_setEntry, if_neg hj]
  intro ρ j hρj s hs hp
  have hρ := hW ρ j hρj
  have hlen := hρj.1
  rw [List.length_append, List.length_singleton] at hlen
  rw [walk_of_avoids hoff inv.tree hπ hπW (hW.strict hρ) fun h => ?_] at hs
  · have hne : ¬ (s = t ∧ j = i) := by
      rintro ⟨rfl, -⟩
      rw [inv.tree ρ hρ π hπW s hs hπ] at hlen
      omega
    rw [entry_setEntry, if_neg hne] at hp ⊢
    exact ho ρ j hρj s hs hp
  · have hle := h.length_le
    rw [List.length_append, List.length_singleton] at hle
    omega

lemma OpenTables.ensureTable {flags : BitVec 64} {r : Option ℕ} (hv : 2 ^ 63 ≤ highVma)
    (ho : OpenTables U top n m) (inv : TreeInv src U m top n) (h0 : Taken src m.pmm 0)
    (hπ : walk m.next top π = some t) (hπi : π ++ [i] ∈ words U n) (hf : FlagsOnly flags)
    (hp : Present flags) (hu : flags &&& pteUser ≠ 0)
    (h : Vmm.ensureTable src.alloc m flags t i = some (r, m')) : OpenTables U top n m' := by
  rcases ensureTable_cases hv h with ⟨-, -, rfl⟩ | ⟨-, -, hl⟩ | ⟨-, f, -, -, hl⟩
  · exact ho
  · exact absurd h0 hl.fresh
  · exact ho.linked (inv.grown hπ hπi hf hp hl) hl hu

lemma OpenTables.ensureTables {flags : BitVec 64} {r : Option ℕ} {is : List (Fin 512)}
    (hv : 2 ^ 63 ≤ highVma) (ho : OpenTables U top n m) (inv : TreeInv src U m top n)
    (h0 : Taken src m.pmm 0) (hπ : walk m.next top π = some t) (hπi : π ++ is ∈ words U n)
    (hf : FlagsOnly flags) (hp : Present flags) (hu : flags &&& pteUser ≠ 0)
    (h : Vmm.ensureTables src.alloc flags m t is = some (r, m')) : OpenTables U top n m' := by
  induction is generalizing m t π with
  | nil =>
    simp only [Vmm.ensureTables, Option.some.injEq, Prod.mk.injEq] at h
    rwa [← h.2]
  | cons i is ih =>
    have hsplit : π ++ i :: is = (π ++ [i]) ++ is := by simp
    rw [hsplit] at hπi
    have hpre : π ++ [i] ∈ words U n :=
      (words_prefixClosed U n).prefix_mem (List.prefix_append _ _) hπi
    rw [Vmm.ensureTables] at h
    cases he : Vmm.ensureTable src.alloc m flags t i with
    | none => simp [he] at h
    | some x =>
      obtain ⟨r1, m1⟩ := x
      have ho1 := ho.ensureTable hv inv h0 hπ hpre hf hp hu he
      obtain ⟨u, rfl, inv1, h01, hw, -⟩ := inv.ensureTable hv h0 hπ hpre hf hp he
      rw [he] at h
      exact ih ho1 inv1 h01 hw hπi h

/-- The walk of the processor through open tables. -/
lemma OpenTables.translate_of_walk (ho : OpenTables U top n m) {ρ : List (Fin 512)} {s j : _}
    (hπ : walk m.next top π = some s) (hw : walk m.next s ρ = some t) (hρ : π ++ ρ ∈ words U n)
    (hp : Present (m.entry t j)) :
    translate m s (ρ ++ [j]) = some (frameOf (m.entry t j), accessOf (m.entry t j)) := by
  induction ρ generalizing π s with
  | nil =>
    obtain rfl : s = t := by simpa using hw
    exact if_pos hp
  | cons i ρ ih =>
    have hsplit : π ++ i :: ρ = (π ++ [i]) ++ ρ := by simp
    rw [hsplit] at hρ
    have hpre : π ++ [i] ∈ words U n :=
      (words_prefixClosed U n).prefix_mem (List.prefix_append _ _) hρ
    rw [walk_cons] at hw
    obtain ⟨u, hu, hw⟩ := Option.bind_eq_some_iff.mp hw
    have hpres : Present (m.entry s i) := by
      by_contra habs
      rw [next_absent habs] at hu
      simp at hu
    rw [next_present hpres] at hu
    obtain rfl : frameOf (m.entry s i) = u := Option.some.inj hu
    have hopen := ho π i hpre s hπ hpres
    have hto : walk m.next top (π ++ [i]) = some (frameOf (m.entry s i)) := by
      rw [walk_snoc, hπ, Option.bind_some, next_present hpres]
    have hrest := ih hto hw hρ
    obtain ⟨k, ks, hks⟩ : ∃ k ks, ρ ++ [j] = k :: ks := List.exists_cons_of_ne_nil (by simp)
    rw [List.cons_append, hks, translate, if_pos ⟨hpres, hopen.small⟩, ← hks, hrest, Option.map_some,
      hopen.access, Access.all_meet]

end Tables

section Pages
variable {σ : Type} {highVma : ℕ} {src : PageSource σ highVma} {U : Fin 512 → Prop}
  {m m' : Machine σ} {pm : Pagemap} {vaddr paddr flags : BitVec 64}

/-- The entry of the page of an address. -/
def leaf (m : Machine σ) (pm : Pagemap) (vaddr : BitVec 64) : Option (BitVec 64) :=
  entryAt m pm.topLevel (tablePath pm.hasLevel5 vaddr) (pml1Index vaddr)

lemma leaf_congr {w : BitVec 64} (h : pageIndices pm.hasLevel5 w = pageIndices pm.hasLevel5 vaddr) :
    leaf m pm w = leaf m pm vaddr := by
  obtain ⟨hpath, hlast⟩ := pageIndices_eq_iff.mp h
  rw [leaf, leaf, hpath, hlast]

lemma Updates.leaf {e : Option (BitVec 64)} {w : BitVec 64} (hu : Updates U pm m m' vaddr e)
    (hw : U (topIndex pm.hasLevel5 w)) :
    Vmm.leaf m' pm w =
      if pageIndices pm.hasLevel5 w = pageIndices pm.hasLevel5 vaddr then e else Vmm.leaf m pm w := by
  rw [Vmm.leaf, hu _ (tablePath_mem hw) (tablePath_length _ _) _]
  simp only [pageIndices_eq_iff]
  rfl

/-- What the processor makes of an address that is mapped behind open tables. -/
lemma OpenTables.translate (ho : OpenTables U pm.topLevel (depth pm.hasLevel5) m)
    (hU : U (topIndex pm.hasLevel5 vaddr)) {e : BitVec 64} (he : leaf m pm vaddr = some e) :
    Vmm.translate m pm.topLevel (pageIndices pm.hasLevel5 vaddr) = some (frameOf e, accessOf e) := by
  obtain ⟨t, hw, hp, rfl⟩ := entryAt_eq_some.mp he
  exact ho.translate_of_walk (π := []) walk_nil hw (tablePath_mem hU) hp

/-- `vmm_map_page` keeps the links open when it is asked for a page of a user program. -/
theorem vmmMapPage_open {b : Bool} (hv : 2 ^ 63 ≤ highVma)
    (ho : OpenTables U pm.topLevel (depth pm.hasLevel5) m)
    (inv : TreeInv src U m pm.topLevel (depth pm.hasLevel5)) (h0 : Taken src m.pmm 0)
    (hU : U (topIndex pm.hasLevel5 vaddr)) (hs : SmallPage flags) (hu : flags &&& pteUser ≠ 0)
    (h : vmmMapPage src.alloc m pm vaddr paddr flags = some (b, m')) :
    OpenTables U pm.topLevel (depth pm.hasLevel5) m' := by
  have hmem := tablePath_mem hU
  have hup := words_prefixClosed U _ _ _ hmem
  unfold vmmMapPage at h
  cases he : ensureTables src.alloc flags m pm.topLevel (upperIndices pm.hasLevel5 vaddr) with
  | none => simp [he] at h
  | some x =>
    obtain ⟨r, m1⟩ := x
    have ho1 := ho.ensureTables hv inv h0 (π := []) rfl hup hs.flagsOnly hs.present hu he
    obtain ⟨pml2, rfl, inv1, h01, hw1, -⟩ := inv.ensureTables hv h0 (π := []) rfl hup hs.flagsOnly
      hs.present he
    rw [List.nil_append] at hw1
    have hsmall : ¬ flags &&& pteSize ≠ 0 := hs.small
    simp only [he, if_neg hsmall] at h
    cases he2 : ensureTable src.alloc m1 flags pml2 (pml2Index vaddr) with
    | none => simp [he2] at h
    | some y =>
      obtain ⟨r2, m2⟩ := y
      have ho2 := ho1.ensureTable hv inv1 h01 hw1 hmem hs.flagsOnly hs.present hu he2
      obtain ⟨pml1, rfl, inv2, -, hw2, -⟩ := inv1.ensureTable hv h01 hw1 hmem hs.flagsOnly hs.present he2
      simp only [he2, Option.some.injEq, Prod.mk.injEq] at h
      rw [← h.2]
      exact ho2.setEntry inv2 hw2 hmem (tablePath_length _ _)

end Pages

/-- The end of the lower half of the address space. -/
def lowerHalfEnd (hasLevel5 : Bool) : ℕ := if hasLevel5 then 2 ^ 56 else 2 ^ 47

lemma lowerHalfEnd_le (five : Bool) : lowerHalfEnd five ≤ 2 ^ 56 := by cases five <;> decide

lemma lowerHalfEnd_aligned (five : Bool) : lowerHalfEnd five % pageSize = 0 := by cases five <;> decide

lemma user_topIndex_of_lt {five : Bool} {v : BitVec 64} (h : v.toNat < lowerHalfEnd five) :
    User (topIndex five v) := by
  rw [User]
  cases five with
  | false =>
    rw [lowerHalfEnd, if_neg Bool.false_ne_true] at h
    rw [topIndex, if_neg Bool.false_ne_true, pml4Index, index_val _ (by omega)]
    omega
  | true =>
    rw [lowerHalfEnd, if_pos rfl] at h
    rw [topIndex, if_pos rfl, pml5Index, index_val _ (by omega)]
    omega

/-- The number of a page from its indices. -/
lemma page_number_digits {n : ℕ} (h : n < 2 ^ 57) : n / pageSize = n / 2 ^ 48 % 512 * 2 ^ 36 +
    n / 2 ^ 39 % 512 * 2 ^ 27 + n / 2 ^ 30 % 512 * 2 ^ 18 + n / 2 ^ 21 % 512 * 2 ^ 9 + n / 2 ^ 12 % 512 := by
  rw [pageSize]
  omega

/-- An index above the bits in which two addresses may differ. -/
lemma index_congr {v w : BitVec 64} {low shift : ℕ} (h1 : low ≤ shift) (h2 : shift ≤ 55)
    (h : v.toNat / 2 ^ low = w.toNat / 2 ^ low) : index v shift = index w shift := by
  obtain ⟨k, rfl⟩ := Nat.exists_eq_add_of_le h1
  apply Fin.ext
  rw [index_val _ h2, index_val _ h2, pow_add, ← Nat.div_div_eq_div_mul, ← Nat.div_div_eq_div_mul]
  exact congrArg (· / 2 ^ k % 512) h

/-- Addresses of one page have the same indices. -/
lemma pageIndices_congr {v w : BitVec 64} (five : Bool) (h : v.toNat / pageSize = w.toNat / pageSize) :
    pageIndices five v = pageIndices five w := by
  have hpage : v.toNat / 2 ^ 12 = w.toNat / 2 ^ 12 := h
  have hindex : ∀ shift, 12 ≤ shift → shift ≤ 55 → index v shift = index w shift := fun _ h1 h2 =>
    index_congr h1 h2 hpage
  cases five with
  | false =>
    simp only [pageIndices, tablePath, upperIndices, Bool.false_eq_true, if_false, pml4Index, pml3Index,
      pml2Index, pml1Index, hindex 39 (by decide) (by decide), hindex 30 (by decide) (by decide),
      hindex 21 (by decide) (by decide), hindex 12 (by decide) (by decide)]
  | true =>
    simp only [pageIndices, tablePath, upperIndices, pml5Index, pml4Index, pml3Index, pml2Index, pml1Index,
      hindex 48 (by decide) (by decide), hindex 39 (by decide) (by decide), hindex 30 (by decide) (by decide),
      hindex 21 (by decide) (by decide), hindex 12 (by decide) (by decide)]

/-- In the lower half the indices determine the page. -/
theorem page_of_pageIndices {five : Bool} {v w : BitVec 64} (hv : v.toNat < lowerHalfEnd five)
    (hw : w.toNat < lowerHalfEnd five) (h : pageIndices five v = pageIndices five w) :
    v.toNat / pageSize = w.toNat / pageSize := by
  have hlow := lowerHalfEnd_le five
  have hall : index v 48 = index w 48 ∧ index v 39 = index w 39 ∧ index v 30 = index w 30 ∧
      index v 21 = index w 21 ∧ index v 12 = index w 12 := by
    cases five with
    | true =>
      simp only [pageIndices, tablePath, upperIndices, if_true, List.cons_append, List.nil_append,
        List.cons.injEq, and_true] at h
      exact h
    | false =>
      rw [lowerHalfEnd, if_neg Bool.false_ne_true] at hv hw
      simp only [pageIndices, tablePath, upperIndices, Bool.false_eq_true, if_false, List.cons_append,
        List.nil_append, List.cons.injEq, and_true] at h
      refine ⟨?_, h⟩
      apply Fin.ext
      rw [index_val _ (by decide), index_val _ (by decide)]
      omega
  simp only [Fin.ext_iff] at hall
  obtain ⟨h5, h4, h3, h2, h1⟩ := hall
  rw [index_val _ (by decide), index_val _ (by decide)] at h5 h4 h3 h2 h1
  rw [page_number_digits (by omega), page_number_digits (by omega), h5, h4, h3, h2, h1]

end PiggyOs.Vmm
