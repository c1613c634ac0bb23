import PiggyOs.LargePages
import PiggyOs.KernelHalf
import PiggyOs.Translation
import PiggyOs.BitmapInit

/-! The mappings that `vmm_init` makes: 2 MiB pages of physical memory at `HIGH_VMA`, for a fixed low
window and for the entries of the memory map, and the sections of the kernel in pages of 4 KiB. -/
namespace PiggyOs.Vmm
open ByteMemory Walk Transition

/-- Where the linker script puts the kernel. -/
def kernelStart : ℕ := 0xffffffff80000000

/-- The symbols of the linker script and the two addresses that the boot loader reports. -/
structure KernelImage where
  textStart : ℕ
  textEnd : ℕ
  rodataStart : ℕ
  rodataEnd : ℕ
  dataStart : ℕ
  dataEnd : ℕ
  virtualBase : BitVec 64
  physicalBase : BitVec 64
  deriving DecidableEq, Repr

def directFlags : BitVec 64 := ptePresent ||| pteWritable ||| pteSize ||| pteGlobal ||| pteNx

/-- The types of memory that `vmm_init` does not pass over. -/
def DirectMapped (type : Pmm.MemmapType) : Prop :=
  type = .usable ∨ type = .bootloaderReclaimable ∨ type = .kernelAndModules ∨ type = .framebuffer

instance (type : Pmm.MemmapType) : Decidable (DirectMapped type) :=
  inferInstanceAs (Decidable (_ ∨ _))

def bigpageCall (highVma paddr : ℕ) : MapCall :=
  ⟨BitVec.ofNat 64 (paddr + highVma), BitVec.ofNat 64 paddr, directFlags⟩

def lowCalls (highVma : ℕ) : List MapCall :=
  (List.range (0x800 - 1)).map fun i => bigpageCall highVma (i * bigpageSize)

def entryCalls (highVma : ℕ) (e : Pmm.MemmapEntry) : List MapCall :=
  if DirectMapped e.type then
    (List.range (divCeil e.length bigpageSize)).map fun j =>
      bigpageCall highVma (alignDown e.base bigpageSize + j * bigpageSize)
  else []

/-- The pages of a section of the kernel. -/
def sectionPages (first last : ℕ) : List (BitVec 64) :=
  (List.range ((alignUp last pageSize - alignDown first pageSize) / pageSize)).map fun i =>
    BitVec.ofNat 64 (alignDown first pageSize + i * pageSize)

def KernelImage.paddr (k : KernelImage) (vaddr : BitVec 64) : BitVec 64 := vaddr - k.virtualBase + k.physicalBase

def KernelImage.calls (k : KernelImage) : List MapCall :=
  (sectionPages k.textStart k.textEnd).map (fun v => ⟨v, k.paddr v / 0x1000 * 0x1000, ptePresent ||| pteGlobal⟩) ++
  (sectionPages k.rodataStart k.rodataEnd).map (fun v => ⟨v, k.paddr v, ptePresent ||| pteGlobal ||| pteNx⟩) ++
  (sectionPages k.dataStart k.dataEnd).map
    (fun v => ⟨v, k.paddr v, ptePresent ||| pteWritable ||| pteGlobal ||| pteNx⟩)

/-- The calls of `vmm_map_page`, in order. -/
def initCalls (highVma : ℕ) (entries : List Pmm.MemmapEntry) (k : KernelImage) : List MapCall :=
  lowCalls highVma ++ entries.flatMap (entryCalls highVma) ++ k.calls

def mapAll {σ : Type} (pmmAlloc : σ → ℕ → Option (ℕ × σ)) (pm : Pagemap) (calls : List MapCall) (m : Machine σ) :
    Option (Machine σ) :=
  calls.foldlM (fun m c => (vmmMapPage pmmAlloc m pm c.vaddr c.paddr c.flags).map Prod.snd) m

/-- `entries` is the memory map as `pmm_init` left it; `none` is a panic. -/
def vmmInit {σ : Type} (pmmAlloc : σ → ℕ → Option (ℕ × σ)) (highVma : ℕ) (level5 : Bool)
    (entries : List Pmm.MemmapEntry) (k : KernelImage) (m : Machine σ) : Option (Pagemap × Machine σ) :=
  match pmmAllocz pmmAlloc m 1 with
  | none => none
  | some (topLevel, m1) =>
      if topLevel = 0 then none
      else match fillKernelHalf pmmAlloc (topLevel / pageSize) m1 with
      | none => none
      | some m2 =>
          (mapAll pmmAlloc ⟨topLevel / pageSize, level5⟩ (initCalls highVma entries k) m2).map fun m3 =>
            (⟨topLevel / pageSize, level5⟩, m3)

/-- The physical address that the processor finds for a virtual one. -/
def physical {σ : Type} (m : Machine σ) (pm : Pagemap) (vaddr : BitVec 64) : Option ℕ :=
  match walk m.next pm.topLevel (upperIndices pm.hasLevel5 vaddr) with
  | none => none
  | some pml2 =>
      let e := m.entry pml2 (pml2Index vaddr)
      if ¬ Present e then none
      else if Large e then
        some (frameOf e * pageSize / bigpageSize * bigpageSize + vaddr.toNat % bigpageSize)
      else
        let leaf := m.entry (frameOf e) (pml1Index vaddr)
        if Present leaf then some (frameOf leaf * pageSize + vaddr.toNat % pageSize) else none

section Calls
variable {σ : Type} {highVma : ℕ} {src : PageSource σ highVma} {pm : Pagemap} {m m' : Machine σ}
  {D : Set MapCall} {c d : MapCall}

lemma physical_large {v e : BitVec 64}
    (he : entryAt m pm.topLevel (upperIndices pm.hasLevel5 v) (pml2Index v) = some e) (hl : Large e) :
    physical m pm v = some (frameOf e * pageSize / bigpageSize * bigpageSize + v.toNat % bigpageSize) := by
  obtain ⟨t, hw, hp, rfl⟩ := entryAt_eq_some.mp he
  simp only [physical, hw, if_neg (not_not.mpr hp), if_pos hl]

lemma physical_none {v : BitVec 64}
    (he : entryAt m pm.topLevel (upperIndices pm.hasLevel5 v) (pml2Index v) = none) : physical m pm v = none := by
  unfold physical
  cases hw : walk m.next pm.topLevel (upperIndices pm.hasLevel5 v) with
  | none => rfl
  | some t =>
    have hp : ¬ Present (m.entry t (pml2Index v)) := by
      intro hp
      rw [entryAt_eq_some.mpr ⟨t, hw, hp, rfl⟩] at he
      exact absurd he (Option.some_ne_none _)
    simp only [if_pos hp]

/-- Calls for the same slot ask for the same large page, or both for small pages. -/
def Coherent (hasLevel5 : Bool) (c d : MapCall) : Prop :=
  tablePath hasLevel5 c.vaddr = tablePath hasLevel5 d.vaddr →
    (Large c.flags ↔ Large d.flags) ∧ (Large c.flags → c.paddr ||| c.flags = d.paddr ||| d.flags)

/-- What the calls in `D` have made. -/
structure MappedInv (src : PageSource σ highVma) (pm : Pagemap) (D : Set MapCall) (m : Machine σ) : Prop where
  slots : SlotInv src (fun _ => True) m pm.topLevel (upperDepth pm.hasLevel5)
  mapped : ∀ c ∈ D, Large c.flags →
    entryAt m pm.topLevel (upperIndices pm.hasLevel5 c.vaddr) (pml2Index c.vaddr) = some (c.paddr ||| c.flags)
  only : ∀ ρ ∈ words (fun _ => True) (upperDepth pm.hasLevel5), ρ.length = upperDepth pm.hasLevel5 → ∀ j e,
    entryAt m pm.topLevel ρ j = some e →
      ∃ c ∈ D, tablePath pm.hasLevel5 c.vaddr = ρ ++ [j] ∧ (Large e → Large c.flags)

lemma NothingMapped.mappedInv (h : NothingMapped src m pm) : MappedInv src pm ∅ m := by
  refine ⟨h.callsInv.slots, fun c hc => absurd hc (Set.notMem_empty c), fun ρ hρ hn j e he => ?_⟩
  rw [h.none ρ hρ hn] at he
  exact absurd he (Option.some_ne_none e).symm

/-- Another call. -/
theorem MappedInv.call {b : Bool} (hv : 2 ^ 63 ≤ highVma) (inv : MappedInv src pm D m)
    (hcoh : ∀ d ∈ D, Coherent pm.hasLevel5 d c) (hf : PageFlags c.flags)
    (h : vmmMapPage src.alloc m pm c.vaddr c.paddr c.flags = some (b, m')) : MappedInv src pm (insert c D) m' := by
  have hmem := upperIndices_mem (U := fun _ => True) pm.hasLevel5 c.vaddr trivial
  have hlen := upperIndices_upperDepth pm.hasLevel5 c.vaddr
  have hpath : ∀ d : MapCall, upperIndices pm.hasLevel5 d.vaddr = upperIndices pm.hasLevel5 c.vaddr ∧
      pml2Index d.vaddr = pml2Index c.vaddr → tablePath pm.hasLevel5 d.vaddr = tablePath pm.hasLevel5 c.vaddr := by
    intro d hd
    rw [tablePath, tablePath, hd.1, hd.2]
  have hfinish : MapResult src (fun _ => True) pm m m' c.vaddr →
      (∃ e, entryAt m' pm.topLevel (upperIndices pm.hasLevel5 c.vaddr) (pml2Index c.vaddr) = some e ∧
        (Large c.flags → e = c.paddr ||| c.flags) ∧ (Large e → Large c.flags)) →
      MappedInv src pm (insert c D) m' := by
    rintro hr ⟨e, hat, heq, hle⟩
    refine ⟨hr.inv, fun d hd hl => ?_, fun ρ hρ hn j e' he' => ?_⟩
    · by_cases hsame : upperIndices pm.hasLevel5 d.vaddr = upperIndices pm.hasLevel5 c.vaddr ∧
          pml2Index d.vaddr = pml2Index c.vaddr
      · rw [hsame.1, hsame.2, hat]
        rcases hd with rfl | hd
        · rw [heq hl]
        · obtain ⟨hiff, hentry⟩ := hcoh d hd (hpath d hsame)
          rw [heq (hiff.mp hl), hentry hl]
      · rcases hd with rfl | hd
        · exact absurd ⟨rfl, rfl⟩ hsame
        · rw [hr.others _ (upperIndices_mem pm.hasLevel5 d.vaddr trivial) (upperIndices_upperDepth _ _) _ hsame]
          exact inv.mapped d hd hl
    · by_cases hsame : ρ = upperIndices pm.hasLevel5 c.vaddr ∧ j = pml2Index c.vaddr
      · obtain ⟨rfl, rfl⟩ := hsame
        rw [hat] at he'
        obtain rfl := Option.some.inj he'
        exact ⟨c, Set.mem_insert .., rfl, hle⟩
      · rw [hr.others ρ hρ hn j hsame] at he'
        obtain ⟨d, hd, hdpath, hdl⟩ := inv.only ρ hρ hn j e' he'
        exact ⟨d, Set.mem_insert_of_mem _ hd, hdpath, hdl⟩
  by_cases hl : Large c.flags
  · obtain ⟨-, hr, hat⟩ := vmmMapPage_large hv inv.slots trivial hf hl h
    exact hfinish hr ⟨_, hat, fun _ => rfl, fun _ => hl⟩
  · have hfree : ∀ e, entryAt m pm.topLevel (upperIndices pm.hasLevel5 c.vaddr) (pml2Index c.vaddr) = some e →
        ¬ Large e := by
      intro e he hle
      obtain ⟨d, hd, hdpath, hdl⟩ := inv.only _ hmem hlen _ e he
      exact hl ((hcoh d hd hdpath).1.mp (hdl hle))
    obtain ⟨-, hr, -, e, hat, hle⟩ := vmmMapPage_small hv inv.slots trivial ⟨hf.flagsOnly, hf.present, hl⟩ hfree h
    exact hfinish hr ⟨e, hat, fun hc => absurd hc hl, fun he => absurd he hle⟩

/-- All calls. -/
lemma MappedInv.calls {calls : List MapCall} (hv : 2 ^ 63 ≤ highVma) (inv : MappedInv src pm D m)
    (hcoh : ∀ c ∈ D ∪ {c | c ∈ calls}, ∀ d ∈ calls, Coherent pm.hasLevel5 c d)
    (hf : ∀ c ∈ calls, PageFlags c.flags) (h : mapAll src.alloc pm calls m = some m') :
    MappedInv src pm (D ∪ {c | c ∈ calls}) m' := by
  induction calls generalizing m D with
  | nil =>
    obtain rfl : m = m' := by simpa [mapAll] using h
    simpa using inv
  | cons c calls ih =>
    rw [mapAll, List.foldlM_cons] at h
    obtain ⟨m1, h1, h⟩ := Option.bind_eq_some_iff.mp h
    obtain ⟨⟨b, m1⟩, hc, rfl⟩ := Option.map_eq_some_iff.mp h1
    have hset : insert c D ∪ {d | d ∈ calls} = D ∪ {d | d ∈ c :: calls} := by
      ext d
      simp only [Set.mem_union, Set.mem_insert_iff, Set.mem_ofPred_eq, List.mem_cons]
      rw [or_assoc, or_left_comm]
    have hstep := inv.call hv (fun d hd => hcoh d (Or.inl hd) c List.mem_cons_self) (hf c List.mem_cons_self) hc
    rw [← hset] at hcoh ⊢
    exact ih hstep (fun d hd e he => hcoh d hd e (List.mem_cons_of_mem _ he)) (fun d hd => hf d (List.mem_cons_of_mem _ hd)) h

end Calls

section Start
variable {σ : Type} {highVma : ℕ} {src : PageSource σ highVma} {kernelTop : ℕ} {m m' : Machine σ} {D : Set (Fin 512)}

/-- The frames that the top level leads to. -/
def topFrame (m : Machine σ) (kernelTop : ℕ) (i : Fin 512) : ℕ := frameOf (m.entry kernelTop i)

lemma Filled.linked_apart {i : Fin 512} {f : ℕ} {e : BitVec 64} (hf : Filled src kernelTop D m)
    (hapart : Set.InjOn (topFrame m kernelTop) D) (hframe : frameOf e = f)
    (hl : Linked src m m' kernelTop i f e) : Set.InjOn (topFrame m' kernelTop) (insert i D) := by
  have hkf : kernelTop ≠ f := fun h => hl.fresh (h ▸ hf.top)
  have hself : topFrame m' kernelTop i = f := by rw [topFrame, hl.entry, if_pos ⟨rfl, rfl⟩, hframe]
  have hother : ∀ j, j ≠ i → topFrame m' kernelTop j = topFrame m kernelTop j := by
    intro j hj
    rw [topFrame, topFrame, hl.entry, if_neg fun h => hj h.2, if_neg hkf]
  have hne : ∀ j ∈ insert i D, j ≠ i → topFrame m' kernelTop j ≠ f := by
    intro j hj hji heq
    rw [hother j hji] at heq
    exact hl.fresh (heq ▸ hf.taken j (hj.resolve_left hji))
  intro j hj k hk heq
  by_cases hji : j = i
  · by_contra hjk
    refine hne k hk (fun h => hjk (hji.trans h.symm)) ?_
    rw [← heq, hji, hself]
  · by_cases hki : k = i
    · refine absurd ?_ (hne j hj hji)
      rw [heq, hki, hself]
    · rw [hother j hji, hother k hki] at heq
      exact hapart (hj.resolve_left hji) (hk.resolve_left hki) heq

lemma Filled.fill_apart {is : List (Fin 512)} (hv : 2 ^ 63 ≤ highVma) (hf : Filled src kernelTop D m)
    (hapart : Set.InjOn (topFrame m kernelTop) D)
    (h : is.foldlM (fun m i => (pmmAllocz src.alloc m 1).map fun r =>
      r.2.setEntry kernelTop i (BitVec.ofNat 64 r.1 ||| ptePresent ||| pteWritable)) m = some m') :
    Set.InjOn (topFrame m' kernelTop) (D ∪ {i | i ∈ is}) := by
  induction is generalizing m D with
  | nil =>
    obtain rfl : m = m' := by simpa using h
    simpa using hapart
  | cons i is ih =>
    rw [List.foldlM_cons] at h
    obtain ⟨m1, h1, h⟩ := Option.bind_eq_some_iff.mp h
    obtain ⟨⟨a, m0⟩, ha, rfl⟩ := Option.map_eq_some_iff.mp h1
    obtain ⟨f, rfl, hl⟩ := linked_of_allocz hv ha
    obtain ⟨hframe, hpres⟩ := kernelLink (hl kernelTop i 0).low
    have hstep := ih (hf.linked hframe hpres (hl kernelTop i _)) (hf.linked_apart hapart hframe (hl kernelTop i _)) h
    have hset : insert i D ∪ {j | j ∈ is} = D ∪ {j | j ∈ i :: is} := by
      ext j
      simp only [Set.mem_union, Set.mem_insert_iff, Set.mem_ofPred_eq, List.mem_cons]
      rw [or_assoc, or_left_comm]
    rwa [hset] at hstep

/-- The tables that the filled top level leads to. -/
lemma Filled.walk_cases {π : List (Fin 512)} {t : ℕ} (hf : Filled src kernelTop D m)
    (hw : walk m.next kernelTop π = some t) :
    (π = [] ∧ t = kernelTop) ∨ ∃ i ∈ D, π = [i] ∧ t = topFrame m kernelTop i := by
  cases π with
  | nil => exact Or.inl ⟨rfl, by simpa using hw.symm⟩
  | cons i π =>
    have hi : i ∈ D := by
      by_contra hi
      have habs : ¬ Present (m.entry kernelTop i) := by
        rw [hf.absent i hi]
        decide
      simp [walk_cons, next_absent habs] at hw
    rw [walk_cons, next_present (hf.present i hi), Option.bind_some] at hw
    cases π with
    | nil => exact Or.inr ⟨i, hi, rfl, by simpa [topFrame] using hw.symm⟩
    | cons j π =>
      have habs : ¬ Present (m.entry (frameOf (m.entry kernelTop i)) j) := by
        rw [hf.empty i hi]
        decide
      simp [walk_cons, next_absent habs] at hw

lemma Filled.nothingMapped {five : Bool} (hf : Filled src kernelTop D m)
    (hapart : Set.InjOn (topFrame m kernelTop) D) : NothingMapped src m ⟨kernelTop, five⟩ := by
  have hdeep : 2 ≤ upperDepth five := by cases five <;> decide
  refine ⟨hf.zero, ⟨?_, ?_, ?_⟩, fun ρ _ hn j => ?_⟩
  · intro π _ ρ _ t h1 h2
    rcases hf.walk_cases h1 with ⟨rfl, rfl⟩ | ⟨i, hi, rfl, rfl⟩
    · rcases hf.walk_cases h2 with ⟨rfl, -⟩ | ⟨k, hk, -, heq⟩
      · rfl
      · exact absurd heq.symm (hf.fresh k hk)
    · rcases hf.walk_cases h2 with ⟨-, heq⟩ | ⟨k, hk, rfl, heq⟩
      · exact absurd heq (hf.fresh i hi)
      · rw [hapart hi hk heq]
  · intro π _ t hw
    rcases hf.walk_cases hw with ⟨-, rfl⟩ | ⟨i, hi, -, rfl⟩
    · exact hf.top
    · exact hf.taken i hi
  · intro π _ hn t hw j
    rcases hf.walk_cases hw with ⟨rfl, -⟩ | ⟨i, hi, -, rfl⟩
    · simp only [List.length_nil] at hn
      omega
    · rw [topFrame, hf.empty i hi]
      decide
  · cases hw : walk m.next kernelTop ρ with
    | none => exact entryAt_of_walk_none hw j
    | some t =>
      rcases hf.walk_cases hw with ⟨rfl, -⟩ | ⟨i, hi, rfl, rfl⟩
      · simp only [List.length_nil] at hn
        omega
      · rw [entryAt, hw, Option.bind_some, topFrame, hf.empty i hi]
        rfl

end Start

section Slots

/-- The addresses above the user half that are canonical. -/
def upperHalfStart (hasLevel5 : Bool) : ℕ := if hasLevel5 then 2 ^ 64 - 2 ^ 56 else 2 ^ 64 - 2 ^ 47

lemma bigpage_digits (n : ℕ) : n / bigpageSize = n / 2 ^ 57 * 2 ^ 36 + n / 2 ^ 48 % 512 * 2 ^ 27 +
    n / 2 ^ 39 % 512 * 2 ^ 18 + n / 2 ^ 30 % 512 * 2 ^ 9 + n / 2 ^ 21 % 512 := by
  rw [bigpageSize]
  omega

/-- In the upper half a slot of `pml2` belongs to one page of 2 MiB. -/
lemma bigpage_of_tablePath {five : Bool} {v w : BitVec 64} (hv : upperHalfStart five ≤ v.toNat)
    (hw : upperHalfStart five ≤ w.toNat) (h : tablePath five v = tablePath five w) :
    v.toNat / bigpageSize = w.toNat / bigpageSize := by
  have hv64 := v.isLt
  have hw64 := w.isLt
  have hall : index v 48 = index w 48 ∧ index v 39 = index w 39 ∧ index v 30 = index w 30 ∧
      index v 21 = index w 21 := by
    cases five with
    | true =>
      simp only [tablePath, upperIndices, if_true, List.cons_append, List.nil_append, List.cons.injEq,
        and_true] at h
      exact h
    | false =>
      rw [upperHalfStart, if_neg Bool.false_ne_true] at hv hw
      simp only [tablePath, upperIndices, Bool.false_eq_true, if_false, List.cons_append, List.nil_append,
        List.cons.injEq, and_true] at h
      refine ⟨?_, h⟩
      apply Fin.ext
      rw [index_val _ (by decide), index_val _ (by decide)]
      omega
  have htop : v.toNat / 2 ^ 57 = w.toNat / 2 ^ 57 := by
    cases five with
    | true =>
      rw [upperHalfStart, if_pos rfl] at hv hw
      omega
    | false =>
      rw [upperHalfStart, if_neg Bool.false_ne_true] at hv hw
      omega
  simp only [Fin.ext_iff] at hall
  obtain ⟨h5, h4, h3, h2⟩ := hall
  rw [index_val _ (by decide), index_val _ (by decide)] at h5 h4 h3 h2
  rw [bigpage_digits, bigpage_digits w.toNat, htop, h5, h4, h3, h2]

lemma tablePath_of_bigpage (five : Bool) {v w : BitVec 64} (h : v.toNat / bigpageSize = w.toNat / bigpageSize) :
    upperIndices five v = upperIndices five w ∧ pml2Index v = pml2Index w := by
  have hpage : v.toNat / 2 ^ 21 = w.toNat / 2 ^ 21 := h
  have hindex : ∀ shift, 21 ≤ shift → shift ≤ 55 → index v shift = index w shift := fun _ h1 h2 =>
    index_congr h1 h2 hpage
  refine ⟨?_, hindex 21 (by decide) (by decide)⟩
  cases five with
  | false =>
    simp only [upperIndices, Bool.false_eq_true, if_false, pml4Index, pml3Index,
      hindex 39 (by decide) (by decide), hindex 30 (by decide) (by decide)]
  | true =>
    simp only [upperIndices, if_true, pml5Index, pml4Index, pml3Index, hindex 48 (by decide) (by decide),
      hindex 39 (by decide) (by decide), hindex 30 (by decide) (by decide)]

end Slots

/-- The 2 MiB number `p` of physical memory are mapped: by the low window, or for an entry, from the
2 MiB that hold its base on as many times 2 MiB as its length alone needs. -/
def Reached (entries : List Pmm.MemmapEntry) (p : ℕ) : Prop :=
  p < 0x800 - 1 ∨ ∃ e ∈ entries, DirectMapped e.type ∧ e.base / bigpageSize ≤ p ∧
    p < e.base / bigpageSize + divCeil e.length bigpageSize

/-- What the boot loader and the linker script promise: the direct map and the kernel are apart in the
upper half. -/
structure BootLayout (hasLevel5 : Bool) (highVma : ℕ) (boot : List Pmm.MemmapEntry) (k : KernelImage) : Prop where
  upper : upperHalfStart hasLevel5 ≤ highVma
  aligned : highVma % bigpageSize = 0
  low : highVma + 2 ^ 32 ≤ kernelStart
  memory : ∀ e ∈ boot, DirectMapped e.type → e.base + e.length + highVma ≤ kernelStart
  text : kernelStart ≤ k.textStart ∧ k.textEnd + pageSize ≤ 2 ^ 64
  rodata : kernelStart ≤ k.rodataStart ∧ k.rodataEnd + pageSize ≤ 2 ^ 64
  data : kernelStart ≤ k.dataStart ∧ k.dataEnd + pageSize ≤ 2 ^ 64

section Window
variable {entries : List Pmm.MemmapEntry} {e : Pmm.MemmapEntry} {k : KernelImage} {highVma p : ℕ} {c : MapCall}

lemma divCeil_bigpage {n : ℕ} (h : n < 2 ^ 63) : divCeil n bigpageSize = (n + (bigpageSize - 1)) / bigpageSize := by
  rw [divCeil_eq]
  rw [bigpageSize]
  omega

lemma mem_lowCalls : c ∈ lowCalls highVma ↔ ∃ p, p < 0x800 - 1 ∧ c = bigpageCall highVma (p * bigpageSize) := by
  simp [lowCalls, eq_comm]

lemma mem_entryCalls : c ∈ entryCalls highVma e ↔ DirectMapped e.type ∧ ∃ p, e.base / bigpageSize ≤ p ∧
    p < e.base / bigpageSize + divCeil e.length bigpageSize ∧ c = bigpageCall highVma (p * bigpageSize) := by
  unfold entryCalls
  split_ifs with ht
  · simp only [List.mem_map, List.mem_range, alignDown, ← Nat.add_mul]
    constructor
    · rintro ⟨j, hj, rfl⟩
      exact ⟨ht, e.base / bigpageSize + j, Nat.le_add_right _ _, Nat.add_lt_add_left hj _, rfl⟩
    · rintro ⟨-, p, hlo, hhi, rfl⟩
      obtain ⟨j, rfl⟩ := Nat.exists_eq_add_of_le hlo
      exact ⟨j, by omega, rfl⟩
  · simp [ht]

/-- The calls of `vmm_init`. -/
lemma mem_initCalls : c ∈ initCalls highVma entries k ↔
    (∃ p, Reached entries p ∧ c = bigpageCall highVma (p * bigpageSize)) ∨ c ∈ k.calls := by
  simp only [initCalls, List.mem_append, mem_lowCalls, List.mem_flatMap, mem_entryCalls]
  constructor
  · rintro ((⟨p, hp, rfl⟩ | ⟨e, he, ht, p, hlo, hhi, rfl⟩) | hc)
    · exact Or.inl ⟨p, Or.inl hp, rfl⟩
    · exact Or.inl ⟨p, Or.inr ⟨e, he, ht, hlo, hhi⟩, rfl⟩
    · exact Or.inr hc
  · rintro (⟨p, hp | ⟨e, he, ht, hlo, hhi⟩, rfl⟩ | hc)
    · exact Or.inl (Or.inl ⟨p, hp, rfl⟩)
    · exact Or.inl (Or.inr ⟨e, he, ht, p, hlo, hhi, rfl⟩)
    · exact Or.inr hc

lemma mem_sectionPages {first last : ℕ} {v : BitVec 64} (hfirst : kernelStart ≤ first) (hlast : last + pageSize ≤ 2 ^ 64)
    (h : v ∈ sectionPages first last) : kernelStart ≤ v.toNat := by
  obtain ⟨i, hi, rfl⟩ := List.mem_map.mp h
  rw [List.mem_range, alignUp, divCeil_eq (by rw [pageSize] at *; omega), alignDown] at hi
  rw [BitVec.toNat_ofNat, alignDown]
  simp only [kernelStart, pageSize] at *
  omega

/-- The sections of the kernel. -/
lemma KernelImage.mem_calls {five : Bool} {boot : List Pmm.MemmapEntry} (hlay : BootLayout five highVma boot k)
    (h : c ∈ k.calls) : kernelStart ≤ c.vaddr.toNat ∧ SmallPage c.flags := by
  have hflags : ∀ w x : Bool, SmallPage (ptePresent ||| (if w then pteWritable else 0) ||| pteGlobal |||
      if x then 0 else pteNx) := by
    intro w x
    constructor
    · unfold FlagsOnly
      cases w <;> cases x <;> decide
    · cases w <;> cases x <;> decide
    · cases w <;> cases x <;> decide
  simp only [KernelImage.calls, List.mem_append, List.mem_map] at h
  rcases h with (⟨v, hv, rfl⟩ | ⟨v, hv, rfl⟩) | ⟨v, hv, rfl⟩
  · exact ⟨mem_sectionPages hlay.text.1 hlay.text.2 hv, hflags false true⟩
  · exact ⟨mem_sectionPages hlay.rodata.1 hlay.rodata.2 hv, hflags false false⟩
  · exact ⟨mem_sectionPages hlay.data.1 hlay.data.2 hv, hflags true false⟩

lemma directFlags_page : PageFlags directFlags ∧ Large directFlags := by
  refine ⟨⟨?_, by decide⟩, by decide⟩
  unfold FlagsOnly
  decide

/-- The memory that is mapped lies below the kernel. -/
lemma Reached.fits {five : Bool} {boot : List Pmm.MemmapEntry} (hlay : BootLayout five highVma boot k)
    (hends : ∀ e ∈ entries, DirectMapped e.type → e.base + e.length + highVma ≤ kernelStart)
    (h : Reached entries p) : p * bigpageSize + bigpageSize + highVma ≤ kernelStart := by
  have hal := hlay.aligned
  have hlow := hlay.low
  rcases h with hp | ⟨e, he, ht, -, hp⟩
  · simp only [bigpageSize] at *
    omega
  · have hend := hends e he ht
    have hup : 2 ^ 63 ≤ highVma := by
      refine le_trans ?_ hlay.upper
      cases five <;> decide
    rw [divCeil_bigpage (by rw [kernelStart] at hend; omega)] at hp
    simp only [bigpageSize, kernelStart] at *
    omega

end Window

section Init
variable {σ : Type} {highVma : ℕ} {src : PageSource σ highVma} {m m' : Machine σ} {pm : Pagemap} {five : Bool}
  {boot entries : List Pmm.MemmapEntry} {k : KernelImage} {bitmap : ℕ}

lemma BootLayout.upper_vma (hlay : BootLayout five highVma boot k) : 2 ^ 63 ≤ highVma := by
  refine le_trans ?_ hlay.upper
  cases five <;> decide

lemma bigpageCall_vaddr {n : ℕ} (h : n + highVma < 2 ^ 64) : (bigpageCall highVma n).vaddr.toNat = n + highVma :=
  Nat.mod_eq_of_lt h

/-- No call of `vmm_init` undoes another. -/
lemma initCalls_coherent (hlay : BootLayout five highVma boot k)
    (hends : ∀ e ∈ entries, DirectMapped e.type → e.base + e.length + highVma ≤ kernelStart) {c d : MapCall}
    (hc : c ∈ initCalls highVma entries k) (hd : d ∈ initCalls highVma entries k) : Coherent five c d := by
  intro hpath
  have hup := hlay.upper
  have hal := hlay.aligned
  have hstart : kernelStart < 2 ^ 64 := by decide
  have hslot : upperHalfStart five ≤ c.vaddr.toNat → upperHalfStart five ≤ d.vaddr.toNat →
      c.vaddr.toNat / bigpageSize = d.vaddr.toNat / bigpageSize := fun h1 h2 => bigpage_of_tablePath h1 h2 hpath
  have hkernel : upperHalfStart five ≤ kernelStart := by
    have := hlay.low
    omega
  rcases mem_initCalls.mp hc with ⟨p, hp, rfl⟩ | hck
  · have hpfit := hp.fits hlay hends
    rw [bigpageCall_vaddr (by omega)] at hslot
    rcases mem_initCalls.mp hd with ⟨q, hq, rfl⟩ | hdk
    · have hqfit := hq.fits hlay hends
      rw [bigpageCall_vaddr (by omega)] at hslot
      obtain rfl : p = q := by
        have heq := hslot (by omega) (by omega)
        simp only [bigpageSize] at *
        omega
      exact ⟨Iff.rfl, fun _ => rfl⟩
    · obtain ⟨hge, -⟩ := hdk |> KernelImage.mem_calls hlay
      have heq := hslot (by omega) (by omega)
      simp only [bigpageSize, kernelStart] at *
      omega
  · obtain ⟨hge, hsmall⟩ := KernelImage.mem_calls hlay hck
    rcases mem_initCalls.mp hd with ⟨q, hq, rfl⟩ | hdk
    · have hqfit := hq.fits hlay hends
      rw [bigpageCall_vaddr (by omega)] at hslot
      have heq := hslot (by omega) (by omega)
      simp only [bigpageSize, kernelStart] at *
      omega
    · obtain ⟨-, hsmall'⟩ := KernelImage.mem_calls hlay hdk
      exact ⟨iff_of_false hsmall.small hsmall'.small, fun hl => absurd hl hsmall.small⟩

lemma pmmAllocz_page {a : ℕ} (hv : 2 ^ 63 ≤ highVma) (h : pmmAllocz src.alloc m 1 = some (a, m')) :
    ∃ f, a = f * pageSize ∧ ¬ Taken src m.pmm f ∧ (∀ g, Taken src m'.pmm g ↔ Taken src m.pmm g ∨ g = f) ∧
      ∀ i, m'.entry f i = 0 := by
  obtain ⟨⟨a, q⟩, ha, h⟩ := Option.map_eq_some_iff.mp h
  obtain ⟨rfl, rfl⟩ := Prod.mk.inj h
  obtain ⟨f, rfl, -, hfresh, htaken⟩ := alloc_frame hv ha
  refine ⟨f, rfl, hfresh, htaken, fun i => ?_⟩
  rw [Nat.mul_one, entry_clear, if_pos rfl]

/-- After `vmm_init`. -/
lemma vmmInit_mapped (hlay : BootLayout five highVma boot k) (h0 : Taken src m.pmm 0)
    (hends : ∀ e ∈ entries, DirectMapped e.type → e.base + e.length + highVma ≤ kernelStart)
    (h : vmmInit src.alloc highVma five entries k m = some (pm, m')) :
    pm.hasLevel5 = five ∧ MappedInv src pm {c | c ∈ initCalls highVma entries k} m' := by
  have hv := hlay.upper_vma
  unfold vmmInit at h
  cases ha : pmmAllocz src.alloc m 1 with
  | none => simp [ha] at h
  | some x =>
    obtain ⟨a, m1⟩ := x
    obtain ⟨f, rfl, -, htaken, hzero⟩ := pmmAllocz_page hv ha
    have hdiv : f * pageSize / pageSize = f := Nat.mul_div_cancel _ (by decide)
    simp only [ha, hdiv] at h
    split_ifs at h
    cases hfill : fillKernelHalf src.alloc f m1 with
    | none => simp [hfill] at h
    | some m2 =>
      simp only [hfill] at h
      obtain ⟨m3, hcalls, h⟩ := Option.map_eq_some_iff.mp h
      obtain ⟨rfl, rfl⟩ := Prod.mk.inj h
      have hstart := filled_empty ((htaken 0).mpr (Or.inl h0)) ((htaken f).mpr (Or.inr rfl)) hzero
      have hapart := hstart.fill_apart hv (Set.injOn_empty _) hfill
      have hnone : NothingMapped src m2 ⟨f, five⟩ := (hstart.fill hv hfill).nothingMapped hapart
      have hend := hnone.mappedInv.calls hv ?_ ?_ hcalls
      · exact ⟨rfl, by rwa [Set.empty_union] at hend⟩
      · intro c hc d hd
        rw [Set.empty_union, Set.mem_ofPred_eq] at hc
        exact initCalls_coherent hlay hends hc hd
      · intro c hc
        rcases mem_initCalls.mp hc with ⟨p, -, rfl⟩ | hck
        · exact directFlags_page.1
        · obtain ⟨-, hs⟩ := KernelImage.mem_calls hlay hck
          exact ⟨hs.flagsOnly, hs.present⟩

/-- The bytes of the direct map that are mapped. -/
theorem physical_direct (hlay : BootLayout five highVma boot k) (hfive : pm.hasLevel5 = five)
    (hends : ∀ e ∈ entries, DirectMapped e.type → e.base + e.length + highVma ≤ kernelStart)
    (inv : MappedInv src pm {c | c ∈ initCalls highVma entries k} m) {a : ℕ} (ha : a + highVma < kernelStart) :
    physical m pm (BitVec.ofNat 64 (a + highVma)) = some a ↔ Reached entries (a / bigpageSize) := by
  have hup := hlay.upper
  have hal := hlay.aligned
  have hv := hlay.upper_vma
  have hstart : kernelStart < 2 ^ 64 := by decide
  have hnat : (BitVec.ofNat 64 (a + highVma)).toNat = a + highVma := Nat.mod_eq_of_lt (by omega)
  constructor
  · intro hphys
    by_contra hno
    refine absurd hphys ?_
    rw [physical_none ?_]
    · exact (Option.some_ne_none a).symm
    cases he : entryAt m pm.topLevel (upperIndices pm.hasLevel5 (BitVec.ofNat 64 (a + highVma)))
        (pml2Index (BitVec.ofNat 64 (a + highVma))) with
    | none => rfl
    | some e =>
      obtain ⟨c, hc, hpath, -⟩ := inv.only _ (upperIndices_mem (U := fun _ => True) _ _ trivial)
        (upperIndices_upperDepth _ _) _ e he
      rw [hfive] at hpath
      have hslot : upperHalfStart five ≤ c.vaddr.toNat →
          c.vaddr.toNat / bigpageSize = (a + highVma) / bigpageSize := fun h =>
        (bigpage_of_tablePath h (by omega) hpath).trans (by rw [hnat])
      rw [Set.mem_ofPred_eq] at hc
      rcases mem_initCalls.mp hc with ⟨p, hp, rfl⟩ | hck
      · have hpfit := hp.fits hlay hends
        rw [bigpageCall_vaddr (by omega)] at hslot
        have heq := hslot (by omega)
        obtain rfl : p = a / bigpageSize := by
          simp only [bigpageSize] at *
          omega
        exact absurd hp hno
      · obtain ⟨hge, -⟩ := KernelImage.mem_calls hlay hck
        have hlow := hlay.low
        have heq := hslot (by omega)
        simp only [bigpageSize, kernelStart] at *
        omega
  · intro hp
    have hpfit := hp.fits hlay hends
    obtain ⟨hpage, hlarge⟩ := directFlags_page
    have hcall : bigpageCall highVma (a / bigpageSize * bigpageSize) ∈ {c | c ∈ initCalls highVma entries k} := by
      rw [Set.mem_ofPred_eq]
      exact mem_initCalls.mpr (Or.inl ⟨_, hp, rfl⟩)
    have he := inv.mapped _ hcall hlarge
    have hsame : (BitVec.ofNat 64 (a + highVma)).toNat / bigpageSize =
        (bigpageCall highVma (a / bigpageSize * bigpageSize)).vaddr.toNat / bigpageSize := by
      rw [hnat, bigpageCall_vaddr (by omega)]
      simp only [bigpageSize] at *
      omega
    obtain ⟨hupper, hpml2⟩ := tablePath_of_bigpage pm.hasLevel5 hsame
    rw [← hupper, ← hpml2] at he
    have hframe : frameOf ((bigpageCall highVma (a / bigpageSize * bigpageSize)).paddr |||
        (bigpageCall highVma (a / bigpageSize * bigpageSize)).flags) = a / bigpageSize * 512 := by
      have hmul : a / bigpageSize * bigpageSize = a / bigpageSize * 512 * pageSize := by
        simp only [bigpageSize, pageSize]
        omega
      rw [bigpageCall, hmul, frameOf_or hpage.flagsOnly, frameOf_ofNat]
      simp only [bigpageSize, pageSize, kernelStart] at *
      omega
    rw [physical_large he (large_or _ hlarge), hframe, hnat]
    congr 1
    simp only [bigpageSize, pageSize] at *
    omega

end Init

/-- The 2 MiB that hold the last byte of an entry are mapped, and so is all that `pmm_init` took for its
bitmap from the entry that held it. -/
structure TailsReached (bitmap size : ℕ) (entries : List Pmm.MemmapEntry) : Prop where
  tails : ∀ e ∈ entries, DirectMapped e.type → 0 < e.length →
    Reached entries ((e.base + e.length - 1) / bigpageSize)
  bitmap : ∀ a, bitmap ≤ a → a < bitmap + size → Reached entries (a / bigpageSize)

section Tails
variable {entries : List Pmm.MemmapEntry} {e : Pmm.MemmapEntry} {bitmap size : ℕ}

/-- Of an entry only the last 2 MiB can be missing. -/
lemma reached_of_tail (he : e ∈ entries) (ht : DirectMapped e.type) (hlen : e.length < 2 ^ 63)
    (htail : 0 < e.length → Reached entries ((e.base + e.length - 1) / bigpageSize)) {a : ℕ} (ha : e.Has a) :
    Reached entries (a / bigpageSize) := by
  obtain ⟨hlo, hhi⟩ := ha
  by_cases hin : a / bigpageSize < e.base / bigpageSize + divCeil e.length bigpageSize
  · exact Or.inr ⟨e, he, ht, Nat.div_le_div_right hlo, hin⟩
  · have heq : a / bigpageSize = (e.base + e.length - 1) / bigpageSize := by
      rw [divCeil_bigpage hlen] at hin
      simp only [bigpageSize] at *
      omega
    rw [heq]
    exact htail (by omega)

lemma tailsReached_iff (hlen : ∀ e ∈ entries, DirectMapped e.type → e.length < 2 ^ 63) :
    TailsReached bitmap size entries ↔
      (∀ e ∈ entries, DirectMapped e.type → ∀ a, e.Has a → Reached entries (a / bigpageSize)) ∧
      ∀ a, bitmap ≤ a → a < bitmap + size → Reached entries (a / bigpageSize) := by
  constructor
  · intro h
    exact ⟨fun e he ht a ha => reached_of_tail he ht (hlen e he ht) (h.tails e he ht) ha, h.bitmap⟩
  · rintro ⟨hall, hbitmap⟩
    exact ⟨fun e he ht hpos => hall e he ht _ ⟨by omega, by omega⟩, hbitmap⟩

/-- The bytes of the map before and after the bitmap was placed. -/
lemma placed_bytes {boot : List Pmm.MemmapEntry} (h : Pmm.placed boot = some (bitmap, entries)) (P : ℕ → Prop) :
    (∀ e ∈ boot, DirectMapped e.type → ∀ a, e.Has a → P a) ↔
      (∀ e ∈ entries, DirectMapped e.type → ∀ a, e.Has a → P a) ∧
      ∀ a, bitmap ≤ a → a < bitmap + Pmm.bitmapSize boot → P a := by
  obtain ⟨l, host, r, hboot, htype, hsize, rfl, rfl⟩ := Pmm.placeBitmap_split h
  have hmapped : DirectMapped host.type := Or.inl htype
  constructor
  · intro hall
    have hhost := hall host (by simp [hboot]) hmapped
    refine ⟨fun e he ht a ha => ?_, fun a hlo hhi => hhost a ⟨hlo, by omega⟩⟩
    rcases List.mem_append.mp he with hl | hr
    · exact hall e (by simp [hboot, hl]) ht a ha
    · rcases List.mem_cons.mp hr with rfl | hr
      · obtain ⟨hlo, hhi⟩ := ha
        dsimp only at hlo hhi
        exact hhost a ⟨by omega, by omega⟩
      · exact hall e (by simp [hboot, hr]) ht a ha
  · rintro ⟨hall, hbitmap⟩ e he ht a ha
    rw [hboot] at he
    rcases List.mem_append.mp he with hl | hr
    · exact hall e (List.mem_append_left _ hl) ht a ha
    · rcases List.mem_cons.mp hr with rfl | hr
      · obtain ⟨hlo, hhi⟩ := ha
        by_cases hin : a < e.base + Pmm.bitmapSize boot
        · exact hbitmap a hlo hin
        · refine hall _ (List.mem_append_right _ List.mem_cons_self) ht a ⟨?_, ?_⟩
          · exact Nat.le_of_not_lt hin
          · dsimp only
            omega
      · exact hall e (List.mem_append_right _ (List.mem_cons_of_mem _ hr)) ht a ha

end Tails

section Coverage
variable {σ : Type} {highVma : ℕ} {src : PageSource σ highVma} {m m' : Machine σ} {pm : Pagemap} {five : Bool}
  {boot entries : List Pmm.MemmapEntry} {k : KernelImage} {bitmap : ℕ}

lemma BootLayout.ends (hlay : BootLayout five highVma boot k) (h : Pmm.placed boot = some (bitmap, entries)) :
    ∀ e ∈ entries, DirectMapped e.type → e.base + e.length + highVma ≤ kernelStart := by
  obtain ⟨l, host, r, rfl, htype, hsize, rfl, rfl⟩ := Pmm.placeBitmap_split h
  intro e he ht
  rcases List.mem_append.mp he with hl | hr
  · exact hlay.memory e (List.mem_append_left _ hl) ht
  · rcases List.mem_cons.mp hr with rfl | hr
    · have hend := hlay.memory host (List.mem_append_right _ List.mem_cons_self) (Or.inl htype)
      dsimp only
      omega
    · exact hlay.memory e (List.mem_append_right _ (List.mem_cons_of_mem _ hr)) ht

/-- All memory of the boot map is in the direct map exactly when the low window or the pages of some
entry reach the end of every entry, and the bitmap. -/
theorem vmmInit_directMap (hlay : BootLayout five highVma boot k) (h0 : Taken src m.pmm 0)
    (hplaced : Pmm.placed boot = some (bitmap, entries))
    (h : vmmInit src.alloc highVma five entries k m = some (pm, m')) :
    (∀ e ∈ boot, DirectMapped e.type → ∀ a, e.Has a → physical m' pm (BitVec.ofNat 64 (a + highVma)) = some a) ↔
      TailsReached bitmap (Pmm.bitmapSize boot) entries := by
  have hends := hlay.ends hplaced
  have hup := hlay.upper_vma
  have hstart : kernelStart < 2 ^ 64 := by decide
  obtain ⟨hfive, inv⟩ := vmmInit_mapped hlay h0 hends h
  have hlen : ∀ e ∈ entries, DirectMapped e.type → e.length < 2 ^ 63 := by
    intro e he ht
    have := hends e he ht
    omega
  rw [tailsReached_iff hlen, ← placed_bytes hplaced]
  refine forall_congr' fun e => forall_congr' fun he => forall_congr' fun ht => forall_congr' fun a =>
    forall_congr' fun ha => physical_direct hlay hfive hends inv ?_
  have hend := hlay.memory e he ht
  obtain ⟨-, hhi⟩ := ha
  omega

end Coverage

lemma Serves.mapAll {σ : Type} {pmmAlloc : σ → ℕ → Option (ℕ × σ)} {left : σ → ℕ} (hs : Serves pmmAlloc left)
    (pm : Pagemap) {calls : List MapCall} {m : Machine σ} (hk : calls.length * 4 ≤ left m.pmm) :
    ∃ m', Vmm.mapAll pmmAlloc pm calls m = some m' := by
  induction calls generalizing m with
  | nil => exact ⟨m, rfl⟩
  | cons c calls ih =>
    rw [List.length_cons, Nat.add_one_mul] at hk
    obtain ⟨b, m1, h1, hk1⟩ := hs.mapPage hk pm c.vaddr c.paddr c.flags
    rw [Vmm.mapAll, List.foldlM_cons, h1]
    exact ih hk1

lemma length_initCalls (highVma : ℕ) (entries : List Pmm.MemmapEntry) (k : KernelImage) :
    (initCalls highVma entries k).length = 0x800 - 1 +
      (entries.map fun e => if DirectMapped e.type then divCeil e.length bigpageSize else 0).sum + k.calls.length := by
  have hentry : ∀ e : Pmm.MemmapEntry, (entryCalls highVma e).length =
      if DirectMapped e.type then divCeil e.length bigpageSize else 0 := by
    intro e
    unfold entryCalls
    split_ifs <;> simp
  simp [initCalls, lowCalls, List.length_flatMap, hentry, Nat.add_assoc]

/-- Memory from `0x121000` to `0x8000000` is free. -/
def lowRegion : Bump where
  next := 0x121000
  limit := 0x8000000
  given := [(0, 0x121000)]
  aligned := rfl
  outside := by simp

def lowMachine : Machine Bump := ⟨fun _ => 0, lowRegion⟩

def smallKernel : KernelImage :=
  ⟨0xffffffff80000000, 0xffffffff80001000, 0xffffffff80002000, 0xffffffff80003000, 0xffffffff80004000,
    0xffffffff80005000, 0xffffffff80000000, 0x200000⟩

lemma lowMachine_zero : Taken (bumpSource Pmm.directMap) lowMachine.pmm 0 :=
  ⟨(0, 0x121000), List.mem_singleton.mpr rfl, by decide⟩

lemma exists_vmmInit {entries : List Pmm.MemmapEntry}
    (hcount : (initCalls Pmm.directMap entries smallKernel).length ≤ 4000) :
    ∃ pm m', vmmInit (bumpSource Pmm.directMap).alloc Pmm.directMap false entries smallKernel lowMachine =
      some (pm, m') := by
  have hv : 2 ^ 63 ≤ Pmm.directMap := by decide
  have hs := bump_serves Pmm.directMap
  have hhalf : kernelHalf.length ≤ 512 := (List.length_filter_le _ _).trans_eq List.length_finRange
  have hleft : 16000 + kernelHalf.length + 1 ≤ Bump.left Pmm.directMap lowMachine.pmm := by
    have : Bump.left Pmm.directMap lowMachine.pmm = 0x7edf := by decide
    omega
  obtain ⟨a, m1, ha, hk1⟩ := hs.allocz hleft
  obtain ⟨f, rfl, hfresh, -⟩ := pmmAllocz_page hv ha
  have hne : f * pageSize ≠ 0 := by
    intro hz
    obtain rfl : f = 0 := (Nat.mul_eq_zero.mp hz).resolve_right (by decide)
    exact hfresh lowMachine_zero
  obtain ⟨m2, h2, hk2⟩ := hs.fill (f * pageSize / pageSize) hk1
  have hfill : fillKernelHalf (bumpSource Pmm.directMap).alloc (f * pageSize / pageSize) m1 = some m2 := h2
  obtain ⟨m3, h3⟩ := hs.mapAll ⟨f * pageSize / pageSize, false⟩ (show _ * 4 ≤ _ from (Nat.mul_le_mul_right 4 hcount).trans hk2)
  refine ⟨⟨f * pageSize / pageSize, false⟩, m3, ?_⟩
  simp only [vmmInit, ha, if_neg hne, hfill, h3, Option.map_some]

lemma lowLayout {boot : List Pmm.MemmapEntry} (h : ∀ e ∈ boot, e.base + e.length ≤ 2 ^ 40) :
    BootLayout false Pmm.directMap boot smallKernel := by
  refine ⟨by decide, by decide, by decide, fun e he _ => ?_, by decide, by decide, by decide⟩
  have := h e he
  rw [Pmm.directMap, kernelStart]
  omega

/-- A map with two pages of memory across a multiple of 2 MiB above 4 GiB. -/
def splitMap : List Pmm.MemmapEntry := [⟨0x100000, 0x7f00000, .usable⟩, ⟨0x1001ff000, 0x2000, .usable⟩]

/-- The second of these pages is not mapped. -/
theorem vmmInit_directMap_gap : ∃ entries pm m', BootLayout false Pmm.directMap splitMap smallKernel ∧
    Taken (bumpSource Pmm.directMap) lowMachine.pmm 0 ∧ Pmm.placed splitMap = some (0x100000, entries) ∧
    vmmInit (bumpSource Pmm.directMap).alloc Pmm.directMap false entries smallKernel lowMachine = some (pm, m') ∧
    (∃ e ∈ splitMap, DirectMapped e.type ∧ e.Has 0x100200000) ∧
    physical m' pm (BitVec.ofNat 64 (0x100200000 + Pmm.directMap)) ≠ some 0x100200000 := by
  have hplaced : Pmm.placed splitMap =
      some (0x100000, [⟨0x121000, 0x7edf000, .usable⟩, ⟨0x1001ff000, 0x2000, .usable⟩]) := by decide
  have hlay : BootLayout false Pmm.directMap splitMap smallKernel := lowLayout (by decide)
  have hcount : (initCalls Pmm.directMap [⟨0x121000, 0x7edf000, .usable⟩, ⟨0x1001ff000, 0x2000, .usable⟩]
      smallKernel).length ≤ 4000 := by
    rw [length_initCalls]
    decide
  obtain ⟨pm, m', h⟩ := exists_vmmInit hcount
  have hends := hlay.ends hplaced
  obtain ⟨hfive, inv⟩ := vmmInit_mapped hlay lowMachine_zero hends h
  refine ⟨_, pm, m', hlay, lowMachine_zero, hplaced, h, ⟨⟨0x1001ff000, 0x2000, .usable⟩, by decide, by decide, by decide, by decide⟩, ?_⟩
  rw [Ne, physical_direct hlay hfive hends inv (by decide)]
  unfold Reached
  decide

/-- A map whose memory above 4 GiB is a whole number of 2 MiB pages. -/
def wholeBigpages : List Pmm.MemmapEntry := [⟨0x100000, 0x7f00000, .usable⟩, ⟨0x100000000, 0x40000000, .usable⟩]

theorem vmmInit_directMap_whole : ∃ pm m',
    vmmInit (bumpSource Pmm.directMap).alloc Pmm.directMap false
      [⟨0x128000, 0x7ed8000, .usable⟩, ⟨0x100000000, 0x40000000, .usable⟩] smallKernel lowMachine = some (pm, m') ∧
    ∀ e ∈ wholeBigpages, DirectMapped e.type → ∀ a, e.Has a →
      physical m' pm (BitVec.ofNat 64 (a + Pmm.directMap)) = some a := by
  have hplaced : Pmm.placed wholeBigpages =
      some (0x100000, [⟨0x128000, 0x7ed8000, .usable⟩, ⟨0x100000000, 0x40000000, .usable⟩]) := by decide
  have hlay : BootLayout false Pmm.directMap wholeBigpages smallKernel := lowLayout (by decide)
  have hcount : (initCalls Pmm.directMap [⟨0x128000, 0x7ed8000, .usable⟩, ⟨0x100000000, 0x40000000, .usable⟩]
      smallKernel).length ≤ 4000 := by
    rw [length_initCalls]
    decide
  obtain ⟨pm, m', h⟩ := exists_vmmInit hcount
  have hsize : Pmm.bitmapSize wholeBigpages = 0x28000 := by decide
  refine ⟨pm, m', h, (vmmInit_directMap hlay lowMachine_zero hplaced h).mpr ⟨?_, fun a hlo hhi => Or.inl ?_⟩⟩
  · unfold Reached
    decide
  · rw [hsize] at hhi
    rw [bigpageSize]
    omega

end PiggyOs.Vmm
