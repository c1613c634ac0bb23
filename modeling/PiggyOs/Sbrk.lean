import PiggyOs.AddressSpace
import PiggyOs.ProcessFork
import PiggyOs.Transition

/-! The program break. `process_sbrk` moves `brk` and maps or unmaps whole pages of the heap, which
begins at `PROCESS_BRK_BASE`. -/
namespace PiggyOs.Sbrk
open Vmm Transition
open Fork (processBrkBase)

/-- The end of the addresses that the user half of the page tables translates. -/
@[irreducible] def userEnd : ℕ := 2 ^ 47

/-- What `process_sbrk` reads and writes of a process; `nextPage` is `brk_next_unallocated_page_begin`. -/
structure Heap (σ : Type) where
  brk : BitVec 64
  nextPage : BitVec 64
  machine : Machine σ

/-- The cast to `unsigned`, seen as a 64-bit number again. -/
def asUnsigned (size : BitVec 64) : BitVec 64 := (size.setWidth 32).setWidth 64

def heapFlags : BitVec 64 := ptePresent ||| pteWritable ||| pteUser ||| pteNx

section Calls
variable {σ : Type} (pmmAlloc : σ → ℕ → Option (ℕ × σ)) (pagemap : Pagemap)

/-- The loop that maps `count` pages from number `i` on. -/
def mapPages (start paddr : BitVec 64) : ℕ → ℕ → Machine σ → Option (Bool × Machine σ)
  | 0, _, m => some (true, m)
  | count + 1, i, m =>
      match vmmMapPage pmmAlloc m pagemap (start + BitVec.ofNat 64 i * 0x1000) (paddr + BitVec.ofNat 64 i * 0x1000)
        heapFlags with
      | none => none
      | some (false, m') => some (false, m')
      | some (true, m') => mapPages start paddr count (i + 1) m'

/-- The loop that unmaps pages; it stops at the beginning of the heap. -/
def unmapPages : ℕ → Heap σ → Heap σ
  | 0, p => p
  | count + 1, p =>
      unmapPages count
        (if processBrkBase.ule (p.nextPage - 0x1000) then
          { p with
            nextPage := p.nextPage - 0x1000
            machine := (vmmUnmapPage p.machine pagemap (p.nextPage - 0x1000)).2 }
        else p)

def growPages (p : Heap σ) (size : BitVec 64) : BitVec 64 := (size - (p.nextPage - p.brk) - 1) / 0x1000 + 1

def shrinkRemaining (p : Heap σ) : BitVec 64 := p.brk - (p.nextPage - 0x1000)

def shrinkPages (p : Heap σ) (size : BitVec 64) : BitVec 64 := (-size - shrinkRemaining p - 1) / 0x1000 + 1

/-- `none` is the panic of the page allocator. -/
def processSbrk (p : Heap σ) (size : BitVec 64) : Option (BitVec 64 × Heap σ) :=
  if (0 : BitVec 64).slt size then
    if (p.nextPage - p.brk).ult (asUnsigned size) then
      match pmmAlloc p.machine.pmm (growPages p size).toNat with
      | none => none
      | some (paddr, pmm) =>
          if paddr = 0 then some (-1, { p with machine := { p.machine with pmm := pmm } })
          else
            match mapPages pmmAlloc pagemap p.nextPage (BitVec.ofNat 64 paddr) (growPages p size).toNat 0
              { p.machine with pmm := pmm } with
            | none => none
            | some (false, m) => some (-1, { p with machine := m })
            | some (true, m) => some (p.brk, ⟨p.brk + size, p.nextPage + growPages p size * 0x1000, m⟩)
    else some (p.brk, { p with brk := p.brk + size })
  else if size.slt 0 then
    if (shrinkRemaining p).ult (asUnsigned (-size)) then
      some (p.brk, { unmapPages pagemap (shrinkPages p size).toNat p with brk := p.brk + size })
    else some (p.brk, { p with brk := p.brk + size })
  else some (p.brk, { p with brk := p.brk + size })

end Calls

/-- The entry maps a page that the user may write. -/
structure UserWritable (e : BitVec 64) : Prop where
  mapped : e ≠ noMapping
  present : e &&& ptePresent ≠ 0
  writable : e &&& pteWritable ≠ 0
  user : e &&& pteUser ≠ 0

section Tables
variable {σ : Type} {highVma : ℕ} {src : PageSource σ highVma} {pm : Pagemap} {m m' : Machine σ}

/-- The user half is a tree of tables, and frame 0 is not available to the allocator. -/
def UserTree (src : PageSource σ highVma) (pm : Pagemap) (m : Machine σ) : Prop :=
  TreeInv src User m pm.topLevel (depth pm.hasLevel5) ∧ Taken src m.pmm 0

lemma user_topIndex {v : BitVec 64} (five : Bool) (h : v.toNat < userEnd) : User (topIndex five v) := by
  rw [userEnd] at h
  rw [User]
  cases five with
  | false =>
    rw [topIndex, if_neg Bool.false_ne_true, pml4Index, index_val _ (by omega)]
    omega
  | true =>
    rw [topIndex, if_pos rfl, pml5Index, index_val _ (by omega)]
    omega

lemma page_digits {n : ℕ} (h : n < userEnd) : n / 0x1000 =
    n / 2 ^ 39 % 512 * 2 ^ 27 + n / 2 ^ 30 % 512 * 2 ^ 18 + n / 2 ^ 21 % 512 * 2 ^ 9 + n / 2 ^ 12 % 512 := by
  rw [userEnd] at h
  omega

lemma div_of_page_eq {n k : ℕ} (h : n / 0x1000 = k / 0x1000) (j : ℕ) : n / 2 ^ (12 + j) = k / 2 ^ (12 + j) := by
  rw [pow_add, ← Nat.div_div_eq_div_mul, ← Nat.div_div_eq_div_mul]
  exact congrArg (· / 2 ^ j) h

/-- Below the end of the user half the indices determine the page. -/
lemma pageIndices_inj {five : Bool} {v w : BitVec 64} (hv : v.toNat < userEnd) (hw : w.toNat < userEnd) :
    pageIndices five v = pageIndices five w ↔ v.toNat / 0x1000 = w.toNat / 0x1000 := by
  have h5 : (index v 48).val = (index w 48).val := by
    rw [userEnd] at hv hw
    rw [index_val _ (by omega), index_val _ (by omega)]
    omega
  have hall : pageIndices five v = pageIndices five w ↔ (index v 39).val = (index w 39).val ∧
      (index v 30).val = (index w 30).val ∧ (index v 21).val = (index w 21).val ∧
      (index v 12).val = (index w 12).val := by
    simp only [← Fin.ext_iff] at h5 ⊢
    cases five <;>
      simp [pageIndices, tablePath, upperIndices, h5, pml5Index, pml4Index, pml3Index, pml2Index, pml1Index]
  rw [hall, index_val _ (by omega), index_val _ (by omega), index_val _ (by omega), index_val _ (by omega),
    index_val _ (by omega), index_val _ (by omega), index_val _ (by omega), index_val _ (by omega)]
  constructor
  · rintro ⟨h4, h3, h2, h1⟩
    rw [page_digits hv, page_digits hw, h4, h3, h2, h1]
  · intro h
    rw [div_of_page_eq h 27, div_of_page_eq h 18, div_of_page_eq h 9, div_of_page_eq h 0]
    exact ⟨rfl, rfl, rfl, rfl⟩

lemma UserTree.map {v paddr : BitVec 64} {b : Bool} (hv : 2 ^ 63 ≤ highVma) (ht : UserTree src pm m)
    (hlow : v.toNat < userEnd) (h : vmmMapPage src.alloc m pm v paddr heapFlags = some (b, m')) :
    b = true ∧ UserTree src pm m' ∧ ∀ w : BitVec 64, w.toNat < userEnd → vmmGetPageMapping m' pm w =
      if w.toNat / 0x1000 = v.toNat / 0x1000 then paddr ||| heapFlags else vmmGetPageMapping m pm w := by
  have hflags : SmallPage heapFlags := ⟨by unfold FlagsOnly; decide, by decide, by decide⟩
  obtain ⟨hb, inv, h0, hu, -⟩ := vmmMapPage_updates hv ht.1 ht.2 (user_topIndex _ hlow) hflags h
  refine ⟨hb, ⟨inv, h0⟩, fun w hw => ?_⟩
  rw [hu.get ht.1 inv (user_topIndex _ hw)]
  simp only [pageIndices_inj hw hlow, Option.getD_some]

lemma UserTree.unmap {v : BitVec 64} (ht : UserTree src pm m) (hlow : v.toNat < userEnd) :
    UserTree src pm (vmmUnmapPage m pm v).2 ∧ ∀ w : BitVec 64, w.toNat < userEnd →
      vmmGetPageMapping (vmmUnmapPage m pm v).2 pm w =
        if w.toNat / 0x1000 = v.toNat / 0x1000 then noMapping else vmmGetPageMapping m pm w := by
  obtain ⟨inv, hpmm, hu, -⟩ := vmmUnmapPage_updates ht.1 (user_topIndex pm.hasLevel5 hlow)
  refine ⟨⟨inv, hpmm ▸ ht.2⟩, fun w hw => ?_⟩
  rw [hu.get ht.1 inv (user_topIndex _ hw)]
  simp only [pageIndices_inj hw hlow, Option.getD_none]

/-- Allocating pages changes no table. -/
lemma UserTree.alloc {n a : ℕ} {pmm : σ} (ht : UserTree src pm m) (h : src.alloc m.pmm n = some (a, pmm)) :
    UserTree src pm { m with pmm := pmm } ∧ ∀ w : BitVec 64, w.toNat < userEnd →
      vmmGetPageMapping { m with pmm := pmm } pm w = vmmGetPageMapping m pm w := by
  have hgrow : ∀ g, Taken src m.pmm g → Taken src pmm g := by
    rintro g ⟨x, hx, hg⟩
    exact ⟨x, by rw [src.record h]; exact List.mem_cons_of_mem _ hx, hg⟩
  have hmem : ∀ b, Taken src m.pmm (b / pageSize) → Machine.mem { m with pmm := pmm } b = m.mem b := fun _ _ => rfl
  obtain ⟨inv, hsame, -⟩ := ht.1.congr hgrow hmem
  refine ⟨⟨inv, hgrow 0 ht.2⟩, fun w hw => ?_⟩
  rw [vmmGetPageMapping_eq inv (user_topIndex _ hw), vmmGetPageMapping_eq ht.1 (user_topIndex _ hw), lookup, lookup,
    hsame _ (tablePath_mem (user_topIndex _ hw)) (tablePath_length _ _)]

lemma userWritable_heap {paddr : BitVec 64} (h : paddr.toNat % 0x1000 = 0) : UserWritable (paddr ||| heapFlags) := by
  have hbit : paddr.getLsbD 3 = false := by
    rw [BitVec.getLsbD, Nat.testBit_eq_decide_div_mod_eq, decide_eq_false_iff_not]
    omega
  refine ⟨fun he => ?_, fun he => ?_, fun he => ?_, fun he => ?_⟩
  · have hthree := congrArg (fun x => x.getLsbD 3) he
    rw [BitVec.getLsbD_eq_getElem (by decide)] at hbit
    simp [hbit, heapFlags, noMapping, ptePresent, pteWritable, pteUser, pteNx] at hthree
  · have := congrArg (fun x => x.getLsbD 0) he
    simp [heapFlags, ptePresent, pteWritable, pteUser, pteNx] at this
  · have := congrArg (fun x => x.getLsbD 1) he
    simp [heapFlags, ptePresent, pteWritable, pteUser, pteNx] at this
  · have := congrArg (fun x => x.getLsbD 2) he
    simp [heapFlags, ptePresent, pteWritable, pteUser, pteNx] at this

lemma toNat_page {start : BitVec 64} {i : ℕ} (h : start.toNat + i * 0x1000 < 2 ^ 64) :
    (start + BitVec.ofNat 64 i * 0x1000).toNat = start.toNat + i * 0x1000 := by
  have hpage : (0x1000 : BitVec 64).toNat = 0x1000 := rfl
  rw [BitVec.toNat_add, BitVec.toNat_mul, BitVec.toNat_ofNat, hpage]
  omega

lemma mapPages_some {start paddr : BitVec 64} {count i : ℕ} {b : Bool} (hv : 2 ^ 63 ≤ highVma)
    (ht : UserTree src pm m) (hstart : start.toNat % 0x1000 = 0) (hpaddr : paddr.toNat % 0x1000 = 0)
    (hend : start.toNat + i * 0x1000 + count * 0x1000 ≤ userEnd)
    (h : mapPages src.alloc pm start paddr count i m = some (b, m')) :
    b = true ∧ UserTree src pm m' ∧ ∀ w : BitVec 64, w.toNat < userEnd →
      (start.toNat + i * 0x1000 ≤ w.toNat → w.toNat < start.toNat + i * 0x1000 + count * 0x1000 →
        UserWritable (vmmGetPageMapping m' pm w)) ∧
      (w.toNat < start.toNat + i * 0x1000 ∨ start.toNat + i * 0x1000 + count * 0x1000 ≤ w.toNat →
        vmmGetPageMapping m' pm w = vmmGetPageMapping m pm w) := by
  induction count generalizing i m with
  | zero =>
    rw [mapPages, Option.some.injEq, Prod.mk.injEq] at h
    obtain ⟨rfl, rfl⟩ := h
    refine ⟨rfl, ht, fun w hw => ⟨fun h1 h2 => ?_, fun _ => rfl⟩⟩
    rw [Nat.zero_mul, Nat.add_zero] at h2
    omega
  | succ count ih =>
    rw [Nat.add_one_mul] at hend ⊢
    have haddr : (start + BitVec.ofNat 64 i * 0x1000).toNat = start.toNat + i * 0x1000 := by
      apply toNat_page
      rw [userEnd] at hend
      omega
    have hentry : (paddr + BitVec.ofNat 64 i * 0x1000).toNat % 0x1000 = 0 := by
      have hpage : (0x1000 : BitVec 64).toNat = 0x1000 := rfl
      rw [BitVec.toNat_add, BitVec.toNat_mul, hpage]
      omega
    rw [mapPages] at h
    cases hmap : vmmMapPage src.alloc m pm (start + BitVec.ofNat 64 i * 0x1000) (paddr + BitVec.ofNat 64 i * 0x1000)
        heapFlags with
    | none =>
      rw [hmap] at h
      simp at h
    | some r =>
      obtain ⟨b1, m1⟩ := r
      obtain ⟨rfl, ht1, hget⟩ := ht.map hv (by omega) hmap
      rw [hmap] at h
      have hrest := ih (i := i + 1) ht1
      rw [Nat.add_one_mul] at hrest
      obtain ⟨hb, ht', hrest⟩ := hrest (by linarith) h
      rw [haddr] at hget
      refine ⟨hb, ht', fun w hw => ⟨fun h1 h2 => ?_, fun hout => ?_⟩⟩
      · by_cases hin : w.toNat < start.toNat + (i * 0x1000 + 0x1000)
        · rw [(hrest w hw).2 (Or.inl hin), hget w hw, if_pos (by omega)]
          exact userWritable_heap hentry
        · exact (hrest w hw).1 (not_lt.mp hin) (by linarith)
      · rw [(hrest w hw).2 (hout.imp (fun h => by linarith) fun h => by linarith), hget w hw, if_neg (by omega)]

lemma unmapPages_some {p : Heap σ} {count : ℕ} (ht : UserTree src pm p.machine)
    (haligned : p.nextPage.toNat % 0x1000 = 0) (huser : p.nextPage.toNat ≤ userEnd)
    (hbase : processBrkBase.toNat + count * 0x1000 ≤ p.nextPage.toNat) :
    (unmapPages pm count p).nextPage.toNat = p.nextPage.toNat - count * 0x1000 ∧
    UserTree src pm (unmapPages pm count p).machine ∧ ∀ w : BitVec 64, w.toNat < userEnd →
      vmmGetPageMapping (unmapPages pm count p).machine pm w =
        if p.nextPage.toNat - count * 0x1000 ≤ w.toNat ∧ w.toNat < p.nextPage.toNat then noMapping
        else vmmGetPageMapping p.machine pm w := by
  induction count generalizing p with
  | zero =>
    refine ⟨by simp [unmapPages], ht, fun w hw => ?_⟩
    rw [if_neg (by omega), unmapPages]
  | succ count ih =>
    rw [Nat.add_one_mul] at hbase ⊢
    have hpage : 0x1000 ≤ p.nextPage.toNat := by linarith
    have hnext : (p.nextPage - 0x1000).toNat = p.nextPage.toNat - 0x1000 := by
      rw [BitVec.toNat_sub_of_le]
      · rfl
      · exact hpage
    have hcond : processBrkBase.ule (p.nextPage - 0x1000) = true := by
      rw [BitVec.ule, decide_eq_true_eq, hnext]
      omega
    obtain ⟨ht1, hget⟩ := ht.unmap (v := p.nextPage - 0x1000) (by omega)
    rw [unmapPages, if_pos hcond]
    have hrest : processBrkBase.toNat + count * 0x1000 ≤ (p.nextPage - 0x1000).toNat := by
      rw [hnext]
      exact Nat.le_sub_of_add_le (by linarith)
    obtain ⟨hn, ht', hget'⟩ := @ih { p with
      nextPage := p.nextPage - 0x1000
      machine := (vmmUnmapPage p.machine pm (p.nextPage - 0x1000)).2 } ht1
      (by dsimp only; omega) (by dsimp only; omega) hrest
    simp only [hnext] at hn hget' hget
    refine ⟨by omega, ht', fun w hw => ?_⟩
    rw [hget' w hw, hget w hw]
    split_ifs <;> first | rfl | omega

end Tables

section Words
variable {a b size : BitVec 64}

lemma asUnsigned_toNat (size : BitVec 64) : (asUnsigned size).toNat = size.toNat % 2 ^ 32 := by
  rw [asUnsigned, BitVec.toNat_setWidth, BitVec.toNat_setWidth]
  omega

/-- The number of pages that hold what does not fit. -/
lemma pages_toNat (h : b.toNat < a.toNat) :
    ((a - b - 1) / 0x1000 + 1).toNat = (a.toNat - b.toNat - 1) / 0x1000 + 1 := by
  have hone : (1 : BitVec 64).toNat = 1 := rfl
  have hpage : (0x1000 : BitVec 64).toNat = 0x1000 := rfl
  have hlt := a.isLt
  rw [BitVec.toNat_add, BitVec.toNat_udiv, BitVec.toNat_sub, BitVec.toNat_sub, hone, hpage]
  omega

lemma slt_pos_iff : (0 : BitVec 64).slt size = true ↔ 0 < size.toInt := by
  rw [BitVec.slt, decide_eq_true_eq]
  rfl

lemma slt_neg_iff : size.slt 0 = true ↔ size.toInt < 0 := by
  rw [BitVec.slt, decide_eq_true_eq]
  rfl

lemma toInt_of_pos (h : 0 < size.toInt) : size.toInt = size.toNat ∧ size.toNat < 2 ^ 63 := by
  rw [BitVec.toInt_eq_toNat_cond] at *
  have := size.isLt
  split_ifs at * <;> omega

lemma toInt_of_neg (h : size.toInt < 0) : size.toInt = -((-size).toNat : ℤ) ∧ 0 < (-size).toNat := by
  have hlt := size.isLt
  rw [BitVec.toNat_neg]
  rw [BitVec.toInt_eq_toNat_cond] at *
  split_ifs at * <;> omega

/-- The sum is exact if the result is an address. -/
lemma toNat_add_toInt (h0 : 0 ≤ (a.toNat : ℤ) + size.toInt) (h1 : (a.toNat : ℤ) + size.toInt < 2 ^ 64) :
    ((a + size).toNat : ℤ) = a.toNat + size.toInt := by
  have hlt := size.isLt
  rw [BitVec.toInt_eq_toNat_cond] at *
  rw [BitVec.toNat_add]
  split_ifs at * <;> omega

end Words

section Runs
variable {σ : Type} {highVma : ℕ} {src : PageSource σ highVma} {pm : Pagemap} {p p' : Heap σ} {limit : ℕ}
  {size ret : BitVec 64}

/-- The pages from the base to `nextPage` are mapped, and none behind it in the heap area, which ends
at `limit`. -/
structure HeapInv (src : PageSource σ highVma) (pm : Pagemap) (limit : ℕ) (p : Heap σ) : Prop where
  base : processBrkBase.toNat ≤ p.brk.toNat
  below : p.brk.toNat ≤ p.nextPage.toNat
  aligned : p.nextPage.toNat % 0x1000 = 0
  mapped : ∀ v : BitVec 64, processBrkBase.toNat ≤ v.toNat → v.toNat < p.nextPage.toNat →
    UserWritable (vmmGetPageMapping p.machine pm v)
  unmapped : ∀ v : BitVec 64, p.nextPage.toNat ≤ v.toNat → v.toNat < limit →
    vmmGetPageMapping p.machine pm v = noMapping
  user : p.nextPage.toNat ≤ userEnd
  tree : UserTree src pm p.machine

/-- A process after `exec`, if no segment of the program lies in the heap area. -/
structure Fresh (src : PageSource σ highVma) (pm : Pagemap) (limit : ℕ) (p : Heap σ) : Prop where
  brk : p.brk = processBrkBase
  nextPage : p.nextPage = processBrkBase
  unmapped : ∀ v : BitVec 64, processBrkBase.toNat ≤ v.toNat → v.toNat < limit →
    vmmGetPageMapping p.machine pm v = noMapping
  tree : UserTree src pm p.machine

lemma Fresh.heapInv (h : Fresh src pm limit p) : HeapInv src pm limit p where
  base := h.brk ▸ le_rfl
  below := by rw [h.brk, h.nextPage]
  aligned := by rw [h.nextPage]; rfl
  mapped v h1 h2 := by
    rw [h.nextPage] at h2
    omega
  unmapped v h1 h2 := h.unmapped v (h.nextPage ▸ h1) h2
  user := by rw [h.nextPage, userEnd]; decide
  tree := h.tree

/-- The new break stays in the user half and above the base, and the cast to `unsigned` does not
hide that pages are missing. -/
structure Within (p : Heap σ) (size : BitVec 64) : Prop where
  base : (processBrkBase.toNat : ℤ) ≤ p.brk.toNat + size.toInt
  user : (p.brk.toNat : ℤ) + size.toInt ≤ userEnd
  seen : (p.brk.toNat : ℤ) + size.toInt ≤ p.nextPage.toNat ∨
    p.nextPage.toNat - p.brk.toNat < size.toNat % 2 ^ 32

/-- The call returned the old break and moved it by `size`. -/
structure Moved (src : PageSource σ highVma) (pm : Pagemap) (limit : ℕ) (p : Heap σ) (size ret : BitVec 64)
    (p' : Heap σ) : Prop where
  inv : HeapInv src pm limit p'
  returned : ret = p.brk
  moved : (p'.brk.toNat : ℤ) = p.brk.toNat + size.toInt

lemma Within.brk (h : Within p size) : ((p.brk + size).toNat : ℤ) = p.brk.toNat + size.toInt := by
  have hbase := h.base
  have huser := h.user
  rw [userEnd] at huser
  exact toNat_add_toInt (by omega) (by omega)

/-- Only the break moves. -/
lemma HeapInv.move (inv : HeapInv src pm limit p) (hw : Within p size)
    (hle : (p.brk.toNat : ℤ) + size.toInt ≤ p.nextPage.toNat) :
    Moved src pm limit p size p.brk { p with brk := p.brk + size } := by
  have hbrk := hw.brk
  have hbase := hw.base
  refine ⟨⟨?_, ?_, inv.aligned, inv.mapped, inv.unmapped, inv.user, inv.tree⟩, rfl, hbrk⟩
  · dsimp only
    omega
  · dsimp only
    omega

lemma UserTree.alloc_ne_zero {m : Machine σ} {n a : ℕ} {pmm : σ} (ht : UserTree src pm m)
    (h : src.alloc m.pmm n = some (a, pmm)) : a ≠ 0 := by
  rintro rfl
  obtain ⟨x, hx, h1, h2⟩ := ht.2
  have hpos := src.positive h
  have hapart := src.apart h x hx
  simp only [Apart, pageSize] at *
  omega

/-- The page that follows the new break is the first one behind the pages that are added. -/
lemma growPages_spec (inv : HeapInv src pm limit p) (hpos : 0 < size.toInt) (hw : Within p size)
    (hlt : p.nextPage.toNat - p.brk.toNat < size.toNat) :
    p.brk.toNat + size.toNat ≤ p.nextPage.toNat + (growPages p size).toNat * 0x1000 ∧
    p.nextPage.toNat + (growPages p size).toNat * 0x1000 ≤ userEnd := by
  have hrem : (p.nextPage - p.brk).toNat = p.nextPage.toNat - p.brk.toNat := BitVec.toNat_sub_of_le inv.below
  have hpages : (growPages p size).toNat = (size.toNat - (p.nextPage.toNat - p.brk.toNat) - 1) / 0x1000 + 1 := by
    rw [growPages, pages_toNat (by rwa [hrem]), hrem]
  have hbelow := inv.below
  have haligned := inv.aligned
  have huser := hw.user
  rw [(toInt_of_pos hpos).1] at huser
  rw [userEnd] at *
  rw [hpages]
  omega

lemma HeapInv.grow (hv : 2 ^ 63 ≤ highVma) (hlimit : limit ≤ userEnd) (inv : HeapInv src pm limit p)
    (hw : Within p size) (hpos : 0 < size.toInt) (h : processSbrk src.alloc pm p size = some (ret, p')) :
    Moved src pm limit p size ret p' := by
  have hrem : (p.nextPage - p.brk).toNat = p.nextPage.toNat - p.brk.toNat := BitVec.toNat_sub_of_le inv.below
  obtain ⟨hint, hsmall⟩ := toInt_of_pos hpos
  have hult : (p.nextPage - p.brk).ult (asUnsigned size) = true ↔
      p.nextPage.toNat - p.brk.toNat < size.toNat % 2 ^ 32 := by
    rw [BitVec.ult, decide_eq_true_eq, hrem, asUnsigned_toNat]
  rw [processSbrk, if_pos (slt_pos_iff.mpr hpos)] at h
  by_cases hc : (p.nextPage - p.brk).ult (asUnsigned size) = true
  · rw [if_pos hc] at h
    obtain ⟨hreach, hend⟩ := growPages_spec inv hpos hw ((hult.mp hc).trans_le (Nat.mod_le _ _))
    cases halloc : src.alloc p.machine.pmm (growPages p size).toNat with
    | none =>
      rw [halloc] at h
      simp at h
    | some r =>
      obtain ⟨paddr, pmm⟩ := r
      obtain ⟨ht1, hget1⟩ := inv.tree.alloc halloc
      rw [halloc] at h
      dsimp only at h
      rw [if_neg (inv.tree.alloc_ne_zero halloc)] at h
      cases hmap : mapPages src.alloc pm p.nextPage (BitVec.ofNat 64 paddr) (growPages p size).toNat 0
          { p.machine with pmm := pmm } with
      | none =>
        rw [hmap] at h
        simp at h
      | some r =>
        obtain ⟨b, m⟩ := r
        have hpaddr : (BitVec.ofNat 64 paddr).toNat % 0x1000 = 0 := by
          have hal := src.aligned halloc
          rw [pageSize] at hal
          rw [BitVec.toNat_ofNat]
          omega
        obtain ⟨rfl, ht2, hget2⟩ := mapPages_some hv ht1 inv.aligned hpaddr (by rwa [Nat.zero_mul]) hmap
        rw [Nat.zero_mul, Nat.add_zero] at hget2
        rw [hmap] at h
        obtain ⟨rfl, rfl⟩ := Prod.mk.inj (Option.some.inj h)
        have hbrk := hw.brk
        have hbase := hw.base
        have hnext : (p.nextPage + growPages p size * 0x1000).toNat =
            p.nextPage.toNat + (growPages p size).toNat * 0x1000 := by
          have hlt : p.nextPage.toNat + (growPages p size).toNat * 0x1000 < 2 ^ 64 :=
            hend.trans_lt (by rw [userEnd]; decide)
          have hpage := toNat_page hlt
          rwa [BitVec.ofNat_toNat, BitVec.setWidth_eq] at hpage
        have haligned := inv.aligned
        refine ⟨⟨?_, ?_, ?_, fun v h1 h2 => ?_, fun v h1 h2 => ?_, ?_, ht2⟩, rfl, hbrk⟩
        · dsimp only
          omega
        · dsimp only
          omega
        · dsimp only
          omega
        · dsimp only at h2 ⊢
          rw [hnext] at h2
          have hv := h2.trans_le hend
          by_cases hold : v.toNat < p.nextPage.toNat
          · rw [(hget2 v hv).2 (Or.inl hold), hget1 v hv]
            exact inv.mapped v h1 hold
          · exact (hget2 v hv).1 (not_lt.mp hold) h2
        · dsimp only at h1 ⊢
          rw [hnext] at h1
          have hv := h2.trans_le hlimit
          rw [(hget2 v hv).2 (Or.inr h1), hget1 v hv]
          exact inv.unmapped v (by omega) h2
        · dsimp only
          rwa [hnext]
  · rw [if_neg hc] at h
    obtain ⟨rfl, rfl⟩ := Prod.mk.inj (Option.some.inj h)
    refine inv.move hw (hw.seen.resolve_right fun hs => hc (hult.mpr hs))

/-- The pages that are given back lie above the new break. -/
lemma shrinkPages_spec (inv : HeapInv src pm limit p) (hneg : size.toInt < 0) (hw : Within p size)
    (hlt : (shrinkRemaining p).toNat < (-size).toNat % 2 ^ 32) :
    p.brk.toNat + (shrinkPages p size).toNat * 0x1000 ≤ p.nextPage.toNat + (-size).toNat ∧
    processBrkBase.toNat + (shrinkPages p size).toNat * 0x1000 ≤ p.nextPage.toNat := by
  have hbase : processBrkBase.toNat = 0x60000000000 := rfl
  have hlow := inv.base
  have hbelow := inv.below
  have haligned := inv.aligned
  have huser := inv.user
  have hnew := hw.base
  rw [(toInt_of_neg hneg).1] at hnew
  rw [hbase] at *
  rw [userEnd] at huser
  have hstart : (p.nextPage - 0x1000).toNat = p.nextPage.toNat - 0x1000 :=
    BitVec.toNat_sub_of_le (show 0x1000 ≤ p.nextPage.toNat by omega)
  have hword : (shrinkRemaining p).toNat = (2 ^ 64 - (p.nextPage.toNat - 0x1000) + p.brk.toNat) % 2 ^ 64 := by
    rw [shrinkRemaining, BitVec.toNat_sub, hstart]
  have hrem : (shrinkRemaining p).toNat + p.nextPage.toNat = p.brk.toNat + 0x1000 := by omega
  have hpages : (shrinkPages p size).toNat = ((-size).toNat - (shrinkRemaining p).toNat - 1) / 0x1000 + 1 := by
    rw [shrinkPages, pages_toNat (hlt.trans_le (Nat.mod_le _ _))]
  have hle := hlt.trans_le (Nat.mod_le _ _)
  rw [hpages]
  omega

lemma HeapInv.shrink (hlimit : limit ≤ userEnd) (inv : HeapInv src pm limit p)
    (hw : Within p size) (hneg : size.toInt < 0) (h : processSbrk src.alloc pm p size = some (ret, p')) :
    Moved src pm limit p size ret p' := by
  have hle : (p.brk.toNat : ℤ) + size.toInt ≤ p.nextPage.toNat := by
    have hbelow := inv.below
    omega
  rw [processSbrk, if_neg (fun hpos => absurd (slt_pos_iff.mp hpos) (by omega)), if_pos (slt_neg_iff.mpr hneg)] at h
  by_cases hc : (shrinkRemaining p).ult (asUnsigned (-size)) = true
  · rw [if_pos hc] at h
    rw [BitVec.ult, decide_eq_true_eq, asUnsigned_toNat] at hc
    obtain ⟨habove, hroom⟩ := shrinkPages_spec inv hneg hw hc
    obtain ⟨hnext, ht, hget⟩ := unmapPages_some inv.tree inv.aligned inv.user hroom
    obtain ⟨rfl, rfl⟩ := Prod.mk.inj (Option.some.inj h)
    have hbrk := hw.brk
    have hbase := hw.base
    have hint := (toInt_of_neg hneg).1
    have haligned := inv.aligned
    have huser := inv.user
    refine ⟨⟨?_, ?_, ?_, fun v h1 h2 => ?_, fun v h1 h2 => ?_, ?_, ht⟩, rfl, hbrk⟩
    · dsimp only
      omega
    · dsimp only
      omega
    · dsimp only
      omega
    · dsimp only at h2 ⊢
      rw [hget v (by omega), if_neg (by omega)]
      exact inv.mapped v h1 (by omega)
    · dsimp only at h1 ⊢
      rw [hget v (h2.trans_le hlimit)]
      split_ifs with hin
      · rfl
      · exact inv.unmapped v (by omega) h2
    · dsimp only
      omega
  · rw [if_neg hc] at h
    obtain ⟨rfl, rfl⟩ := Prod.mk.inj (Option.some.inj h)
    exact inv.move hw hle

lemma HeapInv.sbrk (hv : 2 ^ 63 ≤ highVma) (hlimit : limit ≤ userEnd) (inv : HeapInv src pm limit p)
    (hw : Within p size) (h : processSbrk src.alloc pm p size = some (ret, p')) :
    Moved src pm limit p size ret p' := by
  rcases lt_trichotomy size.toInt 0 with hneg | hzero | hpos
  · exact inv.shrink hlimit hw hneg h
  · have hpos : ¬ (0 : BitVec 64).slt size = true := fun hc => absurd (slt_pos_iff.mp hc) (by omega)
    have hneg : ¬ size.slt 0 = true := fun hc => absurd (slt_neg_iff.mp hc) (by omega)
    rw [processSbrk, if_neg hpos, if_neg hneg] at h
    obtain ⟨rfl, rfl⟩ := Prod.mk.inj (Option.some.inj h)
    have hbelow := inv.below
    exact inv.move hw (by omega)
  · exact inv.grow hv hlimit hw hpos h

/-- Calls of `sbrk` keep the heap in order as long as every call stays within the heap. -/
theorem sbrk_heapInv {p0 : Heap σ} {calls : List (BitVec 64 × BitVec 64)} (hv : 2 ^ 63 ≤ highVma)
    (hlimit : limit ≤ userEnd) (hfresh : Fresh src pm limit p0)
    (hrun : Run (fun p l p' => processSbrk src.alloc pm p l.1 = some (l.2, p') ∧ Within p l.1) p0 calls p) :
    (processBrkBase.toNat ≤ p.brk.toNat ∧ p.brk.toNat ≤ p.nextPage.toNat ∧ p.nextPage.toNat % 0x1000 = 0 ∧
      (∀ v : BitVec 64, processBrkBase.toNat ≤ v.toNat → v.toNat < p.nextPage.toNat →
        UserWritable (vmmGetPageMapping p.machine pm v)) ∧
      ∀ v : BitVec 64, p.nextPage.toNat ≤ v.toNat → v.toNat < limit →
        vmmGetPageMapping p.machine pm v = noMapping) ∧
    ∀ size ret p', Within p size → processSbrk src.alloc pm p size = some (ret, p') →
      ret = p.brk ∧ (p'.brk.toNat : ℤ) = p.brk.toNat + size.toInt := by
  have inv : HeapInv src pm limit p :=
    hrun.invariant (fun p l p' inv hstep => (inv.sbrk hv hlimit hstep.2 hstep.1).inv) hfresh.heapInv
  refine ⟨⟨inv.base, inv.below, inv.aligned, inv.mapped, inv.unmapped⟩, fun size ret p' hw h => ?_⟩
  have hmoved := inv.sbrk hv hlimit hw h
  exact ⟨hmoved.returned, hmoved.moved⟩

end Runs

def bareHeap : Heap Bump := ⟨processBrkBase, processBrkBase, bareMachine⟩

lemma bareHeap_fresh (limit : ℕ) : Fresh (bumpSource Pmm.directMap) ⟨1, false⟩ limit bareHeap where
  brk := rfl
  nextPage := rfl
  unmapped v _ _ := (bareMachine_empty Pmm.directMap false).get v
  tree := ⟨(bareMachine_empty _ false).treeInv _, (bareMachine_empty _ false).zero⟩

/-- Three bytes are requested and two of them given back. -/
theorem sbrk_heapInv_threeBytes : ∃ p,
    Run (fun p l p' => processSbrk (bumpSource Pmm.directMap).alloc ⟨1, false⟩ p l.1 = some (l.2, p') ∧ Within p l.1)
      bareHeap [(3, processBrkBase), (-2, processBrkBase + 3)] p ∧
    p.brk = processBrkBase + 1 ∧ p.nextPage = processBrkBase + 0x1000 ∧
    UserWritable (vmmGetPageMapping p.machine ⟨1, false⟩ processBrkBase) ∧
    vmmGetPageMapping p.machine ⟨1, false⟩ (processBrkBase + 0x1000) = noMapping := by
  have hgrow : (processSbrk (bumpSource Pmm.directMap).alloc ⟨1, false⟩ bareHeap 3).any fun r =>
      r.1 = processBrkBase ∧ r.2.brk = processBrkBase + 3 ∧ r.2.nextPage = processBrkBase + 0x1000 := by decide
  obtain ⟨⟨ret, p1⟩, hp1, hr⟩ := (Option.any_eq_true ..).mp hgrow
  obtain ⟨rfl, hbrk, hnext⟩ := of_decide_eq_true hr
  have hshrink : processSbrk (bumpSource Pmm.directMap).alloc ⟨1, false⟩ p1 (-2) =
      some (processBrkBase + 3, { p1 with brk := processBrkBase + 1 }) := by
    rw [processSbrk, shrinkRemaining, hbrk, hnext]
    rfl
  have hw1 : Within bareHeap 3 := by
    refine ⟨by decide, ?_, Or.inr (by decide)⟩
    rw [userEnd]
    decide
  have hw2 : Within p1 (-2) := by
    refine ⟨?_, ?_, Or.inl ?_⟩
    · rw [hbrk]
      decide
    · rw [hbrk, userEnd]
      decide
    · rw [hbrk, hnext]
      decide
  have hrun : Run (fun p l p' => processSbrk (bumpSource Pmm.directMap).alloc ⟨1, false⟩ p l.1 = some (l.2, p') ∧
      Within p l.1) bareHeap [(3, processBrkBase), (-2, processBrkBase + 3)] { p1 with brk := processBrkBase + 1 } :=
    .cons ⟨hp1, hw1⟩ (.single ⟨hshrink, hw2⟩)
  obtain ⟨⟨-, -, -, hmapped, hunmapped⟩, -⟩ := sbrk_heapInv (by decide) le_rfl (bareHeap_fresh userEnd) hrun
  refine ⟨_, hrun, rfl, hnext, hmapped _ le_rfl ?_, hunmapped _ ?_ ?_⟩
  · rw [hnext]
    decide
  · rw [hnext]
  · rw [userEnd]
    decide

/-- One byte below the base, and a request for 4 GiB that maps nothing. -/
theorem sbrk_leaves_heap : Fresh (bumpSource Pmm.directMap) ⟨1, false⟩ userEnd bareHeap ∧
    (∃ p, Run (fun p l p' => processSbrk (bumpSource Pmm.directMap).alloc ⟨1, false⟩ p l.1 = some (l.2, p'))
      bareHeap [(-1, processBrkBase)] p ∧ p.brk.toNat < processBrkBase.toNat) ∧
    ∃ p, Run (fun p l p' => processSbrk (bumpSource Pmm.directMap).alloc ⟨1, false⟩ p l.1 = some (l.2, p'))
      bareHeap [(0x100000000, processBrkBase)] p ∧ p.nextPage.toNat < p.brk.toNat := by
  refine ⟨bareHeap_fresh _, ⟨{ bareHeap with brk := processBrkBase + -1 }, .single rfl, by decide⟩,
    { bareHeap with brk := processBrkBase + 0x100000000 }, .single rfl, by decide⟩

end PiggyOs.Sbrk
