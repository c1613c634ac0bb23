import PiggyOs.Kmalloc
import PiggyOs.PageSource

/-! Releasing a multi-page block. The page bits are those of the kernel's bitmap; allocation is
any function that hands out free pages and marks exactly these. -/
namespace PiggyOs.Kmalloc
open Bitmap SlabCache Pmm

/-- The eleven caches have the object sizes that `slab_init` gave them. -/
def HasSizes (kmallocCaches : List ℕ) (h : Heap) : Prop :=
  kmallocCaches.map (fun c => (h.caches c).objectSize) = kmallocSizes

lemma HasSizes.cacheFor_big {cs : List ℕ} {h : Heap} {size : ℕ} (hs : HasSizes cs h)
    (hb : 2048 < size) : cacheFor cs h size = none := by
  refine List.find?_eq_none.mpr fun c hc => ?_
  have hm : (h.caches c).objectSize ∈ kmallocSizes := by
    rw [← hs]
    exact List.mem_map_of_mem hc
  have hle : ∀ n ∈ kmallocSizes, n ≤ 2048 := by decide
  have := hle _ hm
  simp only [decide_eq_true_eq]
  omega

def SameBits (s t : State) : Prop := ∀ i, test t.bitmap i = test s.bitmap i

variable {pmmAlloc : State → ℕ → Option (ℕ × State)} {highVma : ℕ}

lemma kmalloc_big_eq {cs : List ℕ} {h : Heap} {s : State} {size : ℕ} (hs : HasSizes cs h)
    (hb : 2048 < size) : kmalloc pmmAlloc highVma cs h s size =
      match pmmAlloc s (divCeil size pageSize + 1) with
      | none => .error .panic
      | some (ret, s1) => if ret = 0 then .ok (none, h, s1) else
          .ok (some (ret + highVma + pageSize), h.setHeader (ret + highVma)
            ⟨bigAllocHeaderMagic, divCeil size pageSize, size⟩, s1) := by
  have hsize : size ≠ 0 := by omega
  simp only [kmalloc, hsize, if_false, hs.cacheFor_big hb]
  cases pmmAlloc s (divCeil size pageSize + 1) <;> rfl

/-- A successful request for more than 2048 bytes took the pages of its header and its data. -/
lemma kmalloc_big {cs : List ℕ} {h h1 : Heap} {s s1 : State} {size : ℕ} {ptr : Option ℕ}
    (hs : HasSizes cs h) (hb : 2048 < size)
    (hm : kmalloc pmmAlloc highVma cs h s size = .ok (ptr, h1, s1)) :
    ∃ ret, pmmAlloc s (divCeil size pageSize + 1) = some (ret, s1) ∧
      (ptr = none ∨ ptr = some (ret + highVma + pageSize)) := by
  rcases kmalloc_cases _ _ hm with ⟨h0, -⟩ | ⟨-, c, hc, -⟩ | ⟨-, -, ret, hp, hret⟩
  · omega
  · simp [hs.cacheFor_big hb] at hc
  · refine ⟨ret, hp, ?_⟩
    rcases hret with ⟨-, hptr, -⟩ | ⟨-, hptr, -⟩
    · exact Or.inl hptr
    · exact Or.inr hptr

/-- `kfree` changes no page bit below the page its pointer is in. -/
lemma kfree_below {fuel : ℕ} {cs : List ℕ} {h1 h2 : Heap} {s1 s2 : State} {ptr i : ℕ}
    (hf : kfree pmmFree highVma fuel cs h1 s1 (some ptr) = .ok (h2, s2))
    (hi : i < (ptr - highVma) / pageSize) : test s2.bitmap i = test s1.bitmap i := by
  simp only [kfree] at hf
  split_ifs at hf with ha
  · split at hf
    · simp at hf
    · simp only [Except.ok.injEq, Prod.mk.injEq] at hf
      obtain ⟨rfl, rfl⟩ := hf
      have hn : ¬ (ptr - highVma) / pageSize ≤ i := by omega
      simp [pmmFree, hn]
  · cases hc : freeInCaches fuel ptr cs h1 with
    | error e => simp [hc, Except.map] at hf
    | ok h' =>
      simp only [hc, Except.map, Except.ok.injEq, Prod.mk.injEq] at hf
      rw [← hf.2]

/-- The page of the header was free before the block was made and stays marked after the block
is released. -/
lemma headerPage_leaks
    (hexact : ∀ s n a t, pmmAlloc s n = some (a, t) → AllocExact s n a t)
    {cs : List ℕ} {h h1 h2 : Heap} {s s1 s2 : State} {size fuel : ℕ} {ptr : Option ℕ}
    (hs : HasSizes cs h) (hb : 2048 < size)
    (hm : kmalloc pmmAlloc highVma cs h s size = .ok (ptr, h1, s1))
    (hf : kfree pmmFree highVma fuel cs h1 s1 ptr = .ok (h2, s2)) :
    ∃ page, test s.bitmap page = false ∧ test s2.bitmap page = true := by
  obtain ⟨ret, hp, hptr⟩ := kmalloc_big hs hb hm
  have he := hexact _ _ _ _ hp
  have hfree : test s.bitmap (ret / pageSize) = false := by simpa using he.free 0 (by omega)
  have hset : test s1.bitmap (ret / pageSize) = true := by
    rw [he.marks]
    simp
  refine ⟨ret / pageSize, hfree, ?_⟩
  rcases hptr with rfl | rfl
  · obtain ⟨-, rfl⟩ : h1 = h2 ∧ s1 = s2 := by simpa [kfree] using hf
    exact hset
  · rw [kfree_below hf, hset]
    rw [show ret + highVma + pageSize - highVma = ret + pageSize by omega,
      Nat.add_div_right _ (by decide)]
    omega

lemma not_sameBits {s t : State} {page : ℕ} (h0 : test s.bitmap page = false)
    (h1 : test t.bitmap page = true) : ¬ SameBits s t := by
  intro hsame
  have := hsame page
  simp [h0, h1] at this

/-- No multi-page block is ever given back in full, whatever the state and the size. -/
theorem kfree_kmalloc_leaks
    (hexact : ∀ s n a t, pmmAlloc s n = some (a, t) → AllocExact s n a t)
    {cs : List ℕ} {h h1 h2 : Heap} {s s1 s2 : State} {size fuel : ℕ} {ptr : Option ℕ}
    (hs : HasSizes cs h) (hb : 2048 < size)
    (hm : kmalloc pmmAlloc highVma cs h s size = .ok (ptr, h1, s1))
    (hf : kfree pmmFree highVma fuel cs h1 s1 ptr = .ok (h2, s2)) :
    ¬ SameBits s s2 ∧ ∃ page, test s.bitmap page = false ∧ test s2.bitmap page = true := by
  obtain ⟨page, h0, h1⟩ := headerPage_leaks hexact hs hb hm hf
  exact ⟨not_sameBits h0 h1, page, h0, h1⟩

/-- The kernel's allocator where it is exact. -/
def exactAlloc (s : State) (pages : ℕ) : Option (ℕ × State) :=
  if StartsAtCursor s pages then Pmm.pmmAlloc s pages else none

lemma exactAlloc_exact {s t : State} {n a : ℕ} (h : exactAlloc s n = some (a, t)) :
    AllocExact s n a t := by
  unfold exactAlloc at h
  split_ifs at h with hf
  exact (pmmAlloc_exact_iff h).mpr hf

/-- The heap right after the eleven caches are made, with the caches at pointers 0 to 10. -/
def freshHeap : Heap where
  caches := fun c => newCache (kmallocSizes.getD c 0)
  slabs := fun _ => newSlab 0 0 0
  headers := fun _ => none
  mem := fun _ => 0

lemma freshHeap_hasSizes : HasSizes (List.range 11) freshHeap := rfl

/-- One page of data behind one page of header, at address 0x2000, taken and released at once. -/
lemma roundTrip_runs : ∃ ptr h1 s1 h2 s2,
    kmalloc exactAlloc 0 (List.range 11) freshHeap lowSession.pmm 4096 = .ok (ptr, h1, s1) ∧
      kfree pmmFree 0 0 (List.range 11) h1 s1 ptr = .ok (h2, s2) := by
  have hsome : (exactAlloc lowSession.pmm 2).map Prod.fst = some 0x2000 := by decide
  obtain ⟨⟨ret, t⟩, hp, hret⟩ := Option.map_eq_some_iff.mp hsome
  obtain rfl : ret = 0x2000 := hret
  refine ⟨some 0x3000, freshHeap.setHeader 0x2000 ⟨bigAllocHeaderMagic, 1, 4096⟩, t,
    freshHeap.setHeader 0x2000 ⟨bigAllocHeaderMagic, 1, 4096⟩, pmmFree t 0x3000 2, ?_, rfl⟩
  have hdiv : divCeil 4096 pageSize = 1 := by decide
  rw [kmalloc_big_eq freshHeap_hasSizes (by decide), hdiv, hp]
  rfl

theorem kfree_kmalloc_leaks_lowMap : ∃ ptr h1 s1 h2 s2,
    kmalloc exactAlloc 0 (List.range 11) freshHeap lowSession.pmm 4096 = .ok (ptr, h1, s1) ∧
      kfree pmmFree 0 0 (List.range 11) h1 s1 ptr = .ok (h2, s2) ∧
      ∃ page, test lowSession.pmm.bitmap page = false ∧ test s2.bitmap page = true := by
  obtain ⟨ptr, h1, s1, h2, s2, hm, hf⟩ := roundTrip_runs
  exact ⟨ptr, h1, s1, h2, s2, hm, hf, (kfree_kmalloc_leaks
    (fun _ _ _ _ => exactAlloc_exact) freshHeap_hasSizes (by decide) hm hf).2⟩

theorem kfree_kmalloc_not_inverse :
    ¬ ∀ (pmmAlloc : State → ℕ → Option (ℕ × State)) (highVma : ℕ),
      (∀ s n a t, pmmAlloc s n = some (a, t) → AllocExact s n a t) →
      ∀ (cs : List ℕ) (h h1 h2 : Heap) (s s1 s2 : State) (size fuel : ℕ) (ptr : Option ℕ),
        HasSizes cs h → 2048 < size → kmalloc pmmAlloc highVma cs h s size = .ok (ptr, h1, s1) →
        kfree pmmFree highVma fuel cs h1 s1 ptr = .ok (h2, s2) → SameBits s s2 := by
  intro hall
  obtain ⟨ptr, h1, s1, h2, s2, hm, hf⟩ := roundTrip_runs
  obtain ⟨page, h0, h1⟩ := headerPage_leaks (fun _ _ _ _ => exactAlloc_exact) freshHeap_hasSizes
    (by decide) hm hf
  exact not_sameBits h0 h1 (hall exactAlloc 0 (fun _ _ _ _ => exactAlloc_exact) _ _ _ _ _ _ _ _ _ _
    freshHeap_hasSizes (by decide) hm hf)

end PiggyOs.Kmalloc
