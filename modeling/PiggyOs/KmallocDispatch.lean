import PiggyOs.KmallocRuns

/-! Release and reallocation decide by the low bits of a pointer whether it is a block of pages
or a slab object. The decision is right for every history whose slab objects stay off page
boundaries, and the object sizes of the kernel do not keep them off. -/
namespace PiggyOs.Kmalloc
open Bitmap SlabCache Transition

section Start
variable {σ : Type} (pmmAlloc : σ → ℕ → Option (ℕ × σ)) (highVma : ℕ)

/-- The pages of the slab that holds the caches themselves. -/
def rootGrant (p : σ) : Option (ℕ × ℕ) :=
  (pmmAlloc p (newCache sizeofCache).pagesPerSlab).map fun r =>
    (r.1 + highVma, pageSize * (newCache sizeofCache).pagesPerSlab)

/-- The caches and the session that `slab_init` leaves. -/
def start (h : Heap) (p : σ) : Option (List ℕ × Session σ) :=
  (slabInit pmmAlloc highVma h p).map fun r =>
    (r.1, ⟨r.2.1, r.2.2, [], (rootGrant pmmAlloc highVma p).toList⟩)

variable {pmmAlloc highVma}

/-- What a successful start looks like. -/
lemma start_cases {h0 : Heap} {p : σ} {cs : List ℕ} {s : Session σ}
    (halign : ∀ p n a q, pmmAlloc p n = some (a, q) → a % pageSize = 0)
    (hs : start pmmAlloc highVma h0 p = some (cs, s))
    (hroot : ∀ r ∈ rootGrant pmmAlloc highVma p, r.1 + r.2 ≤ 2 ^ 64) :
    ∃ phys q, pmmAlloc p (newCache sizeofCache).pagesPerSlab = some (phys, q) ∧ s.pmm = q ∧
      s.live = [] ∧ s.inUse = [slabRange s.heap 0 (phys + highVma)] ∧ cs = cachesAt (phys + highVma) ∧
      Filled s.heap 0 (phys + highVma) kmallocSizes.length ∧
      Created s.heap (phys + highVma) kmallocSizes := by
  cases hp : pmmAlloc p (newCache sizeofCache).pagesPerSlab with
  | none => simp [start, slabInit_none h0 hp] at hs
  | some r =>
    obtain ⟨phys, q⟩ := r
    have hle := hroot _ (by rw [rootGrant, hp]; rfl)
    have hpages : (newCache sizeofCache).pagesPerSlab = 9 := by decide
    simp only [hpages, pageSize] at hle
    obtain ⟨h, he, hf, hc⟩ := slabInit_spec highVma h0 hp (halign _ _ _ _ hp)
      (by simp only [pageSize]; omega)
    simp only [start, he, Option.map_some, Option.some.injEq, Prod.mk.injEq, rootGrant, hp,
      Option.toList_some] at hs
    obtain ⟨rfl, rfl⟩ := hs
    refine ⟨phys, q, rfl, rfl, rfl, ?_, rfl, hf, hc⟩
    simp [slabRange, hc.rootPages]

lemma start_inv {h0 : Heap} {p : σ} {cs : List ℕ} {s : Session σ} (hv : highVma % pageSize = 0)
    (halign : ∀ p n a q, pmmAlloc p n = some (a, q) → a % pageSize = 0)
    (hs : start pmmAlloc highVma h0 p = some (cs, s))
    (hroot : ∀ r ∈ rootGrant pmmAlloc highVma p, r.1 + r.2 ≤ 2 ^ 64) :
    ∃ slabs, Inv cs s slabs := by
  obtain ⟨phys, q, hp, -, hlive, huse, rfl, hf, hc⟩ := start_cases halign hs hroot
  have ha := halign _ _ _ _ hp
  have hslabs := hc.slabs hf (by simp only [pageSize] at *; omega)
  refine ⟨rootSlabs (phys + highVma), hc.hasSizes, hslabs, ?_, ?_, ?_, ?_⟩
  · intro c _ a hm
    unfold rootSlabs at hm
    split_ifs at hm with h0
    · obtain rfl : a = phys + highVma := by simpa using hm
      simp [huse, h0]
    · simp at hm
  · simp [hlive]
  · simp [hlive]
  · simp [hlive]

end Start

lemma pmmAlloc_aligned (p : Pmm.State) (n a : ℕ) (q : Pmm.State)
    (h : Pmm.pmmAlloc p n = some (a, q)) : a % pageSize = 0 := by
  obtain ⟨-, page, rfl, -⟩ := Pmm.pmmAlloc_cases h
  exact Nat.mul_mod_left _ _

/-- On a request for an object the answer is off the page boundary exactly when its slot is. -/
lemma Inv.slot_iff {σ : Type} {pmmAlloc : σ → ℕ → Option (ℕ × σ)} {highVma size ptr : ℕ}
    {cs : List ℕ} {s : Session σ} {slabs : ℕ → List ℕ} {h : Heap} {q : σ}
    (hv : highVma % pageSize = 0)
    (halign : ∀ p n a q, pmmAlloc p n = some (a, q) → a % pageSize = 0) (inv : Inv cs s slabs)
    (hpf : PagesFree pmmAlloc highVma cs s size)
    (hm : kmalloc pmmAlloc highVma cs s.heap s.pmm size = .ok (some ptr, h, q)) :
    (ptr % pageSize = 0 ↔ 2048 < size) ↔ SlotClear cs s.heap size := by
  rcases kmalloc_cases _ _ hm with ⟨-, hn, -⟩ | ⟨h0, c, hc, hr⟩ | ⟨h0, hc, ret, hp, hret⟩
  · simp at hn
  · obtain ⟨a, l, he, ha, -⟩ := inv.took hv halign h0 hc hr hpf
    obtain ⟨-, hle⟩ := inv.sizes.cacheFor_some hc
    obtain rfl := Option.some.inj he
    have hmod : objectAt (s.heap.caches c).objectSize a (nextIndex s.heap c) % pageSize =
        (firstObject + nextIndex s.heap c * (s.heap.caches c).objectSize) % pageSize := by
      simp only [objectAt, pageSize] at *
      omega
    rw [hmod]
    constructor
    · intro hiff d hd
      obtain rfl : c = d := Option.some.inj (hc.symm.trans hd)
      exact fun h => absurd (hiff.mp h) (by omega)
    · exact fun hslot => iff_of_false (hslot c hc) (by omega)
  · have hbig := inv.sizes.cacheFor_none hc
    rcases hret with ⟨-, hn, -⟩ | ⟨-, he, -⟩
    · simp at hn
    · obtain rfl := Option.some.inj he
      have ha := halign _ _ _ _ hp
      refine iff_of_true (iff_of_true ?_ hbig) fun c hd => ?_
      · simp only [pageSize] at *
        omega
      · simp [hc] at hd

section Serial
variable {σ : Type} {pmmAlloc : σ → ℕ → Option (ℕ × σ)} (pmmFree : σ → ℕ → ℕ → σ) (highVma : ℕ)
  {cs : List ℕ}

/-- The cache for requests of `size` bytes has handed out the first `k` objects of its one slab. -/
structure Serial (cs : List ℕ) (size c a k : ℕ) (s : Session σ) : Prop
    extends Filled s.heap c a k where
  cache : cacheFor cs s.heap size = some c
  positive : size ≠ 0

/-- The first request of a size. -/
lemma serial_first {s : Session σ} {size c phys : ℕ} {q : σ} (h0 : size ≠ 0)
    (hc : cacheFor cs s.heap size = some c) (inv : CacheInv s.heap c [] [])
    (hp : pmmAlloc s.pmm (s.heap.caches c).pagesPerSlab = some (phys, q)) (ha : phys % pageSize = 0)
    (hb : phys + pageSize ≤ 2 ^ 64) :
    ∃ t, Served pmmAlloc pmmFree highVma cs s (.malloc size) t ∧
      Serial cs size c (phys + highVma) 1 t ∧
      (t.heap.caches c).objectSize = (s.heap.caches c).objectSize ∧
      (objectAt (s.heap.caches c).objectSize (phys + highVma) 0, size) ∈ t.live := by
  obtain ⟨h, he, hf, ho⟩ := filled_first highVma inv hp ha hb
  have hm : kmalloc pmmAlloc highVma cs s.heap s.pmm size =
      .ok (some (objectAt (s.heap.caches c).objectSize (phys + highVma) 0), h, q) := by
    simp only [kmalloc, h0, if_false, hc, he]
  refine ⟨_, .malloc hm, ⟨hf, ?_, h0⟩, ho.objectSize, by simp⟩
  rw [cacheFor_congr fun d => ?_, hc]
  by_cases hd : d = c
  · rw [hd, ho.objectSize]
  · rw [ho.caches d hd]

/-- One more request takes the next object and no pages. -/
lemma Serial.next {s : Session σ} {size c a k : ℕ} (hs : Serial cs size c a k s)
    (hk : k + 1 < objectsPerSlab) :
    ∃ t, Served pmmAlloc pmmFree highVma cs s (.malloc size) t ∧ Serial cs size c a (k + 1) t ∧
      (t.heap.caches c).objectSize = (s.heap.caches c).objectSize ∧
      (objectAt (s.heap.caches c).objectSize a k, size) ∈ t.live ∧
      grant pmmAlloc highVma cs s size = none := by
  obtain ⟨h, he, hf, ho⟩ := hs.toFilled.next pmmAlloc highVma hk s.pmm
  have hpick : pickSlab (s.heap.caches c) ≠ none := by simp [pickSlab, hs.partialChain.1]
  have hm : kmalloc pmmAlloc highVma cs s.heap s.pmm size =
      .ok (some (objectAt (s.heap.caches c).objectSize a k), h, s.pmm) := by
    simp only [kmalloc, hs.positive, if_false, hs.cache, he]
  refine ⟨_, .malloc hm, ⟨hf, ?_, hs.positive⟩, ho.objectSize, by simp, ?_⟩
  · rw [cacheFor_congr fun d => ?_, hs.cache]
    by_cases hd : d = c
    · rw [hd, ho.objectSize]
    · rw [ho.caches d hd]
  · simp [grant, pagesWanted, hs.positive, hs.cache, hpick]

/-- A run of requests of one size takes the objects in order. -/
lemma Serial.run {s : Session σ} {size c a k : ℕ} (n : ℕ) (hs : Serial cs size c a k s)
    (hk : k + n < objectsPerSlab) :
    ∃ t, Run (fun s call t => (∀ size, call = .malloc size → PagesFree pmmAlloc highVma cs s size) ∧
        Served pmmAlloc pmmFree highVma cs s call t) s (List.replicate n (.malloc size)) t ∧
      Serial cs size c a (k + n) t ∧
      (t.heap.caches c).objectSize = (s.heap.caches c).objectSize ∧
      (n ≠ 0 → (objectAt (s.heap.caches c).objectSize a (k + n - 1), size) ∈ t.live) := by
  induction n with
  | zero => exact ⟨s, .nil s, hs, rfl, fun h => absurd rfl h⟩
  | succ n ih =>
    obtain ⟨t, hrun, ht, hsize, -⟩ := ih (by omega)
    obtain ⟨u, hstep, hu, hsize', hlive, hg⟩ := ht.next pmmFree highVma (by omega)
    refine ⟨u, ?_, hu, hsize'.trans hsize, fun _ => hsize ▸ hlive⟩
    rw [List.replicate_succ']
    refine hrun.append (.single ⟨fun size' he r hr => ?_, hstep⟩)
    obtain rfl : size = size' := by simpa using he
    simp [hg] at hr

end Serial

/-- The cache of a request holds objects of the first size that is large enough. -/
lemma HasSizes.cacheFor_size {cs : List ℕ} {h : Heap} (hs : HasSizes cs h) (size : ℕ) :
    (cacheFor cs h size).map (fun c => (h.caches c).objectSize) =
      kmallocSizes.find? fun n => size ≤ n := by
  rw [← hs, List.find?_map]
  rfl

/-- Thirty-two usable pages from address 0. -/
def wideMap : List Pmm.MemmapEntry := [⟨0, 0x20000, .usable⟩]

def wideState : Pmm.State := (Pmm.pmmInit (fun _ => 0) wideMap).get (by decide)

lemma wideState_pages : ∃ q r, Pmm.pmmAlloc wideState 9 = some (0, q) ∧
    Pmm.pmmAlloc q 9 = some (0x9000, r) := by
  have h1 : (Pmm.pmmAlloc wideState 9).map Prod.fst = some 0 := by decide
  have h2 : ((Pmm.pmmAlloc wideState 9).bind fun r => Pmm.pmmAlloc r.2 9).map Prod.fst =
      some 0x9000 := by decide
  obtain ⟨⟨a, q⟩, hq, ha⟩ := Option.map_eq_some_iff.mp h1
  obtain rfl : a = 0 := ha
  rw [hq, Option.bind_some] at h2
  obtain ⟨⟨b, r⟩, hr, hb⟩ := Option.map_eq_some_iff.mp h2
  obtain rfl : b = 0x9000 := hb
  exact ⟨q, r, hq, hr⟩

/-- After the first request for 64 bytes on this machine. -/
lemma wide_first : ∃ cs s0 c t, start Pmm.pmmAlloc Pmm.directMap emptyHeap wideState = some (cs, s0) ∧
    (∀ r ∈ rootGrant Pmm.pmmAlloc Pmm.directMap wideState, r.1 + r.2 ≤ 2 ^ 64) ∧
    SlotClear cs s0.heap 64 ∧ PagesFree Pmm.pmmAlloc Pmm.directMap cs s0 64 ∧
    Served Pmm.pmmAlloc Pmm.pmmFree Pmm.directMap cs s0 (.malloc 64) t ∧
    Serial cs 64 c (0x9000 + Pmm.directMap) 1 t ∧ (t.heap.caches c).objectSize = 64 := by
  obtain ⟨q, r, hq, hr⟩ := wideState_pages
  have hpages : (newCache sizeofCache).pagesPerSlab = 9 := by decide
  obtain ⟨h, he, hf, hc⟩ := slabInit_spec Pmm.directMap emptyHeap (hpages ▸ hq) (by decide) (by decide)
  have hroot : rootGrant Pmm.pmmAlloc Pmm.directMap wideState = some (0 + Pmm.directMap, pageSize * 9) := by
    simp only [rootGrant, hpages, hq, Option.map_some]
  have hstart : start Pmm.pmmAlloc Pmm.directMap emptyHeap wideState =
      some (cachesAt (0 + Pmm.directMap), ⟨h, q, [], [(0 + Pmm.directMap, pageSize * 9)]⟩) := by
    simp only [start, he, Option.map_some, hroot, Option.toList_some]
  have hsize := hc.hasSizes.cacheFor_size 64
  obtain ⟨c, hcache, h64⟩ := Option.map_eq_some_iff.mp
    (hsize.trans (show _ = some 64 by decide))
  obtain ⟨size, -, hrec⟩ := hc.record_mem (hc.hasSizes.cacheFor_some hcache).1
  obtain rfl : size = 64 := by
    rw [hrec] at h64
    exact h64
  have h9 : (h.caches c).pagesPerSlab = 9 := by
    rw [hrec]
    decide
  have inv : CacheInv h c [] [] := by
    constructor
    all_goals simp [hrec, newCache]
  obtain ⟨t, hserved, hserial, hobj, -⟩ := serial_first (s := ⟨h, q, [], [(0 + Pmm.directMap, pageSize * 9)]⟩)
    Pmm.pmmFree Pmm.directMap (by decide) hcache inv (h9 ▸ hr) (by decide) (by decide)
  have hpick : pickSlab (h.caches c) = none := by
    rw [hrec]
    rfl
  refine ⟨_, _, c, t, hstart, ?_, ?_, ?_, hserved, hserial, hobj.trans h64⟩
  · rw [hroot]
    decide
  · intro d hd
    obtain rfl : c = d := Option.some.inj (hcache.symm.trans hd)
    have hidx : nextIndex h c = 0 := by simp only [nextIndex, hpick]
    simp only [hidx, Nat.zero_mul]
    decide
  · intro x hx
    rw [grant_slab Pmm.directMap (by decide) hcache hpick (h9 ▸ hr)] at hx
    obtain rfl : slabRange h c (0x9000 + Pmm.directMap) = x := Option.some.inj hx
    simp only [slabRange, h9]
    decide

end PiggyOs.Kmalloc
