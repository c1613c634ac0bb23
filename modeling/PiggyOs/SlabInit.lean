import PiggyOs.KmallocInvariant

/-! The state that `slab_init` leaves. A slab from which nothing was released yet hands out its
objects in order, so the eleven caches are the first eleven objects of the first root slab. -/
namespace PiggyOs.Kmalloc
open Bitmap SlabCache

variable {σ : Type} {pmmAlloc : σ → ℕ → Option (ℕ × σ)} {highVma : ℕ}

/-- Cache `c` has one slab, and the objects taken from it are the first `k`. -/
structure Filled (h : Heap) (c a k : ℕ) : Prop extends CacheInv h c [a] [] where
  available : (h.slabs a).availableObjects + k = objectsPerSlab
  bits : ∀ j < objectsPerSlab, test (h.slabs a).bits j = decide (j < k)

/-- What an allocation from the slab at `a` leaves alone. -/
structure OnlyTook (h h' : Heap) (c a : ℕ) : Prop where
  caches : ∀ d ≠ c, h'.caches d = h.caches d
  objectSize : (h'.caches c).objectSize = (h.caches c).objectSize
  pagesPerSlab : (h'.caches c).pagesPerSlab = (h.caches c).pagesPerSlab
  slabs : ∀ b ≠ a, h'.slabs b = h.slabs b

lemma Filled.nextIndex {h : Heap} {c a k : ℕ} (hf : Filled h c a k) (hk : k < objectsPerSlab) :
    nextIndex h c = k := by
  have hpick : pickSlab (h.caches c) = some a := by simp [pickSlab, hf.partialChain.1]
  have hfind : ((List.range (h.slabs a).totalObjects).find? fun i => !test (h.slabs a).bits i) =
      some k := by
    rw [(hf.slab a (by simp)).total, List.find?_range_eq_some]
    refine ⟨?_, by simpa using hk, ?_⟩
    · rw [hf.bits k hk]
      simp
    · intro j hj
      rw [hf.bits j (by omega)]
      simpa using hj
  simp only [SlabCache.nextIndex, hpick, hfind, Option.getD_some]

lemma bits_of_used {h h' : Heap} {slabs slabs' : List ℕ} {c a k : ℕ}
    (hal : Allocated h h' c a k slabs slabs')
    (hold : ∀ j < objectsPerSlab, Used h slabs a j ↔ j < k) :
    ∀ j < objectsPerSlab, test (h'.slabs a).bits j = decide (j < k + 1) := by
  intro j hj
  have hself := (hal.used a k).mpr (Or.inr ⟨rfl, rfl⟩)
  have hused := hal.used a j
  rw [hold j hj] at hused
  have htest : test (h'.slabs a).bits j = true ↔ j < k + 1 := by
    constructor
    · intro ht
      rcases hused.mp ⟨hself.1, hj, ht⟩ with hlt | ⟨-, rfl⟩
      · omega
      · omega
    · intro hlt
      refine (hused.mpr ?_).2.2
      by_cases hjk : j = k
      · exact Or.inr ⟨rfl, hjk⟩
      · exact Or.inl (by omega)
  by_cases hlt : j < k + 1
  · simp [hlt, htest.mpr hlt]
  · rw [decide_eq_false hlt, Bool.eq_false_iff]
    exact fun ht => hlt (htest.mp ht)

variable (pmmAlloc highVma) in
/-- The next object is the one after the last. -/
theorem Filled.next {h : Heap} {c a k : ℕ} (hf : Filled h c a k) (hk : k + 1 < objectsPerSlab)
    (p : σ) :
    ∃ h', cacheAllocObject pmmAlloc highVma h p c =
        some (some (objectAt (h.caches c).objectSize a k), h', p) ∧
      Filled h' c a (k + 1) ∧ OnlyTook h h' c a := by
  obtain ⟨h', partials, fulls, he, inv', -, hstay, hal⟩ :=
    cacheAllocObject_partial pmmAlloc highVma p hf.toCacheInv
  have hav := hf.available
  obtain ⟨rfl, rfl⟩ := hstay (by omega)
  rw [hf.nextIndex (by omega)] at he hal
  refine ⟨h', he, ⟨inv', ?_, bits_of_used hal fun j hj => ?_⟩, hal.caches, hal.objectSize,
    hal.pagesPerSlab, fun b hb => hal.outside b (by simpa using hb)⟩
  · have := hal.available
    rw [if_pos (by simp)] at this
    omega
  · simp [Used, hj, hf.bits j hj]

variable (highVma) in
/-- The first allocation of a cache takes the first object of a new slab. -/
theorem filled_first {h : Heap} {c phys : ℕ} {p q : σ} (inv : CacheInv h c [] [])
    (hp : pmmAlloc p (h.caches c).pagesPerSlab = some (phys, q)) (ha : phys % pageSize = 0)
    (hb : phys + pageSize ≤ 2 ^ 64) :
    ∃ h', cacheAllocObject pmmAlloc highVma h p c =
        some (some (objectAt (h.caches c).objectSize (phys + highVma) 0), h', q) ∧
      Filled h' c (phys + highVma) 1 ∧ OnlyTook h h' c (phys + highVma) := by
  obtain ⟨h', he, inv', -, hal⟩ := cacheAllocObject_new highVma inv hp ha hb (by simp)
  refine ⟨h', he, ⟨inv', ?_, bits_of_used hal fun j hj => ?_⟩, hal.caches, hal.objectSize,
    hal.pagesPerSlab, fun b hb => hal.outside b (by simpa using hb)⟩
  · simpa using hal.available
  · simp [Used]

/-- The records written so far: cache `i` is object `i` of the root slab at `a`. -/
structure Created (h : Heap) (a : ℕ) (sizes : List ℕ) : Prop where
  rootSize : (h.caches 0).objectSize = sizeofCache
  rootPages : (h.caches 0).pagesPerSlab = (newCache sizeofCache).pagesPerSlab
  record : ∀ i (hi : i < sizes.length), h.caches (objectAt sizeofCache a i) = newCache sizes[i]

lemma Filled.setCache {h : Heap} {c d a k : ℕ} (hf : Filled h c a k) (hd : c ≠ d) (x : Cache) :
    Filled (h.setCache d x) c a k := by
  have hc : (h.setCache d x).caches c = h.caches c := by simp [hd]
  refine ⟨⟨?_, ?_, hf.short, ?_, hf.nodup, hf.slab, hf.room⟩, hf.available, hf.bits⟩
  · rw [hc, hf.noEmpty]
  · rw [hc]
    exact hf.partialChain
  · rw [hc]
    exact hf.fullChain

lemma objectAt_ne_zero (size a i : ℕ) : 0 ≠ objectAt size a i := by
  simp only [objectAt, firstObject]
  omega

/-- One more cache: the record goes to the object just taken. -/
lemma Created.snoc {h h' : Heap} {a : ℕ} {sizes : List ℕ} (size : ℕ) (hc : Created h a sizes)
    (ho : OnlyTook h h' 0 a) :
    Created (h'.setCache (objectAt sizeofCache a sizes.length) (newCache size)) a (sizes ++ [size]) := by
  have hne := objectAt_ne_zero sizeofCache a sizes.length
  refine ⟨?_, ?_, ?_⟩
  · rw [setCache_caches, Function.update_of_ne hne, ho.objectSize, hc.rootSize]
  · rw [setCache_caches, Function.update_of_ne hne, ho.pagesPerSlab, hc.rootPages]
  · intro i hi
    by_cases hlast : i = sizes.length
    · subst hlast
      simp
    · have hlt : i < sizes.length := by
        simp only [List.length_append, List.length_singleton] at hi
        omega
      have hdiff : objectAt sizeofCache a i ≠ objectAt sizeofCache a sizes.length := by
        simp only [objectAt, sizeofCache]
        omega
      rw [setCache_caches, Function.update_of_ne hdiff,
        ho.caches _ (objectAt_ne_zero _ _ _).symm, hc.record i hlt, List.getElem_append_left hlt]

variable (pmmAlloc highVma) in
/-- The rest of the loop of `slab_init`, from a root slab whose first objects are taken. -/
lemma slabInit_loop {h : Heap} {a : ℕ} {sizes : List ℕ} (rest : List ℕ) (p : σ)
    (hf : Filled h 0 a sizes.length) (hc : Created h a sizes)
    (hlen : sizes.length + rest.length < objectsPerSlab) :
    ∃ h', rest.foldlM (fun r size =>
          (slabCacheCreate pmmAlloc highVma r.2.1 r.2.2 0 size).map fun q =>
            (r.1 ++ q.1.toList, q.2.1, q.2.2))
        ((List.range sizes.length).map (objectAt sizeofCache a), h, p) =
        some ((List.range (sizes ++ rest).length).map (objectAt sizeofCache a), h', p) ∧
      Filled h' 0 a (sizes ++ rest).length ∧ Created h' a (sizes ++ rest) := by
  induction rest generalizing h sizes with
  | nil => exact ⟨h, by simp, by simpa using hf, by simpa using hc⟩
  | cons size rest ih =>
    simp only [List.length_cons] at hlen
    obtain ⟨h1, he, hf1, ho⟩ := hf.next pmmAlloc highVma (by omega) p
    rw [hc.rootSize] at he
    have hf2 := hf1.setCache (objectAt_ne_zero sizeofCache a sizes.length) (newCache size)
    have hc2 := hc.snoc size ho
    obtain ⟨h3, he3, hf3, hc3⟩ := ih (by simpa using hf2) hc2
      (by simp only [List.length_append, List.length_singleton]; omega)
    refine ⟨h3, ?_, by simpa using hf3, by simpa using hc3⟩
    rw [List.foldlM_cons, slabCacheCreate, he]
    simpa [List.range_succ] using he3

/-- The pointers of the eleven caches, when the first root slab is at `a`. -/
def cachesAt (a : ℕ) : List ℕ := (List.range kmallocSizes.length).map (objectAt sizeofCache a)

variable (highVma) in
/-- `slab_init` needs one root slab and succeeds as soon as it gets it. -/
theorem slabInit_spec (h0 : Heap) {p q : σ} {phys : ℕ}
    (hp : pmmAlloc p (newCache sizeofCache).pagesPerSlab = some (phys, q))
    (ha : phys % pageSize = 0) (hb : phys + pageSize ≤ 2 ^ 64) :
    ∃ h, slabInit pmmAlloc highVma h0 p = some (cachesAt (phys + highVma), h, q) ∧
      Filled h 0 (phys + highVma) kmallocSizes.length ∧ Created h (phys + highVma) kmallocSizes := by
  have hroot : (h0.setCache 0 (newCache sizeofCache)).caches 0 = newCache sizeofCache := by simp
  have inv : CacheInv (h0.setCache 0 (newCache sizeofCache)) 0 [] [] := by
    constructor
    all_goals simp [newCache]
  obtain ⟨h1, he, hf, ho⟩ := filled_first highVma inv (by rwa [hroot]) ha hb
  rw [hroot] at he
  have hf1 := hf.setCache (objectAt_ne_zero sizeofCache (phys + highVma) 0) (newCache 16)
  have hc : Created (h0.setCache 0 (newCache sizeofCache)) (phys + highVma) [] :=
    ⟨by rw [hroot]; rfl, by rw [hroot], fun i hi => by simp at hi⟩
  have hc1 := hc.snoc 16 ho
  obtain ⟨h2, he2, hf2, hc2⟩ := slabInit_loop pmmAlloc highVma
    [24, 32, 48, 64, 92, 128, 256, 512, 1024, 2048] q hf1 hc1 (by decide)
  refine ⟨h2, ?_, hf2, hc2⟩
  rw [slabInit, kmallocSizes, List.foldlM_cons, slabCacheCreate, he]
  exact he2

lemma slabInit_none (h0 : Heap) {p : σ}
    (hp : pmmAlloc p (newCache sizeofCache).pagesPerSlab = none) :
    slabInit pmmAlloc highVma h0 p = none := by
  have hroot : (h0.setCache 0 (newCache sizeofCache)).caches 0 = newCache sizeofCache := by simp
  have hpick : pickSlab (newCache sizeofCache) = none := rfl
  rw [slabInit, kmallocSizes, List.foldlM_cons, slabCacheCreate, cacheAllocObject]
  simp [hpick, cacheAllocSlab, pmmAllocz, hp]

lemma Created.record_mem {h : Heap} {a c : ℕ} (hc : Created h a kmallocSizes) (hm : c ∈ cachesAt a) :
    ∃ size ∈ kmallocSizes, h.caches c = newCache size := by
  obtain ⟨i, hi, rfl⟩ := List.mem_map.mp hm
  exact ⟨_, List.getElem_mem _, hc.record i (List.mem_range.mp hi)⟩

lemma Created.hasSizes {h : Heap} {a : ℕ} (hc : Created h a kmallocSizes) :
    HasSizes (cachesAt a) h := by
  rw [HasSizes, cachesAt, List.map_map]
  refine List.ext_getElem (by simp) fun i h1 h2 => ?_
  simp [hc.record i h2, newCache]

/-- Only the root cache has a slab yet. -/
def rootSlabs (a c : ℕ) : List ℕ := if c = 0 then [a] else []

lemma Created.slabs {h : Heap} {a : ℕ} (hc : Created h a kmallocSizes)
    (hf : Filled h 0 a kmallocSizes.length) (ha : a % pageSize = 0) :
    Slabs h (0 :: cachesAt a) (rootSlabs a) := by
  have hsizes : ∀ n ∈ kmallocSizes, 1 ≤ n ∧ n ≤ 2048 := by decide
  have hne : ∀ c ∈ cachesAt a, c ≠ 0 := by
    intro c hm
    obtain ⟨i, -, rfl⟩ := List.mem_map.mp hm
    exact (objectAt_ne_zero _ _ _).symm
  have hroot : ∀ c b, b ∈ rootSlabs a c → c = 0 ∧ b = a := by
    intro c b hb
    unfold rootSlabs at hb
    split_ifs at hb with h0
    · exact ⟨h0, by simpa using hb⟩
    · simp at hb
  refine ⟨?_, ?_, ?_, ?_, ?_⟩
  · intro c hm
    rcases List.mem_cons.mp hm with rfl | hm
    · exact ⟨[a], [], hf.toCacheInv, rfl⟩
    · obtain ⟨size, -, he⟩ := hc.record_mem hm
      refine ⟨[], [], ?_, by simp [rootSlabs, hne c hm]⟩
      constructor
      all_goals simp [he, newCache]
  · intro c hm
    rcases List.mem_cons.mp hm with rfl | hm
    · rw [hc.rootSize]
      decide
    · obtain ⟨size, hsize, he⟩ := hc.record_mem hm
      rw [he]
      exact hsizes size hsize
  · intro c hm
    rcases List.mem_cons.mp hm with rfl | hm
    · rw [hc.rootSize, hc.rootPages]
    · obtain ⟨size, -, he⟩ := hc.record_mem hm
      rw [he]
      rfl
  · intro c _ b hb
    rw [(hroot c b hb).2]
    exact ha
  · intro c _ d _ b hb b' hb' hdiff
    obtain ⟨rfl, rfl⟩ := hroot c b hb
    obtain ⟨rfl, rfl⟩ := hroot d b' hb'
    exact absurd ⟨rfl, rfl⟩ hdiff

end PiggyOs.Kmalloc
