import PiggyOs.SlabInit

/-! Histories of the general-purpose allocator: requests of any size and releases of live
pointers, from the state that `slab_init` leaves. -/
namespace PiggyOs.Kmalloc
open Bitmap SlabCache Transition

/-- `live` lists the pointers that callers hold with the sizes they asked for, `inUse` the
`(address, bytes)` ranges of pages that slabs and live blocks are on. -/
structure Session (σ : Type) where
  heap : Heap
  pmm : σ
  live : List (ℕ × ℕ)
  inUse : List (ℕ × ℕ)

inductive Call
  | malloc (size : ℕ)
  | free (ptr : ℕ)
  deriving DecidableEq, Repr

/-- How many pages a request makes the allocator ask for. -/
def pagesWanted (cs : List ℕ) (h : Heap) (size : ℕ) : Option ℕ :=
  if size = 0 then none
  else match cacheFor cs h size with
  | some c => if pickSlab (h.caches c) = none then some (h.caches c).pagesPerSlab else none
  | none => some (divCeil size pageSize + 1)

/-- A block of pages with its header page. -/
def blockRange (x : ℕ × ℕ) : ℕ × ℕ := (x.1 - pageSize, pageSize * (divCeil x.2 pageSize + 1))

variable {σ : Type} (pmmAlloc : σ → ℕ → Option (ℕ × σ)) (pmmFree : σ → ℕ → ℕ → σ) (highVma : ℕ)

/-- The pages that a request is going to get. -/
def grant (cs : List ℕ) (s : Session σ) (size : ℕ) : Option (ℕ × ℕ) :=
  (pagesWanted cs s.heap size).bind fun n =>
    (pmmAlloc s.pmm n).map fun r => (r.1 + highVma, pageSize * n)

inductive Served (cs : List ℕ) : Session σ → Call → Session σ → Prop
  | malloc {s : Session σ} {size : ℕ} {ptr : Option ℕ} {h : Heap} {p : σ} :
      kmalloc pmmAlloc highVma cs s.heap s.pmm size = .ok (ptr, h, p) →
      Served cs s (.malloc size) ⟨h, p, (ptr.map fun a => (a, size)).toList ++ s.live,
        (grant pmmAlloc highVma cs s size).toList ++ s.inUse⟩
  | free {s : Session σ} {ptr size fuel : ℕ} {h : Heap} {p : σ} :
      (ptr, size) ∈ s.live →
      kfree pmmFree highVma fuel cs s.heap s.pmm (some ptr) = .ok (h, p) →
      Served cs s (.free ptr) ⟨h, p, s.live.erase (ptr, size),
        if 2048 < size then s.inUse.erase (blockRange (ptr, size)) else s.inUse⟩

/-- The object a small request is about to take does not begin on a page boundary. -/
def SlotClear (cs : List ℕ) (h : Heap) (size : ℕ) : Prop :=
  ∀ c, cacheFor cs h size = some c →
    (firstObject + nextIndex h c * (h.caches c).objectSize) % pageSize ≠ 0

/-- The pages that a request is going to get are in the direct map and not in use. -/
def PagesFree (cs : List ℕ) (s : Session σ) (size : ℕ) : Prop :=
  ∀ r ∈ grant pmmAlloc highVma cs s size, r.1 + r.2 ≤ 2 ^ 64 ∧ ∀ x ∈ s.inUse, Apart x r

def Fits (cs : List ℕ) (s : Session σ) : Call → Prop
  | .malloc size => SlotClear cs s.heap size ∧ PagesFree pmmAlloc highVma cs s size
  | .free _ => True

structure IsBlock (h : Heap) (x : ℕ × ℕ) : Prop where
  aligned : x.1 % pageSize = 0
  above : pageSize ≤ x.1
  header : h.headers (x.1 - pageSize) = some ⟨bigAllocHeaderMagic, divCeil x.2 pageSize, x.2⟩

/-- The pointer is an object in use of the cache that serves requests of its size. -/
def IsObject (cs : List ℕ) (h : Heap) (slabs : ℕ → List ℕ) (x : ℕ × ℕ) : Prop :=
  ∃ c, cacheFor cs h x.2 = some c ∧
    ∃ a i, Used h (slabs c) a i ∧ x.1 = objectAt (h.caches c).objectSize a i

structure Inv (cs : List ℕ) (s : Session σ) (slabs : ℕ → List ℕ) : Prop where
  sizes : HasSizes cs s.heap
  caches : Slabs s.heap (0 :: cs) slabs
  taken : ∀ c ∈ 0 :: cs, ∀ a ∈ slabs c, slabRange s.heap c a ∈ s.inUse
  small : ∀ x ∈ s.live, x.2 ≤ 2048 → x.1 % pageSize ≠ 0 ∧ IsObject cs s.heap slabs x
  big : ∀ x ∈ s.live, 2048 < x.2 → IsBlock s.heap x ∧ blockRange x ∈ s.inUse ∧
    ∀ c ∈ 0 :: cs, ∀ a ∈ slabs c, Apart (slabRange s.heap c a) (blockRange x)
  nodup : (s.live.map Prod.fst).Nodup

section CacheFor
variable {cs : List ℕ} {h h' : Heap} {size c : ℕ}

lemma HasSizes.mem (hs : HasSizes cs h) (hc : c ∈ cs) : (h.caches c).objectSize ∈ kmallocSizes := by
  rw [← hs]
  exact List.mem_map_of_mem hc

lemma HasSizes.cacheFor_some (hs : HasSizes cs h) (hf : cacheFor cs h size = some c) :
    c ∈ cs ∧ size ≤ 2048 := by
  have hm := List.mem_of_find?_eq_some hf
  have hle := List.find?_some hf
  have hmax : ∀ n ∈ kmallocSizes, n ≤ 2048 := by decide
  have := hmax _ (hs.mem hm)
  simp only [decide_eq_true_eq] at hle
  exact ⟨hm, by omega⟩

lemma HasSizes.cacheFor_none (hs : HasSizes cs h) (hf : cacheFor cs h size = none) : 2048 < size := by
  have hlast : 2048 ∈ cs.map fun c => (h.caches c).objectSize := by
    rw [hs]
    decide
  obtain ⟨c, hc, he⟩ := List.mem_map.mp hlast
  have := List.find?_eq_none.mp hf c hc
  simp only [he, decide_eq_true_eq] at this
  omega

lemma cacheFor_congr (hsz : ∀ d, (h'.caches d).objectSize = (h.caches d).objectSize) :
    cacheFor cs h' size = cacheFor cs h size := by
  simp only [cacheFor, hsz]

lemma HasSizes.congr (hs : HasSizes cs h)
    (hsz : ∀ d, (h'.caches d).objectSize = (h.caches d).objectSize) : HasSizes cs h' := by
  simpa only [HasSizes, hsz] using hs

end CacheFor

variable {pmmAlloc pmmFree highVma} {cs : List ℕ} {s : Session σ} {slabs : ℕ → List ℕ}

lemma slabRange_congr {h h' : Heap} (hpg : ∀ d, (h'.caches d).pagesPerSlab = (h.caches d).pagesPerSlab)
    (c a : ℕ) : slabRange h' c a = slabRange h c a := by
  simp only [slabRange, hpg]

variable (highVma) in
/-- The pages granted for a new slab. -/
lemma grant_slab {size c phys : ℕ} {q : σ} (h0 : size ≠ 0) (hc : cacheFor cs s.heap size = some c)
    (hpick : pickSlab (s.heap.caches c) = none)
    (hp : pmmAlloc s.pmm (s.heap.caches c).pagesPerSlab = some (phys, q)) :
    grant pmmAlloc highVma cs s size = some (slabRange s.heap c (phys + highVma)) := by
  simp [grant, pagesWanted, h0, hc, hpick, hp, slabRange]

variable (highVma) in
/-- The pages granted for a block. -/
lemma grant_block {size ret : ℕ} {q : σ} (h0 : size ≠ 0) (hc : cacheFor cs s.heap size = none)
    (hp : pmmAlloc s.pmm (divCeil size pageSize + 1) = some (ret, q)) :
    grant pmmAlloc highVma cs s size =
      some (blockRange (ret + highVma + pageSize, size)) := by
  simp [grant, pagesWanted, h0, hc, hp, blockRange]

/-- A block keeps its header while an allocation clears memory elsewhere. -/
lemma IsBlock.alloc {h h' : Heap} {x : ℕ × ℕ} {c a i : ℕ} {l l' : List ℕ} (hb : IsBlock h x)
    (hal : Allocated h h' c a i l l')
    (hin : a ≤ objectAt (h.caches c).objectSize a i ∧ objectAt (h.caches c).objectSize a i +
      (h.caches c).objectSize ≤ a + pageSize * (h.caches c).pagesPerSlab)
    (hap : Apart (slabRange h c a) (blockRange x)) : IsBlock h' x := by
  refine ⟨hb.aligned, hb.above, ?_⟩
  have hout : ¬ (a ≤ x.1 - pageSize ∧ x.1 - pageSize < a + pageSize * (h.caches c).pagesPerSlab) := by
    simp only [Apart, slabRange, blockRange, pageSize] at *
    omega
  rw [hal.headers _ (fun hx => hout ⟨by omega, by omega⟩) (Or.inr hout)]
  exact hb.header

section Steps
variable (hv : highVma % pageSize = 0)
  (halign : ∀ p n a q, pmmAlloc p n = some (a, q) → a % pageSize = 0)
include hv halign

/-- Where a small request takes its object. -/
lemma Inv.took {size c : ℕ} {ptr : Option ℕ} {h : Heap} {q : σ} (inv : Inv cs s slabs)
    (h0 : size ≠ 0) (hc : cacheFor cs s.heap size = some c)
    (hr : cacheAllocObject pmmAlloc highVma s.heap s.pmm c = some (ptr, h, q))
    (hpf : PagesFree pmmAlloc highVma cs s size) :
    ∃ a l, ptr = some (objectAt (s.heap.caches c).objectSize a (nextIndex s.heap c)) ∧
      a % pageSize = 0 ∧ Allocated s.heap h c a (nextIndex s.heap c) (slabs c) l ∧
      Slabs h (0 :: cs) (Function.update slabs c l) ∧
      ∀ d b, b ∈ Function.update slabs c l d → b ∈ slabs d ∨
        d = c ∧ b = a ∧ grant pmmAlloc highVma cs s size = some (slabRange s.heap c a) := by
  have hcs : c ∈ 0 :: cs := List.mem_cons_of_mem _ (inv.sizes.cacheFor_some hc).1
  have hpos := inv.caches.range_pos hcs
  have hnew : pickSlab (s.heap.caches c) = none → ∀ phys t,
      pmmAlloc s.pmm (s.heap.caches c).pagesPerSlab = some (phys, t) →
      grant pmmAlloc highVma cs s size = some (slabRange s.heap c (phys + highVma)) ∧
      phys + pageSize ≤ 2 ^ 64 ∧ ∀ d ∈ 0 :: cs, ∀ b ∈ slabs d,
        Apart (slabRange s.heap d b) (slabRange s.heap c (phys + highVma)) := by
    intro hpick phys t hp
    have hg := grant_slab highVma h0 hc hpick hp
    obtain ⟨hle, hap⟩ := hpf _ hg
    simp only [slabRange] at hle
    exact ⟨hg, by omega, fun d hd b hb => hap _ (inv.taken d hd b hb)⟩
  obtain ⟨a, l, hptr, ho, hal, htook⟩ := (inv.caches.owns c hcs).alloc hr fun hpick phys t hp => by
    obtain ⟨-, hle, hap⟩ := hnew hpick phys t hp
    refine ⟨halign _ _ _ _ hp, hle, fun hm => ?_⟩
    have := hap c hcs _ hm
    simp only [Apart, slabRange, pageSize] at this hpos
    omega
  have hgrant : pickSlab (s.heap.caches c) = none →
      grant pmmAlloc highVma cs s size = some (slabRange s.heap c a) ∧ a % pageSize = 0 ∧
      ∀ d ∈ 0 :: cs, ∀ b ∈ slabs d, Apart (slabRange s.heap d b) (slabRange s.heap c a) := by
    intro hpick
    obtain ⟨-, phys, hp, rfl⟩ := htook.new hpick
    obtain ⟨hg, -, hap⟩ := hnew hpick phys q hp
    have := halign _ _ _ _ hp
    exact ⟨hg, by simp only [pageSize] at *; omega, hap⟩
  have hs := inv.caches.alloc hcs ho hal htook fun hpick => (hgrant hpick).2
  have hself : a ∈ Function.update slabs c l c := by
    rw [Function.update_self]
    exact ((hal.used a _).mpr (Or.inr ⟨rfl, rfl⟩)).1
  refine ⟨a, l, hptr, hs.aligned c hcs a hself, hal, hs, fun d b hb => ?_⟩
  exact (htook.mem hb).imp_right fun h => ⟨h.1, h.2.1, (hgrant h.2.2).1⟩

omit hv halign in
/-- Blocks stay as they are when a small request takes an object of slab `a`. -/
lemma Inv.block_kept {size c a i : ℕ} {h : Heap} {l : List ℕ} {x : ℕ × ℕ} (inv : Inv cs s slabs)
    (hcm : c ∈ 0 :: cs) (hal : Allocated s.heap h c a i (slabs c) l)
    (hpf : PagesFree pmmAlloc highVma cs s size)
    (hmem : ∀ d b, b ∈ Function.update slabs c l d → b ∈ slabs d ∨
      d = c ∧ b = a ∧ grant pmmAlloc highVma cs s size = some (slabRange s.heap c a))
    (hx : x ∈ s.live) (hbig : 2048 < x.2) :
    IsBlock h x ∧ ∀ d ∈ 0 :: cs, ∀ b ∈ Function.update slabs c l d,
      Apart (slabRange h d b) (blockRange x) := by
  obtain ⟨hblk, hin, hap⟩ := inv.big x hx hbig
  have hself := (hal.used a _).mpr (Or.inr ⟨rfl, rfl⟩)
  have hnew : ∀ d ∈ 0 :: cs, ∀ b ∈ Function.update slabs c l d,
      Apart (slabRange s.heap d b) (blockRange x) := by
    intro d hd b hb
    rcases hmem d b hb with hold | ⟨rfl, rfl, hg⟩
    · exact hap d hd b hold
    · exact ((hpf _ hg).2 _ hin).symm
  refine ⟨hblk.alloc hal ?_ (hnew c hcm a (by rw [Function.update_self]; exact hself.1)), ?_⟩
  · have := inv.caches.object_inside (a := a) hcm hself.2.1
    omega
  · intro d hd b hb
    rw [slabRange_congr fun d => (allocated_sizes hal d).2]
    exact hnew d hd b hb

/-- A small request keeps the invariant. -/
theorem Inv.object {size c : ℕ} {ptr : Option ℕ} {h : Heap} {q : σ} (inv : Inv cs s slabs)
    (h0 : size ≠ 0) (hc : cacheFor cs s.heap size = some c)
    (hr : cacheAllocObject pmmAlloc highVma s.heap s.pmm c = some (ptr, h, q))
    (hslot : SlotClear cs s.heap size) (hpf : PagesFree pmmAlloc highVma cs s size) :
    ∃ slabs', Inv cs ⟨h, q, (ptr.map fun a => (a, size)).toList ++ s.live,
      (grant pmmAlloc highVma cs s size).toList ++ s.inUse⟩ slabs' := by
  obtain ⟨a, l, rfl, ha, hal, hs, hmem⟩ := inv.took hv halign h0 hc hr hpf
  obtain ⟨hcs, hle⟩ := inv.sizes.cacheFor_some hc
  have hcm : c ∈ 0 :: cs := List.mem_cons_of_mem _ hcs
  have hself := (hal.used a _).mpr (Or.inr ⟨rfl, rfl⟩)
  have hsz := fun d => (allocated_sizes hal d).1
  have hrange := slabRange_congr fun d => (allocated_sizes hal d).2
  have hodd : objectAt (s.heap.caches c).objectSize a (nextIndex s.heap c) % pageSize ≠ 0 := by
    have := hslot c hc
    simp only [objectAt, pageSize] at *
    omega
  have hupd : Used h (Function.update slabs c l c) a (nextIndex s.heap c) := by
    rwa [Function.update_self]
  have hobj : ∀ x, IsObject cs s.heap slabs x → IsObject cs h (Function.update slabs c l) x := by
    rintro x ⟨d, hd, b, j, hu, hx⟩
    refine ⟨d, by rwa [cacheFor_congr hsz], b, j, ?_, by rwa [hsz]⟩
    exact Slabs.used_alloc hcm hs hal (List.mem_cons_of_mem _ (inv.sizes.cacheFor_some hd).1) hu
  refine ⟨Function.update slabs c l, inv.sizes.congr hsz, hs, ?_, ?_, ?_, ?_⟩
  · intro d hd b hb
    rw [hrange]
    rcases hmem d b hb with hold | ⟨rfl, rfl, hg⟩
    · exact List.mem_append_right _ (inv.taken d hd b hold)
    · simp [hg]
  · intro x hx hsmall
    simp only [Option.map_some, Option.toList_some, List.singleton_append, List.mem_cons] at hx
    rcases hx with rfl | hx
    · exact ⟨hodd, c, by rwa [cacheFor_congr hsz], a, _, hupd, by rw [hsz]⟩
    · exact (inv.small x hx hsmall).imp_right (hobj x)
  · intro x hx hbig
    simp only [Option.map_some, Option.toList_some, List.singleton_append, List.mem_cons] at hx
    rcases hx with rfl | hx
    · simp only at hbig
      omega
    · obtain ⟨hblk, hap⟩ := inv.block_kept hcm hal hpf hmem hx hbig
      exact ⟨hblk, List.mem_append_right _ (inv.big x hx hbig).2.1, hap⟩
  · simp only [Option.map_some, Option.toList_some, List.singleton_append, List.map_cons]
    refine List.nodup_cons.mpr ⟨fun hm => ?_, inv.nodup⟩
    obtain ⟨x, hx, hxe⟩ := List.mem_map.mp hm
    by_cases hbig : 2048 < x.2
    · exact hodd (hxe ▸ (inv.big x hx hbig).1.aligned)
    · obtain ⟨d, hd, b, j, hu, hxo⟩ := (inv.small x hx (by omega)).2
      have hdm : d ∈ 0 :: cs := List.mem_cons_of_mem _ (inv.sizes.cacheFor_some hd).1
      have hu' := Slabs.used_alloc hcm hs hal hdm hu
      have he : objectAt (h.caches d).objectSize b j =
          objectAt (h.caches c).objectSize a (nextIndex s.heap c) := by
        rw [hsz, hsz, ← hxo, hxe]
      obtain ⟨rfl, rfl, rfl⟩ := hs.object_inj hdm hcm hu' hupd he
      exact hal.fresh hu

omit halign in
/-- A request for pages keeps the invariant. -/
theorem Inv.block {size ret : ℕ} {q : σ} (inv : Inv cs s slabs) (h0 : size ≠ 0)
    (hc : cacheFor cs s.heap size = none)
    (hp : pmmAlloc s.pmm (divCeil size pageSize + 1) = some (ret, q)) (ha : ret % pageSize = 0)
    (hpf : PagesFree pmmAlloc highVma cs s size) :
    Inv cs ⟨s.heap.setHeader (ret + highVma) ⟨bigAllocHeaderMagic, divCeil size pageSize, size⟩, q,
      (ret + highVma + pageSize, size) :: s.live,
      (grant pmmAlloc highVma cs s size).toList ++ s.inUse⟩ slabs := by
  have hbig := inv.sizes.cacheFor_none hc
  have hg := grant_block highVma h0 hc hp
  obtain ⟨-, hap⟩ := hpf _ hg
  have hne : ∀ x ∈ s.live, 2048 < x.2 → x.1 - pageSize ≠ ret + highVma := by
    intro x hx hxb he
    have := hap _ (inv.big x hx hxb).2.1
    simp only [Apart, blockRange, pageSize] at *
    omega
  rw [hg]
  refine ⟨inv.sizes, inv.caches.setHeader _ _, ?_, ?_, ?_, ?_⟩
  · exact fun c hcm a hm => List.mem_append_right _ (inv.taken c hcm a hm)
  · intro x hx hsmall
    rcases List.mem_cons.mp hx with rfl | hx
    · simp only at hsmall
      omega
    · exact inv.small x hx hsmall
  · intro x hx hxb
    rcases List.mem_cons.mp hx with rfl | hx
    · refine ⟨⟨?_, Nat.le_add_left _ _, ?_⟩, by simp, fun c hcm a hm => hap _ (inv.taken c hcm a hm)⟩
      · simp only [pageSize] at *
        omega
      · simp [Heap.setHeader]
    · obtain ⟨hblk, hin, hapx⟩ := inv.big x hx hxb
      refine ⟨⟨hblk.aligned, hblk.above, ?_⟩, List.mem_append_right _ hin, hapx⟩
      simp only [Heap.setHeader, Function.update_of_ne (hne x hx hxb)]
      exact hblk.header
  · rw [List.map_cons]
    refine List.nodup_cons.mpr ⟨fun hm => ?_, inv.nodup⟩
    obtain ⟨x, hx, hxe⟩ := List.mem_map.mp hm
    by_cases hxb : 2048 < x.2
    · exact hne x hx hxb (by rw [hxe]; omega)
    · refine (inv.small x hx (by omega)).1 ?_
      rw [hxe]
      simp only [pageSize] at *
      omega

theorem Inv.malloc {size : ℕ} {ptr : Option ℕ} {h : Heap} {q : σ} (inv : Inv cs s slabs)
    (hm : kmalloc pmmAlloc highVma cs s.heap s.pmm size = .ok (ptr, h, q))
    (hslot : SlotClear cs s.heap size) (hpf : PagesFree pmmAlloc highVma cs s size) :
    ∃ slabs', Inv cs ⟨h, q, (ptr.map fun a => (a, size)).toList ++ s.live,
      (grant pmmAlloc highVma cs s size).toList ++ s.inUse⟩ slabs' := by
  rcases kmalloc_cases _ _ hm with ⟨rfl, rfl, rfl, rfl⟩ | ⟨h0, c, hc, hr⟩ |
    ⟨h0, hc, ret, hp, hret⟩
  · exact ⟨slabs, inv⟩
  · exact inv.object hv halign h0 hc hr hslot hpf
  · rcases hret with ⟨-, rfl, rfl⟩ | ⟨-, rfl, rfl⟩
    · exact ⟨slabs, inv.sizes, inv.caches,
        fun c hcm a hm => List.mem_append_right _ (inv.taken c hcm a hm), inv.small,
        fun x hx hxb => (inv.big x hx hxb).imp_right fun h => ⟨List.mem_append_right _ h.1, h.2⟩,
        inv.nodup⟩
    · exact ⟨slabs, inv.block hv h0 hc hp (halign _ _ _ _ hp) hpf⟩

end Steps

/-- `kfree` of a live block reads the header that `kmalloc` wrote. -/
lemma IsBlock.kfree {h : Heap} {x : ℕ × ℕ} (hb : IsBlock h x) (fuel : ℕ) (p : σ) :
    kfree pmmFree highVma fuel cs h p (some x.1) =
      .ok (h, pmmFree p (x.1 - highVma) (divCeil x.2 pageSize + 1)) := by
  simp only [Kmalloc.kfree, hb.aligned, if_true, hb.header]

/-- `kfree` of a live object finds it in the cache that served it. -/
lemma Inv.kfree_object {x : ℕ × ℕ} (inv : Inv cs s slabs) (hx : x ∈ s.live) (hs : x.2 ≤ 2048) :
    ∃ c a i, cacheFor cs s.heap x.2 = some c ∧ Used s.heap (slabs c) a i ∧
      x.1 = objectAt (s.heap.caches c).objectSize a i ∧ ∃ enough, ∀ fuel, enough ≤ fuel →
        freeInCaches fuel x.1 cs s.heap = .ok (putObject s.heap a i) := by
  obtain ⟨c, hc, a, i, hu, he⟩ := (inv.small x hx hs).2
  have hcs := (inv.sizes.cacheFor_some hc).1
  refine ⟨c, a, i, hc, hu, he, ((0 :: cs).map fun d => (slabs d).length).sum, fun fuel hfuel => ?_⟩
  rw [he]
  refine inv.caches.freeInCaches (List.mem_cons_of_mem _ hcs) hu (fun d hd => ?_) hcs
    fun d hd => List.mem_cons_of_mem _ hd
  exact (List.le_sum_of_mem (List.mem_map_of_mem hd)).trans hfuel

lemma Inv.eq_of_fst {x y : ℕ × ℕ} (inv : Inv cs s slabs) (hx : x ∈ s.live) (hy : y ∈ s.live)
    (he : x.1 = y.1) : x = y := List.inj_on_of_nodup_map inv.nodup hx hy he

lemma Inv.mem_erase {x y : ℕ × ℕ} (inv : Inv cs s slabs) (hy : y ∈ s.live)
    (hx : x ∈ s.live.erase y) : x ∈ s.live ∧ x.1 ≠ y.1 := by
  have hnd : s.live.Nodup := inv.nodup.of_map _
  obtain ⟨hne, hmem⟩ := hnd.mem_erase_iff.mp hx
  exact ⟨hmem, fun he => hne (inv.eq_of_fst hmem hy he)⟩

/-- Releasing an object keeps the invariant. -/
theorem Inv.free_object {x : ℕ × ℕ} {h : Heap} {fuel : ℕ} (inv : Inv cs s slabs) (hx : x ∈ s.live)
    (hs : x.2 ≤ 2048) (hr : freeInCaches fuel x.1 cs s.heap = .ok h) :
    Inv cs ⟨h, s.pmm, s.live.erase x, s.inUse⟩ slabs := by
  obtain ⟨c, a, i, hc, hu, he, enough, hspec⟩ := inv.kfree_object hx hs
  have hmax := freeInCaches_mono (Nat.le_max_left fuel enough) hr
  rw [hspec _ (Nat.le_max_right _ _), Except.ok.injEq] at hmax
  subst hmax
  have hcm : c ∈ 0 :: cs := List.mem_cons_of_mem _ (inv.sizes.cacheFor_some hc).1
  obtain ⟨-, hs', hused⟩ := inv.caches.free hcm hu le_rfl
  refine ⟨inv.sizes, hs', inv.taken, ?_, ?_, ?_⟩
  · intro y hy hsmall
    obtain ⟨hyl, hne⟩ := inv.mem_erase hx hy
    obtain ⟨hodd, d, hd, b, j, hv, hye⟩ := inv.small y hyl hsmall
    refine ⟨hodd, d, hd, b, j, ?_, hye⟩
    by_cases hdc : d = c
    · subst hdc
      refine (hused b j).mpr ⟨hv, ?_⟩
      rintro ⟨rfl, rfl⟩
      exact hne (hye.trans he.symm)
    · have hdm : d ∈ 0 :: cs := List.mem_cons_of_mem _ (inv.sizes.cacheFor_some hd).1
      have hba : b ≠ a := fun h => hdc (inv.caches.cache_eq hdm hcm hv.1 (h ▸ hu.1))
      rw [Used, putObject_of_ne hba]
      exact hv
  · intro y hy hbig
    obtain ⟨hblk, hin, hap⟩ := inv.big y (inv.mem_erase hx hy).1 hbig
    exact ⟨⟨hblk.aligned, hblk.above, hblk.header⟩, hin, hap⟩
  · exact inv.nodup.sublist (List.erase_sublist.map _)

/-- Releasing a block keeps the invariant. -/
theorem Inv.free_block {x : ℕ × ℕ} (p : σ) (inv : Inv cs s slabs) (hx : x ∈ s.live)
    (hb : 2048 < x.2) :
    Inv cs ⟨s.heap, p, s.live.erase x, s.inUse.erase (blockRange x)⟩ slabs := by
  obtain ⟨hblk, -, hap⟩ := inv.big x hx hb
  refine ⟨inv.sizes, inv.caches, ?_, ?_, ?_, ?_⟩
  · intro c hc a ha
    refine (List.mem_erase_of_ne fun he => ?_).mpr (inv.taken c hc a ha)
    have h1 := hap c hc a ha
    rw [he] at h1
    simp only [Apart, blockRange, pageSize] at h1
    omega
  · exact fun y hy hsmall => inv.small y (inv.mem_erase hx hy).1 hsmall
  · intro y hy hbig
    obtain ⟨hyl, hne⟩ := inv.mem_erase hx hy
    obtain ⟨hyb, hin, hyap⟩ := inv.big y hyl hbig
    refine ⟨hyb, (List.mem_erase_of_ne fun he => hne ?_).mpr hin, hyap⟩
    have h1 := hyb.above
    have h2 := hblk.above
    have h3 := congrArg Prod.fst he
    simp only [blockRange] at h3
    omega
  · exact inv.nodup.sublist (List.erase_sublist.map _)

theorem Inv.step {t : Session σ} {call : Call} (hv : highVma % pageSize = 0)
    (halign : ∀ p n a q, pmmAlloc p n = some (a, q) → a % pageSize = 0)
    (hi : ∃ slabs, Inv cs s slabs) (hfit : Fits pmmAlloc highVma cs s call)
    (hs : Served pmmAlloc pmmFree highVma cs s call t) : ∃ slabs, Inv cs t slabs := by
  obtain ⟨slabs, inv⟩ := hi
  cases hs with
  | malloc hm => exact inv.malloc hv halign hm hfit.1 hfit.2
  | @free ptr size fuel h p hx hr =>
    by_cases hb : 2048 < size
    · rw [((inv.big _ hx hb).1.kfree fuel s.pmm), Except.ok.injEq, Prod.mk.injEq] at hr
      obtain ⟨rfl, rfl⟩ := hr
      rw [if_pos hb]
      exact ⟨slabs, inv.free_block _ hx hb⟩
    · have hodd := (inv.small _ hx (by simp only; omega)).1
      simp only [kfree, if_neg hodd] at hr
      cases hf : freeInCaches fuel ptr cs s.heap with
      | error e => simp [hf, Except.map] at hr
      | ok h1 =>
        simp only [hf, Except.map, Except.ok.injEq, Prod.mk.injEq] at hr
        obtain ⟨rfl, rfl⟩ := hr
        rw [if_neg hb]
        exact ⟨slabs, inv.free_object hx (by simp only; omega) hf⟩

/-- A block keeps its header through any further request. -/
lemma Inv.header_kept {x : ℕ × ℕ} {size : ℕ} {ptr : Option ℕ} {h : Heap} {q : σ}
    (hv : highVma % pageSize = 0)
    (halign : ∀ p n a q, pmmAlloc p n = some (a, q) → a % pageSize = 0)
    (inv : Inv cs s slabs) (hx : x ∈ s.live) (hb : 2048 < x.2)
    (hpf : PagesFree pmmAlloc highVma cs s size)
    (hm : kmalloc pmmAlloc highVma cs s.heap s.pmm size = .ok (ptr, h, q)) :
    h.headers (x.1 - pageSize) = some ⟨bigAllocHeaderMagic, divCeil x.2 pageSize, x.2⟩ := by
  rcases kmalloc_cases _ _ hm with ⟨-, -, rfl, -⟩ | ⟨h0, c, hc, hr⟩ | ⟨h0, hc, ret, hp, hret⟩
  · exact (inv.big x hx hb).1.header
  · obtain ⟨a, l, -, -, hal, -, hmem⟩ := inv.took hv halign h0 hc hr hpf
    exact (inv.block_kept (List.mem_cons_of_mem _ (inv.sizes.cacheFor_some hc).1) hal hpf hmem hx hb).1.header
  · rcases hret with ⟨-, -, rfl⟩ | ⟨-, rfl, rfl⟩
    · exact (inv.big x hx hb).1.header
    · exact ((inv.block hv h0 hc hp (halign _ _ _ _ hp) hpf).big x (List.mem_cons_of_mem _ hx) hb).1.header

/-- Release and reallocation treat every live pointer the way it was made. -/
structure Agrees (pmmAlloc : σ → ℕ → Option (ℕ × σ)) (pmmFree : σ → ℕ → ℕ → σ) (highVma : ℕ)
    (cs : List ℕ) (s : Session σ) : Prop where
  aligned : ∀ x ∈ s.live, (x.1 % pageSize = 0 ↔ 2048 < x.2)
  block : ∀ x ∈ s.live, 2048 < x.2 → ∀ fuel, kfree pmmFree highVma fuel cs s.heap s.pmm (some x.1) =
    .ok (s.heap, pmmFree s.pmm (x.1 - highVma) (divCeil x.2 pageSize + 1))
  object : ∀ x ∈ s.live, x.2 ≤ 2048 → ∃ c a i, cacheFor cs s.heap x.2 = some c ∧
    test (s.heap.slabs a).bits i = true ∧ x.1 = objectAt (s.heap.caches c).objectSize a i ∧
    ∃ enough, ∀ fuel, enough ≤ fuel →
      kfree pmmFree highVma fuel cs s.heap s.pmm (some x.1) = .ok (putObject s.heap a i, s.pmm)
  noHeader : ∀ x ∈ s.live, ∀ fuel,
    kfree pmmFree highVma fuel cs s.heap s.pmm (some x.1) ≠ .error .notAHeader ∧
    ∀ size, PagesFree pmmAlloc highVma cs s size →
      krealloc pmmAlloc pmmFree highVma fuel cs s.heap s.pmm (some x.1) size ≠ .error .notAHeader

lemma Inv.agrees (hv : highVma % pageSize = 0)
    (halign : ∀ p n a q, pmmAlloc p n = some (a, q) → a % pageSize = 0) (inv : Inv cs s slabs) :
    Agrees pmmAlloc pmmFree highVma cs s where
  aligned x hx := by
    by_cases hb : 2048 < x.2
    · exact iff_of_true (inv.big x hx hb).1.aligned hb
    · exact iff_of_false (inv.small x hx (by omega)).1 hb
  block x hx hb fuel := (inv.big x hx hb).1.kfree fuel s.pmm
  object x hx hs := by
    obtain ⟨c, a, i, hc, hu, he, enough, hspec⟩ := inv.kfree_object hx hs
    refine ⟨c, a, i, hc, hu.2.2, he, enough, fun fuel hfuel => ?_⟩
    simp only [kfree, if_neg (inv.small x hx hs).1, hspec fuel hfuel, Except.map]
  noHeader x hx fuel := by
    by_cases hb : 2048 < x.2
    · have hblk := (inv.big x hx hb).1
      refine ⟨by simp [hblk.kfree fuel s.pmm], fun size hpf => ?_⟩
      exact krealloc_block _ _ _ hblk.aligned hblk.header fun new h1 p1 hm =>
        inv.header_kept hv halign hx hb hpf hm
    · have hodd := (inv.small x hx (by omega)).1
      exact ⟨fun hr => Fault.noConfusion (kfree_error _ _ hodd hr), fun size _ =>
        krealloc_object _ _ _ hodd⟩

end PiggyOs.Kmalloc
