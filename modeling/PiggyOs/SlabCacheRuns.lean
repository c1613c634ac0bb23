import PiggyOs.PageSource
import PiggyOs.SlabCacheInvariant

/-! Histories of one cache: any mixture of allocations and releases of live objects, on pages
from a supplier of disjoint ranges. -/
namespace PiggyOs.SlabCache
open Bitmap LinkedChain Transition

/-- The heap, the page supplier and the objects that callers hold. -/
structure Session (σ : Type) where
  heap : Heap
  pmm : σ
  live : List ℕ

inductive Call
  | alloc
  | free (object : ℕ)
  deriving DecidableEq, Repr

inductive Served {σ : Type} (pmmAlloc : σ → ℕ → Option (ℕ × σ)) (highVma c : ℕ) :
    Session σ → Call → Session σ → Prop
  | alloc {s : Session σ} {object : Option ℕ} {h : Heap} {p : σ} :
      cacheAllocObject pmmAlloc highVma s.heap s.pmm c = some (object, h, p) →
      Served pmmAlloc highVma c s .alloc ⟨h, p, object.toList ++ s.live⟩
  | free {s : Session σ} {object fuel : ℕ} {ok : Bool} {h : Heap} :
      object ∈ s.live → cacheFreeObject fuel s.heap c object = some (ok, h) →
      Served pmmAlloc highVma c s (.free object) ⟨h, s.pmm, s.live.erase object⟩

variable {σ : Type} {highVma : ℕ}

/-- Every page range obtained since `p0` is the slab at its address, on exactly one of the
three lists, and the slab counts its free objects. -/
structure SlabsListed (src : PageSource σ highVma) (p0 : σ) (c : ℕ) (s : Session σ)
    (empties partials fulls : List ℕ) : Prop where
  emptyChain : SlabChain s.heap.slabs none (s.heap.caches c).emptySlabs empties
  partialChain : SlabChain s.heap.slabs none (s.heap.caches c).partialSlabs partials
  fullChain : SlabChain s.heap.slabs none (s.heap.caches c).fullSlabs fulls
  once : (empties ++ partials ++ fulls).Nodup
  all : ∃ ranges, src.granted s.pmm = ranges ++ src.granted p0 ∧
    ranges.Perm ((empties ++ partials ++ fulls).map fun a =>
      (a - highVma, pageSize * (s.heap.caches c).pagesPerSlab))
  count : ∀ a ∈ empties ++ partials ++ fulls, (s.heap.slabs a).availableObjects +
    countSet (s.heap.slabs a).bits (s.heap.slabs a).totalObjects = (s.heap.slabs a).totalObjects

/-- Live objects of `size` bytes do not overlap, and each lies in the pages of one of `slabs`,
above its header and its bitmap. -/
structure ObjectsSafe (c size : ℕ) (s : Session σ) (slabs : List ℕ) : Prop where
  disjoint : s.live.Pairwise fun p q => Apart (p, size) (q, size)
  inside : ∀ p ∈ s.live, ∃ a ∈ slabs, a + sizeofSlab ≤ p ∧
    (s.heap.slabs a).bitmap + objectsPerSlab ≤ p ∧
    p + size ≤ a + pageSize * (s.heap.caches c).pagesPerSlab

/-- The slabs of a cache, as far as their pages matter. -/
structure Placed (src : PageSource σ highVma) (p0 p : σ) (size : ℕ) (slabs : List ℕ) : Prop where
  positive : ∀ a ∈ slabs, 1 ≤ (newCache size).pagesPerSlab
  apart : slabs.Pairwise fun a b =>
    Apart (a, pageSize * (newCache size).pagesPerSlab) (b, pageSize * (newCache size).pagesPerSlab)
  all : ∃ ranges, src.granted p = ranges ++ src.granted p0 ∧
    ranges.Perm (slabs.map fun a => (a - highVma, pageSize * (newCache size).pagesPerSlab))
  high : ∀ a ∈ slabs, highVma ≤ a

/-- What every history keeps: the shape of the lists, the slabs apart, and the live objects
as those whose bits are set. -/
structure Inv (src : PageSource σ highVma) (p0 : σ) (c size : ℕ) (s : Session σ)
    (partials fulls : List ℕ) : Prop extends CacheInv s.heap c partials fulls,
    Placed src p0 s.pmm size (partials ++ fulls) where
  objectSize : (s.heap.caches c).objectSize = size
  pages : (s.heap.caches c).pagesPerSlab = (newCache size).pagesPerSlab
  live : ∀ p, p ∈ s.live ↔ ∃ a i, Used s.heap (partials ++ fulls) a i ∧ p = objectAt size a i
  liveNodup : s.live.Nodup

/-- The page count leaves room for the alignment that it does not mention. -/
lemma newCache_fits {size : ℕ} (hb : size * 512 + 568 < 2 ^ 64)
    (hp : 1 ≤ (newCache size).pagesPerSlab) :
    firstObject + size * objectsPerSlab ≤ pageSize * (newCache size).pagesPerSlab := by
  simp only [newCache, divCeil, objectsPerSlab, sizeofSlab, pageSize, firstObject] at *
  omega

lemma objectAt_inside {size a i : ℕ} (hb : size * 512 + 568 < 2 ^ 64)
    (hp : 1 ≤ (newCache size).pagesPerSlab) (hi : i < objectsPerSlab) :
    a + firstObject ≤ objectAt size a i ∧
      objectAt size a i + size ≤ a + pageSize * (newCache size).pagesPerSlab := by
  have hfit := newCache_fits hb hp
  have hle : (i + 1) * size ≤ objectsPerSlab * size := Nat.mul_le_mul_right size (by omega)
  rw [Nat.add_mul, Nat.one_mul, Nat.mul_comm objectsPerSlab] at hle
  simp only [objectAt]
  omega

lemma pairwise_apart {l : List ℕ} {n a b : ℕ}
    (h : l.Pairwise fun a b => Apart (a, n) (b, n)) (ha : a ∈ l) (hb : b ∈ l) (hne : a ≠ b) :
    Apart (a, n) (b, n) :=
  haveI : Std.Symm fun a b => Apart (a, n) (b, n) := ⟨fun _ _ => Apart.symm⟩
  h.forall ha hb hne

/-- Two different objects of the cache share no byte. -/
lemma objectAt_apart {l : List ℕ} {size a b i j : ℕ} (hb : size * 512 + 568 < 2 ^ 64)
    (hp : 1 ≤ (newCache size).pagesPerSlab)
    (h : l.Pairwise fun a b => Apart (a, pageSize * (newCache size).pagesPerSlab)
      (b, pageSize * (newCache size).pagesPerSlab))
    (ha : a ∈ l) (hbl : b ∈ l) (hi : i < objectsPerSlab) (hj : j < objectsPerSlab)
    (hne : ¬ (a = b ∧ i = j)) : Apart (objectAt size a i, size) (objectAt size b j, size) := by
  by_cases hab : a = b
  · subst hab
    have hij : i ≠ j := fun h => hne ⟨rfl, h⟩
    simp only [Apart, objectAt]
    rcases Nat.lt_or_gt_of_ne hij with hlt | hlt
    · have := Nat.mul_le_mul_right size (show i + 1 ≤ j by omega)
      rw [Nat.add_mul, Nat.one_mul] at this
      omega
    · have := Nat.mul_le_mul_right size (show j + 1 ≤ i by omega)
      rw [Nat.add_mul, Nat.one_mul] at this
      omega
  · have hd := pairwise_apart h ha hbl hab
    have h1 := objectAt_inside (a := a) hb hp hi
    have h2 := objectAt_inside (a := b) hb hp hj
    simp only [Apart] at hd ⊢
    omega

variable {src : PageSource σ highVma} {p0 : σ} {c size : ℕ} {partials fulls : List ℕ}

lemma inv_start {h0 : Heap} (hc : h0.caches c = newCache size) :
    Inv src p0 c size ⟨h0, p0, []⟩ [] [] where
  noEmpty := by rw [hc]; rfl
  partialChain := by rw [hc]; rfl
  short := by simp
  fullChain := by rw [hc]; rfl
  nodup := by simp
  slab := by simp
  room := by simp
  positive := by simp
  apart := by simp
  all := ⟨[], by simp⟩
  high := by simp
  objectSize := by rw [hc]; rfl
  pages := by rw [hc]
  live := by simp [Used]
  liveNodup := by simp

/-- The objects whose bits are set are the live ones, also after object `i` of slab `a` joined. -/
lemma live_cons {s : Session σ} {h' : Heap} {slabs slabs' : List ℕ} {a i : ℕ}
    (hlive : ∀ p, p ∈ s.live ↔ ∃ a i, Used s.heap slabs a i ∧ p = objectAt size a i)
    (hal : Allocated s.heap h' c a i slabs slabs') (p : ℕ) :
    p ∈ objectAt size a i :: s.live ↔ ∃ a i, Used h' slabs' a i ∧ p = objectAt size a i := by
  rw [List.mem_cons, hlive]
  constructor
  · rintro (rfl | ⟨b, j, hu, rfl⟩)
    · exact ⟨a, i, (hal.used a i).mpr (Or.inr ⟨rfl, rfl⟩), rfl⟩
    · exact ⟨b, j, (hal.used b j).mpr (Or.inl hu), rfl⟩
  · rintro ⟨b, j, hu, rfl⟩
    rcases (hal.used b j).mp hu with hu | ⟨rfl, rfl⟩
    · exact Or.inr ⟨b, j, hu, rfl⟩
    · exact Or.inl rfl

lemma Placed.perm {p : σ} {slabs slabs' : List ℕ} (hp : Placed src p0 p size slabs)
    (h : slabs'.Perm slabs) : Placed src p0 p size slabs' where
  positive a ha := hp.positive a (h.mem_iff.mp ha)
  apart := (h.pairwise_iff fun hx => Apart.symm hx).mpr hp.apart
  all := by
    obtain ⟨ranges, he, hperm⟩ := hp.all
    exact ⟨ranges, he, hperm.trans (h.symm.map _)⟩
  high a ha := hp.high a (h.mem_iff.mp ha)

/-- A new slab on pages of the supplier stays clear of the others. -/
lemma Placed.cons {p q : σ} {phys : ℕ} {slabs : List ℕ} (hp : Placed src p0 p size slabs)
    (ha : src.alloc p (newCache size).pagesPerSlab = some (phys, q)) :
    phys + highVma ∉ slabs ∧ Placed src p0 q size ((phys + highVma) :: slabs) := by
  obtain ⟨ranges, he, hperm⟩ := hp.all
  have hpos := src.positive ha
  have hapart : ∀ a ∈ slabs, Apart (phys + highVma, pageSize * (newCache size).pagesPerSlab)
      (a, pageSize * (newCache size).pagesPerSlab) := by
    intro a hm
    have hmem : (a - highVma, pageSize * (newCache size).pagesPerSlab) ∈ src.granted p := by
      rw [he]
      exact List.mem_append_left _ (hperm.mem_iff.mpr (List.mem_map_of_mem hm))
    have := src.apart ha _ hmem
    have := hp.high a hm
    simp only [Apart] at *
    omega
  refine ⟨fun hm => ?_, ⟨fun _ _ => hpos, List.pairwise_cons.mpr ⟨hapart, hp.apart⟩, ?_, ?_⟩⟩
  · have := hapart _ hm
    simp only [Apart, pageSize] at this
    omega
  · refine ⟨(phys, pageSize * (newCache size).pagesPerSlab) :: ranges, ?_, ?_⟩
    · rw [src.record ha, he, List.cons_append]
    · simpa using hperm.cons (phys, pageSize * (newCache size).pagesPerSlab)
  · intro a hm
    rcases List.mem_cons.mp hm with rfl | hm
    · omega
    · exact hp.high a hm

/-- The invariant after an allocation took object `i` of slab `a`. -/
lemma Inv.join {s : Session σ} {h : Heap} {p : σ} {a i : ℕ} {partials' fulls' : List ℕ}
    (inv : Inv src p0 c size s partials fulls) (inv' : CacheInv h c partials' fulls')
    (h1 : 1 ≤ size) (hb : size * 512 + 568 < 2 ^ 64)
    (hal : Allocated s.heap h c a i (partials ++ fulls) (partials' ++ fulls'))
    (hpl : Placed src p0 p size (partials' ++ fulls')) :
    Inv src p0 c size ⟨h, p, objectAt size a i :: s.live⟩ partials' fulls' := by
  have hself := (hal.used a i).mpr (Or.inr ⟨rfl, rfl⟩)
  refine ⟨inv', hpl, hal.objectSize.trans inv.objectSize, hal.pagesPerSlab.trans inv.pages,
    live_cons inv.live hal, List.nodup_cons.mpr ⟨fun hm => ?_, inv.liveNodup⟩⟩
  obtain ⟨b, j, hu, he⟩ := (inv.live _).mp hm
  have hu' := (hal.used b j).mpr (Or.inl hu)
  by_cases hne : a = b ∧ i = j
  · obtain ⟨rfl, rfl⟩ := hne
    exact hal.fresh hu
  · have := objectAt_apart hb (hpl.positive a hself.1) hpl.apart hself.1 hu'.1 hself.2.1 hu'.2.1 hne
    simp only [Apart, he] at this
    omega

/-- An allocation takes an object of the partial slab, or the first one of a new slab if there is none. -/
theorem Inv.alloc_cases {s : Session σ} {object : Option ℕ} {h : Heap} {p : σ}
    (inv : Inv src p0 c size s partials fulls) (h1 : 1 ≤ size) (hb : size * 512 + 568 < 2 ^ 64)
    (hr : cacheAllocObject src.alloc highVma s.heap s.pmm c = some (object, h, p)) :
    ∃ a i partials' fulls', object = some (objectAt size a i) ∧
      Inv src p0 c size ⟨h, p, objectAt size a i :: s.live⟩ partials' fulls' ∧
      (partials = [a] ∧ (partials' ++ fulls').Perm (a :: fulls) ∧
          (2 ≤ (s.heap.slabs a).availableObjects → partials' = [a] ∧ fulls' = fulls) ∧
          (h.slabs a).availableObjects + 1 = (s.heap.slabs a).availableObjects ∨
        partials = [] ∧ partials' = [a] ∧ fulls' = fulls) := by
  match partials, inv.short with
  | [a], _ =>
    obtain ⟨h', partials', fulls', he, inv', hperm, hstay, hal⟩ :=
      cacheAllocObject_partial src.alloc highVma s.pmm inv.toCacheInv
    simp only [he, Option.some.injEq, Prod.mk.injEq, inv.objectSize] at hr
    obtain ⟨rfl, rfl, rfl⟩ := hr
    have hleft := hal.available
    rw [if_pos List.mem_cons_self] at hleft
    exact ⟨a, _, partials', fulls', rfl, inv.join inv' h1 hb hal (inv.toPlaced.perm hperm),
      Or.inl ⟨rfl, hperm, hstay, hleft⟩⟩
  | [], _ =>
    have hnone : (s.heap.caches c).partialSlabs = none := inv.partialChain
    have hpick : pickSlab (s.heap.caches c) = none := by simp [pickSlab, inv.noEmpty, hnone]
    cases hp : src.alloc s.pmm (s.heap.caches c).pagesPerSlab with
    | none => simp [cacheAllocObject, hpick, cacheAllocSlab, pmmAllocz, hp] at hr
    | some r =>
      obtain ⟨phys, q⟩ := r
      have hp' := hp
      rw [inv.pages] at hp'
      obtain ⟨hf, hpl⟩ := inv.toPlaced.cons hp'
      have hlow : phys + pageSize ≤ 2 ^ 64 := by
        have h2 := src.mapped hp
        have h3 := Nat.mul_le_mul_left pageSize (src.positive hp)
        omega
      obtain ⟨h', he, inv', -, hal⟩ := cacheAllocObject_new highVma inv.toCacheInv hp
        (src.aligned hp) hlow hf
      simp only [he, Option.some.injEq, Prod.mk.injEq, inv.objectSize] at hr
      obtain ⟨rfl, rfl, rfl⟩ := hr
      exact ⟨phys + highVma, 0, [phys + highVma], fulls, rfl, inv.join inv' h1 hb hal hpl,
        Or.inr ⟨rfl, rfl, rfl⟩⟩

/-- An allocation returns an object and keeps the invariant. -/
theorem Inv.alloc {s : Session σ} {object : Option ℕ} {h : Heap} {p : σ}
    (inv : Inv src p0 c size s partials fulls) (h1 : 1 ≤ size) (hb : size * 512 + 568 < 2 ^ 64)
    (hr : cacheAllocObject src.alloc highVma s.heap s.pmm c = some (object, h, p)) :
    object ≠ none ∧ ∃ partials' fulls',
      Inv src p0 c size ⟨h, p, object.toList ++ s.live⟩ partials' fulls' := by
  obtain ⟨a, i, partials', fulls', rfl, inv', -⟩ := inv.alloc_cases h1 hb hr
  exact ⟨Option.some_ne_none _, partials', fulls', inv'⟩

/-- An address of one slab is not an object of another. -/
lemma Inv.not_covers {s : Session σ} {a b i : ℕ} (inv : Inv src p0 c size s partials fulls)
    (h1 : 1 ≤ size) (hb : size * 512 + 568 < 2 ^ 64)
    (hu : Used s.heap (partials ++ fulls) a i) (hbl : b ∈ partials ++ fulls) (hne : b ≠ a) :
    ¬ Covers s.heap size b (objectAt size a i) := by
  have hok := inv.slab b hbl
  have hd := pairwise_apart inv.apart hbl hu.1 hne
  have hin := objectAt_inside (a := a) hb (inv.positive a hu.1) hu.2.1
  have hfit := newCache_fits hb (inv.positive a hu.1)
  simp only [Covers, hok.buffer, hok.total, Apart] at hd ⊢
  omega

/-- Releasing a live object succeeds and keeps the invariant. -/
theorem Inv.free {s : Session σ} {object : ℕ} (inv : Inv src p0 c size s partials fulls)
    (h1 : 1 ≤ size) (hb : size * 512 + 568 < 2 ^ 64) (hm : object ∈ s.live) :
    ∃ h, Inv src p0 c size ⟨h, s.pmm, s.live.erase object⟩ partials fulls ∧
      ∀ fuel, (partials ++ fulls).length ≤ fuel →
        cacheFreeObject fuel s.heap c object = some (true, h) := by
  obtain ⟨a, i, hu, rfl⟩ := (inv.live object).mp hm
  have hspec := fun fuel hfuel => cacheFreeObject_spec fuel inv.toCacheInv inv.objectSize
    h1 hu (fun b hbl hne => inv.not_covers h1 hb hu hbl hne) hfuel
  obtain ⟨-, inv', hused⟩ := hspec _ le_rfl
  refine ⟨putObject s.heap a i, ⟨inv', inv.toPlaced, inv.objectSize, inv.pages, ?_,
    inv.liveNodup.erase _⟩, fun fuel hfuel => (hspec fuel hfuel).1⟩
  intro p
  rw [inv.liveNodup.mem_erase_iff, inv.live]
  constructor
  · rintro ⟨hne, b, j, hbu, rfl⟩
    refine ⟨b, j, (hused b j).mpr ⟨hbu, ?_⟩, rfl⟩
    rintro ⟨rfl, rfl⟩
    exact hne rfl
  · rintro ⟨b, j, hbu, rfl⟩
    obtain ⟨hbu, hne⟩ := (hused b j).mp hbu
    refine ⟨fun he => ?_, b, j, hbu, rfl⟩
    have := objectAt_apart hb (inv.positive b hbu.1) inv.apart hbu.1 hu.1 hbu.2.1 hu.2.1 hne
    simp only [Apart, he] at this
    omega

lemma Inv.step {s t : Session σ} {call : Call} (h1 : 1 ≤ size) (hb : size * 512 + 568 < 2 ^ 64)
    (h : ∃ partials fulls, Inv src p0 c size s partials fulls)
    (hs : Served src.alloc highVma c s call t) :
    ∃ partials fulls, Inv src p0 c size t partials fulls := by
  obtain ⟨partials, fulls, inv⟩ := h
  cases hs with
  | alloc hr => exact (inv.alloc h1 hb hr).2
  | @free object fuel ok h hm hr =>
    obtain ⟨h', inv', hspec⟩ := inv.free h1 hb hm
    have hmax := cacheFreeObject_mono (Nat.le_max_left fuel (partials ++ fulls).length) hr
    rw [hspec _ (Nat.le_max_right _ _)] at hmax
    obtain ⟨rfl, rfl⟩ := Prod.mk.inj (Option.some.inj hmax)
    exact ⟨partials, fulls, inv'⟩

lemma Inv.slabsListed {s : Session σ} (inv : Inv src p0 c size s partials fulls) :
    SlabsListed src p0 c s [] partials fulls where
  emptyChain := inv.noEmpty
  partialChain := inv.partialChain
  fullChain := inv.fullChain
  once := inv.nodup
  all := by simpa [inv.pages] using inv.all
  count a ha := by
    have hok := inv.slab a (by simpa using ha)
    rw [hok.total]
    exact hok.count

lemma Inv.objectsSafe {s : Session σ} (inv : Inv src p0 c size s partials fulls)
    (hb : size * 512 + 568 < 2 ^ 64) : ObjectsSafe c size s (partials ++ fulls) where
  disjoint := by
    refine inv.liveNodup.imp_of_mem fun {p q} hp hq hne => ?_
    obtain ⟨a, i, hu, rfl⟩ := (inv.live p).mp hp
    obtain ⟨b, j, hv, rfl⟩ := (inv.live q).mp hq
    refine objectAt_apart hb (inv.positive a hu.1) inv.apart hu.1 hv.1 hu.2.1 hv.2.1 ?_
    rintro ⟨rfl, rfl⟩
    exact hne rfl
  inside p hp := by
    obtain ⟨a, i, hu, rfl⟩ := (inv.live p).mp hp
    have hin := objectAt_inside (a := a) hb (inv.positive a hu.1) hu.2.1
    refine ⟨a, hu.1, ?_, ?_, ?_⟩
    · simp only [firstObject, sizeofSlab] at *
      omega
    · rw [(inv.slab a hu.1).bitmap]
      simp only [firstObject, sizeofSlab, objectsPerSlab] at *
      omega
    · rw [inv.pages]
      exact hin.2

/-- Slab cache safety, for every object size whose slab size is representable and every history
of the cache. -/
theorem cache_safe (src : PageSource σ highVma) {h0 : Heap} {p0 : σ} {c size : ℕ}
    {calls : List Call} {s : Session σ} (h1 : 1 ≤ size) (hb : size * 512 + 568 < 2 ^ 64)
    (hc : h0.caches c = newCache size)
    (hrun : Run (Served src.alloc highVma c) ⟨h0, p0, []⟩ calls s) :
    (∃ empties partials fulls, SlabsListed src p0 c s empties partials fulls ∧
      ObjectsSafe c size s (empties ++ partials ++ fulls)) ∧
    (∀ object h p, cacheAllocObject src.alloc highVma s.heap s.pmm c = some (object, h, p) →
      object ≠ none) ∧
    ∀ object ∈ s.live, ∃ fuel h, cacheFreeObject fuel s.heap c object = some (true, h) := by
  obtain ⟨partials, fulls, inv⟩ := hrun.invariant
    (fun s call t (h : ∃ partials fulls, Inv src p0 c size s partials fulls) hs =>
      Inv.step h1 hb h hs) ⟨[], [], inv_start hc⟩
  refine ⟨⟨[], partials, fulls, inv.slabsListed, inv.objectsSafe hb⟩, ?_, ?_⟩
  · intro object h p hr
    exact (inv.alloc h1 hb hr).1
  · intro object hm
    obtain ⟨h, -, hspec⟩ := inv.free h1 hb hm
    exact ⟨_, h, hspec _ le_rfl⟩

def emptyHeap : Heap where
  caches := fun _ => newCache 16
  slabs := fun _ => ⟨0, 0, 0, 0, fun _ => 0, 0, none, none⟩
  headers := fun _ => none
  mem := fun _ => 0

theorem cache_safe_lowPages :
    ∃ s object, Run (Served (Pmm.cursorSource Pmm.lowState.bitmap Pmm.directMap).alloc Pmm.directMap 0)
      ⟨emptyHeap, Pmm.lowPages, []⟩ [.alloc] s ∧ object ∈ s.live ∧
      ∃ slabs, ObjectsSafe 0 16 s slabs := by
  have hsome : (cacheAllocObject Pmm.cursorAlloc Pmm.directMap emptyHeap Pmm.lowPages 0).isSome := by decide
  obtain ⟨⟨first, h, p⟩, hr⟩ := Option.isSome_iff_exists.mp hsome
  have hrun : Run (Served (Pmm.cursorSource Pmm.lowState.bitmap Pmm.directMap).alloc Pmm.directMap 0)
      ⟨emptyHeap, Pmm.lowPages, []⟩ [.alloc] ⟨h, p, first.toList ++ []⟩ := .single (.alloc hr)
  have hcache : emptyHeap.caches 0 = newCache 16 := rfl
  have hnil : Run (Served (Pmm.cursorSource Pmm.lowState.bitmap Pmm.directMap).alloc Pmm.directMap 0)
      ⟨emptyHeap, Pmm.lowPages, []⟩ [] ⟨emptyHeap, Pmm.lowPages, []⟩ := .nil _
  have hne := (cache_safe (Pmm.cursorSource Pmm.lowState.bitmap Pmm.directMap) (by decide) (by decide)
    hcache hnil).2.1 _ _ _ hr
  obtain ⟨object, rfl⟩ := Option.ne_none_iff_exists'.mp hne
  obtain ⟨⟨empties, partials, fulls, -, hsafe⟩, -, -⟩ :=
    cache_safe (Pmm.cursorSource Pmm.lowState.bitmap Pmm.directMap) (by decide) (by decide) hcache hrun
  exact ⟨_, object, hrun, by simp, _, hsafe⟩

end PiggyOs.SlabCache
