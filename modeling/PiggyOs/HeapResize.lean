import PiggyOs.KmallocDispatch

/-! Two heaps that differ at most in the sizes noted in block headers, each within the pages of its block. No
operation but `krealloc` reads these, so whatever happens on one heap happens on the other. -/
namespace PiggyOs.Kmalloc
open SlabCache LinkedChain

/-- What of a header is kept when its block is resized in place. -/
def headerPages (x : BigAllocHeader) : ℕ × ℕ := (x.pageCount, divCeil x.size pageSize)

structure Resized (h h0 : Heap) : Prop where
  caches : h.caches = h0.caches
  slabs : h.slabs = h0.slabs
  headers : ∀ a, (h.headers a).map headerPages = (h0.headers a).map headerPages

namespace Resized
variable {σ : Type} {pmmAlloc : σ → ℕ → Option (ℕ × σ)} {pmmFree : σ → ℕ → ℕ → σ} {highVma : ℕ}
variable {h h0 h' : Heap} {cs : List ℕ} {p q : σ}

lemma refl (h : Heap) : Resized h h := ⟨rfl, rfl, fun _ => rfl⟩

lemma setSlab (hr : Resized h h0) (a : ℕ) (s : Slab) : Resized (h.setSlab a s) (h0.setSlab a s) := by
  refine ⟨hr.caches, ?_, hr.headers⟩
  rw [setSlab_slabs, setSlab_slabs, hr.slabs]

lemma setCache (hr : Resized h h0) (c : ℕ) (x : Cache) : Resized (h.setCache c x) (h0.setCache c x) := by
  refine ⟨?_, hr.slabs, hr.headers⟩
  rw [setCache_caches, setCache_caches, hr.caches]

lemma setSlabs (hr : Resized h h0) (caches : ℕ → Cache) (slabs : ℕ → Slab) (mem mem0 : ℕ → BitVec 8) :
    Resized ⟨caches, slabs, h.headers, mem⟩ ⟨caches, slabs, h0.headers, mem0⟩ := ⟨rfl, rfl, hr.headers⟩

lemma zero (hr : Resized h h0) (start length : ℕ) : Resized (h.zero start length) (h0.zero start length) := by
  refine ⟨hr.caches, hr.slabs, fun a => ?_⟩
  simp only [Heap.zero]
  split_ifs
  · rfl
  · exact hr.headers a

lemma setHeader (hr : Resized h h0) (a : ℕ) {x y : BigAllocHeader} (hxy : headerPages x = headerPages y) :
    Resized (h.setHeader a x) (h0.setHeader a y) := by
  refine ⟨hr.caches, hr.slabs, fun b => ?_⟩
  by_cases hb : b = a
  · simp [Heap.setHeader, hb, hxy]
  · simpa [Heap.setHeader, hb] using hr.headers b

lemma slabAllocObject (hr : Resized h h0) (slab : Option ℕ) :
    (SlabCache.slabAllocObject h slab).1 = (SlabCache.slabAllocObject h0 slab).1 ∧
      Resized (SlabCache.slabAllocObject h slab).2 (SlabCache.slabAllocObject h0 slab).2 := by
  cases slab with
  | none => exact ⟨rfl, hr⟩
  | some a =>
    simp only [SlabCache.slabAllocObject, hr.slabs, hr.caches]
    split
    · exact ⟨rfl, hr⟩
    · exact ⟨rfl, (hr.setSlab _ _).zero _ _⟩

lemma relinkSlab (hr : Resized h h0) (c a : ℕ) :
    Resized (SlabCache.relinkSlab h c a) (SlabCache.relinkSlab h0 c a) := by
  simp only [SlabCache.relinkSlab, hr.slabs, hr.caches]
  split_ifs
  · exact (hr.setSlabs _ _ _ _).setCache _ _
  · exact (hr.setSlabs _ _ _ _).setCache _ _
  · exact hr

lemma cacheAllocSlab {c a : ℕ} (hr : Resized h h0)
    (ha : SlabCache.cacheAllocSlab pmmAlloc highVma h p c = some (a, h', q)) :
    ∃ h0', SlabCache.cacheAllocSlab pmmAlloc highVma h0 p c = some (a, h0', q) ∧ Resized h' h0' := by
  simp only [SlabCache.cacheAllocSlab, pmmAllocz, hr.caches, Option.map_map, Option.map_eq_some_iff] at ha ⊢
  obtain ⟨⟨phys, t⟩, hp, he⟩ := ha
  simp only [Function.comp, Prod.mk.injEq] at he
  obtain ⟨rfl, rfl, rfl⟩ := he
  refine ⟨_, ⟨⟨phys, t⟩, hp, rfl⟩, ?_⟩
  have hz := (hr.zero (phys + highVma) (pageSize * (h0.caches c).pagesPerSlab)).setSlab (phys + highVma)
    (newSlab highVma c (phys + highVma))
  simp only [zero_caches, setSlab_caches, hz.slabs, hr.caches]
  exact (hz.setSlabs _ _ _ _).setCache _ _

lemma cacheAllocObject {c : ℕ} {object : Option ℕ} (hr : Resized h h0)
    (ha : SlabCache.cacheAllocObject pmmAlloc highVma h p c = some (object, h', q)) :
    ∃ h0', SlabCache.cacheAllocObject pmmAlloc highVma h0 p c = some (object, h0', q) ∧ Resized h' h0' := by
  have hfrom : ∀ {a : ℕ} {h h0 : Heap}, Resized h h0 →
      (SlabCache.slabAllocObject h (some a)).1 = object →
      SlabCache.relinkSlab (SlabCache.slabAllocObject h (some a)).2 c a = h' →
      ∃ h0', ((SlabCache.slabAllocObject h0 (some a)).1 = object ∧
        SlabCache.relinkSlab (SlabCache.slabAllocObject h0 (some a)).2 c a = h0') ∧ Resized h' h0' := by
    intro a h h0 hr hobject hheap
    obtain ⟨hsame, hrest⟩ := hr.slabAllocObject (some a)
    exact ⟨_, ⟨hsame ▸ hobject, rfl⟩, hheap ▸ hrest.relinkSlab c a⟩
  simp only [SlabCache.cacheAllocObject, hr.caches] at ha ⊢
  cases hpick : pickSlab (h0.caches c) with
  | some a =>
    simp only [hpick, Option.map_some, Option.some.injEq, Prod.mk.injEq] at ha ⊢
    obtain ⟨hobject, hheap, rfl⟩ := ha
    obtain ⟨h0', ⟨h1, h2⟩, hr'⟩ := hfrom hr hobject hheap
    exact ⟨h0', ⟨h1, h2, rfl⟩, hr'⟩
  | none =>
    simp only [hpick] at ha ⊢
    obtain ⟨⟨a, h1, t⟩, hslab, he⟩ := Option.map_eq_some_iff.mp ha
    simp only [Prod.mk.injEq] at he
    obtain ⟨hobject, hheap, rfl⟩ := he
    obtain ⟨h2, hslab0, hr1⟩ := hr.cacheAllocSlab hslab
    obtain ⟨h0', ⟨h3, h4⟩, hr'⟩ := hfrom hr1 hobject hheap
    exact ⟨h0', by simp only [hslab0, Option.map_some, h3, h4], hr'⟩

lemma cacheFor (hr : Resized h h0) (size : ℕ) : Kmalloc.cacheFor cs h size = Kmalloc.cacheFor cs h0 size := by
  simp only [Kmalloc.cacheFor, hr.caches]

/-- What a request does on one heap it does on the other. -/
lemma kmalloc {size : ℕ} {ptr : Option ℕ} (hr : Resized h h0)
    (hm : Kmalloc.kmalloc pmmAlloc highVma cs h p size = .ok (ptr, h', q)) :
    ∃ h0', Kmalloc.kmalloc pmmAlloc highVma cs h0 p size = .ok (ptr, h0', q) ∧ Resized h' h0' := by
  rcases kmalloc_cases _ _ hm with ⟨rfl, rfl, rfl, rfl⟩ | ⟨hsize, c, hc, ha⟩ | ⟨hsize, hc, ret, hp, hret⟩
  · exact ⟨h0, by simp [Kmalloc.kmalloc], hr⟩
  · obtain ⟨h0', ha0, hr'⟩ := hr.cacheAllocObject ha
    exact ⟨h0', by simp only [Kmalloc.kmalloc, hsize, if_false, ← hr.cacheFor, hc, ha0], hr'⟩
  · rcases hret with ⟨rfl, rfl, rfl⟩ | ⟨hne, rfl, rfl⟩
    · exact ⟨h0, by simp only [Kmalloc.kmalloc, hsize, if_false, ← hr.cacheFor, hc, hp, if_true], hr⟩
    · exact ⟨_, by simp only [Kmalloc.kmalloc, hsize, if_false, ← hr.cacheFor, hc, hp, hne],
        hr.setHeader _ rfl⟩

lemma slabFreeObject {object fuel : ℕ} {head : Option ℕ} {ok : Bool} (hr : Resized h h0)
    (hf : SlabCache.slabFreeObject h object fuel head = some (ok, h')) :
    ∃ h0', SlabCache.slabFreeObject h0 object fuel head = some (ok, h0') ∧ Resized h' h0' := by
  induction fuel generalizing head with
  | zero =>
    cases head with
    | none =>
      simp only [SlabCache.slabFreeObject, Option.some.injEq, Prod.mk.injEq] at hf ⊢
      obtain ⟨rfl, rfl⟩ := hf
      exact ⟨h0, ⟨rfl, rfl⟩, hr⟩
    | some a => simp [SlabCache.slabFreeObject] at hf
  | succ fuel ih =>
    cases head with
    | none =>
      simp only [SlabCache.slabFreeObject, Option.some.injEq, Prod.mk.injEq] at hf ⊢
      obtain ⟨rfl, rfl⟩ := hf
      exact ⟨h0, ⟨rfl, rfl⟩, hr⟩
    | some a =>
      simp only [SlabCache.slabFreeObject, hr.slabs, hr.caches] at hf ⊢
      split_ifs at hf ⊢
      · simp only [Option.some.injEq, Prod.mk.injEq] at hf ⊢
        obtain ⟨rfl, rfl⟩ := hf
        exact ⟨_, ⟨rfl, rfl⟩, hr.setSlab _ _⟩
      · exact ih hf

lemma cacheFreeObject {object fuel c : ℕ} {ok : Bool} (hr : Resized h h0)
    (hf : SlabCache.cacheFreeObject fuel h c object = some (ok, h')) :
    ∃ h0', SlabCache.cacheFreeObject fuel h0 c object = some (ok, h0') ∧ Resized h' h0' := by
  simp only [SlabCache.cacheFreeObject] at hf ⊢
  cases hp : SlabCache.slabFreeObject h object fuel (h.caches c).partialSlabs with
  | none => simp [hp] at hf
  | some r =>
    obtain ⟨found, h1⟩ := r
    obtain ⟨h2, hp0, hr1⟩ := hr.slabFreeObject hp
    rw [hp] at hf
    rw [← hr.caches, hp0]
    cases found with
    | true =>
      simp only [Option.some.injEq, Prod.mk.injEq] at hf ⊢
      obtain ⟨rfl, rfl⟩ := hf
      exact ⟨h2, ⟨rfl, rfl⟩, hr1⟩
    | false =>
      dsimp only at hf ⊢
      rw [← hr1.caches]
      exact hr1.slabFreeObject hf

lemma freeInCaches {ptr fuel : ℕ} (hr : Resized h h0) (hf : Kmalloc.freeInCaches fuel ptr cs h = .ok h') :
    ∃ h0', Kmalloc.freeInCaches fuel ptr cs h0 = .ok h0' ∧ Resized h' h0' := by
  induction cs generalizing h h0 with
  | nil =>
    obtain rfl := Except.ok.inj hf
    exact ⟨h0, rfl, hr⟩
  | cons c cs ih =>
    simp only [Kmalloc.freeInCaches] at hf ⊢
    cases hc : SlabCache.cacheFreeObject fuel h c ptr with
    | none => simp [hc] at hf
    | some r =>
      obtain ⟨found, h1⟩ := r
      obtain ⟨h2, hc0, hr1⟩ := hr.cacheFreeObject hc
      rw [hc] at hf
      rw [hc0]
      cases found with
      | true =>
        obtain rfl := Except.ok.inj hf
        exact ⟨h2, rfl, hr1⟩
      | false => exact ih hr1 hf

/-- What a release does on one heap it does on the other. -/
lemma kfree {ptr : Option ℕ} {fuel : ℕ} (hr : Resized h h0)
    (hf : Kmalloc.kfree pmmFree highVma fuel cs h p ptr = .ok (h', q)) :
    ∃ h0', Kmalloc.kfree pmmFree highVma fuel cs h0 p ptr = .ok (h0', q) ∧ Resized h' h0' := by
  cases ptr with
  | none =>
    simp only [Kmalloc.kfree, Except.ok.injEq, Prod.mk.injEq] at hf ⊢
    obtain ⟨rfl, rfl⟩ := hf
    exact ⟨h0, ⟨rfl, rfl⟩, hr⟩
  | some a =>
    simp only [Kmalloc.kfree] at hf ⊢
    split_ifs at hf ⊢
    · have hpages := hr.headers (a - pageSize)
      cases hx : h.headers (a - pageSize) with
      | none => simp [hx] at hf
      | some x =>
        rw [hx, Option.map_some] at hpages
        obtain ⟨y, hy, hxy⟩ := Option.map_eq_some_iff.mp hpages.symm
        have hcount : y.pageCount = x.pageCount := congrArg Prod.fst hxy
        simp only [hx, Except.ok.injEq, Prod.mk.injEq] at hf
        obtain ⟨rfl, rfl⟩ := hf
        exact ⟨h0, by rw [hy, ← hcount], hr⟩
    · cases hc : Kmalloc.freeInCaches fuel a cs h with
      | error e => simp [hc, Except.map] at hf
      | ok h1 =>
        obtain ⟨h2, hc0, hr1⟩ := hr.freeInCaches hc
        simp only [hc, Except.map, Except.ok.injEq, Prod.mk.injEq] at hf
        obtain ⟨rfl, rfl⟩ := hf
        exact ⟨h2, by simp only [hc0, Except.map], hr1⟩

end Resized
end PiggyOs.Kmalloc
