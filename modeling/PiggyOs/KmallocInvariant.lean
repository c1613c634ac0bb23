import PiggyOs.KmallocRoundTrip
import PiggyOs.SlabCacheRuns

/-! Several caches side by side: each keeps its own list shape, and no two slabs share a page.
`slabs c` lists the slabs of cache `c`. -/
namespace PiggyOs.Kmalloc
open Bitmap SlabCache LinkedChain

variable {σ : Type} {pmmAlloc : σ → ℕ → Option (ℕ × σ)} {highVma : ℕ}

def Owns (h : Heap) (c : ℕ) (slabs : List ℕ) : Prop :=
  ∃ partials fulls, CacheInv h c partials fulls ∧ slabs = partials ++ fulls

def slabRange (h : Heap) (c a : ℕ) : ℕ × ℕ := (a, pageSize * (h.caches c).pagesPerSlab)

structure Slabs (h : Heap) (caches : List ℕ) (slabs : ℕ → List ℕ) : Prop where
  owns : ∀ c ∈ caches, Owns h c (slabs c)
  objectSize : ∀ c ∈ caches, 1 ≤ (h.caches c).objectSize ∧ (h.caches c).objectSize ≤ 2048
  pages : ∀ c ∈ caches, (h.caches c).pagesPerSlab = (newCache (h.caches c).objectSize).pagesPerSlab
  aligned : ∀ c ∈ caches, ∀ a ∈ slabs c, a % pageSize = 0
  apart : ∀ c ∈ caches, ∀ d ∈ caches, ∀ a ∈ slabs c, ∀ b ∈ slabs d, ¬ (c = d ∧ a = b) →
    Apart (slabRange h c a) (slabRange h d b)

lemma newCache_pages {size : ℕ} (h1 : 1 ≤ size) (h2 : size ≤ 2048) :
    size * 512 + 568 < 2 ^ 64 ∧ 1 ≤ (newCache size).pagesPerSlab := by
  simp only [newCache, divCeil, objectsPerSlab, sizeofSlab, pageSize]
  omega

/-- A cache none of whose records changed keeps its slabs. -/
lemma Owns.frame {h h' : Heap} {c : ℕ} {slabs : List ℕ} (ho : Owns h c slabs)
    (hc : h'.caches c = h.caches c) (hs : ∀ b ∈ slabs, h'.slabs b = h.slabs b) :
    Owns h' c slabs := by
  obtain ⟨partials, fulls, inv, rfl⟩ := ho
  refine ⟨partials, fulls, ?_, rfl⟩
  have hp : ∀ b ∈ partials, h'.slabs b = h.slabs b := fun b hb => hs b (by simp [hb])
  have hf : ∀ b ∈ fulls, h'.slabs b = h.slabs b := fun b hb => hs b (by simp [hb])
  constructor
  · rw [hc, inv.noEmpty]
  · rw [hc]
    exact inv.partialChain.congr (fun b hb => by rw [hp b hb]) fun b hb => by rw [hp b hb]
  · exact inv.short
  · rw [hc]
    exact inv.fullChain.congr (fun b hb => by rw [hf b hb]) fun b hb => by rw [hf b hb]
  · exact inv.nodup
  · intro b hb
    rw [hs b hb]
    exact inv.slab b hb
  · intro b hb
    rw [hp b hb]
    exact inv.room b hb

/-- Where an allocation took its object: a slab the cache had, or a new one. -/
structure TookFrom (pmmAlloc : σ → ℕ → Option (ℕ × σ)) (highVma : ℕ) (h : Heap) (p q : σ)
    (c a : ℕ) (slabs slabs' : List ℕ) : Prop where
  old : pickSlab (h.caches c) ≠ none → slabs'.Perm slabs ∧ q = p
  new : pickSlab (h.caches c) = none → slabs' = a :: slabs ∧ ∃ phys,
    pmmAlloc p (h.caches c).pagesPerSlab = some (phys, q) ∧ a = phys + highVma

/-- The slabs of all caches after the allocation are those before, and perhaps the new one. -/
lemma TookFrom.mem {h : Heap} {p q : σ} {c a d b : ℕ} {slabs : ℕ → List ℕ} {slabs' : List ℕ}
    (ht : TookFrom pmmAlloc highVma h p q c a (slabs c) slabs')
    (hb : b ∈ Function.update slabs c slabs' d) :
    b ∈ slabs d ∨ d = c ∧ b = a ∧ pickSlab (h.caches c) = none := by
  by_cases hd : d = c
  · subst hd
    rw [Function.update_self] at hb
    by_cases hpick : pickSlab (h.caches d) = none
    · rw [(ht.new hpick).1, List.mem_cons] at hb
      exact hb.symm.imp_right fun hb => ⟨rfl, hb, hpick⟩
    · exact Or.inl ((ht.old hpick).1.mem_iff.mp hb)
  · rw [Function.update_of_ne hd] at hb
    exact Or.inl hb

lemma allocated_sizes {h h' : Heap} {c a i : ℕ} {slabs slabs' : List ℕ}
    (hal : Allocated h h' c a i slabs slabs') (d : ℕ) :
    (h'.caches d).objectSize = (h.caches d).objectSize ∧
      (h'.caches d).pagesPerSlab = (h.caches d).pagesPerSlab := by
  by_cases hd : d = c
  · rw [hd, hal.objectSize, hal.pagesPerSlab]
    exact ⟨rfl, rfl⟩
  · rw [hal.caches d hd]
    exact ⟨rfl, rfl⟩

theorem Owns.alloc {h h' : Heap} {p q : σ} {c : ℕ} {slabs : List ℕ} {object : Option ℕ}
    (ho : Owns h c slabs) (hr : cacheAllocObject pmmAlloc highVma h p c = some (object, h', q))
    (hpages : pickSlab (h.caches c) = none → ∀ phys t,
      pmmAlloc p (h.caches c).pagesPerSlab = some (phys, t) →
        phys % pageSize = 0 ∧ phys + pageSize ≤ 2 ^ 64 ∧ phys + highVma ∉ slabs) :
    ∃ a slabs', object = some (objectAt (h.caches c).objectSize a (nextIndex h c)) ∧
      Owns h' c slabs' ∧ Allocated h h' c a (nextIndex h c) slabs slabs' ∧
      TookFrom pmmAlloc highVma h p q c a slabs slabs' := by
  obtain ⟨partials, fulls, inv, rfl⟩ := ho
  match partials, inv.short with
  | [a], _ =>
    have hpick : pickSlab (h.caches c) ≠ none := by simp [pickSlab, inv.partialChain.1]
    obtain ⟨h1, partials', fulls', he, inv', hperm, -, hal⟩ :=
      cacheAllocObject_partial pmmAlloc highVma p inv
    simp only [he, Option.some.injEq, Prod.mk.injEq] at hr
    obtain ⟨rfl, rfl, rfl⟩ := hr
    exact ⟨a, _, rfl, ⟨partials', fulls', inv', rfl⟩, hal, fun _ => ⟨hperm, rfl⟩,
      fun hn => absurd hn hpick⟩
  | [], _ =>
    have hnone : (h.caches c).partialSlabs = none := inv.partialChain
    have hpick : pickSlab (h.caches c) = none := by simp [pickSlab, inv.noEmpty, hnone]
    cases hp : pmmAlloc p (h.caches c).pagesPerSlab with
    | none => simp [cacheAllocObject, hpick, cacheAllocSlab, pmmAllocz, hp] at hr
    | some r =>
      obtain ⟨phys, t⟩ := r
      obtain ⟨ha, hb, hf⟩ := hpages hpick phys t hp
      obtain ⟨h1, he, inv', hidx, hal⟩ := cacheAllocObject_new highVma inv hp ha hb hf
      simp only [he, Option.some.injEq, Prod.mk.injEq] at hr
      obtain ⟨rfl, rfl, rfl⟩ := hr
      rw [hidx]
      exact ⟨_, _, rfl, ⟨[phys + highVma], fulls, inv', rfl⟩, hal, fun hn => absurd hpick hn,
        fun _ => ⟨rfl, phys, hp, rfl⟩⟩

section Slabs
variable {h h' : Heap} {caches : List ℕ} {slabs : ℕ → List ℕ}

lemma Slabs.setHeader (hs : Slabs h caches slabs) (a : ℕ) (x : BigAllocHeader) :
    Slabs (h.setHeader a x) caches slabs where
  owns c hc := (hs.owns c hc).frame rfl fun _ _ => rfl
  objectSize := hs.objectSize
  pages := hs.pages
  aligned := hs.aligned
  apart := hs.apart

lemma Slabs.range_pos (hs : Slabs h caches slabs) {c : ℕ} (hc : c ∈ caches) :
    pageSize ≤ pageSize * (h.caches c).pagesPerSlab := by
  have hsize := hs.objectSize c hc
  have := (newCache_pages hsize.1 hsize.2).2
  rw [hs.pages c hc]
  exact Nat.le_mul_of_pos_right _ this

/-- A slab belongs to one cache. -/
lemma Slabs.cache_eq (hs : Slabs h caches slabs) {c d a : ℕ} (hc : c ∈ caches) (hd : d ∈ caches)
    (ha : a ∈ slabs c) (hb : a ∈ slabs d) : c = d := by
  by_contra hne
  have hap := hs.apart c hc d hd a ha a hb fun h => hne h.1
  have := hs.range_pos hc
  have := hs.range_pos hd
  simp only [Apart, slabRange, pageSize] at *
  omega

/-- The bytes of an object are pages of its slab, above the header and the bitmap. -/
lemma Slabs.object_inside (hs : Slabs h caches slabs) {c a i : ℕ} (hc : c ∈ caches)
    (hi : i < objectsPerSlab) :
    a + firstObject ≤ objectAt (h.caches c).objectSize a i ∧
      objectAt (h.caches c).objectSize a i + (h.caches c).objectSize ≤
        a + pageSize * (h.caches c).pagesPerSlab := by
  have hsize := hs.objectSize c hc
  obtain ⟨hb, hp⟩ := newCache_pages hsize.1 hsize.2
  rw [hs.pages c hc]
  exact objectAt_inside hb hp hi

/-- Two objects at one address are the same object. -/
lemma Slabs.object_inj (hs : Slabs h caches slabs) {c d a b i j : ℕ} (hc : c ∈ caches)
    (hd : d ∈ caches) (hu : Used h (slabs c) a i) (hv : Used h (slabs d) b j)
    (he : objectAt (h.caches c).objectSize a i = objectAt (h.caches d).objectSize b j) :
    c = d ∧ a = b ∧ i = j := by
  have h1 := hs.object_inside (a := a) hc hu.2.1
  have h2 := hs.object_inside (a := b) hd hv.2.1
  have hs1 := hs.objectSize c hc
  have hs2 := hs.objectSize d hd
  have hsame : c = d ∧ a = b := by
    by_contra hne
    have hap := hs.apart c hc d hd a hu.1 b hv.1 hne
    simp only [Apart, slabRange] at hap
    omega
  obtain ⟨rfl, rfl⟩ := hsame
  refine ⟨rfl, rfl, ?_⟩
  simp only [objectAt, Nat.add_left_cancel_iff] at he
  exact Nat.eq_of_mul_eq_mul_right (by omega) he

/-- An allocation from cache `c` keeps all caches in order, if new pages are apart from every
slab. -/
theorem Slabs.alloc {p q : σ} {c a i : ℕ} {slabs' : List ℕ} (hs : Slabs h caches slabs)
    (hc : c ∈ caches) (ho : Owns h' c slabs')
    (hal : Allocated h h' c a i (slabs c) slabs')
    (htook : TookFrom pmmAlloc highVma h p q c a (slabs c) slabs')
    (hnew : pickSlab (h.caches c) = none → a % pageSize = 0 ∧
      ∀ d ∈ caches, ∀ b ∈ slabs d, Apart (slabRange h d b) (slabRange h c a)) :
    Slabs h' caches (Function.update slabs c slabs') := by
  have hsz := fun d => (allocated_sizes hal d).1
  have hpg := fun d => (allocated_sizes hal d).2
  have hrange : ∀ d b, slabRange h' d b = slabRange h d b := fun d b => by simp [slabRange, hpg]
  refine ⟨?_, ?_, ?_, ?_, ?_⟩
  · intro d hd
    by_cases hdc : d = c
    · rw [hdc, Function.update_self]
      exact ho
    · rw [Function.update_of_ne hdc]
      refine (hs.owns d hd).frame (hal.caches d hdc) fun b hb => hal.outside b fun hb' => ?_
      rcases htook.mem (d := c) (b := b) (by rwa [Function.update_self]) with hbc | ⟨-, rfl, hpick⟩
      · exact hdc (hs.cache_eq hd hc hb hbc)
      · have hap := (hnew hpick).2 d hd b hb
        have := hs.range_pos hd
        have := hs.range_pos hc
        simp only [Apart, slabRange, pageSize] at *
        omega
  · intro d hd
    rw [hsz]
    exact hs.objectSize d hd
  · intro d hd
    rw [hpg, hsz]
    exact hs.pages d hd
  · intro d hd b hb
    rcases htook.mem hb with hb | ⟨-, rfl, hpick⟩
    · exact hs.aligned d hd b hb
    · exact (hnew hpick).1
  · intro d hd e he b hb b' hb' hne
    rw [hrange, hrange]
    rcases htook.mem hb with hold | ⟨rfl, rfl, hpick⟩ <;>
      rcases htook.mem hb' with hold' | ⟨rfl, rfl, hpick⟩
    · exact hs.apart d hd e he b hold b' hold' hne
    · exact (hnew hpick).2 d hd b hold
    · exact ((hnew hpick).2 e he b' hold').symm
    · exact absurd ⟨rfl, rfl⟩ hne

/-- The objects in use after an allocation, over all caches. -/
lemma Slabs.used_alloc {c a i : ℕ} {slabs' : List ℕ} (hc : c ∈ caches)
    (hs' : Slabs h' caches (Function.update slabs c slabs'))
    (hal : Allocated h h' c a i (slabs c) slabs') {d b j : ℕ} (hd : d ∈ caches)
    (hu : Used h (slabs d) b j) : Used h' (Function.update slabs c slabs' d) b j := by
  by_cases hdc : d = c
  · subst hdc
    rw [Function.update_self]
    exact (hal.used b j).mpr (Or.inl hu)
  · rw [Function.update_of_ne hdc]
    refine ⟨hu.1, hu.2.1, ?_⟩
    rw [hal.outside b fun hb => hdc ?_]
    · exact hu.2.2
    · exact hs'.cache_eq hd hc (by rw [Function.update_of_ne hdc]; exact hu.1)
        (by rw [Function.update_self]; exact hb)

/-- Giving back an object keeps all caches in order. -/
lemma Slabs.putObject (hs : Slabs h caches slabs) {c a i : ℕ} (hc : c ∈ caches)
    (hown : Owns (SlabCache.putObject h a i) c (slabs c)) (ha : a ∈ slabs c) :
    Slabs (SlabCache.putObject h a i) caches slabs where
  owns d hd := by
    by_cases hdc : d = c
    · rw [hdc]
      exact hown
    · refine (hs.owns d hd).frame rfl fun b hb => putObject_of_ne fun hba => hdc ?_
      exact hs.cache_eq hd hc hb (hba ▸ ha)
  objectSize := hs.objectSize
  pages := hs.pages
  aligned := hs.aligned
  apart := hs.apart

/-- An object lies in no other slab, of this cache or another. -/
lemma Slabs.not_covers (hs : Slabs h caches slabs) {c d a b i : ℕ} (hc : c ∈ caches)
    (hd : d ∈ caches) (hu : Used h (slabs c) a i) (hb : b ∈ slabs d) (hne : ¬ (d = c ∧ b = a)) :
    ¬ Covers h (h.caches d).objectSize b (objectAt (h.caches c).objectSize a i) := by
  intro hcov
  obtain ⟨partials, fulls, inv, he⟩ := hs.owns d hd
  have hok := inv.slab b (he ▸ hb)
  have hsize := hs.objectSize d hd
  have hfit := newCache_fits (newCache_pages hsize.1 hsize.2).1 (newCache_pages hsize.1 hsize.2).2
  rw [← hs.pages d hd] at hfit
  have hin := hs.object_inside (a := a) hc hu.2.1
  have hpos := hs.objectSize c hc
  have hap := hs.apart d hd c hc b hb a hu.1 hne
  simp only [Covers, hok.buffer, hok.total, Apart, slabRange] at hcov hap
  omega

/-- Releasing an object of cache `c` finds it in that cache. -/
theorem Slabs.free (hs : Slabs h caches slabs) {c a i : ℕ} (hc : c ∈ caches)
    (hu : Used h (slabs c) a i) {fuel : ℕ} (hfuel : (slabs c).length ≤ fuel) :
    cacheFreeObject fuel h c (objectAt (h.caches c).objectSize a i) =
        some (true, SlabCache.putObject h a i) ∧
      Slabs (SlabCache.putObject h a i) caches slabs ∧
      ∀ b j, Used (SlabCache.putObject h a i) (slabs c) b j ↔
        Used h (slabs c) b j ∧ ¬ (b = a ∧ j = i) := by
  obtain ⟨partials, fulls, inv, he⟩ := hs.owns c hc
  have hmiss : ∀ b ∈ partials ++ fulls, b ≠ a →
      ¬ Covers h (h.caches c).objectSize b (objectAt (h.caches c).objectSize a i) :=
    fun b hb hne => hs.not_covers hc hc hu (he ▸ hb) fun h => hne h.2
  obtain ⟨hfree, inv', hused⟩ := cacheFreeObject_spec fuel inv rfl
    (hs.objectSize c hc).1 (he ▸ hu) hmiss (he ▸ hfuel)
  rw [← he] at hused
  exact ⟨hfree, hs.putObject hc ⟨partials, fulls, inv', he⟩ hu.1, hused⟩

/-- A walk past slabs none of which holds the address finds nothing. -/
lemma slabFreeObject_miss {c object : ℕ} (fuel : ℕ) {before head : Option ℕ} {l : List ℕ}
    (hc : SlabChain h.slabs before head l) (hok : ∀ b ∈ l, SlabOk (h.slabs b) c b)
    (hmiss : ∀ b ∈ l, ¬ Covers h (h.caches c).objectSize b object) (hfuel : l.length ≤ fuel) :
    slabFreeObject h object fuel head = some (false, h) := by
  induction l generalizing before head fuel with
  | nil =>
    obtain rfl : head = none := hc
    simp [slabFreeObject]
  | cons b l ih =>
    obtain ⟨rfl, -, htail⟩ := hc
    obtain ⟨fuel, rfl⟩ : ∃ f, fuel = f + 1 := ⟨fuel - 1, by simp only [List.length_cons] at hfuel; omega⟩
    have hno := hmiss b (by simp)
    rw [slabFreeObject, (hok b (by simp)).cache, if_neg fun hcov => hno hcov.1]
    exact ih fuel htail (fun d hd => hok d (by simp [hd])) (fun d hd => hmiss d (by simp [hd]))
      (by simpa using hfuel)

/-- The other caches find nothing at the address. -/
lemma Slabs.free_other (hs : Slabs h caches slabs) {c d a i : ℕ} (hc : c ∈ caches)
    (hd : d ∈ caches) (hne : d ≠ c) (hu : Used h (slabs c) a i) {fuel : ℕ}
    (hfuel : (slabs d).length ≤ fuel) :
    cacheFreeObject fuel h d (objectAt (h.caches c).objectSize a i) = some (false, h) := by
  obtain ⟨partials, fulls, inv, he⟩ := hs.owns d hd
  have hmiss : ∀ b ∈ partials ++ fulls,
      ¬ Covers h (h.caches d).objectSize b (objectAt (h.caches c).objectSize a i) :=
    fun b hb => hs.not_covers hc hd hu (he ▸ hb) fun h => hne h.1
  have hlen : partials.length + fulls.length ≤ fuel := by
    rw [← List.length_append, ← he]
    exact hfuel
  have hp := slabFreeObject_miss fuel inv.partialChain (fun b hb => inv.slab b (by simp [hb]))
    (fun b hb => hmiss b (by simp [hb])) (by omega)
  have hf := slabFreeObject_miss fuel inv.fullChain (fun b hb => inv.slab b (by simp [hb]))
    (fun b hb => hmiss b (by simp [hb])) (by omega)
  simp only [cacheFreeObject, hp, hf]

/-- The loop of `kfree` releases the object in the cache that made it. -/
theorem Slabs.freeInCaches (hs : Slabs h caches slabs) {c a i : ℕ} (hc : c ∈ caches)
    (hu : Used h (slabs c) a i) {fuel : ℕ} (hfuel : ∀ d ∈ caches, (slabs d).length ≤ fuel)
    {cs : List ℕ} (hcs : c ∈ cs) (hsub : ∀ d ∈ cs, d ∈ caches) :
    Kmalloc.freeInCaches fuel (objectAt (h.caches c).objectSize a i) cs h =
      .ok (SlabCache.putObject h a i) := by
  induction cs with
  | nil => simp at hcs
  | cons d cs ih =>
    have hd := hsub d (by simp)
    by_cases hdc : d = c
    · subst hdc
      simp only [Kmalloc.freeInCaches, (hs.free hc hu (hfuel d hd)).1]
    · simp only [Kmalloc.freeInCaches, hs.free_other hc hd hdc hu (hfuel d hd)]
      exact ih ((List.mem_cons.mp hcs).resolve_left (Ne.symm hdc)) fun e he => hsub e (by simp [he])

end Slabs

/-- Fuel beyond what the loop needs changes nothing. -/
lemma freeInCaches_mono {fuel fuel' ptr : ℕ} {cs : List ℕ} {h h' : Heap} (hle : fuel ≤ fuel')
    (hr : freeInCaches fuel ptr cs h = .ok h') : freeInCaches fuel' ptr cs h = .ok h' := by
  induction cs generalizing h with
  | nil => exact hr
  | cons c cs ih =>
    simp only [freeInCaches] at hr ⊢
    cases hc : cacheFreeObject fuel h c ptr with
    | none => simp [hc] at hr
    | some r =>
      obtain ⟨ok, h1⟩ := r
      rw [hc] at hr
      rw [cacheFreeObject_mono hle hc]
      cases ok with
      | true => exact hr
      | false => exact ih hr

end PiggyOs.Kmalloc
