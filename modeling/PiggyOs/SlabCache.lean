import PiggyOs.Bitmap
import PiggyOs.LinkedChain
import PiggyOs.Macros

/-! Object caches over slabs. Slab headers and caches are records kept by address, with the
`prev` and `next` links of the source; the bytes of the objects themselves live in `mem`. The
page allocator is a parameter, and addresses are those of the direct map at `highVma`. -/
namespace PiggyOs.SlabCache
open Bitmap LinkedChain

def objectsPerSlab : ℕ := 512
def sizeofSlab : ℕ := 56
def sizeofCache : ℕ := 64

structure Slab where
  cache : ℕ
  availableObjects : ℕ
  totalObjects : ℕ
  bitmap : ℕ
  bits : Bytes
  buffer : ℕ
  prev : Option ℕ
  next : Option ℕ

structure Cache where
  objectSize : ℕ
  pagesPerSlab : ℕ
  emptySlabs : Option ℕ
  partialSlabs : Option ℕ
  fullSlabs : Option ℕ

structure BigAllocHeader where
  magic : BitVec 64
  pageCount : ℕ
  size : ℕ
  deriving DecidableEq

/-- `headers` holds the headers of multi-page blocks; an address where none was written, or
where the page has been cleared since, holds no header. -/
structure Heap where
  caches : ℕ → Cache
  slabs : ℕ → Slab
  headers : ℕ → Option BigAllocHeader
  mem : ℕ → BitVec 8

def Heap.setSlab (h : Heap) (a : ℕ) (s : Slab) : Heap :=
  { h with slabs := Function.update h.slabs a s }

def Heap.setCache (h : Heap) (c : ℕ) (x : Cache) : Heap :=
  { h with caches := Function.update h.caches c x }

def Heap.setHeader (h : Heap) (a : ℕ) (x : BigAllocHeader) : Heap :=
  { h with headers := Function.update h.headers a (some x) }

/-- `memset` to zero, which also ends any block header in the range. -/
def Heap.zero (h : Heap) (start length : ℕ) : Heap :=
  { h with
    headers := fun a => if start ≤ a ∧ a < start + length then none else h.headers a
    mem := fun a => if start ≤ a ∧ a < start + length then 0 else h.mem a }

@[simp] lemma setSlab_slabs (h : Heap) (a : ℕ) (s : Slab) :
    (h.setSlab a s).slabs = Function.update h.slabs a s := rfl
@[simp] lemma setSlab_caches (h : Heap) (a : ℕ) (s : Slab) : (h.setSlab a s).caches = h.caches := rfl
@[simp] lemma setCache_slabs (h : Heap) (c : ℕ) (x : Cache) : (h.setCache c x).slabs = h.slabs := rfl
@[simp] lemma setCache_caches (h : Heap) (c : ℕ) (x : Cache) :
    (h.setCache c x).caches = Function.update h.caches c x := rfl
@[simp] lemma zero_slabs (h : Heap) (a n : ℕ) : (h.zero a n).slabs = h.slabs := rfl
@[simp] lemma zero_caches (h : Heap) (a n : ℕ) : (h.zero a n).caches = h.caches := rfl

variable {σ : Type} (pmmAlloc : σ → ℕ → Option (ℕ × σ)) (highVma : ℕ)

def pmmAllocz (h : Heap) (p : σ) (pages : ℕ) : Option (ℕ × Heap × σ) :=
  (pmmAlloc p pages).map fun r => (r.1, h.zero (r.1 + highVma) (pageSize * pages), r.2)

def newSlab (c slab : ℕ) : Slab where
  cache := c
  availableObjects := objectsPerSlab
  totalObjects := objectsPerSlab
  bitmap := slab + sizeofSlab
  bits := fun _ => 0
  buffer := alignUp (slab + sizeofSlab + objectsPerSlab - highVma) 16 + highVma
  prev := none
  next := none

def setPrev (slabs : ℕ → Slab) (a : ℕ) (q : Option ℕ) : ℕ → Slab :=
  Function.update slabs a { slabs a with prev := q }

def setNext (slabs : ℕ → Slab) (a : ℕ) (n : Option ℕ) : ℕ → Slab :=
  Function.update slabs a { slabs a with next := n }

def cacheAllocSlab (h : Heap) (p : σ) (c : ℕ) : Option (ℕ × Heap × σ) :=
  (pmmAllocz pmmAlloc highVma h p (h.caches c).pagesPerSlab).map fun r =>
    let slab := r.1 + highVma
    let empty := (h.caches c).emptySlabs
    let h1 := r.2.1.setSlab slab (newSlab highVma c slab)
    let slabs := match empty with
      | some e => setPrev h1.slabs e (some slab)
      | none => h1.slabs
    let h2 := { h1 with slabs := setNext slabs slab empty }
    (slab, h2.setCache c { h2.caches c with emptySlabs := some slab }, r.2.2)

def unlinkNext (slabs : ℕ → Slab) (s : ℕ) : ℕ → Slab :=
  match (slabs s).next with
  | some n => setPrev slabs n (slabs s).prev
  | none => slabs

def unlinkPrev (slabs : ℕ → Slab) (s : ℕ) : ℕ → Slab :=
  match (slabs s).prev with
  | some q => setNext slabs q (slabs s).next
  | none => slabs

/-- Unlink `s` and push it on `dest`. Returns the outcome, the records and the heads of
`dest` and `src`. -/
def cacheMoveSlab (slabs : ℕ → Slab) (dest src : Option ℕ) (s : ℕ) :
    Bool × (ℕ → Slab) × Option ℕ × Option ℕ :=
  if src = none then (false, slabs, dest, src)
  else
    let h2 := unlinkPrev (unlinkNext slabs s) s
    let src' := if src = some s then (h2 s).next else src
    match dest with
    | none => (true, setNext (setPrev h2 s none) s none, some s, src')
    | some d => (true, setPrev (setPrev (setNext h2 s (some d)) s none) d (some s), some s, src')

def slabAllocObject (h : Heap) (slab : Option ℕ) : Option ℕ × Heap :=
  match slab with
  | none => (none, h)
  | some a =>
      let s := h.slabs a
      match (List.range s.totalObjects).find? fun i => !test s.bits i with
      | none => (none, h)
      | some i =>
          let h1 := h.setSlab a { s with
            bits := set s.bits i
            availableObjects := s.availableObjects - 1 }
          let object := s.buffer + i * (h.caches s.cache).objectSize
          (some object, h1.zero object (h.caches s.cache).objectSize)

/-- The walk of `slab_free_object` along `next`; `none` when `fuel` runs out first. -/
def slabFreeObject (h : Heap) (object : ℕ) : ℕ → Option ℕ → Option (Bool × Heap)
  | _, none => some (false, h)
  | 0, some _ => none
  | fuel + 1, some a =>
      let s := h.slabs a
      let size := (h.caches s.cache).objectSize
      let index := (object - s.buffer) / size
      if (s.buffer ≤ object ∧ object < s.buffer + size * s.totalObjects) ∧ test s.bits index then
        some (true, h.setSlab a { s with
          bits := clear s.bits index
          availableObjects := s.availableObjects + 1 })
      else slabFreeObject h object fuel s.next

/-- The slab an allocation starts from, or `none` if a new one has to be made. -/
def pickSlab (cache : Cache) : Option ℕ := cache.partialSlabs <|> cache.emptySlabs

/-- Relink the slab after an allocation changed how many of its objects are left. -/
def relinkSlab (h : Heap) (c slab : ℕ) : Heap :=
  let cache := h.caches c
  let s := h.slabs slab
  if s.availableObjects = 0 then
    let r := cacheMoveSlab h.slabs cache.fullSlabs cache.partialSlabs slab
    { h with slabs := r.2.1 }.setCache c { cache with fullSlabs := r.2.2.1, partialSlabs := r.2.2.2 }
  else if s.availableObjects = s.totalObjects - 1 then
    let r := cacheMoveSlab h.slabs cache.partialSlabs cache.emptySlabs slab
    { h with slabs := r.2.1 }.setCache c { cache with partialSlabs := r.2.2.1, emptySlabs := r.2.2.2 }
  else h

/-- `none` is a panic of the page allocator; the object is `none` where the source returns NULL. -/
def cacheAllocObject (h : Heap) (p : σ) (c : ℕ) : Option (Option ℕ × Heap × σ) :=
  let picked := match pickSlab (h.caches c) with
    | some slab => some (slab, h, p)
    | none => cacheAllocSlab pmmAlloc highVma h p c
  picked.map fun r =>
    let object := slabAllocObject r.2.1 (some r.1)
    (object.1, relinkSlab object.2 c r.1, r.2.2)

def cacheFreeObject (fuel : ℕ) (h : Heap) (c object : ℕ) : Option (Bool × Heap) :=
  match slabFreeObject h object fuel (h.caches c).partialSlabs with
  | none => none
  | some (true, h') => some (true, h')
  | some (false, h') => slabFreeObject h' object fuel (h'.caches c).fullSlabs

/-- The record that `slab_cache_create` writes for a cache of objects of `objectSize` bytes. -/
def newCache (objectSize : ℕ) : Cache where
  objectSize := objectSize
  pagesPerSlab := divCeil ((objectSize * objectsPerSlab + sizeofSlab + objectsPerSlab) % 2 ^ 64)
    pageSize
  emptySlabs := none
  partialSlabs := none
  fullSlabs := none

def slabCacheCreate (h : Heap) (p : σ) (rootCache objectSize : ℕ) : Option (Option ℕ × Heap × σ) :=
  (cacheAllocObject pmmAlloc highVma h p rootCache).map fun r =>
    match r.1 with
    | none => (none, r.2.1, r.2.2)
    | some new => (some new, r.2.1.setCache new (newCache objectSize), r.2.2)

/-- Two records of one slab that differ at most in their links. -/
def Slab.SameData (x y : Slab) : Prop := y = { x with prev := y.prev, next := y.next }

lemma Slab.SameData.refl (x : Slab) : x.SameData x := rfl

@[simp] lemma setPrev_next (slabs : ℕ → Slab) (a b : ℕ) (q : Option ℕ) :
    (setPrev slabs a q b).next = (slabs b).next := by
  by_cases h : b = a <;> simp [setPrev, h]

@[simp] lemma setPrev_prev (slabs : ℕ → Slab) (a b : ℕ) (q : Option ℕ) :
    (setPrev slabs a q b).prev = if b = a then q else (slabs b).prev := by
  by_cases h : b = a <;> simp [setPrev, h]

@[simp] lemma setNext_next (slabs : ℕ → Slab) (a b : ℕ) (n : Option ℕ) :
    (setNext slabs a n b).next = if b = a then n else (slabs b).next := by
  by_cases h : b = a <;> simp [setNext, h]

@[simp] lemma setNext_prev (slabs : ℕ → Slab) (a b : ℕ) (n : Option ℕ) :
    (setNext slabs a n b).prev = (slabs b).prev := by
  by_cases h : b = a <;> simp [setNext, h]

lemma setPrev_of_ne (slabs : ℕ → Slab) {a b : ℕ} (q : Option ℕ) (h : b ≠ a) :
    setPrev slabs a q b = slabs b := Function.update_of_ne h _ _

lemma setNext_of_ne (slabs : ℕ → Slab) {a b : ℕ} (n : Option ℕ) (h : b ≠ a) :
    setNext slabs a n b = slabs b := Function.update_of_ne h _ _

lemma Slab.SameData.setPrev {x : Slab} {slabs : ℕ → Slab} {b : ℕ} (h : x.SameData (slabs b))
    (a : ℕ) (q : Option ℕ) : x.SameData (SlabCache.setPrev slabs a q b) := by
  unfold SameData at h ⊢
  by_cases hb : b = a
  · subst hb
    rw [SlabCache.setPrev, Function.update_self, h]
  · rwa [setPrev_of_ne _ _ hb]

lemma Slab.SameData.setNext {x : Slab} {slabs : ℕ → Slab} {b : ℕ} (h : x.SameData (slabs b))
    (a : ℕ) (n : Option ℕ) : x.SameData (SlabCache.setNext slabs a n b) := by
  unfold SameData at h ⊢
  by_cases hb : b = a
  · subst hb
    rw [SlabCache.setNext, Function.update_self, h]
  · rwa [setNext_of_ne _ _ hb]

abbrev SlabChain (slabs : ℕ → Slab) : Option ℕ → Option ℕ → List ℕ → Prop :=
  Chain (fun a => (slabs a).next) fun a => (slabs a).prev

/-- Taking the head off a list: the next slab, if any, becomes the head. -/
lemma unlink_head {slabs : ℕ → Slab} {s : ℕ} {l : List ℕ} (hprev : (slabs s).prev = none)
    (htail : SlabChain slabs (some s) (slabs s).next l) (hd : (s :: l).Nodup) :
    SlabChain (unlinkNext slabs s) none l.head? l ∧
      (∀ a, (slabs a).SameData (unlinkNext slabs s a)) ∧ unlinkNext slabs s s = slabs s ∧
      ∀ a ∉ l, unlinkNext slabs s a = slabs a := by
  obtain ⟨hsl, hl⟩ := List.nodup_cons.mp hd
  have hnext := htail.head_eq
  unfold unlinkNext
  cases l with
  | nil => simp [hnext, Slab.SameData.refl]
  | cons n l =>
    simp only [hnext, List.head?_cons, hprev]
    have hsn : s ≠ n := fun h => hsl (by simp [h])
    refine ⟨?_, fun a => (Slab.SameData.refl _).setPrev _ _, setPrev_of_ne _ _ hsn, fun a ha => ?_⟩
    · rw [hnext] at htail
      refine htail.reroot hl (fun a _ => setPrev_next _ _ _ _) ?_ ?_
      · intro a ha
        simp_all
      · intro a ha
        have : a ≠ n := by
          rintro rfl
          exact (List.nodup_cons.mp hl).1 ha
        simp [this]
    · exact setPrev_of_ne _ _ fun h => ha (by simp [h])

/-- Moving the head of one list to another keeps both lists and touches links only. -/
theorem cacheMoveSlab_head {slabs : ℕ → Slab} {dest src : Option ℕ} {s : ℕ} {l l' : List ℕ}
    (hsrc : SlabChain slabs none src (s :: l)) (hdest : SlabChain slabs none dest l')
    (hd : (s :: (l ++ l')).Nodup) :
    ∃ slabs', cacheMoveSlab slabs dest src s = (true, slabs', some s, l.head?) ∧
      SlabChain slabs' none (some s) (s :: l') ∧ SlabChain slabs' none l.head? l ∧
      (∀ a, (slabs a).SameData (slabs' a)) ∧ ∀ a ∉ s :: (l ++ l'), slabs' a = slabs a := by
  obtain ⟨rfl, hprev, htail⟩ := hsrc
  have hnext : (slabs s).next = l.head? := htail.head_eq
  obtain rfl : dest = l'.head? := hdest.head_eq
  rw [List.nodup_cons, List.mem_append, not_or, List.nodup_append] at hd
  obtain ⟨⟨hsl, hsl'⟩, hl, hl', hdisj⟩ := hd
  obtain ⟨hc, hsame, hs1, hout⟩ := unlink_head hprev htail (List.nodup_cons.mpr ⟨hsl, hl⟩)
  have hh2 : unlinkPrev (unlinkNext slabs s) s = unlinkNext slabs s := by
    simp only [unlinkPrev, hs1, hprev]
  simp only [cacheMoveSlab, reduceCtorEq, if_false, if_true, hh2, hs1, hnext]
  generalize unlinkNext slabs s = h1 at *
  have hls : ∀ a ∈ l, a ≠ s := fun a ha h => hsl (h ▸ ha)
  cases l' with
  | nil =>
    refine ⟨_, rfl, ⟨rfl, by simp, by simp⟩, ?_, fun a => ((hsame a).setPrev _ _).setNext _ _, ?_⟩
    · exact hc.congr (fun a ha => by simp [hls a ha]) fun a ha => by simp [hls a ha]
    · intro a ha
      simp only [List.append_nil, List.mem_cons, not_or] at ha
      rw [setNext_of_ne _ _ ha.1, setPrev_of_ne _ _ ha.1, hout a ha.2]
  | cons d l' =>
    have hsd : s ≠ d := fun h => hsl' (by simp [h])
    have hds : ∀ a ∈ d :: l', a ≠ s := fun a ha h => hsl' (h ▸ ha)
    have hdl : ∀ a ∈ l, a ≠ d := fun a ha => hdisj a ha d (by simp)
    have hkeep : ∀ a ∈ d :: l', h1 a = slabs a := fun a ha =>
      hout a fun hal => hdisj a hal a ha rfl
    refine ⟨_, rfl, ⟨rfl, by simp [hsd], ?_⟩, ?_,
      fun a => (((hsame a).setNext _ _).setPrev _ _).setPrev _ _, ?_⟩
    · simp only [setPrev_next, setNext_next, if_true]
      refine hdest.reroot hl' (fun a ha => ?_) (fun a ha => ?_) fun a ha => ?_
      · simp [hds a ha, hkeep a ha]
      · simp_all
      · have had : a ≠ d := fun h => (List.nodup_cons.mp hl').1 (h ▸ ha)
        simp [had, hds a (by simp_all), hkeep a (by simp_all)]
    · exact hc.congr (fun a ha => by simp [hls a ha])
        fun a ha => by simp [hls a ha, hdl a ha]
    · intro a ha
      simp only [List.mem_cons, List.mem_append, not_or] at ha
      rw [setPrev_of_ne _ _ ha.2.2.1, setPrev_of_ne _ _ ha.1, setNext_of_ne _ _ ha.1, hout a ha.2.1]

end PiggyOs.SlabCache
