import PiggyOs.SlabCache

/-! The list-shape invariant of one cache between calls: the empty list is empty, the partial
list has at most one slab, that slab has room, and every slab counts its free objects. Each
operation is specified once against it. -/
namespace PiggyOs.SlabCache
open Bitmap LinkedChain

/-- Where the first object of a slab lies: header and bitmap rounded up to 16 bytes. -/
def firstObject : ℕ := 576

def objectAt (size a i : ℕ) : ℕ := a + firstObject + i * size

structure SlabOk (s : Slab) (c a : ℕ) : Prop where
  cache : s.cache = c
  total : s.totalObjects = objectsPerSlab
  bitmap : s.bitmap = a + sizeofSlab
  buffer : s.buffer = a + firstObject
  count : s.availableObjects + countSet s.bits objectsPerSlab = objectsPerSlab

structure CacheInv (h : Heap) (c : ℕ) (partials fulls : List ℕ) : Prop where
  noEmpty : (h.caches c).emptySlabs = none
  partialChain : SlabChain h.slabs none (h.caches c).partialSlabs partials
  short : partials.length ≤ 1
  fullChain : SlabChain h.slabs none (h.caches c).fullSlabs fulls
  nodup : (partials ++ fulls).Nodup
  slab : ∀ a ∈ partials ++ fulls, SlabOk (h.slabs a) c a
  room : ∀ a ∈ partials, 1 ≤ (h.slabs a).availableObjects

/-- Object `i` of slab `a`, one of `slabs`, is allocated. -/
def Used (h : Heap) (slabs : List ℕ) (a i : ℕ) : Prop :=
  a ∈ slabs ∧ i < objectsPerSlab ∧ test (h.slabs a).bits i = true

/-- `h'` differs from `h` in the lists of cache `c` and the links of `slabs` only. -/
structure Relinked (h h' : Heap) (c : ℕ) (slabs : List ℕ) : Prop where
  data : ∀ b, (h.slabs b).SameData (h'.slabs b)
  outside : ∀ b ∉ slabs, h'.slabs b = h.slabs b
  caches : ∀ c' ≠ c, h'.caches c' = h.caches c'
  objectSize : (h'.caches c).objectSize = (h.caches c).objectSize
  pagesPerSlab : (h'.caches c).pagesPerSlab = (h.caches c).pagesPerSlab
  headers : h'.headers = h.headers
  mem : h'.mem = h.mem

lemma Relinked.refl (h : Heap) (c : ℕ) (slabs : List ℕ) : Relinked h h c slabs :=
  ⟨fun _ => .refl _, fun _ _ => rfl, fun _ _ => rfl, rfl, rfl, rfl, rfl⟩

lemma Slab.SameData.bits {x y : Slab} (h : x.SameData y) : y.bits = x.bits := by
  rw [h]

lemma Slab.SameData.available {x y : Slab} (h : x.SameData y) :
    y.availableObjects = x.availableObjects := by
  rw [h]

lemma Slab.SameData.slabOk {x y : Slab} {c a : ℕ} (h : x.SameData y) (hx : SlabOk x c a) :
    SlabOk y c a := by
  rw [h]
  exact ⟨hx.cache, hx.total, hx.bitmap, hx.buffer, hx.count⟩

lemma newSlab_ok (highVma c : ℕ) {phys : ℕ} (ha : phys % pageSize = 0) (hb : phys + pageSize ≤ 2 ^ 64) :
    SlabOk (newSlab highVma c (phys + highVma)) c (phys + highVma) := by
  refine ⟨rfl, rfl, rfl, ?_, ?_⟩
  · simp only [newSlab, alignUp, divCeil, sizeofSlab, objectsPerSlab, firstObject]
    simp only [pageSize] at ha hb
    omega
  · simpa [newSlab] using countSet_zero objectsPerSlab

/-- What the relinking needs to find: the slab just used is the only one on the partial list. -/
structure Taken (h : Heap) (c a : ℕ) (fulls : List ℕ) : Prop where
  noEmpty : (h.caches c).emptySlabs = none
  partialChain : SlabChain h.slabs none (h.caches c).partialSlabs [a]
  fullChain : SlabChain h.slabs none (h.caches c).fullSlabs fulls
  nodup : (a :: fulls).Nodup
  slab : ∀ b ∈ a :: fulls, SlabOk (h.slabs b) c b

/-- With nothing on the empty list, a slab that still has room stays where it is. -/
lemma relinkSlab_stay {h : Heap} {c a : ℕ} (h0 : (h.slabs a).availableObjects ≠ 0)
    (he : (h.caches c).emptySlabs = none) : relinkSlab h c a = h := by
  have hself : Function.update h.caches c
      { h.caches c with partialSlabs := (h.caches c).partialSlabs, emptySlabs := none } = h.caches := by
    rw [← he]
    exact Function.update_eq_self c h.caches
  simp only [relinkSlab, h0, if_false, cacheMoveSlab, he, if_true]
  split_ifs
  · simp only [Heap.setCache, hself]
  · rfl

lemma Taken.relink {h : Heap} {c a : ℕ} {fulls : List ℕ} (t : Taken h c a fulls) :
    ∃ partials fulls', CacheInv (relinkSlab h c a) c partials fulls' ∧
      (partials ++ fulls').Perm (a :: fulls) ∧
      ((h.slabs a).availableObjects ≠ 0 → partials = [a] ∧ fulls' = fulls) ∧
      Relinked h (relinkSlab h c a) c (a :: fulls) := by
  by_cases h0 : (h.slabs a).availableObjects = 0
  · obtain ⟨slabs', he, hfull, hpart, hdata, hout⟩ :=
      cacheMoveSlab_head t.partialChain t.fullChain (by simpa using t.nodup)
    simp only [relinkSlab, h0, if_true, he]
    refine ⟨[], a :: fulls, ?_, .refl _, fun hn => absurd rfl hn, ?_⟩
    · constructor
      · simpa using t.noEmpty
      · simp
      · simp
      · simpa using hfull
      · exact t.nodup
      · exact fun b hb => (hdata b).slabOk (t.slab b hb)
      · simp
    · constructor
      · exact hdata
      · simpa using hout
      · exact fun c' hc' => Function.update_of_ne hc' _ _
      · simp
      · simp
      · rfl
      · rfl
  · rw [relinkSlab_stay h0 t.noEmpty]
    refine ⟨[a], fulls, ?_, .refl _, fun _ => ⟨rfl, rfl⟩, .refl h c _⟩
    exact ⟨t.noEmpty, t.partialChain, by simp, t.fullChain, t.nodup, t.slab, by
      simpa using Nat.one_le_iff_ne_zero.mpr h0⟩

/-- The heap after object `i` of slab `a` is marked and its `size` bytes are cleared. -/
def takeObject (h : Heap) (a i size : ℕ) : Heap :=
  (h.setSlab a { h.slabs a with
    bits := set (h.slabs a).bits i
    availableObjects := (h.slabs a).availableObjects - 1 }).zero (objectAt size a i) size

/-- A slab with room hands out its first free object. -/
theorem slabAllocObject_spec {h : Heap} {c a : ℕ} (hs : SlabOk (h.slabs a) c a)
    (hr : 1 ≤ (h.slabs a).availableObjects) :
    ∃ i < objectsPerSlab, test (h.slabs a).bits i = false ∧
      ((List.range (h.slabs a).totalObjects).find? fun i => !test (h.slabs a).bits i) = some i ∧
      slabAllocObject h (some a) = (some (objectAt (h.caches c).objectSize a i),
        takeObject h a i (h.caches c).objectSize) := by
  have hlt : countSet (h.slabs a).bits objectsPerSlab < objectsPerSlab := by
    have := hs.count
    omega
  obtain ⟨i, hf, hi, ht⟩ := find_clear hlt
  obtain rfl := hs.cache
  rw [← hs.total] at hf
  refine ⟨i, hi, ht, hf, ?_⟩
  simp only [slabAllocObject, hf, takeObject, objectAt, ← hs.buffer]

lemma takeObject_slabOk {h : Heap} {c a i size : ℕ} (hs : SlabOk (h.slabs a) c a)
    (hr : 1 ≤ (h.slabs a).availableObjects) (hi : i < objectsPerSlab)
    (ht : test (h.slabs a).bits i = false) : SlabOk ((takeObject h a i size).slabs a) c a := by
  have hc := countSet_set hi ht
  have := hs.count
  simp only [takeObject, zero_slabs, setSlab_slabs, Function.update_self]
  exact ⟨hs.cache, hs.total, hs.bitmap, hs.buffer, by simp only [hc]; omega⟩

lemma takeObject_of_ne {h : Heap} {a b i size : ℕ} (hb : b ≠ a) :
    (takeObject h a i size).slabs b = h.slabs b := by
  simp [takeObject, hb]

@[simp] lemma takeObject_caches (h : Heap) (a i size : ℕ) :
    (takeObject h a i size).caches = h.caches := rfl

lemma takeObject_headers (h : Heap) (a i size x : ℕ) : (takeObject h a i size).headers x =
    if objectAt size a i ≤ x ∧ x < objectAt size a i + size then none else h.headers x := rfl

lemma takeObject_links {h : Heap} {a b i size : ℕ} :
    ((takeObject h a i size).slabs b).next = (h.slabs b).next ∧
      ((takeObject h a i size).slabs b).prev = (h.slabs b).prev := by
  by_cases hb : b = a <;> simp [takeObject, hb]

lemma takeObject_chain {h : Heap} {a i size : ℕ} {before head : Option ℕ} {l : List ℕ}
    (hc : SlabChain h.slabs before head l) :
    SlabChain (takeObject h a i size).slabs before head l :=
  hc.congr (fun _ _ => takeObject_links.1) fun _ _ => takeObject_links.2

lemma takeObject_used {h : Heap} {slabs : List ℕ} {a i size : ℕ} (ha : a ∈ slabs)
    (hi : i < objectsPerSlab) (b j : ℕ) :
    Used (takeObject h a i size) slabs b j ↔ Used h slabs b j ∨ (b = a ∧ j = i) := by
  unfold Used
  by_cases hb : b = a
  · subst hb
    simp only [takeObject, zero_slabs, setSlab_slabs, Function.update_self, test_set,
      Bool.or_eq_true, decide_eq_true_eq, true_and]
    constructor
    · rintro ⟨h1, h2, rfl | h3⟩
      · exact Or.inr rfl
      · exact Or.inl ⟨h1, h2, h3⟩
    · rintro (⟨h1, h2, h3⟩ | rfl)
      · exact ⟨h1, h2, Or.inr h3⟩
      · exact ⟨ha, hi, Or.inl rfl⟩
  · simp [takeObject_of_ne hb, hb]

lemma Relinked.used {h h' : Heap} {c : ℕ} {l slabs slabs' : List ℕ} (r : Relinked h h' c l)
    (hp : slabs'.Perm slabs) (b j : ℕ) : Used h' slabs' b j ↔ Used h slabs b j := by
  simp only [Used, hp.mem_iff, (r.data b).bits]

/-- The index an allocation from cache `c` is going to use. -/
def nextIndex (h : Heap) (c : ℕ) : ℕ :=
  match pickSlab (h.caches c) with
  | some a => ((List.range (h.slabs a).totalObjects).find? fun i => !test (h.slabs a).bits i).getD 0
  | none => 0

/-- The outcome of an allocation that took object `i` of slab `a`. -/
structure Allocated (h h' : Heap) (c a i : ℕ) (slabs slabs' : List ℕ) : Prop where
  index : i < objectsPerSlab
  fresh : ¬ Used h slabs a i
  used : ∀ b j, Used h' slabs' b j ↔ Used h slabs b j ∨ (b = a ∧ j = i)
  outside : ∀ b ∉ slabs', h'.slabs b = h.slabs b
  caches : ∀ c' ≠ c, h'.caches c' = h.caches c'
  objectSize : (h'.caches c).objectSize = (h.caches c).objectSize
  pagesPerSlab : (h'.caches c).pagesPerSlab = (h.caches c).pagesPerSlab
  headers : ∀ x, ¬ (objectAt (h.caches c).objectSize a i ≤ x ∧
      x < objectAt (h.caches c).objectSize a i + (h.caches c).objectSize) →
    (a ∈ slabs ∨ ¬ (a ≤ x ∧ x < a + pageSize * (h.caches c).pagesPerSlab)) →
    h'.headers x = h.headers x
  available : (h'.slabs a).availableObjects + 1 =
    if a ∈ slabs then (h.slabs a).availableObjects else objectsPerSlab

variable {σ : Type} {pmmAlloc : σ → ℕ → Option (ℕ × σ)} {highVma : ℕ}

variable (pmmAlloc highVma) in
/-- Allocation from the one slab on the partial list. -/
theorem cacheAllocObject_partial {h : Heap} {c a : ℕ} {fulls : List ℕ} (p : σ)
    (inv : CacheInv h c [a] fulls) :
    ∃ h' partials fulls', cacheAllocObject pmmAlloc highVma h p c =
        some (some (objectAt (h.caches c).objectSize a (nextIndex h c)), h', p) ∧
      CacheInv h' c partials fulls' ∧ (partials ++ fulls').Perm (a :: fulls) ∧
      (2 ≤ (h.slabs a).availableObjects → partials = [a] ∧ fulls' = fulls) ∧
      Allocated h h' c a (nextIndex h c) (a :: fulls) (partials ++ fulls') := by
  have hok := inv.slab a (by simp)
  have hroom := inv.room a (by simp)
  have hpick : pickSlab (h.caches c) = some a := by simp [pickSlab, inv.partialChain.1]
  obtain ⟨i, hi, ht, hfind, he⟩ := slabAllocObject_spec hok hroom
  have hidx : nextIndex h c = i := by simp only [nextIndex, hpick, hfind, Option.getD_some]
  have hslab : ∀ b ∈ a :: fulls, SlabOk ((takeObject h a i (h.caches c).objectSize).slabs b) c b := by
    intro b hb
    by_cases hba : b = a
    · subst hba
      exact takeObject_slabOk hok hroom hi ht
    · rw [takeObject_of_ne hba]
      exact inv.slab b hb
  have htaken : Taken (takeObject h a i (h.caches c).objectSize) c a fulls :=
    ⟨inv.noEmpty, takeObject_chain inv.partialChain, takeObject_chain inv.fullChain, inv.nodup, hslab⟩
  obtain ⟨partials, fulls', inv', hperm, hstay, hrel⟩ := htaken.relink
  have hleft : ((takeObject h a i (h.caches c).objectSize).slabs a).availableObjects =
      (h.slabs a).availableObjects - 1 := by simp [takeObject]
  refine ⟨_, partials, fulls', ?_, inv', hperm, fun h2 => hstay (by omega), hidx ▸ hi, ?_, ?_, ?_, ?_,
    ?_, ?_, ?_, ?_⟩
  · simp only [cacheAllocObject, hpick, Option.map_some, he, hidx]
  · rw [hidx]
    simp [Used, ht]
  · intro b j
    rw [hrel.used hperm, takeObject_used (by simp) hi, hidx]
  · intro b hb
    have hb' : b ∉ a :: fulls := fun h => hb (hperm.mem_iff.mpr h)
    rw [hrel.outside b hb', takeObject_of_ne fun h => hb' (by simp [h])]
  · exact hrel.caches
  · exact hrel.objectSize
  · exact hrel.pagesPerSlab
  · intro x hx _
    rw [hrel.headers, takeObject_headers, if_neg (hidx ▸ hx)]
  · rw [(hrel.data a).available, hleft, if_pos (by simp)]
    omega

/-- The heap while a new slab at `a` waits on the empty list of cache `c`. -/
def addSlab (highVma : ℕ) (h : Heap) (c a : ℕ) : Heap :=
  ((h.zero a (pageSize * (h.caches c).pagesPerSlab)).setSlab a (newSlab highVma c a)).setCache c
    { h.caches c with emptySlabs := some a }

variable (highVma) in
lemma cacheAllocSlab_spec {h : Heap} {p q : σ} {c phys : ℕ} (he : (h.caches c).emptySlabs = none)
    (hp : pmmAlloc p (h.caches c).pagesPerSlab = some (phys, q)) :
    cacheAllocSlab pmmAlloc highVma h p c =
      some (phys + highVma, addSlab highVma h c (phys + highVma), q) := by
  have hnext : setNext (Function.update h.slabs (phys + highVma)
      (newSlab highVma c (phys + highVma))) (phys + highVma) none =
      Function.update h.slabs (phys + highVma) (newSlab highVma c (phys + highVma)) := by
    simp only [setNext, Function.update_self, Function.update_idem]
    rfl
  simp only [cacheAllocSlab, pmmAllocz, hp, Option.map_some, he, setSlab_slabs, zero_slabs, hnext]
  rfl

lemma addSlab_self {h : Heap} {c a : ℕ} : (addSlab highVma h c a).slabs a = newSlab highVma c a := by
  simp [addSlab]

lemma addSlab_of_ne {h : Heap} {c a b : ℕ} (hb : b ≠ a) :
    (addSlab highVma h c a).slabs b = h.slabs b := by
  simp [addSlab, hb]

lemma addSlab_cache {h : Heap} {c a : ℕ} :
    (addSlab highVma h c a).caches c = { h.caches c with emptySlabs := some a } := by
  simp [addSlab]

/-- The first allocation from a slab on the empty list moves it to the partial list. -/
lemma relinkSlab_new {h : Heap} {c a : ℕ} (fulls : List ℕ)
    (he : (h.caches c).emptySlabs = some a) (hp : (h.caches c).partialSlabs = none)
    (hc : SlabChain h.slabs none (some a) [a])
    (hfull : SlabChain h.slabs none (h.caches c).fullSlabs fulls) (hd : (a :: fulls).Nodup)
    (hslab : ∀ b ∈ a :: fulls, SlabOk (h.slabs b) c b)
    (hav : (h.slabs a).availableObjects = objectsPerSlab - 1) :
    CacheInv (relinkSlab h c a) c [a] fulls ∧ Relinked h (relinkSlab h c a) c [a] := by
  obtain ⟨slabs', hmove, hpart, -, hdata, hout⟩ :=
    cacheMoveSlab_head hc (show SlabChain h.slabs none none [] from rfl) (by simp)
  have hne : ∀ b ∈ fulls, b ∉ [a] := fun b hb h => (List.nodup_cons.mp hd).1 (by simp_all)
  have hkeep : ∀ b ∈ fulls, slabs' b = h.slabs b := fun b hb => hout b (by simpa using hne b hb)
  have hav0 : (h.slabs a).availableObjects ≠ 0 := by simp [hav, objectsPerSlab]
  have hav1 : (h.slabs a).availableObjects = (h.slabs a).totalObjects - 1 := by
    rw [hav, (hslab a (by simp)).total]
  simp only [relinkSlab, if_neg hav0, if_pos hav1, he, hp, hmove]
  refine ⟨?_, ?_⟩
  · constructor
    · simp
    · simpa using hpart
    · simp
    · simpa using hfull.congr (fun b hb => by rw [hkeep b hb]) fun b hb => by rw [hkeep b hb]
    · exact hd
    · exact fun b hb => (hdata b).slabOk (hslab b hb)
    · intro b hb
      obtain rfl : b = a := by simpa using hb
      simp [(hdata b).available, hav, objectsPerSlab]
  · constructor
    · exact hdata
    · simpa using hout
    · exact fun c' hc' => Function.update_of_ne hc' _ _
    · simp
    · simp
    · rfl
    · rfl

variable (highVma) in
/-- Allocation that has to make a slab, on pages that hold no slab of the cache yet. -/
theorem cacheAllocObject_new {h : Heap} {c phys : ℕ} {fulls : List ℕ} {p q : σ}
    (inv : CacheInv h c [] fulls) (hp : pmmAlloc p (h.caches c).pagesPerSlab = some (phys, q))
    (ha : phys % pageSize = 0) (hb : phys + pageSize ≤ 2 ^ 64) (hf : phys + highVma ∉ fulls) :
    ∃ h', cacheAllocObject pmmAlloc highVma h p c =
        some (some (objectAt (h.caches c).objectSize (phys + highVma) 0), h', q) ∧
      CacheInv h' c [phys + highVma] fulls ∧ nextIndex h c = 0 ∧
      Allocated h h' c (phys + highVma) 0 fulls ((phys + highVma) :: fulls) := by
  have hnone : (h.caches c).partialSlabs = none := inv.partialChain
  have hpick : pickSlab (h.caches c) = none := by simp [pickSlab, inv.noEmpty, hnone]
  have hidx : nextIndex h c = 0 := by simp only [nextIndex, hpick]
  have hnew := cacheAllocSlab_spec highVma inv.noEmpty hp
  have hok := newSlab_ok highVma c ha hb
  generalize phys + highVma = a at *
  have hsize : ((addSlab highVma h c a).caches c).objectSize = (h.caches c).objectSize := by
    simp [addSlab_cache]
  rw [← addSlab_self (h := h)] at hok
  have hroom : 1 ≤ ((addSlab highVma h c a).slabs a).availableObjects := by
    simp [addSlab_self, newSlab, objectsPerSlab]
  obtain ⟨i, hi, ht, hfind, he⟩ := slabAllocObject_spec hok hroom
  obtain rfl : i = 0 := by
    rw [addSlab_self] at hfind
    simpa [newSlab] using hfind.symm.trans (find_clear_zero 511)
  rw [hsize] at he
  have hother : ∀ b, b ≠ a → (takeObject (addSlab highVma h c a) a 0
      (h.caches c).objectSize).slabs b = h.slabs b := by
    intro b hb
    rw [takeObject_of_ne hb, addSlab_of_ne hb]
  have hlinks : ∀ b, ((takeObject (addSlab highVma h c a) a 0 (h.caches c).objectSize).slabs b).next =
        ((addSlab highVma h c a).slabs b).next ∧
      ((takeObject (addSlab highVma h c a) a 0 (h.caches c).objectSize).slabs b).prev =
        ((addSlab highVma h c a).slabs b).prev := fun b => takeObject_links
  have hfulls : ∀ b ∈ fulls, b ≠ a := fun b hb h => hf (h ▸ hb)
  obtain ⟨inv', hrel⟩ := relinkSlab_new (h := takeObject (addSlab highVma h c a) a 0
      (h.caches c).objectSize) (c := c) (a := a) fulls
    (by simp [takeObject, addSlab]) (by simp [takeObject, addSlab, hnone])
    ⟨rfl, by simp [hlinks, addSlab_self, newSlab], by simp [hlinks, addSlab_self, newSlab]⟩
    (by
      rw [takeObject_caches, addSlab_cache]
      exact inv.fullChain.congr (fun b hb => by rw [hother b (hfulls b hb)])
        fun b hb => by rw [hother b (hfulls b hb)])
    (List.nodup_cons.mpr ⟨hf, by simpa using inv.nodup⟩)
    (by
      intro b hb
      rcases List.mem_cons.mp hb with rfl | hb
      · exact takeObject_slabOk hok hroom hi ht
      · rw [hother b (hfulls b hb)]
        exact inv.slab b (by simpa using hb))
    (by simp [takeObject, addSlab_self, newSlab])
  refine ⟨_, ?_, inv', hidx, hi, ?_, ?_, ?_, ?_, ?_, ?_, ?_, ?_⟩
  · simp only [cacheAllocObject, hpick, hnew, Option.map_some, he]
  · simp [Used, hf]
  · intro b j
    rw [hrel.used (.refl _), takeObject_used (by simp) hi]
    refine or_congr_left ?_
    by_cases hba : b = a
    · subst hba
      simp [Used, addSlab_self, newSlab, hf, test]
    · simp [Used, addSlab_of_ne hba, hba]
  · intro b hb
    have hba : b ≠ a := fun h => hb (by simp [h])
    rw [hrel.outside b (by simpa using hba), hother b hba]
  · intro c' hc'
    rw [hrel.caches c' hc']
    simp [takeObject, addSlab, hc']
  · rw [hrel.objectSize]
    simp [takeObject, addSlab]
  · rw [hrel.pagesPerSlab]
    simp [takeObject, addSlab]
  · intro x hx hout
    rw [hrel.headers, takeObject_headers, if_neg hx]
    exact if_neg (hout.resolve_left hf)
  · rw [(hrel.data a).available, if_neg hf]
    simp [takeObject, addSlab_self, newSlab, objectsPerSlab]

/-- The heap after object `i` of slab `a` is given back. -/
def putObject (h : Heap) (a i : ℕ) : Heap :=
  h.setSlab a { h.slabs a with
    bits := clear (h.slabs a).bits i
    availableObjects := (h.slabs a).availableObjects + 1 }

/-- The address is one of the objects of slab `b`. -/
def Covers (h : Heap) (size b object : ℕ) : Prop :=
  (h.slabs b).buffer ≤ object ∧ object < (h.slabs b).buffer + size * (h.slabs b).totalObjects

lemma covers_own {h : Heap} {c size a i : ℕ} (hok : SlabOk (h.slabs a) c a) (hs : 1 ≤ size)
    (hi : i < objectsPerSlab) :
    Covers h size a (objectAt size a i) ∧ (objectAt size a i - (h.slabs a).buffer) / size = i := by
  have hle : (i + 1) * size ≤ objectsPerSlab * size := Nat.mul_le_mul_right size (by omega)
  have hcomm := Nat.mul_comm size objectsPerSlab
  rw [Nat.add_mul, Nat.one_mul] at hle
  refine ⟨⟨?_, ?_⟩, ?_⟩
  · simp only [objectAt, hok.buffer]
    omega
  · simp only [objectAt, hok.buffer, hok.total, hcomm]
    omega
  · rw [objectAt, hok.buffer, Nat.add_sub_cancel_left]
    exact Nat.mul_div_cancel _ (by omega)

/-- The walk along one list frees the object if its slab is on that list, and finds nothing
otherwise. It ends as soon as `fuel` reaches the length of the list. -/
theorem slabFreeObject_spec {h : Heap} {c size a i : ℕ} (fuel : ℕ) {before head : Option ℕ} {l : List ℕ}
    (hc : SlabChain h.slabs before head l) (hok : ∀ b ∈ l, SlabOk (h.slabs b) c b)
    (hsize : (h.caches c).objectSize = size) (hs : 1 ≤ size) (hi : i < objectsPerSlab)
    (ht : test (h.slabs a).bits i = true)
    (hmiss : ∀ b ∈ l, b ≠ a → ¬ Covers h size b (objectAt size a i)) (hfuel : l.length ≤ fuel) :
    slabFreeObject h (objectAt size a i) fuel head =
      some (if a ∈ l then (true, putObject h a i) else (false, h)) := by
  induction l generalizing before head fuel with
  | nil =>
    obtain rfl : head = none := hc
    simp [slabFreeObject]
  | cons b l ih =>
    obtain ⟨rfl, -, htail⟩ := hc
    have hb := hok b (by simp)
    obtain ⟨fuel, rfl⟩ : ∃ f, fuel = f + 1 := ⟨fuel - 1, by simp only [List.length_cons] at hfuel; omega⟩
    have hsz : (h.caches (h.slabs b).cache).objectSize = size := by rw [hb.cache, hsize]
    simp only [slabFreeObject, hsz]
    by_cases hba : b = a
    · subst hba
      obtain ⟨hcov, hdiv⟩ := covers_own hb hs hi
      rw [hdiv, if_pos ⟨hcov, ht⟩, if_pos (by simp)]
      rfl
    · have hno := hmiss b (by simp) hba
      rw [if_neg fun hcov => hno hcov.1]
      rw [ih fuel htail (fun d hd => hok d (by simp [hd])) (fun d hd => hmiss d (by simp [hd]))
        (by simpa using hfuel)]
      simp [Ne.symm hba]

/-- Fuel beyond what the walk needs changes nothing. -/
lemma slabFreeObject_mono {h : Heap} {object fuel fuel' : ℕ} {head : Option ℕ} {r : Bool × Heap}
    (hle : fuel ≤ fuel') (hr : slabFreeObject h object fuel head = some r) :
    slabFreeObject h object fuel' head = some r := by
  induction fuel generalizing fuel' head with
  | zero =>
    cases head with
    | none => cases fuel' <;> simpa [slabFreeObject] using hr
    | some a => simp [slabFreeObject] at hr
  | succ fuel ih =>
    obtain ⟨fuel', rfl⟩ : ∃ f, fuel' = f + 1 := ⟨fuel' - 1, by omega⟩
    cases head with
    | none => simpa [slabFreeObject] using hr
    | some a =>
      simp only [slabFreeObject] at hr ⊢
      split_ifs at hr ⊢ with hcov
      · exact hr
      · exact ih (by omega) hr

lemma cacheFreeObject_mono {h : Heap} {c object fuel fuel' : ℕ} {r : Bool × Heap}
    (hle : fuel ≤ fuel') (hr : cacheFreeObject fuel h c object = some r) :
    cacheFreeObject fuel' h c object = some r := by
  unfold cacheFreeObject at hr ⊢
  cases hp : slabFreeObject h object fuel (h.caches c).partialSlabs with
  | none => simp [hp] at hr
  | some q =>
    rw [hp] at hr
    rw [slabFreeObject_mono hle hp]
    obtain ⟨ok, h'⟩ := q
    cases ok with
    | true => exact hr
    | false => exact slabFreeObject_mono hle hr

lemma putObject_slabOk {h : Heap} {c a i : ℕ} (hok : SlabOk (h.slabs a) c a)
    (hi : i < objectsPerSlab) (ht : test (h.slabs a).bits i = true) :
    SlabOk ((putObject h a i).slabs a) c a := by
  have hc := countSet_clear hi ht
  have := hok.count
  simp only [putObject, setSlab_slabs, Function.update_self]
  exact ⟨hok.cache, hok.total, hok.bitmap, hok.buffer, by simp only []; omega⟩

lemma putObject_of_ne {h : Heap} {a b i : ℕ} (hb : b ≠ a) :
    (putObject h a i).slabs b = h.slabs b := by
  simp [putObject, hb]

lemma putObject_chain {h : Heap} {a i : ℕ} {before head : Option ℕ} {l : List ℕ}
    (hc : SlabChain h.slabs before head l) : SlabChain (putObject h a i).slabs before head l := by
  refine hc.congr (fun b _ => ?_) fun b _ => ?_
  · by_cases hb : b = a <;> simp [putObject, hb]
  · by_cases hb : b = a <;> simp [putObject, hb]

/-- Freeing an allocated object clears its mark and leaves both lists as they are. -/
theorem cacheFreeObject_spec {h : Heap} {c size a i : ℕ} (fuel : ℕ) {partials fulls : List ℕ}
    (inv : CacheInv h c partials fulls) (hsize : (h.caches c).objectSize = size) (hs : 1 ≤ size)
    (hu : Used h (partials ++ fulls) a i)
    (hmiss : ∀ b ∈ partials ++ fulls, b ≠ a → ¬ Covers h size b (objectAt size a i))
    (hfuel : (partials ++ fulls).length ≤ fuel) :
    cacheFreeObject fuel h c (objectAt size a i) = some (true, putObject h a i) ∧
      CacheInv (putObject h a i) c partials fulls ∧
      ∀ b j, Used (putObject h a i) (partials ++ fulls) b j ↔
        Used h (partials ++ fulls) b j ∧ ¬ (b = a ∧ j = i) := by
  obtain ⟨ha, hi, ht⟩ := hu
  have hlen : (partials ++ fulls).length = partials.length + fulls.length := List.length_append
  refine ⟨?_, ?_, ?_⟩
  · have hp := slabFreeObject_spec fuel inv.partialChain (fun b hb => inv.slab b (by simp [hb])) hsize hs
      hi ht (fun b hb => hmiss b (by simp [hb])) (by omega)
    have hf := slabFreeObject_spec fuel inv.fullChain (fun b hb => inv.slab b (by simp [hb])) hsize hs
      hi ht (fun b hb => hmiss b (by simp [hb])) (by omega)
    by_cases hap : a ∈ partials
    · simp only [cacheFreeObject, hp, if_pos hap]
    · have haf : a ∈ fulls := (List.mem_append.mp ha).resolve_left hap
      simp only [cacheFreeObject, hp, if_neg hap, hf, if_pos haf]
  · refine ⟨inv.noEmpty, putObject_chain inv.partialChain, inv.short, putObject_chain inv.fullChain,
      inv.nodup, ?_, ?_⟩
    · intro b hb
      by_cases hba : b = a
      · subst hba
        exact putObject_slabOk (inv.slab b hb) hi ht
      · rw [putObject_of_ne hba]
        exact inv.slab b hb
    · intro b hb
      by_cases hba : b = a
      · simp [putObject, hba]
      · rw [putObject_of_ne hba]
        exact inv.room b hb
  · intro b j
    unfold Used
    by_cases hba : b = a
    · subst hba
      simp only [putObject, setSlab_slabs, Function.update_self, test_clear, Bool.and_eq_true,
        Bool.not_eq_true', decide_eq_false_iff_not, true_and, eq_comm (a := i)]
      tauto
    · simp [putObject_of_ne hba, hba]

end PiggyOs.SlabCache
