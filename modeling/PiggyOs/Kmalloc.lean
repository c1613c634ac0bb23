import PiggyOs.SlabCacheInvariant

/-! The general-purpose allocator: small requests go to one of eleven caches, larger ones to
whole pages behind a header page. Release and reallocation tell the two apart by the low bits
of the pointer alone. -/
namespace PiggyOs.Kmalloc
open SlabCache

def bigAllocHeaderMagic : BitVec 64 := 0xfafeceedabcdeffe

def kmallocSizes : List ℕ := [16, 24, 32, 48, 64, 92, 128, 256, 512, 1024, 2048]

/-- What stops a call: the panic of the page allocator, a header read where no header is, or
a list walk longer than its fuel. -/
inductive Fault
  | panic
  | notAHeader
  | outOfFuel
  deriving DecidableEq, Repr

variable {σ : Type} (pmmAlloc : σ → ℕ → Option (ℕ × σ)) (pmmFree : σ → ℕ → ℕ → σ) (highVma : ℕ)

/-- The caches of `slab_init`, in order, with the root cache at pointer 0. -/
def slabInit (h : Heap) (p : σ) : Option (List ℕ × Heap × σ) :=
  kmallocSizes.foldlM
    (fun r size => (slabCacheCreate pmmAlloc highVma r.2.1 r.2.2 0 size).map fun q =>
      (r.1 ++ q.1.toList, q.2.1, q.2.2))
    ([], h.setCache 0 (newCache sizeofCache), p)

/-- The cache that serves a request, if one is large enough. -/
def cacheFor (kmallocCaches : List ℕ) (h : Heap) (size : ℕ) : Option ℕ :=
  kmallocCaches.find? fun c => size ≤ (h.caches c).objectSize

def kmalloc (kmallocCaches : List ℕ) (h : Heap) (p : σ) (size : ℕ) :
    Except Fault (Option ℕ × Heap × σ) :=
  if size = 0 then .ok (none, h, p)
  else match cacheFor kmallocCaches h size with
  | some c => match cacheAllocObject pmmAlloc highVma h p c with
      | none => .error .panic
      | some r => .ok r
  | none =>
      let pageCount := divCeil size pageSize
      match pmmAlloc p (pageCount + 1) with
      | none => .error .panic
      | some (ret, p') =>
          if ret = 0 then .ok (none, h, p')
          else
            .ok (some (ret + highVma + pageSize),
              h.setHeader (ret + highVma) ⟨bigAllocHeaderMagic, pageCount, size⟩, p')

/-- The three ways of a successful `kmalloc`. -/
lemma kmalloc_cases {kmallocCaches : List ℕ} {h h' : Heap} {p q : σ} {size : ℕ} {ptr : Option ℕ}
    (hm : kmalloc pmmAlloc highVma kmallocCaches h p size = .ok (ptr, h', q)) :
    (size = 0 ∧ ptr = none ∧ h' = h ∧ q = p) ∨
    (size ≠ 0 ∧ ∃ c, cacheFor kmallocCaches h size = some c ∧
      cacheAllocObject pmmAlloc highVma h p c = some (ptr, h', q)) ∨
    (size ≠ 0 ∧ cacheFor kmallocCaches h size = none ∧
      ∃ ret, pmmAlloc p (divCeil size pageSize + 1) = some (ret, q) ∧
        (ret = 0 ∧ ptr = none ∧ h' = h ∨ ret ≠ 0 ∧ ptr = some (ret + highVma + pageSize) ∧
          h' = h.setHeader (ret + highVma) ⟨bigAllocHeaderMagic, divCeil size pageSize, size⟩)) := by
  unfold kmalloc at hm
  by_cases h0 : size = 0
  · simp only [h0, if_true, Except.ok.injEq, Prod.mk.injEq] at hm
    exact Or.inl ⟨h0, hm.1.symm, hm.2.1.symm, hm.2.2.symm⟩
  rw [if_neg h0] at hm
  cases hc : cacheFor kmallocCaches h size with
  | some c =>
    rw [hc] at hm
    cases ha : cacheAllocObject pmmAlloc highVma h p c with
    | none => simp [ha] at hm
    | some r =>
      simp only [ha, Except.ok.injEq] at hm
      exact Or.inr (Or.inl ⟨h0, c, rfl, by rw [ha, hm]⟩)
  | none =>
    simp only [hc] at hm
    cases hp : pmmAlloc p (divCeil size pageSize + 1) with
    | none => simp [hp] at hm
    | some r =>
      obtain ⟨ret, t⟩ := r
      simp only [hp] at hm
      refine Or.inr (Or.inr ⟨h0, rfl, ret, ?_⟩)
      split_ifs at hm with hr
      · simp only [Except.ok.injEq, Prod.mk.injEq] at hm
        obtain ⟨rfl, rfl, rfl⟩ := hm
        exact ⟨rfl, Or.inl ⟨hr, rfl, rfl⟩⟩
      · simp only [Except.ok.injEq, Prod.mk.injEq] at hm
        obtain ⟨rfl, rfl, rfl⟩ := hm
        exact ⟨rfl, Or.inr ⟨hr, rfl, rfl⟩⟩

/-- The loop of `kfree` over the caches. -/
def freeInCaches (fuel : ℕ) (ptr : ℕ) : List ℕ → Heap → Except Fault Heap
  | [], h => .ok h
  | c :: cs, h => match cacheFreeObject fuel h c ptr with
      | none => .error .outOfFuel
      | some (true, h') => .ok h'
      | some (false, h') => freeInCaches fuel ptr cs h'

def kfree (fuel : ℕ) (kmallocCaches : List ℕ) (h : Heap) (p : σ) (ptr : Option ℕ) :
    Except Fault (Heap × σ) :=
  match ptr with
  | none => .ok (h, p)
  | some ptr =>
      if ptr % pageSize = 0 then
        match h.headers (ptr - pageSize) with
        | none => .error .notAHeader
        | some header => .ok (h, pmmFree p (ptr - highVma) (header.pageCount + 1))
      else (freeInCaches fuel ptr kmallocCaches h).map fun h' => (h', p)

def memcpy (h : Heap) (dest src n : ℕ) : Heap :=
  { h with mem := fun a => if dest ≤ a ∧ a < dest + n then h.mem (src + (a - dest)) else h.mem a }

/-- A walk of `krealloc` along one list of a cache: does some slab hold `ptr` in objects of at
least `size` bytes? -/
def heldBySlab (h : Heap) (c ptr size : ℕ) : ℕ → Option ℕ → Except Fault Bool
  | _, none => .ok false
  | 0, some _ => .error .outOfFuel
  | fuel + 1, some a =>
      let s := h.slabs a
      if (s.buffer ≤ ptr ∧ ptr < s.buffer + (h.caches s.cache).objectSize * s.totalObjects) ∧
          size ≤ (h.caches c).objectSize then .ok true
      else heldBySlab h c ptr size fuel s.next

def heldByCaches (fuel : ℕ) (h : Heap) (ptr size : ℕ) : List ℕ → Except Fault Bool
  | [] => .ok false
  | c :: cs => do
      if ← heldBySlab h c ptr size fuel (h.caches c).partialSlabs then return true
      if ← heldBySlab h c ptr size fuel (h.caches c).fullSlabs then return true
      heldByCaches fuel h ptr size cs

def krealloc (fuel : ℕ) (kmallocCaches : List ℕ) (h : Heap) (p : σ) (ptr : Option ℕ) (size : ℕ) :
    Except Fault (Option ℕ × Heap × σ) :=
  match ptr with
  | none => kmalloc pmmAlloc highVma kmallocCaches h p size
  | some ptr =>
      if ptr % pageSize = 0 then
        match h.headers (ptr - pageSize) with
        | none => .error .notAHeader
        | some header =>
            if divCeil header.size pageSize = divCeil size pageSize then
              .ok (some ptr, h.setHeader (ptr - pageSize) { header with size := size }, p)
            else do
              let (new, h1, p1) ← kmalloc pmmAlloc highVma kmallocCaches h p size
              match new with
              | none => return (none, h1, p1)
              | some new =>
                  let h2 := memcpy h1 new ptr (if header.size > size then size else header.size)
                  let (h3, p3) ← kfree pmmFree highVma fuel kmallocCaches h2 p1 (some ptr)
                  return (some new, h3, p3)
      else do
        if ← heldByCaches fuel h ptr size kmallocCaches then return (some ptr, h, p)
        let (new, h1, p1) ← kmalloc pmmAlloc highVma kmallocCaches h p size
        let h2 := match new with
          | some new => memcpy h1 new ptr size
          | none => h1
        let (h3, p3) ← kfree pmmFree highVma fuel kmallocCaches h2 p1 (some ptr)
        return (new, h3, p3)

lemma bind_error {ε α β : Type} {x : Except ε α} {f : α → Except ε β} {e : ε}
    (h : x >>= f = .error e) : x = .error e ∨ ∃ a, x = .ok a ∧ f a = .error e := by
  cases x with
  | error e' => exact Or.inl (by simpa [bind, Except.bind] using h)
  | ok a => exact Or.inr ⟨a, rfl, h⟩

lemma freeInCaches_error {fuel ptr : ℕ} {cs : List ℕ} {h : Heap} {e : Fault}
    (hr : freeInCaches fuel ptr cs h = .error e) : e = .outOfFuel := by
  induction cs generalizing h with
  | nil => simp [freeInCaches] at hr
  | cons c cs ih =>
    simp only [freeInCaches] at hr
    split at hr
    · simpa using hr.symm
    · simp at hr
    · exact ih hr

lemma heldBySlab_error {h : Heap} {c ptr size fuel : ℕ} {head : Option ℕ} {e : Fault}
    (hr : heldBySlab h c ptr size fuel head = .error e) : e = .outOfFuel := by
  induction fuel generalizing head with
  | zero =>
    cases head with
    | none => simp [heldBySlab] at hr
    | some a => simpa [heldBySlab] using hr.symm
  | succ fuel ih =>
    cases head with
    | none => simp [heldBySlab] at hr
    | some a =>
      simp only [heldBySlab] at hr
      split_ifs at hr
      exact ih hr

lemma heldByCaches_error {fuel ptr size : ℕ} {cs : List ℕ} {h : Heap} {e : Fault}
    (hr : heldByCaches fuel h ptr size cs = .error e) : e = .outOfFuel := by
  induction cs with
  | nil => cases hr
  | cons c cs ih =>
    rcases bind_error hr with h1 | ⟨b1, -, hr⟩
    · exact heldBySlab_error h1
    · cases b1 with
      | true => cases hr
      | false =>
        rcases bind_error hr with h2 | ⟨b2, -, hr⟩
        · exact heldBySlab_error h2
        · cases b2 with
          | true => cases hr
          | false => exact ih hr

/-- The only fault of `kmalloc` is the panic of the page allocator. -/
lemma kmalloc_error {cs : List ℕ} {h : Heap} {p : σ} {size : ℕ} {e : Fault}
    (hm : kmalloc pmmAlloc highVma cs h p size = .error e) : e = .panic := by
  unfold kmalloc at hm
  split_ifs at hm
  split at hm
  · split at hm
    · simpa using hm.symm
    · simp at hm
  · simp only at hm
    split at hm
    · simpa using hm.symm
    · split_ifs at hm

/-- Away from page boundaries `kfree` reads no header. -/
lemma kfree_error {fuel ptr : ℕ} {cs : List ℕ} {h : Heap} {p : σ} {e : Fault}
    (ha : ptr % pageSize ≠ 0) (hr : kfree pmmFree highVma fuel cs h p (some ptr) = .error e) :
    e = .outOfFuel := by
  simp only [kfree, if_neg ha] at hr
  cases hf : freeInCaches fuel ptr cs h with
  | error e' =>
    simp only [hf, Except.map, Except.error.injEq] at hr
    exact hr ▸ freeInCaches_error hf
  | ok h' => simp [hf, Except.map] at hr

/-- Away from page boundaries `krealloc` reads no header. -/
lemma krealloc_object {fuel ptr size : ℕ} {cs : List ℕ} {h : Heap} {p : σ}
    (ha : ptr % pageSize ≠ 0) :
    krealloc pmmAlloc pmmFree highVma fuel cs h p (some ptr) size ≠ .error .notAHeader := by
  intro hr
  simp only [krealloc, if_neg ha] at hr
  rcases bind_error hr with h1 | ⟨held, -, hr⟩
  · exact Fault.noConfusion (heldByCaches_error h1)
  · cases held with
    | true => cases hr
    | false =>
      rcases bind_error hr with h2 | ⟨⟨new, h1, p1⟩, -, hr⟩
      · exact Fault.noConfusion (kmalloc_error _ _ h2)
      · rcases bind_error hr with h3 | ⟨r, -, hr⟩
        · exact Fault.noConfusion (kfree_error _ _ ha h3)
        · cases hr

/-- On a page boundary `krealloc` reads one header, which `kmalloc` must leave in place. -/
lemma krealloc_block {fuel ptr size : ℕ} {cs : List ℕ} {h : Heap} {p : σ} {header : BigAllocHeader}
    (ha : ptr % pageSize = 0) (hh : h.headers (ptr - pageSize) = some header)
    (hkeep : ∀ new h1 p1, kmalloc pmmAlloc highVma cs h p size = .ok (some new, h1, p1) →
      h1.headers (ptr - pageSize) = some header) :
    krealloc pmmAlloc pmmFree highVma fuel cs h p (some ptr) size ≠ .error .notAHeader := by
  intro hr
  simp only [krealloc, if_pos ha, hh] at hr
  by_cases hsame : divCeil header.size pageSize = divCeil size pageSize
  · rw [if_pos hsame] at hr
    cases hr
  rw [if_neg hsame] at hr
  rcases bind_error hr with h1 | ⟨⟨new, h1, p1⟩, hm, hr⟩
  · exact Fault.noConfusion (kmalloc_error _ _ h1)
  · cases new with
    | none => cases hr
    | some new =>
      rcases bind_error hr with h2 | ⟨r, -, hr⟩
      · have hk : (memcpy h1 new ptr (if header.size > size then size else header.size)).headers
            (ptr - pageSize) = some header := hkeep new h1 p1 hm
        simp [kfree, ha, hk] at h2
      · cases hr

end PiggyOs.Kmalloc
