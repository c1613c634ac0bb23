import PiggyOs.HeapResize

/-! Reallocation. A block that stays where it is stays whole; a slab object that moves is copied by the size
of its new block, and a block of pages that moves is released from its second page on. -/
namespace PiggyOs.Kmalloc
open Bitmap SlabCache LinkedChain Transition

/-- The page allocator with a record of the ranges that have been released through it. -/
structure Ledger where
  pmm : Pmm.State
  released : List (ℕ × ℕ)

def ledgerAlloc (l : Ledger) (pages : ℕ) : Option (ℕ × Ledger) :=
  (Pmm.pmmAlloc l.pmm pages).map fun r => (r.1, ⟨r.2, l.released⟩)

def ledgerFree (l : Ledger) (addr pages : ℕ) : Ledger :=
  ⟨Pmm.pmmFree l.pmm addr pages, (addr, pages) :: l.released⟩

/-- How many bytes `krealloc` reads from the old block on. -/
def kreallocCopied {σ : Type} (pmmAlloc : σ → ℕ → Option (ℕ × σ)) (highVma fuel : ℕ) (kmallocCaches : List ℕ)
    (h : Heap) (p : σ) (ptr : Option ℕ) (size : ℕ) : ℕ :=
  match ptr with
  | none => 0
  | some ptr =>
      if ptr % pageSize = 0 then
        match h.headers (ptr - pageSize) with
        | none => 0
        | some header =>
            if divCeil header.size pageSize = divCeil size pageSize then 0
            else match kmalloc pmmAlloc highVma kmallocCaches h p size with
              | .ok (some _, _, _) => if header.size > size then size else header.size
              | _ => 0
      else match heldByCaches fuel h ptr size kmallocCaches with
        | .ok false => match kmalloc pmmAlloc highVma kmallocCaches h p size with
            | .ok (some _, _, _) => size
            | _ => 0
        | _ => 0

/-- The bytes of a live block, by the size that was asked for when it was made. -/
def usable (cs : List ℕ) (h : Heap) (x : ℕ × ℕ) : ℕ :=
  if 2048 < x.2 then pageSize * divCeil x.2 pageSize
  else match cacheFor cs h x.2 with
    | some c => (h.caches c).objectSize
    | none => 0

/-- What `kfree` takes the pointer for is a block of `size` bytes: pages behind a header, or an object in use. -/
def BlockAt (cs : List ℕ) (h : Heap) (ptr size : ℕ) : Prop :=
  if ptr % pageSize = 0 then ∃ x, h.headers (ptr - pageSize) = some x ∧ size = pageSize * x.pageCount
  else ∃ slabs, Slabs h (0 :: cs) slabs ∧ ∃ c ∈ cs, ∃ a i, Used h (slabs c) a i ∧
    ptr = objectAt (h.caches c).objectSize a i ∧ size = (h.caches c).objectSize

/-- All pages of the block went back, its header page first, or its object is free again. -/
def Released (highVma : ℕ) (cs : List ℕ) (s : Session Pmm.State) (x : ℕ × ℕ) (h : Heap) (l : Ledger) : Prop :=
  if 2048 < x.2 then ∃ addr, addr + highVma + pageSize = x.1 ∧ l.released = [(addr, divCeil x.2 pageSize + 1)]
  else l.released = [] ∧ ∃ slabs, Slabs s.heap (0 :: cs) slabs ∧ ∃ c ∈ cs, ∃ a i, Used s.heap (slabs c) a i ∧
    x.1 = objectAt (s.heap.caches c).objectSize a i ∧ test (h.slabs a).bits i = false

/-- What callers expect when `krealloc` makes `q` of the live block `x`. -/
structure Honoured (highVma : ℕ) (cs : List ℕ) (s : Session Pmm.State) (x : ℕ × ℕ) (n q : ℕ) (h : Heap)
    (l : Ledger) : Prop where
  block : ∃ size, BlockAt cs h q size ∧ n ≤ size
  bytes : ∀ i < min (usable cs s.heap x) n, h.mem (q + i) = s.heap.mem (x.1 + i)
  others : ∀ y ∈ s.live, y.1 ≠ x.1 → BlockAt cs h y.1 (usable cs s.heap y) ∧
    ∀ i < usable cs s.heap y, h.mem (y.1 + i) = s.heap.mem (y.1 + i)
  released : if q = x.1 then l.released = [] else Released highVma cs s x h l

/-- The call returns a block, and reads no byte behind the old one. -/
def Contract (highVma : ℕ) (cs : List ℕ) (s : Session Pmm.State) (x : ℕ × ℕ) (n : ℕ) : Prop :=
  ∃ enough q h l, Honoured highVma cs s x n q h l ∧ ∀ fuel, enough ≤ fuel →
    krealloc ledgerAlloc ledgerFree highVma fuel cs s.heap ⟨s.pmm, []⟩ (some x.1) n = .ok (some q, h, l) ∧
    kreallocCopied ledgerAlloc highVma fuel cs s.heap ⟨s.pmm, []⟩ (some x.1) n ≤ usable cs s.heap x

/-- The object is large enough, or the block needs just the pages that it has. -/
def Kept (cs : List ℕ) (s : Session Pmm.State) (x : ℕ × ℕ) (n : ℕ) : Prop :=
  n ≤ usable cs s.heap x ∧ (2048 < x.2 → usable cs s.heap x < n + pageSize)

inductive HeapCall
  | plain (call : Call)
  | realloc (ptr : Option ℕ) (size : ℕ)
  deriving DecidableEq, Repr

/-- The session after `krealloc` returned `q` for the live block `x`. A block of pages outlives a request that
gets nothing. -/
def Session.resized (highVma : ℕ) (cs : List ℕ) (s : Session Pmm.State) (x : ℕ × ℕ) (size : ℕ) (q : Option ℕ)
    (h : Heap) (p : Pmm.State) : Session Pmm.State :=
  if q = some x.1 ∨ q = none ∧ 2048 < x.2 then ⟨h, p, s.live, s.inUse⟩
  else ⟨h, p, (q.map fun a => (a, size)).toList ++ s.live.erase x,
    (grant Pmm.pmmAlloc highVma cs s size).toList ++
      if 2048 < x.2 then s.inUse.erase (blockRange x) else s.inUse⟩

inductive Handled (highVma : ℕ) (cs : List ℕ) : Session Pmm.State → HeapCall → Session Pmm.State → Prop
  | plain {s t : Session Pmm.State} {call : Call} :
      Served Pmm.pmmAlloc Pmm.pmmFree highVma cs s call t → Handled highVma cs s (.plain call) t
  | fresh {s : Session Pmm.State} {size fuel : ℕ} {ptr : Option ℕ} {h : Heap} {p : Pmm.State} :
      krealloc Pmm.pmmAlloc Pmm.pmmFree highVma fuel cs s.heap s.pmm none size = .ok (ptr, h, p) →
      Handled highVma cs s (.realloc none size) ⟨h, p, (ptr.map fun a => (a, size)).toList ++ s.live,
        (grant Pmm.pmmAlloc highVma cs s size).toList ++ s.inUse⟩
  | resize {s : Session Pmm.State} {x : ℕ × ℕ} {size fuel : ℕ} {q : Option ℕ} {h : Heap} {p : Pmm.State} :
      x ∈ s.live →
      krealloc Pmm.pmmAlloc Pmm.pmmFree highVma fuel cs s.heap s.pmm (some x.1) size = .ok (q, h, p) →
      Handled highVma cs s (.realloc (some x.1) size) (s.resized highVma cs x size q h p)

/-- Requests are placed well, and blocks are resized where they are. -/
def Proper (highVma : ℕ) (cs : List ℕ) (s : Session Pmm.State) : HeapCall → Prop
  | .plain call => Fits Pmm.pmmAlloc highVma cs s call
  | .realloc none size => Fits Pmm.pmmAlloc highVma cs s (.malloc size)
  | .realloc (some ptr) size => ∀ x ∈ s.live, x.1 = ptr → Kept cs s x size

section Walk
variable {h : Heap} {cs caches : List ℕ} {slabs : ℕ → List ℕ} {c ptr size fuel fuel' : ℕ}

variable (ptr size) in
/-- The walk along one list ends, and tells whether a slab on it holds the pointer in large enough objects. -/
lemma heldBySlab_spec {before head : Option ℕ} {l : List ℕ} (hc : SlabChain h.slabs before head l)
    (hok : ∀ b ∈ l, SlabOk (h.slabs b) c b) (hfuel : l.length ≤ fuel) :
    ∃ held, heldBySlab h c ptr size fuel head = .ok held ∧ (held = true ↔
      ∃ b ∈ l, Covers h (h.caches c).objectSize b ptr ∧ size ≤ (h.caches c).objectSize) := by
  induction l generalizing before head fuel with
  | nil =>
    obtain rfl : head = none := hc
    refine ⟨false, ?_, by simp⟩
    cases fuel <;> rfl
  | cons b l ih =>
    obtain ⟨rfl, -, htail⟩ := hc
    obtain ⟨fuel, rfl⟩ : ∃ f, fuel = f + 1 := ⟨fuel - 1, by simp only [List.length_cons] at hfuel; omega⟩
    obtain ⟨held, hrest, hiff⟩ := ih htail (fun d hd => hok d (by simp [hd])) (by simpa using hfuel)
    rw [heldBySlab, (hok b (by simp)).cache]
    split_ifs with hhere
    · exact ⟨true, rfl, iff_of_true rfl ⟨b, by simp, hhere⟩⟩
    · refine ⟨held, hrest, hiff.trans ⟨?_, ?_⟩⟩
      · rintro ⟨d, hd, hheld⟩
        exact ⟨d, List.mem_cons_of_mem b hd, hheld⟩
      · rintro ⟨d, hd, hheld⟩
        rcases List.mem_cons.mp hd with rfl | hd
        · exact absurd hheld hhere
        · exact ⟨d, hd, hheld⟩

lemma heldBySlab_mono {head : Option ℕ} {held : Bool} (hle : fuel ≤ fuel')
    (hr : heldBySlab h c ptr size fuel head = .ok held) : heldBySlab h c ptr size fuel' head = .ok held := by
  induction fuel generalizing fuel' head with
  | zero =>
    cases head with
    | none => cases fuel' <;> simpa [heldBySlab] using hr
    | some a => simp [heldBySlab] at hr
  | succ fuel ih =>
    obtain ⟨fuel', rfl⟩ : ∃ f, fuel' = f + 1 := ⟨fuel' - 1, by omega⟩
    cases head with
    | none => simpa [heldBySlab] using hr
    | some a =>
      simp only [heldBySlab] at hr ⊢
      split_ifs at hr ⊢
      · exact hr
      · exact ih (by omega) hr

lemma heldByCaches_mono {held : Bool} (hle : fuel ≤ fuel') (hr : heldByCaches fuel h ptr size cs = .ok held) :
    heldByCaches fuel' h ptr size cs = .ok held := by
  induction cs with
  | nil => exact hr
  | cons c cs ih =>
    rw [heldByCaches] at hr ⊢
    cases hp : heldBySlab h c ptr size fuel (h.caches c).partialSlabs with
    | error e =>
      rw [hp] at hr
      cases hr
    | ok inPart =>
      rw [hp] at hr
      rw [heldBySlab_mono hle hp]
      cases inPart with
      | true => exact hr
      | false =>
        cases hf : heldBySlab h c ptr size fuel (h.caches c).fullSlabs with
        | error e =>
          rw [hf] at hr
          cases hr
        | ok inFull =>
          rw [hf] at hr
          rw [heldBySlab_mono hle hf]
          cases inFull with
          | true => exact hr
          | false => exact ih hr

/-- The loop over the caches is the disjunction of the walks. -/
lemma heldByCaches_cons {partials fulls : Bool}
    (hp : heldBySlab h c ptr size fuel (h.caches c).partialSlabs = .ok partials)
    (hf : heldBySlab h c ptr size fuel (h.caches c).fullSlabs = .ok fulls) :
    heldByCaches fuel h ptr size (c :: cs) =
      if partials || fulls then .ok true else heldByCaches fuel h ptr size cs := by
  rw [heldByCaches, hp, hf]
  cases partials <;> cases fulls <;> rfl

variable (ptr size) in
lemma heldByCaches_spec (hs : Slabs h caches slabs) (hsub : ∀ d ∈ cs, d ∈ caches)
    (hfuel : ∀ d ∈ caches, (slabs d).length ≤ fuel) :
    ∃ held, heldByCaches fuel h ptr size cs = .ok held ∧ (held = true ↔
      ∃ d ∈ cs, ∃ b ∈ slabs d, Covers h (h.caches d).objectSize b ptr ∧ size ≤ (h.caches d).objectSize) := by
  induction cs with
  | nil => exact ⟨false, rfl, by simp⟩
  | cons c cs ih =>
    obtain ⟨held, hrest, hiff⟩ := ih fun d hd => hsub d (by simp [hd])
    have hc := hsub c (by simp)
    obtain ⟨partials, fulls, inv, he⟩ := hs.owns c hc
    have hlen := hfuel c hc
    rw [he, List.length_append] at hlen
    have hpart : partials.length ≤ fuel := by omega
    have hfull : fulls.length ≤ fuel := by omega
    obtain ⟨inPart, hp, hpiff⟩ := heldBySlab_spec ptr size inv.partialChain
      (fun b hb => inv.slab b (by simp [hb])) hpart
    obtain ⟨inFull, hf, hfiff⟩ := heldBySlab_spec ptr size inv.fullChain
      (fun b hb => inv.slab b (by simp [hb])) hfull
    have hor : (inPart || inFull) = true ↔ ∃ b ∈ slabs c, Covers h (h.caches c).objectSize b ptr ∧
        size ≤ (h.caches c).objectSize := by
      rw [Bool.or_eq_true, hpiff, hfiff, he]
      simp only [List.mem_append, or_and_right, exists_or]
    rw [heldByCaches_cons hp hf]
    split_ifs with hhere
    · exact ⟨true, rfl, iff_of_true rfl ⟨c, by simp, hor.mp hhere⟩⟩
    · refine ⟨held, hrest, hiff.trans ?_⟩
      rw [hor] at hhere
      simp [hhere]

end Walk

/-- Everything about a session that reallocation depends on. -/
structure Ready (cs : List ℕ) (s : Session Pmm.State) (slabs : ℕ → List ℕ) : Prop where
  sizes : HasSizes cs s.heap
  caches : Slabs s.heap (0 :: cs) slabs
  small : ∀ x ∈ s.live, x.2 ≤ 2048 → x.1 % pageSize ≠ 0 ∧ IsObject cs s.heap slabs x
  big : ∀ x ∈ s.live, 2048 < x.2 → x.1 % pageSize = 0 ∧ pageSize ≤ x.1 ∧
    ∃ header, s.heap.headers (x.1 - pageSize) = some header ∧
      headerPages header = (divCeil x.2 pageSize, divCeil x.2 pageSize)

/-- The session is one that `kmalloc` and `kfree` keep, but for the sizes noted in headers. -/
def Sound (cs : List ℕ) (s : Session Pmm.State) : Prop :=
  ∃ h0 slabs, Resized s.heap h0 ∧ Inv cs { s with heap := h0 } slabs

section Sound
variable {h h0 : Heap} {cs caches : List ℕ} {slabs : ℕ → List ℕ} {s t : Session Pmm.State} {x : ℕ × ℕ} {n : ℕ}

lemma Resized.inOrder (hr : Resized h h0) (hs : Slabs h0 caches slabs) : Slabs h caches slabs where
  owns c hc := (hs.owns c hc).frame (by rw [hr.caches]) fun b _ => by rw [hr.slabs]
  objectSize c hc := by
    rw [hr.caches]
    exact hs.objectSize c hc
  pages c hc := by
    rw [hr.caches]
    exact hs.pages c hc
  aligned := hs.aligned
  apart c hc d hd a ha b hb hne := by
    simp only [slabRange, hr.caches]
    exact hs.apart c hc d hd a ha b hb hne

lemma Resized.used (hr : Resized h h0) (l : List ℕ) (a i : ℕ) : Used h l a i ↔ Used h0 l a i := by
  simp only [Used, hr.slabs]

lemma Sound.ready (hs : Sound cs s) : ∃ slabs, Ready cs s slabs := by
  obtain ⟨h0, slabs, hr, inv⟩ := hs
  refine ⟨slabs, ⟨?_, hr.inOrder inv.caches, ?_, ?_⟩⟩
  · exact inv.sizes.congr fun d => by rw [hr.caches]
  · intro x hx hsmall
    obtain ⟨hodd, c, hc, a, i, hu, he⟩ := inv.small x hx hsmall
    exact ⟨hodd, c, by rwa [hr.cacheFor], a, i, (hr.used _ _ _).mpr hu, by rwa [hr.caches]⟩
  · intro x hx hbig
    obtain ⟨hblk, -, -⟩ := inv.big x hx hbig
    have hpages := hr.headers (x.1 - pageSize)
    rw [hblk.header, Option.map_some] at hpages
    obtain ⟨header, hheader, hsame⟩ := Option.map_eq_some_iff.mp hpages
    exact ⟨hblk.aligned, hblk.above, header, hheader, hsame⟩

lemma Resized.grant (hr : Resized s.heap h0) (size : ℕ) : Kmalloc.grant Pmm.pmmAlloc highVma cs s size =
    Kmalloc.grant Pmm.pmmAlloc highVma cs { s with heap := h0 } size := by
  simp only [Kmalloc.grant, pagesWanted, Kmalloc.cacheFor, hr.caches]

lemma Resized.fits (hr : Resized s.heap h0) {call : Call} (hfit : Fits Pmm.pmmAlloc highVma cs s call) :
    Fits Pmm.pmmAlloc highVma cs { s with heap := h0 } call := by
  cases call with
  | free ptr => trivial
  | malloc size =>
    obtain ⟨hslot, hpf⟩ := hfit
    refine ⟨fun c hc => ?_, fun r hg => hpf r (hr.grant size ▸ hg)⟩
    have := hslot c (by rwa [hr.cacheFor])
    simpa only [nextIndex, hr.caches, hr.slabs] using this

/-- Requests and releases keep the session sound. -/
lemma Sound.served {call : Call} (hv : highVma % pageSize = 0) (hs : Sound cs s)
    (hfit : Fits Pmm.pmmAlloc highVma cs s call)
    (hserved : Served Pmm.pmmAlloc Pmm.pmmFree highVma cs s call t) : Sound cs t := by
  obtain ⟨h0, slabs, hr, inv⟩ := hs
  have hfit0 := hr.fits hfit
  cases hserved with
  | malloc hm =>
    obtain ⟨h1, hm0, hr1⟩ := hr.kmalloc hm
    obtain ⟨slabs', inv'⟩ := inv.malloc hv pmmAlloc_aligned hm0 hfit0.1 hfit0.2
    rw [← hr.grant] at inv'
    exact ⟨h1, slabs', hr1, inv'⟩
  | free hx hf =>
    obtain ⟨h1, hf0, hr1⟩ := hr.kfree hf
    obtain ⟨slabs', inv'⟩ := Inv.step hv pmmAlloc_aligned ⟨slabs, inv⟩ hfit0 (.free hx hf0)
    exact ⟨h1, slabs', hr1, inv'⟩

lemma usable_small {c : ℕ} (hsmall : x.2 ≤ 2048) (hc : cacheFor cs h x.2 = some c) :
    usable cs h x = (h.caches c).objectSize := by
  simp only [usable, Nat.not_lt.mpr hsmall, if_false, hc]

lemma usable_big (hbig : 2048 < x.2) : usable cs h x = pageSize * divCeil x.2 pageSize := if_pos hbig

variable (n) in
/-- A live object is found large enough if and only if it is. -/
lemma Ready.held_iff (hr : Ready cs s slabs) (hx : x ∈ s.live) (hsmall : x.2 ≤ 2048) :
    ∃ enough, ∀ fuel, enough ≤ fuel → ∃ held, heldByCaches fuel s.heap x.1 n cs = .ok held ∧
      (held = true ↔ n ≤ usable cs s.heap x) := by
  obtain ⟨-, c, hc, a, i, hu, he⟩ := hr.small x hx hsmall
  have hcs := (hr.sizes.cacheFor_some hc).1
  have hcm : c ∈ 0 :: cs := List.mem_cons_of_mem _ hcs
  refine ⟨((0 :: cs).map fun d => (slabs d).length).sum, fun fuel hfuel => ?_⟩
  obtain ⟨held, hheld, hiff⟩ := heldByCaches_spec x.1 n hr.caches (fun d hd => List.mem_cons_of_mem _ hd)
    fun d hd => (List.le_sum_of_mem (List.mem_map_of_mem hd)).trans hfuel
  refine ⟨held, hheld, hiff.trans ?_⟩
  rw [usable_small hsmall hc, he]
  constructor
  · rintro ⟨d, hd, b, hb, hcov, hle⟩
    by_contra hlarge
    refine hr.caches.not_covers hcm (List.mem_cons_of_mem _ hd) hu hb ?_ hcov
    rintro ⟨rfl, -⟩
    exact hlarge hle
  · intro hle
    obtain ⟨partials, fulls, inv, hlist⟩ := hr.caches.owns c hcm
    have hok := inv.slab a (hlist ▸ hu.1)
    exact ⟨c, hcs, a, hu.1, (covers_own hok (hr.caches.objectSize c hcm).1 hu.2.1).1, hle⟩

lemma divCeil_kept {size : ℕ} (hle : n ≤ pageSize * divCeil size pageSize)
    (hlt : pageSize * divCeil size pageSize < n + pageSize) : divCeil size pageSize = divCeil n pageSize := by
  simp only [divCeil, pageSize] at *
  omega

/-- A live block is found to need as many pages as before if and only if it does. -/
lemma divCeil_eq_iff {size : ℕ} (hn : 1 ≤ n) : divCeil size pageSize = divCeil n pageSize ∧
    n ≤ pageSize * divCeil size pageSize ↔
      n ≤ pageSize * divCeil size pageSize ∧ pageSize * divCeil size pageSize < n + pageSize := by
  simp only [divCeil, pageSize]
  omega

end Sound

section Calls
variable {σ α : Type} {pmmAlloc : σ → ℕ → Option (ℕ × σ)} {pmmFree : σ → ℕ → ℕ → σ} {highVma fuel : ℕ}
  {cs : List ℕ} {h h' : Heap} {p p' : σ} {ptr n q : ℕ} {header : BigAllocHeader}

lemma krealloc_held (ha : ptr % pageSize ≠ 0) (hheld : heldByCaches fuel h ptr n cs = .ok true) :
    krealloc pmmAlloc pmmFree highVma fuel cs h p (some ptr) n = .ok (some ptr, h, p) ∧
      kreallocCopied pmmAlloc highVma fuel cs h p (some ptr) n = 0 := by
  constructor
  · simp only [krealloc, if_neg ha, hheld]
    rfl
  · simp only [kreallocCopied, if_neg ha, hheld]

/-- An object that moves is copied by the size of the new one. -/
lemma krealloc_grown (ha : ptr % pageSize ≠ 0) (hheld : heldByCaches fuel h ptr n cs = .ok false)
    (hr : krealloc pmmAlloc pmmFree highVma fuel cs h p (some ptr) n = .ok (some q, h', p')) :
    kreallocCopied pmmAlloc highVma fuel cs h p (some ptr) n = n := by
  simp only [krealloc, if_neg ha, hheld] at hr
  cases hm : kmalloc pmmAlloc highVma cs h p n with
  | error e =>
    rw [hm] at hr
    cases hr
  | ok r =>
    obtain ⟨new, h1, p1⟩ := r
    cases new with
    | none =>
      rw [hm] at hr
      cases hf : kfree pmmFree highVma fuel cs h1 p1 (some ptr) with
      | error e => simp [hf, bind, Except.bind] at hr
      | ok r => simp [hf, bind, Except.bind, pure, Except.pure] at hr
    | some new => simp only [kreallocCopied, if_neg ha, hheld, hm]

lemma krealloc_stays (ha : ptr % pageSize = 0) (hh : h.headers (ptr - pageSize) = some header)
    (hsame : divCeil header.size pageSize = divCeil n pageSize) :
    krealloc pmmAlloc pmmFree highVma fuel cs h p (some ptr) n =
        .ok (some ptr, h.setHeader (ptr - pageSize) { header with size := n }, p) ∧
      kreallocCopied pmmAlloc highVma fuel cs h p (some ptr) n = 0 := by
  constructor
  · simp only [krealloc, if_pos ha, hh, if_pos hsame]
  · simp only [kreallocCopied, if_pos ha, hh, if_pos hsame]

/-- What the page allocator keeps, a request keeps. -/
lemma kmalloc_keeps (f : σ → α) (hkeep : ∀ p n a q, pmmAlloc p n = some (a, q) → f q = f p) {size : ℕ}
    {new : Option ℕ} (hm : kmalloc pmmAlloc highVma cs h p size = .ok (new, h', p')) : f p' = f p := by
  rcases kmalloc_cases _ _ hm with ⟨-, -, -, rfl⟩ | ⟨-, c, -, ha⟩ | ⟨-, -, ret, hp, -⟩
  · rfl
  · rw [cacheAllocObject] at ha
    cases hpick : pickSlab (h.caches c) with
    | some a =>
      simp only [hpick, Option.map_some, Option.some.injEq, Prod.mk.injEq] at ha
      rw [ha.2.2]
    | none =>
      simp only [hpick, cacheAllocSlab, pmmAllocz, Option.map_map, Option.map_eq_some_iff] at ha
      obtain ⟨⟨phys, t⟩, hp, he⟩ := ha
      simp only [Function.comp, Prod.mk.injEq] at he
      rw [← he.2.2]
      exact hkeep _ _ _ _ hp
  · exact hkeep _ _ _ _ hp

lemma ledgerAlloc_released (l : Ledger) (n a : ℕ) (l' : Ledger) (ha : ledgerAlloc l n = some (a, l')) :
    l'.released = l.released := by
  obtain ⟨r, -, he⟩ := Option.map_eq_some_iff.mp ha
  rw [← (Prod.mk.inj he).2]

/-- A block that moves is released from its second page on. -/
lemma krealloc_moved {l l' : Ledger} (ha : ptr % pageSize = 0)
    (hh : h.headers (ptr - pageSize) = some header)
    (hdiff : divCeil header.size pageSize ≠ divCeil n pageSize)
    (hr : krealloc ledgerAlloc ledgerFree highVma fuel cs h l (some ptr) n = .ok (some q, h', l')) :
    ∃ pages, l'.released = (ptr - highVma, pages) :: l.released := by
  simp only [krealloc, if_pos ha, hh, if_neg hdiff] at hr
  cases hm : kmalloc ledgerAlloc highVma cs h l n with
  | error e =>
    rw [hm] at hr
    cases hr
  | ok r =>
    obtain ⟨new, h1, l1⟩ := r
    have hkeep := kmalloc_keeps Ledger.released ledgerAlloc_released hm
    rw [hm] at hr
    cases new with
    | none => cases hr
    | some new =>
      simp only [kfree, if_pos ha, bind, Except.bind, pure, Except.pure] at hr
      cases hx : (memcpy h1 new ptr (if header.size > n then n else header.size)).headers (ptr - pageSize) with
      | none => simp [hx] at hr
      | some x =>
        simp only [hx, Except.ok.injEq, Prod.mk.injEq] at hr
        rw [← hr.2.2, ← hkeep]
        exact ⟨_, rfl⟩

end Calls

lemma setHeader_headers (h : Heap) (a : ℕ) (x : BigAllocHeader) :
    (h.setHeader a x).headers = Function.update h.headers a (some x) := rfl

section Contract
variable {highVma : ℕ} {cs : List ℕ} {slabs : ℕ → List ℕ} {s t : Session Pmm.State} {x y : ℕ × ℕ} {n : ℕ}

lemma Ready.blockAt (hr : Ready cs s slabs) (hy : y ∈ s.live) : BlockAt cs s.heap y.1 (usable cs s.heap y) := by
  by_cases hbig : 2048 < y.2
  · obtain ⟨ha, -, header, hh, hpages⟩ := hr.big y hy hbig
    rw [BlockAt, if_pos ha, usable_big hbig]
    exact ⟨header, hh, by rw [show header.pageCount = _ from congrArg Prod.fst hpages]⟩
  · have hsmall : y.2 ≤ 2048 := by omega
    obtain ⟨hodd, c, hc, a, i, hu, he⟩ := hr.small y hy hsmall
    rw [BlockAt, if_neg hodd]
    exact ⟨slabs, hr.caches, c, (hr.sizes.cacheFor_some hc).1, a, i, hu, he, usable_small hsmall hc⟩

/-- A new size in the header of one block is no change to any other. -/
lemma Ready.blockAt_setHeader (hr : Ready cs s slabs) (hx : x ∈ s.live) (hbig : 2048 < x.2) (hy : y ∈ s.live)
    (hne : y.1 ≠ x.1) (header : BigAllocHeader) :
    BlockAt cs (s.heap.setHeader (x.1 - pageSize) header) y.1 (usable cs s.heap y) := by
  have hblk := hr.blockAt hy
  obtain ⟨-, hx1, -⟩ := hr.big x hx hbig
  rw [BlockAt] at hblk ⊢
  split_ifs at hblk ⊢ with ha
  · obtain ⟨header', hh, hsize⟩ := hblk
    have hy1 : pageSize ≤ y.1 := by
      by_cases hybig : 2048 < y.2
      · exact (hr.big y hy hybig).2.1
      · exact absurd ha (hr.small y hy (by omega)).1
    have hother : y.1 - pageSize ≠ x.1 - pageSize := by omega
    exact ⟨header', by rw [setHeader_headers, Function.update_of_ne hother, hh], hsize⟩
  · obtain ⟨slabs', hs, hobject⟩ := hblk
    exact ⟨slabs', hs.setHeader _ _, hobject⟩

/-- Nothing is read or released for an object that is large enough. -/
lemma Ready.contract_small (hr : Ready cs s slabs) (hx : x ∈ s.live) (hsmall : x.2 ≤ 2048)
    (hle : n ≤ usable cs s.heap x) : Contract highVma cs s x n := by
  obtain ⟨enough, hheld⟩ := hr.held_iff n hx hsmall
  refine ⟨enough, x.1, s.heap, ⟨s.pmm, []⟩, ⟨⟨_, hr.blockAt hx, hle⟩, fun i _ => rfl,
    fun y hy _ => ⟨hr.blockAt hy, fun i _ => rfl⟩, by rw [if_pos rfl]⟩, fun fuel hfuel => ?_⟩
  obtain ⟨held, hrun, hiff⟩ := hheld fuel hfuel
  rw [hiff.mpr hle] at hrun
  obtain ⟨hcall, hread⟩ := krealloc_held (hr.small x hx hsmall).1 hrun
  exact ⟨hcall, hread ▸ Nat.zero_le _⟩

/-- An object that is too small is read past its end. -/
lemma Ready.not_contract_small (hr : Ready cs s slabs) (hx : x ∈ s.live) (hsmall : x.2 ≤ 2048)
    (hlt : usable cs s.heap x < n) : ¬ Contract highVma cs s x n := by
  rintro ⟨enough, q, h, l, -, hcall⟩
  obtain ⟨enough', hheld⟩ := hr.held_iff n hx hsmall
  obtain ⟨hrun, hread⟩ := hcall _ (Nat.le_max_left enough enough')
  obtain ⟨held, hwalk, hiff⟩ := hheld _ (Nat.le_max_right enough enough')
  cases held with
  | true => exact absurd (hiff.mp rfl) (by omega)
  | false =>
    rw [krealloc_grown (hr.small x hx hsmall).1 hwalk hrun] at hread
    omega

lemma Ready.contract_big (hr : Ready cs s slabs) (hx : x ∈ s.live) (hbig : 2048 < x.2) (hn : 1 ≤ n) :
    Contract highVma cs s x n ↔ Kept cs s x n := by
  obtain ⟨ha, -, header, hh, hpages⟩ := hr.big x hx hbig
  obtain ⟨hcount, hsize⟩ := Prod.mk.inj hpages
  have hkept : Kept cs s x n ↔ divCeil header.size pageSize = divCeil n pageSize ∧
      n ≤ pageSize * header.pageCount := by
    rw [Kept, usable_big hbig, hcount, hsize, divCeil_eq_iff hn]
    exact and_congr_right' (forall_prop_of_true hbig)
  rw [hkept]
  constructor
  · rintro ⟨enough, q, h, l, hon, hcall⟩
    obtain ⟨hrun, -⟩ := hcall enough le_rfl
    by_cases hsame : divCeil header.size pageSize = divCeil n pageSize
    · refine ⟨hsame, ?_⟩
      rw [(krealloc_stays ha hh hsame).1, Except.ok.injEq, Prod.mk.injEq, Option.some.injEq,
        Prod.mk.injEq] at hrun
      obtain ⟨rfl, rfl, -⟩ := hrun
      obtain ⟨size, hblk, hle⟩ := hon.block
      rw [BlockAt, if_pos ha] at hblk
      obtain ⟨header', hh', rfl⟩ := hblk
      rw [setHeader_headers, Function.update_self, Option.some.injEq] at hh'
      rwa [← hh'] at hle
    · obtain ⟨pages, hreleased⟩ := krealloc_moved ha hh hsame hrun
      have hrel := hon.released
      rw [hreleased] at hrel
      split_ifs at hrel with hq
      rw [Released, if_pos hbig, hreleased] at hrel
      obtain ⟨addr, haddr, he⟩ := hrel
      have hfirst : x.1 - highVma = addr := congrArg Prod.fst (List.cons.inj he).1
      simp only [pageSize] at haddr
      omega
  · rintro ⟨hsame, hle⟩
    have hblk : BlockAt cs (s.heap.setHeader (x.1 - pageSize) { header with size := n }) x.1
        (pageSize * header.pageCount) := by
      rw [BlockAt, if_pos ha]
      exact ⟨{ header with size := n }, by rw [setHeader_headers, Function.update_self], rfl⟩
    refine ⟨0, x.1, _, ⟨s.pmm, []⟩, ⟨⟨_, hblk, hle⟩, fun i _ => rfl,
      fun y hy hne => ⟨hr.blockAt_setHeader hx hbig hy hne _, fun i _ => rfl⟩, by rw [if_pos rfl]⟩,
      fun fuel _ => ?_⟩
    obtain ⟨hcall, hread⟩ := krealloc_stays ha hh hsame
    exact ⟨hcall, hread ▸ Nat.zero_le _⟩

/-- A block that is resized in place stays what it was, but for the size in its header. -/
lemma Sound.resize {fuel : ℕ} {q : Option ℕ} {h : Heap} {p : Pmm.State} (hs : Sound cs s) (hx : x ∈ s.live)
    (hkept : Kept cs s x n)
    (hr : krealloc Pmm.pmmAlloc Pmm.pmmFree highVma fuel cs s.heap s.pmm (some x.1) n = .ok (q, h, p)) :
    Sound cs (s.resized highVma cs x n q h p) := by
  obtain ⟨slabs, hready⟩ := hs.ready
  by_cases hbig : 2048 < x.2
  · obtain ⟨ha, -, header, hh, hpages⟩ := hready.big x hx hbig
    have hlt := hkept.2 hbig
    have hle := hkept.1
    rw [usable_big hbig] at hle hlt
    have hsize : divCeil header.size pageSize = divCeil x.2 pageSize := congrArg Prod.snd hpages
    have hsame := hsize.trans (divCeil_kept hle hlt)
    rw [(krealloc_stays ha hh hsame).1, Except.ok.injEq, Prod.mk.injEq, Prod.mk.injEq] at hr
    obtain ⟨rfl, rfl, rfl⟩ := hr
    obtain ⟨h0, slabs', hres, inv⟩ := hs
    rw [Session.resized, if_pos (Or.inl rfl)]
    refine ⟨h0, slabs', ⟨hres.caches, hres.slabs, fun a => ?_⟩, inv⟩
    rw [← hres.headers, setHeader_headers]
    by_cases ha' : a = x.1 - pageSize
    · rw [ha', Function.update_self, hh, Option.map_some, Option.map_some, headerPages, headerPages, hsame]
    · rw [Function.update_of_ne ha']
  · have hsmall : x.2 ≤ 2048 := by omega
    have hodd := (hready.small x hx hsmall).1
    obtain ⟨enough, hheld⟩ := hready.held_iff n hx hsmall
    cases hwalk : heldByCaches fuel s.heap x.1 n cs with
    | error e =>
      simp only [krealloc, if_neg hodd, hwalk] at hr
      cases hr
    | ok held =>
      obtain ⟨held', hrun, hiff⟩ := hheld _ (Nat.le_max_right fuel enough)
      rw [heldByCaches_mono (Nat.le_max_left fuel enough) hwalk, Except.ok.injEq] at hrun
      rw [hrun, hiff.mpr hkept.1] at hwalk
      rw [(krealloc_held hodd hwalk).1, Except.ok.injEq, Prod.mk.injEq, Prod.mk.injEq] at hr
      obtain ⟨rfl, rfl, rfl⟩ := hr
      rw [Session.resized, if_pos (Or.inl rfl)]
      exact hs

lemma Sound.handled {call : HeapCall} (hv : highVma % pageSize = 0) (hs : Sound cs s)
    (hproper : Proper highVma cs s call) (hstep : Handled highVma cs s call t) : Sound cs t := by
  cases hstep with
  | plain hserved => exact hs.served hv hproper hserved
  | fresh hm =>
    have hfit : Fits Pmm.pmmAlloc highVma cs s (.malloc _) := hproper
    exact hs.served hv hfit (.malloc hm)
  | resize hx hr => exact hs.resize hx (hproper _ hx rfl) hr

/-- A machine with an object of 64 bytes in use. -/
lemma wide_object : ∃ cs s0 s x, start Pmm.pmmAlloc Pmm.directMap emptyHeap wideState = some (cs, s0) ∧
    (∀ r ∈ rootGrant Pmm.pmmAlloc Pmm.directMap wideState, r.1 + r.2 ≤ 2 ^ 64) ∧
    Run (fun s call t => Proper Pmm.directMap cs s call ∧ Handled Pmm.directMap cs s call t) s0
      [.plain (.malloc 64)] s ∧
    x ∈ s.live ∧ x.2 = 64 ∧ usable cs s.heap x = 64 ∧ Sound cs s := by
  obtain ⟨cs, s0, c, t, hstart, hroot, hslot, hpf, hserved, hserial, h64⟩ := wide_first
  have hv : Pmm.directMap % pageSize = 0 := by decide
  obtain ⟨slabs, inv⟩ := start_inv hv pmmAlloc_aligned hstart hroot
  have hfit : Fits Pmm.pmmAlloc Pmm.directMap cs s0 (.malloc 64) := ⟨hslot, hpf⟩
  have hs : Sound cs t := Sound.served hv ⟨s0.heap, slabs, .refl _, inv⟩ hfit hserved
  have hstep : Handled Pmm.directMap cs s0 (.plain (.malloc 64)) t := .plain hserved
  cases hserved with
  | malloc hm =>
    rcases kmalloc_cases _ _ hm with ⟨h0, -⟩ | ⟨h0, d, hd, ha⟩ | ⟨h0, hnone, -⟩
    · exact absurd h0 (by decide)
    · obtain ⟨a, l, rfl, -⟩ := inv.took hv pmmAlloc_aligned h0 hd ha hpf
      refine ⟨cs, s0, _, (_, 64), hstart, hroot, .single ⟨hfit, hstep⟩, List.mem_cons_self, rfl, ?_, hs⟩
      have hsmall : 64 ≤ 2048 := by decide
      rw [usable_small hsmall hserial.cache, h64]
    · exact absurd (inv.sizes.cacheFor_none hnone) (by decide)

end Contract

end PiggyOs.Kmalloc
