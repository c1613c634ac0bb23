import PiggyOs.SlabCacheRuns

/-! Whether the slots of freed objects are used again. An allocation looks at the partial and the empty
list only, and no call takes a slab off the full list. -/
namespace PiggyOs.SlabCache
open Bitmap LinkedChain Transition

/-- `cache_alloc_object` is about to call `cache_alloc_slab`. -/
def RequestsSlab (h : Heap) (c : ℕ) : Prop := pickSlab (h.caches c) = none

/-- The largest number of live objects after any of the calls, with `n` of them at first. -/
def peak : ℕ → List Call → ℕ
  | n, [] => n
  | n, .alloc :: calls => max n (peak (n + 1) calls)
  | n, .free _ :: calls => max n (peak (n - 1) calls)

section Statements
variable {σ : Type}

/-- A new slab is requested only when all slabs are full, and there are no more slabs than the peak asks for. -/
structure Reused (c : ℕ) (s : Session σ) (slabs : List ℕ) (peak : ℕ) : Prop where
  request : RequestsSlab s.heap c → ∀ a ∈ slabs, (s.heap.slabs a).availableObjects = 0
  bound : slabs.length ≤ (peak + 511) / 512

/-- What is freed is an object of the slab on the partial list, and so not of one on the full list. -/
def FromPartial (c size : ℕ) (s : Session σ) : Call → Prop
  | .alloc => True
  | .free object => ∃ a, (s.heap.caches c).partialSlabs = some a ∧ Covers s.heap size a object

/-- Every slab with room is the one that the next allocation takes. -/
def RoomFound (c : ℕ) (s : Session σ) (slabs : List ℕ) : Prop :=
  ∀ a ∈ slabs, (s.heap.slabs a).availableObjects ≠ 0 → pickSlab (s.heap.caches c) = some a

end Statements

section Reuse
variable {σ : Type} {highVma : ℕ} {src : PageSource σ highVma} {p0 : σ} {c size : ℕ} {partials fulls : List ℕ}
  {s t : Session σ}

lemma Inv.objectAt_inj (inv : Inv src p0 c size s partials fulls) (h1 : 1 ≤ size)
    (hb : size * 512 + 568 < 2 ^ 64) {a b i j : ℕ} (ha : a ∈ partials ++ fulls) (hbl : b ∈ partials ++ fulls)
    (hi : i < objectsPerSlab) (hj : j < objectsPerSlab) (h : objectAt size a i = objectAt size b j) :
    a = b ∧ i = j := by
  by_contra hne
  have hapart := objectAt_apart hb (inv.positive a ha) inv.apart ha hbl hi hj hne
  simp only [Apart, h] at hapart
  omega

/-- The slabs without room are those all of whose objects are live. -/
lemma Inv.full_iff (inv : Inv src p0 c size s partials fulls) (h1 : 1 ≤ size)
    (hb : size * 512 + 568 < 2 ^ 64) {a : ℕ} (ha : a ∈ partials ++ fulls) :
    (s.heap.slabs a).availableObjects = 0 ↔ ∀ i < objectsPerSlab, objectAt size a i ∈ s.live := by
  have hcount := (inv.slab a ha).count
  have hall : countSet (s.heap.slabs a).bits objectsPerSlab = objectsPerSlab ↔
      ∀ i < objectsPerSlab, test (s.heap.slabs a).bits i = true := by
    rw [countSet]
    nth_rewrite 2 [← Finset.card_range objectsPerSlab]
    rw [Finset.card_filter_eq_iff]
    simp only [Finset.mem_range]
  have hzero : (s.heap.slabs a).availableObjects = 0 ↔
      countSet (s.heap.slabs a).bits objectsPerSlab = objectsPerSlab := by omega
  rw [hzero, hall]
  refine forall₂_congr fun i hi => ?_
  rw [inv.live]
  constructor
  · exact fun ht => ⟨a, i, ⟨ha, hi, ht⟩, rfl⟩
  · rintro ⟨b, j, hu, he⟩
    obtain ⟨rfl, rfl⟩ := inv.objectAt_inj h1 hb ha hu.1 hi hu.2.1 he
    exact hu.2.2

/-- Full slabs hold 512 live objects each. -/
lemma Inv.live_of_full (inv : Inv src p0 c size s partials fulls) (h1 : 1 ≤ size)
    (hb : size * 512 + 568 < 2 ^ 64)
    (hfull : ∀ a ∈ partials ++ fulls, (s.heap.slabs a).availableObjects = 0) :
    512 * (partials ++ fulls).length ≤ s.live.length := by
  have hnodup : (((partials ++ fulls) ×ˢ List.range objectsPerSlab).map fun x => objectAt size x.1 x.2).Nodup := by
    refine List.Nodup.map_on ?_ (inv.nodup.product List.nodup_range)
    rintro ⟨a, i⟩ ha ⟨b, j⟩ hbj h
    rw [List.mem_product, List.mem_range] at ha hbj
    obtain ⟨rfl, rfl⟩ := inv.objectAt_inj h1 hb ha.1 hbj.1 ha.2 hbj.2 h
    rfl
  have hsub : ((partials ++ fulls) ×ˢ List.range objectsPerSlab).map (fun x => objectAt size x.1 x.2) ⊆ s.live := by
    intro p hp
    obtain ⟨⟨a, i⟩, ha, rfl⟩ := List.mem_map.mp hp
    rw [List.mem_product, List.mem_range] at ha
    exact (inv.full_iff h1 hb ha.1).mp (hfull a ha.1) i ha.2
  have hle := (List.subperm_of_subset hnodup hsub).length_le
  rw [List.length_map, List.length_product, List.length_range, objectsPerSlab, Nat.mul_comm] at hle
  exact hle

lemma Inv.requestsSlab_iff (inv : Inv src p0 c size s partials fulls) :
    RequestsSlab s.heap c ↔ partials = [] := by
  rw [RequestsSlab, pickSlab, inv.noEmpty]
  cases partials with
  | nil =>
    have hnone : (s.heap.caches c).partialSlabs = none := inv.partialChain
    simp [hnone]
  | cons a l => simp [inv.partialChain.1]

/-- The invariant, with no room on the full list. -/
structure Packed (src : PageSource σ highVma) (p0 : σ) (c size : ℕ) (s : Session σ) (partials fulls : List ℕ) :
    Prop extends Inv src p0 c size s partials fulls where
  full : ∀ a ∈ fulls, (s.heap.slabs a).availableObjects = 0

lemma Packed.request (h : Packed src p0 c size s partials fulls) (hr : RequestsSlab s.heap c) :
    ∀ a ∈ partials ++ fulls, (s.heap.slabs a).availableObjects = 0 := by
  rw [h.requestsSlab_iff.mp hr]
  exact h.full

lemma Packed.alloc {object : Option ℕ} {h : Heap} {p : σ} (hp : Packed src p0 c size s partials fulls)
    (h1 : 1 ≤ size) (hb : size * 512 + 568 < 2 ^ 64)
    (hr : cacheAllocObject src.alloc highVma s.heap s.pmm c = some (object, h, p)) :
    ∃ x partials' fulls', object = some x ∧ Packed src p0 c size ⟨h, p, x :: s.live⟩ partials' fulls' ∧
      ((partials' ++ fulls').length = (partials ++ fulls).length ∨
        512 * (partials' ++ fulls').length ≤ s.live.length + 512) := by
  obtain ⟨a, i, partials', fulls', rfl, inv', hcase⟩ := hp.alloc_cases h1 hb hr
  have hkept : ∀ b ∈ fulls, b ∈ partials' ++ fulls' → (h.slabs b).availableObjects = 0 := by
    intro b hbf hb'
    refine (inv'.full_iff h1 hb hb').mpr fun j hj => List.mem_cons_of_mem _ ?_
    exact (hp.full_iff h1 hb (List.mem_append_right _ hbf)).mp (hp.full b hbf) j hj
  rcases hcase with ⟨rfl, hperm, hstay, hleft⟩ | ⟨rfl, rfl, rfl⟩
  · refine ⟨_, partials', fulls', rfl, ⟨inv', fun b hbf => ?_⟩, Or.inl (by simpa using hperm.length_eq)⟩
    have hb' : b ∈ partials' ++ fulls' := List.mem_append_right _ hbf
    rcases List.mem_cons.mp (hperm.mem_iff.mp hb') with rfl | hold
    · by_cases h2 : 2 ≤ (s.heap.slabs b).availableObjects
      · obtain ⟨rfl, rfl⟩ := hstay h2
        exact absurd hbf (List.nodup_cons.mp inv'.nodup).1
      · have hroom := hp.room b List.mem_cons_self
        dsimp only at *
        omega
    · exact hkept b hold hb'
  · have hlive := hp.live_of_full h1 hb hp.full
    refine ⟨_, [a], fulls', rfl, ⟨inv', fun b hbf => hkept b hbf (List.mem_cons_of_mem _ hbf)⟩, Or.inr ?_⟩
    simp only [List.nil_append, List.singleton_append, List.length_cons] at *
    omega

lemma le_peak (n : ℕ) (calls : List Call) : n ≤ peak n calls := by
  cases calls with
  | nil => exact le_rfl
  | cons call calls =>
    cases call with
    | alloc => exact le_max_left _ _
    | free object => exact le_max_left _ _

lemma Inv.released {object fuel : ℕ} {ok : Bool} {h : Heap} (inv : Inv src p0 c size s partials fulls)
    (h1 : 1 ≤ size) (hb : size * 512 + 568 < 2 ^ 64) (hm : object ∈ s.live)
    (hr : cacheFreeObject fuel s.heap c object = some (ok, h)) :
    Inv src p0 c size ⟨h, s.pmm, s.live.erase object⟩ partials fulls := by
  obtain ⟨h', inv', hspec⟩ := inv.free h1 hb hm
  have hmax := cacheFreeObject_mono (Nat.le_max_left fuel (partials ++ fulls).length) hr
  rw [hspec _ (Nat.le_max_right _ _)] at hmax
  obtain ⟨rfl, rfl⟩ := Prod.mk.inj (Option.some.inj hmax)
  exact inv'

/-- The object of a full slab is not one of the partial slab. -/
lemma Inv.fromPartial_iff (inv : Inv src p0 c size s partials fulls) (h1 : 1 ≤ size)
    (hb : size * 512 + 568 < 2 ^ 64) {a i : ℕ} (hu : Used s.heap (partials ++ fulls) a i) :
    FromPartial c size s (.free (objectAt size a i)) ↔ a ∈ partials := by
  have hhead : (s.heap.caches c).partialSlabs = partials.head? := inv.partialChain.head_eq
  constructor
  · rintro ⟨d, hd, hcov⟩
    have hdl : d ∈ partials := List.mem_of_mem_head? (hhead ▸ hd)
    by_contra ha
    refine inv.not_covers h1 hb hu (List.mem_append_left _ hdl) ?_ hcov
    rintro rfl
    exact ha hdl
  · intro ha
    have hshort := inv.short
    refine ⟨a, ?_, (covers_own (inv.slab a hu.1) h1 hu.2.1).1⟩
    rw [hhead]
    match partials, hshort with
    | [b], _ => rw [List.mem_singleton.mp ha]; rfl

/-- What is released leaves the full list as it is. -/
lemma Packed.free {object fuel : ℕ} {ok : Bool} {h : Heap} (hp : Packed src p0 c size s partials fulls)
    (h1 : 1 ≤ size) (hb : size * 512 + 568 < 2 ^ 64) (hm : object ∈ s.live)
    (hpart : FromPartial c size s (.free object)) (hr : cacheFreeObject fuel s.heap c object = some (ok, h)) :
    Packed src p0 c size ⟨h, s.pmm, s.live.erase object⟩ partials fulls := by
  have inv' := hp.released h1 hb hm hr
  refine ⟨inv', fun b hbf => ?_⟩
  have hb' : b ∈ partials ++ fulls := List.mem_append_right _ hbf
  refine (inv'.full_iff h1 hb hb').mpr fun j hj => ?_
  refine (List.mem_erase_of_ne ?_).mpr ((hp.full_iff h1 hb hb').mp (hp.full b hbf) j hj)
  rintro rfl
  have hu : Used s.heap (partials ++ fulls) b j := by
    obtain ⟨a, i, hu, he⟩ := (hp.live _).mp hm
    obtain ⟨rfl, rfl⟩ := hp.objectAt_inj h1 hb hb' hu.1 hj hu.2.1 he
    exact hu
  have hbp : b ∈ partials := (hp.fromPartial_iff h1 hb hu).mp hpart
  exact (List.nodup_append.mp hp.nodup).2.2 b hbp b hbf rfl

lemma Packed.run {calls : List Call} {bound : ℕ} (h1 : 1 ≤ size) (hb : size * 512 + 568 < 2 ^ 64)
    (hrun : Run (fun s call t => Served src.alloc highVma c s call t ∧ FromPartial c size s call) s calls t)
    (hp : Packed src p0 c size s partials fulls) (hpeak : peak s.live.length calls ≤ bound)
    (hbound : 512 * (partials ++ fulls).length ≤ bound + 511) :
    ∃ partials' fulls', Packed src p0 c size t partials' fulls' ∧
      512 * (partials' ++ fulls').length ≤ bound + 511 := by
  induction hrun generalizing partials fulls with
  | nil s => exact ⟨partials, fulls, hp, hbound⟩
  | @cons s u t call calls hstep hrest ih =>
    obtain ⟨hserved, hpart⟩ := hstep
    cases hserved with
    | alloc hr =>
      obtain ⟨x, partials', fulls', rfl, hp', hlen⟩ := hp.alloc h1 hb hr
      rw [peak, max_le_iff] at hpeak
      refine ih hp' hpeak.2 ?_
      rcases hlen with hlen | hlen
      · omega
      · have hle := le_peak (s.live.length + 1) calls
        omega
    | free hm hr =>
      rw [peak, max_le_iff] at hpeak
      refine ih (hp.free h1 hb hm hpart hr) ?_ hbound
      rw [List.length_erase_of_mem hm]
      exact hpeak.2

lemma Packed.roomFound (hp : Packed src p0 c size s partials fulls) : RoomFound c s (partials ++ fulls) := by
  intro a ha hroom
  have hap : a ∈ partials := (List.mem_append.mp ha).resolve_right fun haf => hroom (hp.full a haf)
  have hhead : (s.heap.caches c).partialSlabs = partials.head? := hp.partialChain.head_eq
  have hshort := hp.short
  match partials, hshort with
  | [b], _ =>
    rw [List.mem_singleton.mp hap, pickSlab, hhead]
    rfl

/-- Releasing an object of a full slab leaves room that no allocation looks at. -/
lemma Packed.roomFound_free {object : ℕ} (hp : Packed src p0 c size s partials fulls) (h1 : 1 ≤ size)
    (hb : size * 512 + 568 < 2 ^ 64) (hs : Served src.alloc highVma c s (.free object) t) :
    RoomFound c t (partials ++ fulls) ↔ FromPartial c size s (.free object) := by
  cases hs with
  | free hm hr =>
    have inv' := hp.released h1 hb hm hr
    constructor
    · intro hfound
      obtain ⟨a, i, hu, rfl⟩ := (hp.live object).mp hm
      have hroom := mt (inv'.full_iff h1 hb hu.1).mp fun hall => hp.liveNodup.not_mem_erase (hall i hu.2.1)
      have hpick := hfound a hu.1 hroom
      have hhead := inv'.partialChain.head_eq
      rw [pickSlab, inv'.noEmpty, hhead] at hpick
      exact (hp.fromPartial_iff h1 hb hu).mpr (List.mem_of_mem_head? (by simpa using hpick))
    · exact fun hpart => (hp.free h1 hb hm hpart hr).roomFound

/-- As long as only objects of the slab on the partial list are released, slabs are requested when all are full
and there are no more than the peak asks for; and the next release keeps all room in sight if and only if it is
of this kind, too. -/
theorem slabs_reused (src : PageSource σ highVma) {h0 : Heap} {p0 : σ} {c size : ℕ} {calls : List Call}
    {s : Session σ} (h1 : 1 ≤ size) (hb : size * 512 + 568 < 2 ^ 64) (hc : h0.caches c = newCache size)
    (hrun : Run (fun s call t => Served src.alloc highVma c s call t ∧ FromPartial c size s call)
      ⟨h0, p0, []⟩ calls s) :
    ∃ empties partials fulls, SlabsListed src p0 c s empties partials fulls ∧
      Reused c s (empties ++ partials ++ fulls) (peak 0 calls) ∧
      ∀ object t, Served src.alloc highVma c s (.free object) t →
        (RoomFound c t (empties ++ partials ++ fulls) ↔ FromPartial c size s (.free object)) := by
  have hstart : Packed src p0 c size ⟨h0, p0, []⟩ [] [] := ⟨inv_start hc, by simp⟩
  obtain ⟨partials, fulls, hp, hbound⟩ := Packed.run h1 hb hrun hstart le_rfl (by simp)
  refine ⟨[], partials, fulls, hp.slabsListed, ⟨?_, ?_⟩, fun object t hs => ?_⟩
  · exact hp.request
  · rw [Nat.le_div_iff_mul_le (by decide), Nat.mul_comm]
    exact hbound
  · exact hp.roomFound_free h1 hb hs

/-- As many allocations as there is room for take the partial slab to the full list. -/
lemma Inv.fill {a k : ℕ} (inv : Inv src p0 c size s [a] []) (h1 : 1 ≤ size) (hb : size * 512 + 568 < 2 ^ 64)
    (hroom : (s.heap.slabs a).availableObjects = k + 1) :
    ∃ t, Run (Served src.alloc highVma c) s (List.replicate (k + 1) .alloc) t ∧ t.pmm = s.pmm ∧
      Inv src p0 c size t [] [a] ∧ (t.heap.slabs a).availableObjects = 0 := by
  induction k generalizing s with
  | zero =>
    obtain ⟨h', -, -, he, -⟩ := cacheAllocObject_partial src.alloc highVma s.pmm inv.toCacheInv
    obtain ⟨b, i, partials', fulls', hobject, inv', hcase⟩ := inv.alloc_cases h1 hb he
    rcases hcase with ⟨hab, hperm, -, hleft⟩ | ⟨hnil, -⟩
    · obtain rfl := List.head_eq_of_cons_eq hab
      have hlist := List.perm_singleton.mp hperm
      cases partials' with
      | nil =>
        obtain rfl : fulls' = [a] := hlist
        rw [hobject] at he
        exact ⟨_, .single (.alloc he), rfl, inv', by dsimp only; omega⟩
      | cons d l =>
        obtain rfl := List.head_eq_of_cons_eq hlist
        have hpos := inv'.room d List.mem_cons_self
        dsimp only at hpos
        omega
    · simp at hnil
  | succ k ih =>
    obtain ⟨h', -, -, he, -⟩ := cacheAllocObject_partial src.alloc highVma s.pmm inv.toCacheInv
    obtain ⟨b, i, partials', fulls', hobject, inv', hcase⟩ := inv.alloc_cases h1 hb he
    rcases hcase with ⟨hab, -, hstay, hleft⟩ | ⟨hnil, -⟩
    · obtain rfl := List.head_eq_of_cons_eq hab
      obtain ⟨rfl, rfl⟩ := hstay (by omega)
      obtain ⟨t, hrun, hpmm, hfilled⟩ := ih inv' (by dsimp only; omega)
      rw [hobject] at he
      exact ⟨t, .cons (.alloc he) hrun, hpmm, hfilled⟩
    · simp at hnil

lemma peak_fill (n k : ℕ) (calls : List Call) : peak n (List.replicate k .alloc ++ calls) = peak (n + k) calls := by
  induction k generalizing n with
  | zero => rfl
  | succ k ih =>
    rw [List.replicate_succ, List.cons_append, peak, ih, Nat.add_right_comm, Nat.add_assoc]
    exact max_eq_right ((Nat.le_add_right _ _).trans (le_peak _ _))

/-- A request that the supplier serves ends in a new slab with one object. -/
lemma Inv.request {phys : ℕ} {q : σ} (inv : Inv src p0 c size s [] fulls) (h1 : 1 ≤ size)
    (hb : size * 512 + 568 < 2 ^ 64) (ha : src.alloc s.pmm (newCache size).pagesPerSlab = some (phys, q)) :
    ∃ t a object, Served src.alloc highVma c s .alloc t ∧ t.pmm = q ∧ t.live = object :: s.live ∧
      Inv src p0 c size t [a] fulls ∧ (t.heap.slabs a).availableObjects = 511 := by
  have hlow : phys + pageSize ≤ 2 ^ 64 := by
    have h2 := src.mapped ha
    have h3 := Nat.mul_le_mul_left pageSize (src.positive ha)
    omega
  have hpl : phys + highVma ∉ fulls ∧ Placed src p0 q size ((phys + highVma) :: fulls) := inv.toPlaced.cons ha
  rw [← inv.pages] at ha
  obtain ⟨h', he, inv', -, hal⟩ := cacheAllocObject_new highVma inv.toCacheInv ha (src.aligned ha) hlow hpl.1
  have hleft := hal.available
  rw [if_neg hpl.1, objectsPerSlab] at hleft
  rw [inv.objectSize] at he
  exact ⟨_, phys + highVma, _, .alloc he, rfl, rfl, inv.join inv' h1 hb hal hpl.2, Nat.succ_injective hleft⟩

end Reuse

abbrev manyPages : PageSource Bump Pmm.directMap := bumpSource Pmm.directMap

def manyStart : Session Bump := ⟨emptyHeap, ⟨0x1000, 2 ^ 40, [], rfl, by simp⟩, []⟩

lemma manyStart_inv : Inv manyPages manyStart.pmm 0 16 manyStart [] [] := inv_start rfl

/-- Two slabs can be served. -/
lemma manyStart_alloc :
    manyPages.alloc manyStart.pmm (newCache 16).pagesPerSlab = some (0x1000, manyStart.pmm.take 3) ∧
    manyPages.alloc (manyStart.pmm.take 3) (newCache 16).pagesPerSlab =
      some (0x4000, (manyStart.pmm.take 3).take 3) := by
  have hpages : (newCache 16).pagesPerSlab = 3 := by decide
  have hserve : ∀ p : Bump, p.next + pageSize * 3 ≤ p.limit → p.next + pageSize * 3 + Pmm.directMap ≤ 2 ^ 64 →
      manyPages.alloc p 3 = some (p.next, p.take 3) := fun p h1 h2 => if_pos ⟨by decide, h1, h2⟩
  rw [hpages]
  exact ⟨hserve _ (by decide) (by decide), hserve _ (by decide) (by decide)⟩

theorem slabs_reused_once : ∃ (object : ℕ) (t : Session Bump),
    Run (fun s call t => Served manyPages.alloc Pmm.directMap 0 s call t ∧ FromPartial 0 16 s call)
      manyStart [.alloc, .free object] t ∧ ∃ slabs, Reused 0 t slabs 1 := by
  obtain ⟨s, a, object, hs, -, hlive, inv, -⟩ :=
    manyStart_inv.request (by decide) (by decide) manyStart_alloc.1
  have hm : object ∈ s.live := hlive ▸ List.mem_cons_self
  obtain ⟨b, i, hu, rfl⟩ := (inv.live object).mp hm
  have hpart := (inv.fromPartial_iff (by decide) (by decide) hu).mpr hu.1
  obtain ⟨h, -, hfree⟩ := inv.free (by decide) (by decide) hm
  have hrun : Run (fun s call t => Served manyPages.alloc Pmm.directMap 0 s call t ∧ FromPartial 0 16 s call)
      manyStart [.alloc, .free (objectAt 16 b i)] ⟨h, s.pmm, s.live.erase (objectAt 16 b i)⟩ :=
    .cons ⟨hs, trivial⟩ (.single ⟨.free hm (hfree _ le_rfl), hpart⟩)
  obtain ⟨empties, partials, fulls, -, hreused, -⟩ := slabs_reused manyPages (by decide) (by decide) rfl hrun
  exact ⟨_, _, hrun, _, hreused⟩

/-- 512 objects are allocated and one of them is given back. The next allocation requests a second slab. -/
theorem slab_not_reused : ∃ (object a b : ℕ) (s t : Session Bump),
    Run (Served manyPages.alloc Pmm.directMap 0) manyStart (List.replicate 512 .alloc ++ [.free object]) s ∧
    SlabsListed manyPages manyStart.pmm 0 s [] [] [a] ∧ RequestsSlab s.heap 0 ∧
    (s.heap.slabs a).availableObjects ≠ 0 ∧
    Served manyPages.alloc Pmm.directMap 0 s .alloc t ∧ SlabsListed manyPages manyStart.pmm 0 t [] [b] [a] ∧
    (peak 0 (List.replicate 512 .alloc ++ [.free object, .alloc]) + 511) / 512 = 1 := by
  obtain ⟨s1, a, object, h1, hpmm1, hlive1, inv1, hroom1⟩ :=
    manyStart_inv.request (by decide) (by decide) manyStart_alloc.1
  obtain ⟨s2, h2, hpmm2, inv2, hfull⟩ := inv1.fill (by decide) (by decide) hroom1
  have hm : objectAt 16 a 0 ∈ s2.live :=
    (inv2.full_iff (by decide) (by decide) List.mem_cons_self).mp hfull 0 (by decide)
  obtain ⟨h, inv3, hfree⟩ := inv2.free (by decide) (by decide) hm
  have hs3 : Served manyPages.alloc Pmm.directMap 0 s2 (.free (objectAt 16 a 0))
      ⟨h, s2.pmm, s2.live.erase (objectAt 16 a 0)⟩ := .free hm (hfree _ le_rfl)
  have hpmm3 : s2.pmm = manyStart.pmm.take 3 := hpmm2.trans hpmm1
  obtain ⟨t, b, object', h4, -, -, inv4, -⟩ := inv3.request (by decide) (by decide)
    (by rw [hpmm3]; exact manyStart_alloc.2)
  refine ⟨objectAt 16 a 0, a, b, _, t, ?_, inv3.slabsListed, inv3.requestsSlab_iff.mpr rfl, ?_, h4, inv4.slabsListed,
    ?_⟩
  · exact (Run.cons h1 h2).append (.single hs3)
  · intro hzero
    have hall := (inv3.full_iff (by decide) (by decide) List.mem_cons_self).mp hzero
    exact inv2.liveNodup.not_mem_erase (hall 0 (by decide))
  · rw [peak_fill]
    norm_num [peak]

end PiggyOs.SlabCache
