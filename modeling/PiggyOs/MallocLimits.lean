import PiggyOs.MallocRelease

/-! Requests up to the largest ones: what becomes of the sizes that `malloc`, `calloc`, `realloc` and `reallocarray`
compute with. -/
namespace PiggyOs.MallocFree
open ByteMemory Filter

def calloc (fuel : ℕ) (h : Heap) (nmemb size : BitVec 64) (room : Bool) : Option (ℕ × Heap) :=
  if 2 ^ 64 ≤ nmemb.toNat * size.toNat then some (0, h)
  else (malloc fuel h (nmemb * size) room).map fun r =>
    if r.1 ≠ 0 then (r.1, { r.2 with mem := clear r.2.mem r.1 (nmemb * size).toNat }) else r

def reallocarray (fuel : ℕ) (h : Heap) (ptr : ℕ) (size1 size2 : BitVec 64) (room1 room2 : Bool) :
    Option (ℕ × Heap) :=
  if 2 ^ 64 ≤ size1.toNat * size2.toNat then some (0, h)
  else realloc fuel h ptr (size1 * size2) room1 room2

/-- The chunks of a heap, of any sizes that their field can hold. -/
structure Stacked (h : Heap) (cs : List Chunk) : Prop where
  linked : Linked h.mem h.first cs
  last : h.last = 0 ∨ h.last + 24 ≤ h.brk ∧ ∃ c ∈ cs, h.last = c.addr
  header : ∀ c ∈ cs, Header h.mem c
  size : ∀ c ∈ cs, c.size < 2 ^ 63
  order : cs.Pairwise fun c d => c.stop ≤ d.addr
  below : ∀ c ∈ cs, c.stop ≤ h.brk
  fits : h.brk < 2 ^ 64

/-- `p` is `NULL`, or a block of `n` bytes: its header says so, and it ends below the break. -/
def Granted (h : Heap) (p n : ℕ) : Prop := p = 0 ∨ (n ≤ (chunkSize h.mem (p - 24)).toNat ∧ p + n ≤ h.brk)

def NoneFits (cs : List Chunk) (n : ℕ) : Prop := ∀ c ∈ cs, ¬ (c.free = true ∧ n ≤ c.size)

/-- `sbrk` moves the break by a number that has wrapped. -/
structure Overdrawn (h : Heap) (cs : List Chunk) (n : ℕ) (room : Bool) : Prop where
  large : 2 ^ 63 - 24 ≤ n
  fits : n < 2 ^ 64
  none_fits : NoneFits cs n
  room : room = true
  above : 2 ^ 64 ≤ h.brk + 24 + n
  below : h.brk + 24 + n < 2 ^ 65

section Requests
variable {h h' : Heap} {m : Memory} {cs : List Chunk} {c d : Chunk} {fuel a : ℕ} {size : BitVec 64}
  {room room2 : Bool} {p ptr brk : ℕ}

lemma Chunks.stacked (hh : Chunks h cs) : Stacked h cs := by
  refine ⟨hh.linked, ?_, hh.header, fun c hc => ?_, hh.laid.order, hh.laid.below, hh.fits⟩
  · rcases List.eq_nil_or_concat cs with rfl | ⟨l, d, rfl⟩
    · exact Or.inl hh.last
    · have hd : d ∈ l.concat d := by simp
      have hlast : h.last = d.addr := by simpa using hh.last
      have hstop := hh.laid.below d hd
      rw [Chunk.stop] at hstop
      exact Or.inr ⟨by omega, d, hd, hlast⟩
  · have := (hh.laid.size c hc).2
    omega

lemma Stacked.apart (hs : Stacked h cs) (hc : c ∈ cs) (hd : d ∈ cs) (hne : c ≠ d) :
    c.stop ≤ d.addr ∨ d.stop ≤ c.addr := by
  have hapart : cs.Pairwise fun c d => c.stop ≤ d.addr ∨ d.stop ≤ c.addr := hs.order.imp Or.inl
  have : Std.Symm fun c d : Chunk => c.stop ≤ d.addr ∨ d.stop ≤ c.addr := ⟨fun _ _ => Or.symm⟩
  exact hapart.forall hc hd hne

lemma Header.size_toNat (hd : Header m c) (hlt : c.size < 2 ^ 63) : (MallocFree.chunkSize m c.addr).toNat = c.size := by
  rw [hd.chunkSize, BitVec.toNat_ofNat]
  exact Nat.mod_eq_of_lt hlt

/-- The search ends, with a chunk that is free and large enough if there is one. -/
lemma getFreeChunk_ends (hl : Linked m a cs) (hh : ∀ c ∈ cs, Header m c) (hsz : ∀ c ∈ cs, c.size < 2 ^ 63)
    (size : BitVec 64) : ∃ chunk, (∀ᶠ fuel in atTop, getFreeChunk m size fuel a = some chunk) ∧
      ((chunk = 0 ∧ NoneFits cs size.toNat) ∨
        ∃ c ∈ cs, chunk = c.addr ∧ 0 < c.addr ∧ c.free = true ∧ size.toNat ≤ c.size) := by
  induction cs generalizing a with
  | nil =>
    obtain rfl : a = 0 := hl
    refine ⟨0, ?_, Or.inl ⟨rfl, fun c hc => absurd hc List.not_mem_nil⟩⟩
    filter_upwards [eventually_gt_atTop 0] with fuel hf
    obtain ⟨fuel, rfl⟩ := Nat.exists_eq_succ_of_ne_zero hf.ne'
    rfl
  | cons c cs ih =>
    obtain ⟨rfl, hpos, hrest⟩ := hl
    rw [List.forall_mem_cons] at hh hsz
    have hle : (chunkSize m c.addr).setWidth 64 ≥ size ↔ size.toNat ≤ c.size := by
      rw [ge_iff_le, BitVec.le_def, BitVec.toNat_setWidth, hh.1.size_toNat hsz.1, Nat.mod_eq_of_lt (by omega)]
    by_cases hfit : c.free = true ∧ size.toNat ≤ c.size
    · refine ⟨c.addr, ?_, Or.inr ⟨c, List.mem_cons_self, rfl, hpos, hfit⟩⟩
      filter_upwards [eventually_gt_atTop 0] with fuel hf
      obtain ⟨fuel, rfl⟩ := Nat.exists_eq_succ_of_ne_zero hf.ne'
      rw [getFreeChunk, if_neg hpos.ne', hh.1.chunkFree, if_pos ⟨hfit.1, hle.mpr hfit.2, hh.1.magic⟩]
    · obtain ⟨chunk, hev, hcase⟩ := ih hrest hh.2 hsz.2
      refine ⟨chunk, ?_, ?_⟩
      · filter_upwards [tendsto_sub_atTop_nat 1 |>.eventually hev, eventually_gt_atTop 0] with fuel hf hpos'
        obtain ⟨fuel, rfl⟩ := Nat.exists_eq_succ_of_ne_zero hpos'.ne'
        rw [getFreeChunk, if_neg hpos.ne', hh.1.chunkFree, if_neg fun hx => hfit ⟨hx.1, hle.mp hx.2.1⟩]
        exact hf
      · rcases hcase with ⟨rfl, hnone⟩ | ⟨d, hd, hrest'⟩
        · exact Or.inl ⟨rfl, List.forall_mem_cons.mpr ⟨hfit, hnone⟩⟩
        · exact Or.inr ⟨d, List.mem_cons_of_mem c hd, hrest'⟩

/-- What `malloc` does: nothing, or a free chunk is used again, or the break is moved. -/
lemma Stacked.malloc (hs : Stacked h cs) (size : BitVec 64) (room : Bool) :
    ∃ p h', (∀ᶠ fuel in atTop, malloc fuel h size room = some (p, h')) ∧ ((p = 0 ∧ h' = h ∧
        ¬ Overdrawn h cs size.toNat room) ∨
      (∃ c ∈ cs, c.free = true ∧ size.toNat ≤ c.size ∧ p = c.ptr ∧ h' = { h with mem := setFree h.mem c.addr false }) ∨
      (NoneFits cs size.toNat ∧ ∃ brk, sbrk room h.brk (24 + size) = some brk ∧ p = h.brk + 24 ∧
        h' = appendChunk h size brk)) := by
  by_cases hzero : size = 0
  · refine ⟨0, h, .of_forall fun fuel => if_pos hzero, Or.inl ⟨rfl, rfl, fun ho => ?_⟩⟩
    have hlarge := ho.large
    rw [hzero] at hlarge
    exact absurd hlarge (by decide)
  obtain ⟨chunk, hev, ⟨rfl, hnone⟩ | ⟨c, hc, rfl, hpos, hfree, hle⟩⟩ :=
    getFreeChunk_ends hs.linked hs.header hs.size size
  · cases hmove : sbrk room h.brk (24 + size) with
    | none =>
      refine ⟨0, h, ?_, Or.inl ⟨rfl, rfl, fun ho => ?_⟩⟩
      · filter_upwards [hev] with fuel hf
        rw [MallocFree.malloc, if_neg hzero, hf, Option.map_some, if_neg (not_not.mpr rfl), hmove]
      · have hsmall : ¬ size.toNat < 2 ^ 63 - 24 := by have := ho.large; omega
        have habove := ho.above
        have hbelow := ho.below
        rw [sbrk, if_pos ⟨ho.room, by rw [toInt_request, if_neg hsmall]; omega,
          by rw [toInt_request, if_neg hsmall]; omega⟩] at hmove
        cases hmove
    | some brk =>
      refine ⟨h.brk + 24, appendChunk h size brk, ?_, Or.inr (Or.inr ⟨hnone, brk, rfl, rfl, rfl⟩)⟩
      filter_upwards [hev] with fuel hf
      rw [MallocFree.malloc, if_neg hzero, hf, Option.map_some, if_neg (not_not.mpr rfl), hmove]
  · refine ⟨c.ptr, _, ?_, Or.inr (Or.inl ⟨c, hc, hfree, hle, rfl, rfl⟩)⟩
    filter_upwards [hev] with fuel hf
    rw [MallocFree.malloc, if_neg hzero, hf, Option.map_some, if_pos hpos.ne']
    rfl

/-- The break has moved far enough for the block unless the request wraps. -/
lemma extended_far_enough (hs : sbrk room h.brk (24 + size) = some brk) :
    h.brk + 24 + size.toNat ≤ brk ↔ size.toNat < 2 ^ 63 - 24 := by
  have hbrk := (sbrk_some hs).1
  have hlt := size.isLt
  rw [toInt_request] at hbrk
  split_ifs at hbrk <;> omega

lemma overdrawn_iff (hs : Stacked h cs) (hnone : NoneFits cs size.toNat)
    (hmove : sbrk room h.brk (24 + size) = some brk) :
    Overdrawn h cs size.toNat room ↔ ¬ size.toNat < 2 ^ 63 - 24 := by
  have hfits := hs.fits
  have hlt := size.isLt
  obtain ⟨hbrk, hbrkLt⟩ := sbrk_some hmove
  have hroom : room = true := by
    cases room with
    | true => rfl
    | false => cases hmove
  rw [toInt_request] at hbrk
  constructor
  · intro ho
    have := ho.large
    omega
  · intro hlarge
    rw [if_neg hlarge] at hbrk
    exact ⟨by omega, hlt, hnone, hroom, by omega, by omega⟩

/-- A chunk that is long enough is what was asked for. -/
lemma granted_chunk {n : ℕ} (hsize : (chunkSize h.mem c.addr).toNat = c.size) (hle : n ≤ c.size) (hstop : c.stop ≤ h.brk) :
    Granted h c.ptr n := by
  refine Or.inr ⟨?_, ?_⟩
  · rw [show c.ptr - 24 = c.addr from Nat.add_sub_cancel _ _, hsize]
    exact hle
  · rw [Chunk.stop] at hstop
    rw [Chunk.ptr]
    omega

@[simp] lemma chunkSize_setFree (m : Memory) (a : ℕ) (free : Bool) : chunkSize (setFree m a free) a = chunkSize m a := by
  rw [chunkSize, setFree, read64_write64, BitVec.setWidth_cons]

lemma extended_granted_iff (hlast : h.last = 0 ∨ h.last + 24 ≤ h.brk)
    (hmove : sbrk room h.brk (24 + size) = some brk) :
    Granted (appendChunk h size brk) (h.brk + 24) size.toNat ↔ size.toNat < 2 ^ 63 - 24 := by
  rw [← extended_far_enough hmove]
  constructor
  · rintro (hnull | ⟨-, hbelow⟩)
    · omega
    · exact hbelow
  · intro hle
    have hsmall := (extended_far_enough hmove).mp hle
    exact granted_chunk (h := appendChunk h size brk) (c := ⟨h.brk, size.toNat, false⟩)
      ((appendChunk_header hlast size brk).size_toNat (by dsimp only; omega)) le_rfl hle

lemma Stacked.last_below (hs : Stacked h cs) : h.last = 0 ∨ h.last + 24 ≤ h.brk := hs.last.imp_right And.left

/-- What `malloc` returns is what was asked for unless the request wraps. -/
lemma Stacked.malloc_granted_iff (hs : Stacked h cs)
    (hm : ∀ᶠ fuel in atTop, MallocFree.malloc fuel h size room = some (p, h')) :
    Granted h' p size.toNat ↔ ¬ Overdrawn h cs size.toNat room := by
  obtain ⟨q, g, hev, hcase⟩ := hs.malloc size room
  cases eventually_some_inj hm hev
  rcases hcase with ⟨rfl, -, hno⟩ | ⟨c, hc, hfree, hle, rfl, rfl⟩ | ⟨hnone, brk, hmove, rfl, rfl⟩
  · exact iff_of_true (Or.inl rfl) hno
  · refine iff_of_true (granted_chunk ?_ hle (hs.below c hc)) fun ho => ho.none_fits c hc ⟨hfree, hle⟩
    dsimp only
    rw [chunkSize_setFree, (hs.header c hc).size_toNat (hs.size c hc)]
  · rw [extended_granted_iff hs.last_below hmove, overdrawn_iff hs hnone hmove, not_not]

lemma chunkSize_congr {m' : Memory} (hsame : ∀ k < 8, m' (a + k) = m (a + k)) : chunkSize m' a = chunkSize m a := by
  rw [chunkSize, chunkSize, read64_congr hsame]

/-- The header is its first two words. -/
lemma Header.congrWords {m' : Memory} (hd : Header m c) (hsame : ∀ k < 16, m' (c.addr + k) = m (c.addr + k)) :
    Header m' c := by
  refine ⟨?_, ?_⟩
  · rw [← hd.word]
    exact read64_congr fun k hk => hsame k (by omega)
  · rw [← hd.magic]
    refine read64_congr fun k hk => ?_
    rw [Nat.add_assoc]
    exact hsame _ (by omega)

lemma unlinkLast_ends (hl : Linked m a cs) (last : ℕ) : ∃ r, (∀ᶠ fuel in atTop, unlinkLast m last fuel a = some r) ∧
    (r.1 = m ∨ ∃ x ∈ cs, r.1 = setNext m x.addr 0) := by
  induction cs generalizing a with
  | nil =>
    obtain rfl : a = 0 := hl
    refine ⟨(m, last), ?_, Or.inl rfl⟩
    filter_upwards [eventually_gt_atTop 0] with fuel hf
    obtain ⟨fuel, rfl⟩ := Nat.exists_eq_succ_of_ne_zero hf.ne'
    rfl
  | cons c cs ih =>
    obtain ⟨rfl, hpos, hrest⟩ := hl
    by_cases hlast : chunkNext m c.addr = last
    · refine ⟨(setNext m c.addr 0, c.addr), ?_, Or.inr ⟨c, List.mem_cons_self, rfl⟩⟩
      filter_upwards [eventually_gt_atTop 0] with fuel hf
      obtain ⟨fuel, rfl⟩ := Nat.exists_eq_succ_of_ne_zero hf.ne'
      rw [unlinkLast, if_neg hpos.ne', if_pos hlast]
    · obtain ⟨r, hev, hcase⟩ := ih hrest
      refine ⟨r, ?_, hcase.imp_right fun h => h.imp fun x hx => ⟨List.mem_cons_of_mem c hx.1, hx.2⟩⟩
      filter_upwards [tendsto_sub_atTop_nat 1 |>.eventually hev, eventually_gt_atTop 0] with fuel hf hpos'
      obtain ⟨fuel, rfl⟩ := Nat.exists_eq_succ_of_ne_zero hpos'.ne'
      rw [unlinkLast, if_neg hpos.ne', if_neg hlast]
      exact hf

lemma dropLastChunk_ends (hl : Linked h.mem h.first cs) : ∃ g, (∀ᶠ fuel in atTop, dropLastChunk fuel h = some g) ∧
    (g.mem = h.mem ∨ ∃ x ∈ cs, g.mem = setNext h.mem x.addr 0) := by
  by_cases hone : h.first = h.last
  · exact ⟨_, .of_forall fun fuel => if_pos hone, Or.inl rfl⟩
  · obtain ⟨r, hev, hcase⟩ := unlinkLast_ends hl h.last
    refine ⟨{ h with mem := r.1, last := r.2 }, ?_, hcase⟩
    filter_upwards [hev] with fuel hf
    rw [dropLastChunk, if_neg hone, hf]
    rfl

/-- `free` marks a chunk that does not end at the break. -/
lemma free_marks (hd : Header h.mem c)
    (htop : (c.ptr + (chunkSize h.mem c.addr).toNat) % 2 ^ 64 ≠ h.brk) (fuel : ℕ) (room : Bool) :
    free fuel h c.ptr room = some { h with mem := setFree h.mem c.addr true } := by
  have haddr : c.ptr - 24 = c.addr := Nat.add_sub_cancel _ _
  rw [free, if_neg (by rw [Chunk.ptr]; omega), haddr, if_neg (not_not.mpr hd.magic), if_neg htop]

lemma free_ends (hl : Linked h.mem h.first cs) (hd : Header h.mem c) (room : Bool) :
    ∃ g, (∀ᶠ fuel in atTop, free fuel h c.ptr room = some g) ∧
      (g.mem = setFree h.mem c.addr true ∨ g.mem = h.mem ∨ ∃ x ∈ cs, g.mem = setNext h.mem x.addr 0) := by
  by_cases htop : (c.ptr + (chunkSize h.mem c.addr).toNat) % 2 ^ 64 = h.brk
  · obtain ⟨g, hev, hcase⟩ := dropLastChunk_ends hl
    have haddr : c.ptr - 24 = c.addr := Nat.add_sub_cancel _ _
    refine ⟨{ g with brk := (sbrk room h.brk (-(24 - (chunkSize h.mem c.addr).setWidth 64))).getD h.brk }, ?_,
      Or.inr hcase⟩
    filter_upwards [hev] with fuel hf
    rw [free, if_neg (by rw [Chunk.ptr]; omega), haddr, if_neg (not_not.mpr hd.magic), if_pos htop, hf]
    rfl
  · exact ⟨_, .of_forall fun fuel => free_marks hd htop fuel room, Or.inl rfl⟩

/-- The heap after `realloc` has copied the block of `c` to `p`. -/
def moved (h : Heap) (c : Chunk) (p : ℕ) : Heap :=
  { h with mem := copy h.mem p c.ptr (chunkSize h.mem c.addr).toNat }

/-- The blocks that are not kept in place: `malloc`, and `free` if there is a new block. -/
lemma realloc_moves (hzero : size ≠ 0) (hmoves : ¬ (chunkSize h.mem c.addr).setWidth 64 ≥ size)
    (hm : MallocFree.malloc fuel h size room = some (p, h')) : realloc fuel h c.ptr size room room2 =
      if p ≠ 0 then (free fuel (moved h' c p) c.ptr room2).map fun g => (p, g) else some (0, h') := by
  have haddr : c.ptr - 24 = c.addr := Nat.add_sub_cancel _ _
  rw [realloc, if_neg (by rw [Chunk.ptr]; omega), if_neg hzero, haddr, if_neg hmoves, hm]
  rfl

lemma Stacked.le_chunkSize (hs : Stacked h cs) (hc : c ∈ cs) :
    (chunkSize h.mem c.addr).setWidth 64 ≥ size ↔ size.toNat ≤ c.size := by
  have hlt := hs.size c hc
  rw [ge_iff_le, BitVec.le_def, BitVec.toNat_setWidth, (hs.header c hc).size_toNat hlt, Nat.mod_eq_of_lt (by omega)]

/-- The headers after a free chunk `d` has been used for the bytes of `c`; only the mark of `d` has changed. -/
lemma Stacked.reused {x : Chunk} (hs : Stacked h cs) (hc : c ∈ cs) (hd : d ∈ cs) (hx : x ∈ cs) (hlt : c.size < d.size)
    {k : ℕ} (hk : k < 24) (hmark : x = d → 8 ≤ k) :
    (moved { h with mem := setFree h.mem d.addr false } c d.ptr).mem (x.addr + k) = h.mem (x.addr + k) := by
  have hne : c ≠ d := by
    rintro rfl
    exact absurd hlt (lt_irrefl _)
  have hsize : (chunkSize (setFree h.mem d.addr false) c.addr).toNat = c.size := by
    rw [← (hs.header c hc).size_toNat (hs.size c hc)]
    refine congrArg _ (chunkSize_congr fun i hi => setFree_outside _ _ _ ?_)
    have := hs.apart hc hd hne
    rw [Chunk.stop, Chunk.stop] at this
    omega
  unfold moved
  dsimp only
  rw [hsize]
  by_cases hxd : x = d
  · have := hmark hxd
    rw [hxd, copy_outside _ (by rw [Chunk.ptr]; omega), setFree_outside _ _ _ (by omega)]
  · have := hs.apart hx hd hxd
    rw [Chunk.stop, Chunk.stop] at this
    rw [copy_outside _ (by rw [Chunk.ptr]; omega), setFree_outside _ _ _ (by omega)]

/-- The headers that `free` leaves alone but for the mark of its own chunk. -/
lemma freed_size {g : Heap} (hs : Stacked h cs) (hc : c ∈ cs) (hd : d ∈ cs) (hne : c ≠ d) {m' : Memory}
    (hg : g.mem = setFree m' c.addr true ∨ g.mem = m' ∨ ∃ x ∈ cs, g.mem = setNext m' x.addr 0) :
    chunkSize g.mem d.addr = chunkSize m' d.addr := by
  refine chunkSize_congr fun k hk => ?_
  rcases hg with heq | heq | ⟨x, hx, heq⟩
  · have := hs.apart hc hd hne
    rw [Chunk.stop, Chunk.stop] at this
    rw [heq]
    exact setFree_outside _ _ _ (by omega)
  · rw [heq]
  · rw [heq]
    apply setNext_outside
    by_cases hxd : x = d
    · rw [hxd]
      omega
    · have := hs.apart hx hd hxd
      rw [Chunk.stop, Chunk.stop] at this
      omega

/-- `realloc` moves a block to a chunk that was free. -/
lemma Stacked.realloc_reuses (hs : Stacked h cs) (hc : c ∈ cs) (hd : d ∈ cs) (hlt : c.size < size.toNat)
    (hle : size.toNat ≤ d.size) (room2 : Bool) :
    ∃ g, (∀ᶠ fuel in atTop, free fuel (moved { h with mem := setFree h.mem d.addr false } c d.ptr) c.ptr room2 =
      some g) ∧ Granted g d.ptr size.toNat := by
  have hne : c ≠ d := by
    rintro rfl
    omega
  have hkeep := fun {x : Chunk} (hx : x ∈ cs) {k : ℕ} => hs.reused (k := k) hc hd hx (by omega)
  have hheader : Header (moved { h with mem := setFree h.mem d.addr false } c d.ptr).mem c :=
    (hs.header c hc).congrWords fun k hk => hkeep hc (by omega) fun heq => absurd heq hne
  have hlinked : Linked (moved { h with mem := setFree h.mem d.addr false } c d.ptr).mem h.first cs := by
    refine hs.linked.congr fun x hx => congrArg BitVec.toNat (read64_congr fun k hk => ?_)
    rw [Nat.add_assoc]
    exact hkeep hx (by omega) fun _ => by omega
  obtain ⟨g, hev, hcase⟩ := free_ends (h := moved { h with mem := setFree h.mem d.addr false } c d.ptr) hlinked hheader room2
  refine ⟨g, hev, granted_chunk ?_ hle ?_⟩
  · have hcopied : chunkSize (moved { h with mem := setFree h.mem d.addr false } c d.ptr).mem d.addr =
        chunkSize (setFree h.mem d.addr false) d.addr :=
      chunkSize_congr fun k hk => copy_outside _ (by rw [Chunk.ptr]; omega)
    rw [freed_size hs hc hd hne hcase, hcopied, chunkSize_setFree, (hs.header d hd).size_toNat (hs.size d hd)]
  · obtain ⟨fuel, hf⟩ := hev.exists
    have hbrk := free_brk hf (by rw [Chunk.ptr]; omega)
    have haddr : c.ptr - 24 = c.addr := Nat.add_sub_cancel _ _
    have hsame : (moved { h with mem := setFree h.mem d.addr false } c d.ptr).brk = h.brk := rfl
    rw [haddr, hheader.size_toNat (hs.size c hc), hsame] at hbrk
    have hfits := hs.fits
    have hcstop := hs.below c hc
    have hdstop := hs.below d hd
    have hapart := hs.apart hc hd hne
    rw [Chunk.stop] at hcstop hdstop
    rw [Chunk.stop, Chunk.stop] at hapart
    rw [Chunk.stop]
    rw [Chunk.ptr, Nat.mod_eq_of_lt (by omega)] at hbrk
    omega

/-- A new chunk leaves the headers of the others alone but for the link from the last one. -/
lemma Stacked.append_header (hs : Stacked h cs) (hc : c ∈ cs) (size : BitVec 64) (brk : ℕ) :
    Header (appendChunk h size brk).mem c := by
  have hbelow := hs.below c hc
  rw [Chunk.stop] at hbelow
  have hnew : ∀ k < 16, newHeader h.mem h.brk size (c.addr + k) = h.mem (c.addr + k) := fun k hk =>
    newHeader_outside _ _ _ (by omega)
  change Header (if h.last ≠ 0 then setNext (newHeader h.mem h.brk size) h.last h.brk
    else newHeader h.mem h.brk size) c
  split_ifs with hl
  · obtain ⟨-, x, hx, hlast⟩ := hs.last.resolve_left hl
    refine (hs.header c hc).congrWords fun k hk => ?_
    rw [← hnew k hk, hlast]
    apply setNext_outside
    by_cases hxc : x = c
    · rw [hxc]
      omega
    · have := hs.apart hx hc hxc
      rw [Chunk.stop, Chunk.stop] at this
      omega
  · exact (hs.header c hc).congrWords hnew

/-- `realloc` moves a block to a new chunk that is as large as its header says. -/
lemma Stacked.realloc_extends (hs : Stacked h cs) (hc : c ∈ cs)
    (hmove : sbrk room h.brk (24 + size) = some brk) (hsmall : size.toNat < 2 ^ 63 - 24) (room2 : Bool) :
    ∃ g, (∀ fuel, free fuel (moved (appendChunk h size brk) c (h.brk + 24)) c.ptr room2 = some g) ∧
      Granted g (h.brk + 24) size.toNat := by
  have hfar := (extended_far_enough hmove).mpr hsmall
  have hbelow := hs.below c hc
  have hfits := hs.fits
  rw [Chunk.stop] at hbelow
  have hheader := hs.append_header hc size brk
  have hsize := hheader.size_toNat (hs.size c hc)
  have hmoved : ∀ b < h.brk + 24, (moved (appendChunk h size brk) c (h.brk + 24)).mem b =
      (appendChunk h size brk).mem b := fun b hb => copy_outside _ (Or.inl hb)
  have hheader' : Header (moved (appendChunk h size brk) c (h.brk + 24)).mem c :=
    hheader.congrWords fun k hk => hmoved _ (by omega)
  have hbrk : (moved (appendChunk h size brk) c (h.brk + 24)).brk = brk := rfl
  have htop : (c.ptr + (chunkSize (moved (appendChunk h size brk) c (h.brk + 24)).mem c.addr).toNat) % 2 ^ 64 ≠
      (moved (appendChunk h size brk) c (h.brk + 24)).brk := by
    rw [hheader'.size_toNat (hs.size c hc), hbrk, Chunk.ptr, Nat.mod_eq_of_lt (by omega)]
    omega
  refine ⟨_, fun fuel => free_marks hheader' htop fuel room2, ?_⟩
  have hlast := hs.last_below
  refine granted_chunk (c := ⟨h.brk, size.toNat, false⟩) ?_ le_rfl (hfar.trans_eq hbrk.symm)
  rw [← (appendChunk_header hlast size brk).size_toNat (by dsimp only; omega)]
  refine congrArg _ (chunkSize_congr fun k hk => ?_)
  dsimp only
  rw [setFree_outside _ _ _ (by omega), hmoved _ (by omega)]

/-- A wrapped request leaves the break below the end of the block, also after `free` has moved it. -/
lemma not_granted_of_wraps {g : Heap} (hmove : sbrk room h.brk (24 + size) = some brk)
    (hlarge : ¬ size.toNat < 2 ^ 63 - 24)
    (hf : free fuel (moved (appendChunk h size brk) c (h.brk + 24)) c.ptr room2 = some g) :
    ¬ Granted g (h.brk + 24) size.toNat := by
  rintro (hnull | ⟨-, hbelow⟩)
  · omega
  have hbrk := (sbrk_some hmove).1
  rw [toInt_request, if_neg hlarge] at hbrk
  have hsame : (moved (appendChunk h size brk) c (h.brk + 24)).brk = brk := rfl
  have hend := free_brk hf (by rw [Chunk.ptr]; omega)
  have hlt := (chunkSize (moved (appendChunk h size brk) c (h.brk + 24)).mem (c.ptr - 24)).isLt
  rw [hsame] at hend
  omega

/-- The call ends, and what it returns is what was asked for. -/
def Served (call : ℕ → Option (ℕ × Heap)) (n : ℕ) : Prop :=
  ∃ p h', (∀ᶠ fuel in atTop, call fuel = some (p, h')) ∧ Granted h' p n

lemma Stacked.malloc_served_iff (hs : Stacked h cs) (size : BitVec 64) (room : Bool) :
    Served (fun fuel => MallocFree.malloc fuel h size room) size.toNat ↔ ¬ Overdrawn h cs size.toNat room := by
  constructor
  · rintro ⟨p, h', hev, hg⟩
    exact (hs.malloc_granted_iff hev).mp hg
  · intro hno
    obtain ⟨p, h', hev, -⟩ := hs.malloc size room
    exact ⟨p, h', hev, (hs.malloc_granted_iff hev).mpr hno⟩

/-- `memset` leaves the header alone. -/
lemma granted_clear_iff (hp : p = 0 ∨ 24 ≤ p) (n : ℕ) :
    Granted { h with mem := clear h.mem p n } p n ↔ Granted h p n := by
  rcases hp with rfl | hp
  · exact iff_of_true (Or.inl rfl) (Or.inl rfl)
  · have hsame : chunkSize (clear h.mem p n) (p - 24) = chunkSize h.mem (p - 24) :=
      chunkSize_congr fun k hk => clear_outside _ (Or.inl (by omega))
    rw [Granted, Granted]
    dsimp only
    rw [hsame]

lemma Stacked.malloc_pointer (hs : Stacked h cs)
    (hm : ∀ᶠ fuel in atTop, MallocFree.malloc fuel h size room = some (p, h')) :
    p = 0 ∨ 24 ≤ p := by
  obtain ⟨q, g, hev, hcase⟩ := hs.malloc size room
  cases eventually_some_inj hm hev
  rcases hcase with ⟨rfl, -, -⟩ | ⟨c, -, -, -, rfl, -⟩ | ⟨-, brk, -, rfl, -⟩
  · exact Or.inl rfl
  · exact Or.inr (Nat.le_add_left 24 c.addr)
  · exact Or.inr (Nat.le_add_left 24 h.brk)

lemma Stacked.calloc_served_iff (hs : Stacked h cs) (nmemb size : BitVec 64) (room : Bool) :
    Served (fun fuel => calloc fuel h nmemb size room) (nmemb.toNat * size.toNat) ↔
      ¬ Overdrawn h cs (nmemb.toNat * size.toNat) room := by
  by_cases hlarge : 2 ^ 64 ≤ nmemb.toNat * size.toNat
  · refine iff_of_true ⟨0, h, .of_forall fun fuel => if_pos hlarge, Or.inl rfl⟩ fun ho => ?_
    have := ho.fits
    omega
  have hprod : (nmemb * size).toNat = nmemb.toNat * size.toNat := by
    rw [BitVec.toNat_mul]
    exact Nat.mod_eq_of_lt (by omega)
  rw [← hprod, ← hs.malloc_served_iff]
  obtain ⟨p, h', hev, -⟩ := hs.malloc (nmemb * size) room
  have hptr := hs.malloc_pointer hev
  have hcalloc : ∀ᶠ fuel in atTop, calloc fuel h nmemb size room =
      some (if p ≠ 0 then (p, { h' with mem := clear h'.mem p (nmemb * size).toNat }) else (p, h')) := by
    filter_upwards [hev] with fuel hf
    rw [calloc, if_neg hlarge, hf]
    rfl
  by_cases hp : p = 0
  · rw [if_neg (not_not.mpr hp)] at hcalloc
    exact iff_of_true ⟨p, h', hcalloc, Or.inl hp⟩ ⟨p, h', hev, Or.inl hp⟩
  rw [if_pos hp] at hcalloc
  constructor
  · rintro ⟨q, g, hev', hg⟩
    cases eventually_some_inj hev' hcalloc
    exact ⟨p, h', hev, (granted_clear_iff hptr _).mp hg⟩
  · rintro ⟨q, g, hev', hg⟩
    cases eventually_some_inj hev' hev
    exact ⟨p, _, hcalloc, (granted_clear_iff hptr _).mpr hg⟩

/-- A block that `realloc` does not keep. -/
lemma Stacked.realloc_served_iff_of_lt (hs : Stacked h cs) (hc : c ∈ cs) (hlt : c.size < size.toNat) (room room2 : Bool) :
    Served (fun fuel => realloc fuel h c.ptr size room room2) size.toNat ↔ ¬ Overdrawn h cs size.toNat room := by
  have hzero : size ≠ 0 := by
    rintro rfl
    exact absurd hlt (Nat.not_lt_zero _)
  have hmoves : ¬ (chunkSize h.mem c.addr).setWidth 64 ≥ size := fun hge => by
    have := (hs.le_chunkSize hc).mp hge
    omega
  obtain ⟨p, h', hev, hcase⟩ := hs.malloc size room
  have hre : ∀ᶠ fuel in atTop, realloc fuel h c.ptr size room room2 =
      if p ≠ 0 then (free fuel (moved h' c p) c.ptr room2).map fun g => (p, g) else some (0, h') := by
    filter_upwards [hev] with fuel hf
    exact realloc_moves hzero hmoves hf
  rcases hcase with ⟨rfl, rfl, hno⟩ | ⟨d, hd, hfree, hle, rfl, rfl⟩ | ⟨hnone, brk, hmove, rfl, rfl⟩
  · exact iff_of_true ⟨0, h', hre, Or.inl rfl⟩ hno
  · obtain ⟨g, hfreed, hg⟩ := hs.realloc_reuses hc hd hlt hle room2
    refine iff_of_true ⟨d.ptr, g, ?_, hg⟩ fun ho => ho.none_fits d hd ⟨hfree, hle⟩
    filter_upwards [hre, hfreed] with fuel h1 h2
    rw [h1, if_pos (by rw [Chunk.ptr]; omega), h2]
    rfl
  · rw [overdrawn_iff hs hnone hmove, not_not]
    constructor
    · rintro ⟨q, g, hev', hg⟩
      by_contra hlarge
      obtain ⟨fuel, h1, h2⟩ := (hre.and hev').exists
      rw [if_pos (by omega)] at h1
      obtain ⟨g', hfreed, heq⟩ := Option.map_eq_some_iff.mp (h1.symm.trans h2)
      cases heq
      exact not_granted_of_wraps hmove hlarge hfreed hg
    · intro hsmall
      obtain ⟨g, hfreed, hg⟩ := hs.realloc_extends hc hmove hsmall room2
      refine ⟨h.brk + 24, g, ?_, hg⟩
      filter_upwards [hre] with fuel h1
      rw [h1, if_pos (by omega), hfreed]
      rfl

/-- What a program asks for. -/
inductive Request
  | malloc (size : BitVec 64)
  | calloc (nmemb size : BitVec 64)
  | realloc (ptr : ℕ) (newSize : BitVec 64)
  | reallocarray (ptr : ℕ) (size1 size2 : BitVec 64)

def Request.perform (fuel : ℕ) (h : Heap) (room room2 : Bool) : Request → Option (ℕ × Heap)
  | .malloc size => MallocFree.malloc fuel h size room
  | .calloc nmemb size => MallocFree.calloc fuel h nmemb size room
  | .realloc ptr newSize => MallocFree.realloc fuel h ptr newSize room room2
  | .reallocarray ptr size1 size2 => MallocFree.reallocarray fuel h ptr size1 size2 room room2

/-- The number of bytes, before any arithmetic in 64 bits. -/
def Request.amount : Request → ℕ
  | .malloc size => size.toNat
  | .calloc nmemb size => nmemb.toNat * size.toNat
  | .realloc _ newSize => newSize.toNat
  | .reallocarray _ size1 size2 => size1.toNat * size2.toNat

/-- The block that is to be resized, or 0. -/
def Request.old : Request → ℕ
  | .malloc _ => 0
  | .calloc _ _ => 0
  | .realloc ptr _ => ptr
  | .reallocarray ptr _ _ => ptr

def Request.Valid (cs : List Chunk) (r : Request) : Prop := r.old = 0 ∨ ∃ c ∈ cs, c.ptr = r.old

/-- The block cannot be kept, and the request for a new one wraps. -/
def Request.Wraps (h : Heap) (cs : List Chunk) (room : Bool) (r : Request) : Prop :=
  (∀ c ∈ cs, c.ptr = r.old → c.size < r.amount) ∧ Overdrawn h cs r.amount room

lemma Stacked.ptr_inj (hs : Stacked h cs) (hc : c ∈ cs) (hd : d ∈ cs) (heq : c.ptr = d.ptr) : c = d := by
  by_contra hne
  have := hs.apart hc hd hne
  rw [Chunk.stop, Chunk.stop] at this
  rw [Chunk.ptr, Chunk.ptr] at heq
  omega

lemma Stacked.realloc_served_iff (hs : Stacked h cs) (hv : ptr = 0 ∨ ∃ c ∈ cs, c.ptr = ptr) (size : BitVec 64)
    (room room2 : Bool) : Served (fun fuel => realloc fuel h ptr size room room2) size.toNat ↔
      ¬ ((∀ c ∈ cs, c.ptr = ptr → c.size < size.toNat) ∧ Overdrawn h cs size.toNat room) := by
  by_cases hnull : ptr = 0
  · have hall : ∀ c ∈ cs, c.ptr = ptr → c.size < size.toNat := fun c _ heq => by
      rw [Chunk.ptr] at heq
      omega
    rw [and_iff_right hall, ← hs.malloc_served_iff]
    have hsame : (fun fuel => realloc fuel h ptr size room room2) = fun fuel => MallocFree.malloc fuel h size room :=
      funext fun fuel => if_pos hnull
    rw [hsame]
  obtain ⟨c, hc, rfl⟩ := hv.resolve_left hnull
  by_cases hlt : c.size < size.toNat
  · have hall : ∀ d ∈ cs, d.ptr = c.ptr → d.size < size.toNat := fun d hd heq => by rwa [hs.ptr_inj hd hc heq]
    rw [and_iff_right hall]
    exact hs.realloc_served_iff_of_lt hc hlt room room2
  refine iff_of_true ?_ fun hw => hlt (hw.1 c hc rfl)
  have haddr : c.ptr - 24 = c.addr := Nat.add_sub_cancel _ _
  by_cases hzero : size = 0
  · refine ⟨0, h, .of_forall fun fuel => ?_, Or.inl rfl⟩
    beta_reduce
    rw [realloc, if_neg hnull, if_pos hzero]
  · refine ⟨c.ptr, h, .of_forall fun fuel => ?_, granted_chunk ((hs.header c hc).size_toNat (hs.size c hc))
      (not_lt.mp hlt) (hs.below c hc)⟩
    beta_reduce
    rw [realloc, if_neg hnull, if_neg hzero, haddr, if_pos ((hs.le_chunkSize hc).mpr (not_lt.mp hlt))]

/-- A request is served in full, or answered by `NULL`, if and only if it does not wrap. -/
theorem requests_served_iff (hs : Stacked h cs) {r : Request} (hv : r.Valid cs) (room room2 : Bool) :
    Served (fun fuel => r.perform fuel h room room2) r.amount ↔ ¬ r.Wraps h cs room := by
  have hnull : ∀ n, ∀ c ∈ cs, c.ptr = 0 → c.size < n := fun n c _ heq => by
    rw [Chunk.ptr] at heq
    omega
  cases r with
  | malloc size =>
    exact (hs.malloc_served_iff size room).trans (not_congr (and_iff_right (hnull _)).symm)
  | calloc nmemb size =>
    exact (hs.calloc_served_iff nmemb size room).trans (not_congr (and_iff_right (hnull _)).symm)
  | realloc ptr newSize => exact hs.realloc_served_iff hv newSize room room2
  | reallocarray ptr size1 size2 =>
    by_cases hlarge : 2 ^ 64 ≤ size1.toNat * size2.toNat
    · refine iff_of_true ⟨0, h, .of_forall fun fuel => if_pos hlarge, Or.inl rfl⟩ fun hw => ?_
      have : size1.toNat * size2.toNat < 2 ^ 64 := hw.2.fits
      omega
    · have hprod : (size1 * size2).toNat = size1.toNat * size2.toNat := by
        rw [BitVec.toNat_mul]
        exact Nat.mod_eq_of_lt (by omega)
      have hold : ptr = 0 ∨ ∃ c ∈ cs, c.ptr = ptr := hv
      have hiff := hs.realloc_served_iff hold (size1 * size2) room room2
      rw [hprod] at hiff
      have hsame : (fun fuel => reallocarray fuel h ptr size1 size2 room room2) =
          fun fuel => realloc fuel h ptr (size1 * size2) room room2 := funext fun fuel => if_neg hlarge
      change Served (fun fuel => reallocarray fuel h ptr size1 size2 room room2) _ ↔ _
      rw [hsame]
      exact hiff

lemma emptyHeap_stacked (hfits : brk < 2 ^ 64) : Stacked (emptyHeap brk) [] :=
  ⟨rfl, Or.inl rfl, fun _ hc => absurd hc List.not_mem_nil, fun _ hc => absurd hc List.not_mem_nil, List.Pairwise.nil,
    fun _ hc => absurd hc List.not_mem_nil, hfits⟩

end Requests

theorem requests_served_four_times_eight :
    Served (fun fuel => (Request.calloc 4 8).perform fuel (emptyHeap 0x1000) true true) 32 := by
  refine (requests_served_iff (r := .calloc 4 8) (emptyHeap_stacked (by decide)) (Or.inl rfl) true true).mpr fun hw => ?_
  exact absurd hw.2.large (by decide)

/-- Room for `SIZE_MAX - 23` bytes, and the break has not moved. -/
theorem malloc_wraps : ∃ h', malloc 1 (emptyHeap 0x1000) (BitVec.ofNat 64 (2 ^ 64 - 24)) true = some (0x1018, h') ∧
    h'.brk = 0x1000 ∧ ¬ Granted h' 0x1018 (2 ^ 64 - 24) := by
  refine ⟨appendChunk (emptyHeap 0x1000) (BitVec.ofNat 64 (2 ^ 64 - 24)) 0x1000, rfl, rfl, ?_⟩
  rintro (hnull | ⟨-, hbelow⟩)
  · cases hnull
  · exact absurd hbelow (by change ¬ 0x1018 + (2 ^ 64 - 24) ≤ 0x1000; omega)

end PiggyOs.MallocFree
