import PiggyOs.MallocRuns

/-! Giving the top chunk back: what `malloc` asks `sbrk` for, and what `free` asks it to take back. -/
namespace PiggyOs.MallocFree
open ByteMemory Transition Filter

section Calls
variable {h h' : Heap} {cs : List Chunk} {c : Chunk} {fuel : ℕ} {size : BitVec 64} {room : Bool} {p ptr brk : ℕ}

/-- What `malloc` may have done. -/
inductive Malloced (fuel : ℕ) (h : Heap) (size : BitVec 64) (room : Bool) : ℕ → Heap → Prop
  | refused (why : size = 0 ∨ (getFreeChunk h.mem size fuel h.first = some 0 ∧ sbrk room h.brk (24 + size) = none)) :
      Malloced fuel h size room 0 h
  | found {chunk : ℕ} (nonzero : size ≠ 0) (chunk_pos : 0 < chunk)
      (fits : getFreeChunk h.mem size fuel h.first = some chunk) :
      Malloced fuel h size room (chunk + 24) { h with mem := setFree h.mem chunk false }
  | extended {brk : ℕ} (nonzero : size ≠ 0) (none_fits : getFreeChunk h.mem size fuel h.first = some 0)
      (moved : sbrk room h.brk (24 + size) = some brk) :
      Malloced fuel h size room (h.brk + 24) (appendChunk h size brk)

lemma malloc_cases (hm : malloc fuel h size room = some (p, h')) : Malloced fuel h size room p h' := by
  rw [malloc] at hm
  split_ifs at hm with hzero
  · cases hm
    exact .refused (Or.inl hzero)
  obtain ⟨chunk, hfind, heq⟩ := Option.map_eq_some_iff.mp hm
  split_ifs at heq with hchunk
  · cases heq
    exact .found hzero (Nat.pos_of_ne_zero hchunk) hfind
  · obtain rfl := not_not.mp hchunk
    cases hmove : sbrk room h.brk (24 + size) with
    | none =>
      rw [hmove] at heq
      cases heq
      exact .refused (Or.inr ⟨hfind, hmove⟩)
    | some brk =>
      rw [hmove] at heq
      cases heq
      exact .extended hzero hfind hmove

/-- What `free` may have done. -/
inductive Freed (fuel : ℕ) (h : Heap) (ptr : ℕ) (room : Bool) : Heap → Prop
  | null (nothing : ptr = 0) : Freed fuel h ptr room h
  | dropped {dropped : Heap} (top : (ptr + (chunkSize h.mem (ptr - 24)).toNat) % 2 ^ 64 = h.brk)
      (last_gone : dropLastChunk fuel h = some dropped) :
      Freed fuel h ptr room { dropped with
        brk := (sbrk room h.brk (-(24 - (chunkSize h.mem (ptr - 24)).setWidth 64))).getD h.brk }
  | marked (not_top : (ptr + (chunkSize h.mem (ptr - 24)).toNat) % 2 ^ 64 ≠ h.brk) :
      Freed fuel h ptr room { h with mem := setFree h.mem (ptr - 24) true }

lemma free_cases (hf : free fuel h ptr room = some h') : Freed fuel h ptr room h' := by
  rw [free] at hf
  split_ifs at hf with hnull hmagic htop
  · cases hf
    exact .null hnull
  · obtain ⟨dropped, hdrop, rfl⟩ := Option.map_eq_some_iff.mp hf
    exact .dropped htop hdrop
  · cases hf
    exact .marked htop

/-- The amount that `free` asks `sbrk` to move the break by, as a signed number. -/
lemma toInt_release (size : BitVec 63) : (-(24 - size.setWidth 64) : BitVec 64).toInt = size.toNat - 24 := by
  have hneg : (-(24 - size.setWidth 64) : BitVec 64) = size.setWidth 64 - 24 := by
    generalize size.setWidth 64 = x
    grind
  have hlt := size.isLt
  have hx : (size.setWidth 64).toNat = size.toNat := by
    rw [BitVec.toNat_setWidth, Nat.mod_eq_of_lt (by omega)]
  have h24 : (24 : BitVec 64).toInt = 24 := rfl
  rw [hneg, BitVec.toInt_sub, BitVec.toInt_eq_toNat_of_lt (by omega), hx, h24]
  apply Int.bmod_eq_of_le <;> omega

/-- What `malloc` asks `sbrk` for: the sum wraps, and is then read as a signed number. -/
lemma toInt_request (size : BitVec 64) : (24 + size).toInt =
    if size.toNat < 2 ^ 63 - 24 then (24 + size.toNat : ℤ) else 24 + size.toNat - 2 ^ 64 := by
  have hlt := size.isLt
  have h24 : (24 : BitVec 64).toNat = 24 := rfl
  rw [BitVec.toInt_eq_toNat_cond, BitVec.toNat_add, h24]
  split_ifs <;> omega

/-- A new chunk's header has the size in 63 bits. -/
lemma appendChunk_header (hlast : h.last = 0 ∨ h.last + 24 ≤ h.brk) (size : BitVec 64) (brk : ℕ) :
    Header (appendChunk h size brk).mem ⟨h.brk, size.toNat, false⟩ := by
  change Header (if h.last ≠ 0 then setNext (newHeader h.mem h.brk size) h.last h.brk
    else newHeader h.mem h.brk size) _
  split_ifs with hl
  · refine (newHeader_header h.mem h.brk size).congr fun k hk => setNext_outside _ _ _ ?_
    dsimp only
    omega
  · exact newHeader_header h.mem h.brk size

/-- The break after `free` has dropped the top chunk. -/
lemma released (room : Bool) (brk : ℕ) (size : BitVec 63) :
    (sbrk room brk (-(24 - size.setWidth 64))).getD brk = brk ∨
      ((sbrk room brk (-(24 - size.setWidth 64))).getD brk : ℤ) = brk + size.toNat - 24 := by
  cases hr : sbrk room brk (-(24 - size.setWidth 64)) with
  | none => exact Or.inl rfl
  | some moved =>
    right
    have hmoved := (sbrk_some hr).1
    rw [toInt_release] at hmoved
    rw [Option.getD_some]
    omega

/-- Where `free` leaves the break. -/
lemma free_brk (hf : free fuel h ptr room = some h') (hptr : ptr ≠ 0) :
    ((ptr + (chunkSize h.mem (ptr - 24)).toNat) % 2 ^ 64 = h.brk ∧
      (h'.brk = h.brk ∨ (h'.brk : ℤ) = h.brk + (chunkSize h.mem (ptr - 24)).toNat - 24)) ∨
    ((ptr + (chunkSize h.mem (ptr - 24)).toNat) % 2 ^ 64 ≠ h.brk ∧ h'.brk = h.brk ∧ h'.last = h.last) := by
  cases free_cases hf with
  | null nothing => exact absurd nothing hptr
  | dropped top last_gone => exact Or.inl ⟨top, released room h.brk _⟩
  | marked not_top => exact Or.inr ⟨not_top, rfl, rfl⟩

/-- The break and the chunk list are what they were. -/
structure Restored (h h' : Heap) : Prop where
  brk : h'.brk = h.brk
  first : h'.first = h.first
  last : h'.last = h.last
  chunks : ∀ cs, Linked h.mem h.first cs → (∀ c ∈ cs, Header h.mem c) →
    Linked h'.mem h'.first cs ∧ ∀ c ∈ cs, Header h'.mem c

/-- After `malloc` has moved the break, `free` of the new block does not put it back, whatever the size. -/
theorem malloc_free_not_restored (hpos : 0 < h.brk) (hlast : h.last = 0 ∨ h.last + 24 ≤ h.brk)
    (hnone : getFreeChunk h.mem size fuel h.first = some 0) (hm : malloc fuel h size true = some (p, h')) (hp : p ≠ 0) :
    ¬ ∃ fuel' h'', free fuel' h' p true = some h'' ∧ Restored h h'' := by
  rintro ⟨fuel', h'', hfree, hback⟩
  obtain ⟨brk, hs, hnonzero, rfl, rfl⟩ : ∃ brk, sbrk true h.brk (24 + size) = some brk ∧ size ≠ 0 ∧
      p = h.brk + 24 ∧ h' = appendChunk h size brk := by
    cases malloc_cases hm with
    | refused why => exact absurd rfl hp
    | found nonzero chunk_pos fits =>
      rw [hnone] at fits
      cases fits
      exact absurd chunk_pos (lt_irrefl 0)
    | extended nonzero none_fits moved => exact ⟨_, moved, nonzero, rfl, rfl⟩
  obtain ⟨hbrk, hlt⟩ := sbrk_some hs
  rw [toInt_request] at hbrk
  have hsizeLt := size.isLt
  have hsizePos : size.toNat ≠ 0 := fun hzero => hnonzero (BitVec.eq_of_toNat_eq hzero)
  have hsame := hback.brk
  have hlastSame := hback.last
  have hend := free_brk hfree hp
  have happend : (appendChunk h size brk).brk = brk ∧ (appendChunk h size brk).last = h.brk := ⟨rfl, rfl⟩
  rw [Nat.add_sub_cancel, (appendChunk_header hlast size brk).chunkSize, BitVec.toNat_ofNat, happend.1, happend.2,
    hsame, hlastSame] at hend
  dsimp only at hend
  clear hfree hback hm hsame hlastSame happend
  split_ifs at hbrk <;> omega

/-- An empty heap. -/
def emptyHeap (brk : ℕ) : Heap := ⟨fun _ => 0, 0, 0, brk⟩

theorem malloc_free_eight_not_restored : ∃ h', malloc 1 (emptyHeap 0x1000) 8 true = some (0x1018, h') ∧
    ¬ ∃ fuel' h'', free fuel' h' 0x1018 true = some h'' ∧ Restored (emptyHeap 0x1000) h'' := by
  have hm : malloc 1 (emptyHeap 0x1000) 8 true = some (0x1018, appendChunk (emptyHeap 0x1000) 8 0x1020) := rfl
  exact ⟨_, hm, malloc_free_not_restored (by decide) (Or.inl rfl) rfl hm (by decide)⟩

/-- The break ends 16 bytes above where it was. -/
theorem malloc_free_eight : ∃ h' h'', malloc 1 (emptyHeap 0x1000) 8 true = some (0x1018, h') ∧
    free 1 h' 0x1018 true = some h'' ∧ h''.brk = 0x1010 ∧ ¬ Restored (emptyHeap 0x1000) h'' := by
  have hf : free 1 (appendChunk (emptyHeap 0x1000) 8 0x1020) 0x1018 true =
      some { appendChunk (emptyHeap 0x1000) 8 0x1020 with first := 0, last := 0, brk := 0x1010 } := by
    have hheader := appendChunk_header (h := emptyHeap 0x1000) (Or.inl rfl) 8 0x1020
    have hmagic : chunkMagic (appendChunk (emptyHeap 0x1000) 8 0x1020).mem 0x1000 = heapChunkMagic := hheader.magic
    have hsize : chunkSize (appendChunk (emptyHeap 0x1000) 8 0x1020).mem 0x1000 = 8 := hheader.chunkSize
    rw [free]
    dsimp only [Nat.reduceSub]
    rw [if_neg (by decide), hmagic, if_neg (not_not.mpr rfl), hsize]
    rfl
  refine ⟨_, _, rfl, hf, rfl, fun h => ?_⟩
  cases h.brk

/-- A call of `malloc` that returns `p`, and one of `free` for it. -/
def Pair (size : BitVec 64) (h : Heap) (p : ℕ) (h'' : Heap) : Prop :=
  ∃ h', p ≠ 0 ∧ (∀ᶠ fuel in atTop, malloc fuel h size true = some (p, h')) ∧
    ∀ᶠ fuel in atTop, free fuel h' p true = some h''

lemma sbrk_true {n : BitVec 64} (h0 : (0 : ℤ) ≤ brk + n.toInt) (hlt : (brk + n.toInt : ℤ) < 2 ^ 64) :
    sbrk true brk n = some (brk + n.toInt).toNat := if_pos ⟨rfl, h0, hlt⟩

/-- What `malloc` does when no chunk fits and the break can be moved. -/
lemma malloc_extends (hh : Chunks h cs) (hpos : 0 < size.toNat) (hsize : size.toNat < 2 ^ 62)
    (hnone : ∀ c ∈ cs, ¬ (c.free = true ∧ size.toNat ≤ c.size)) (hfit : h.brk + 24 + size.toNat < 2 ^ 64) :
    ∀ᶠ fuel in atTop, malloc fuel h size true =
      some (h.brk + 24, appendChunk h size (h.brk + 24 + size.toNat)) := by
  have hfind : cs.find? (fun c => decide (c.free = true ∧ size.toNat ≤ c.size)) = none :=
    List.find?_eq_none.mpr fun c hc => by simpa using hnone c hc
  have hmove : sbrk true h.brk (24 + size) = some (h.brk + 24 + size.toNat) := by
    have hint := toInt_grow hsize
    rw [sbrk_true (by omega) (by omega), hint]
    refine congrArg some ?_
    omega
  filter_upwards [eventually_gt_atTop cs.length] with fuel hf
  rw [malloc, if_neg (by rintro rfl; exact absurd hpos (lt_irrefl 0)),
    getFreeChunk_linked size hh.linked hh.header (fun c hc => (hh.laid.size c hc).2) hf, hfind]
  dsimp only [Option.map_none, Option.getD_none, Option.map_some]
  rw [if_neg (not_not.mpr rfl), hmove]

/-- What `free` does with the top chunk. -/
lemma free_top {c : Chunk} (hh : Chunks h (cs ++ [c])) (htop : c.stop = h.brk) (hfit : h.brk + c.size < 2 ^ 64) :
    ∃ h'', (∀ᶠ fuel in atTop, free fuel h c.ptr true = some h'') ∧ Chunks h'' cs ∧
      h''.brk = c.addr + 2 * c.size := by
  have hc : c ∈ cs ++ [c] := by simp
  have hheader := hh.header c hc
  have hlt := (hh.laid.size c hc).2
  have hsize := hheader.toNat_chunkSize hlt
  rw [Chunk.stop] at htop
  have hmove : sbrk true h.brk (-(24 - (chunkSize h.mem c.addr).setWidth 64)) = some (c.addr + 2 * c.size) := by
    have hint := toInt_release (chunkSize h.mem c.addr)
    rw [hsize] at hint
    rw [sbrk_true (by omega) (by omega), hint]
    refine congrArg some ?_
    omega
  have hle : c.addr ≤ c.addr + 2 * c.size := by omega
  obtain ⟨g, hdrop, hrest, -⟩ := hh.dropLast hle (by omega)
  refine ⟨_, ?_, hrest, rfl⟩
  have hend : (c.ptr + (chunkSize h.mem c.addr).toNat) % 2 ^ 64 = h.brk := by
    rw [hsize, Chunk.ptr, htop]
    exact Nat.mod_eq_of_lt (by omega)
  have haddr : c.ptr - 24 = c.addr := Nat.add_sub_cancel _ _
  filter_upwards [hdrop] with fuel hf
  rw [free, if_neg (by rw [Chunk.ptr]; omega), haddr, if_neg (not_not.mpr hheader.magic), if_pos hend, hf, hmove]
  rfl

/-- A pair of calls keeps the list, and the break has gone up by twice the size. -/
lemma Chunks.pair {h'' : Heap} (hh : Chunks h cs) (hpos : 0 < size.toNat) (hsize : size.toNat < 2 ^ 62)
    (hnone : ∀ c ∈ cs, ¬ (c.free = true ∧ size.toNat ≤ c.size)) (hfit : h.brk + 24 + 2 * size.toNat < 2 ^ 64)
    (hpair : Pair size h p h'') : Chunks h'' cs ∧ h''.brk = h.brk + 2 * size.toNat := by
  obtain ⟨h', hp, hm, hf⟩ := hpair
  cases eventually_some_inj hm (malloc_extends hh hpos hsize hnone (by omega))
  obtain ⟨g, hf', hrest, hbrk⟩ := free_top (hh.append hpos hsize (by omega)) rfl (by
    change h.brk + 24 + size.toNat + size.toNat < 2 ^ 64
    omega)
  cases eventually_some_inj hf hf'
  exact ⟨hrest, hbrk⟩

/-- Any number of pairs. -/
theorem Chunks.pairs (hsize : size.toNat < 2 ^ 62) (hpos : 0 < size.toNat)
    (hnone : ∀ c ∈ cs, ¬ (c.free = true ∧ size.toNat ≤ c.size)) {h'' : Heap} {ps : List ℕ}
    (hrun : Run (Pair size) h ps h'') (hh : Chunks h cs)
    (hfit : h.brk + 24 + ps.length * (2 * size.toNat) < 2 ^ 64) :
    Chunks h'' cs ∧ h''.brk = h.brk + ps.length * (2 * size.toNat) := by
  induction hrun with
  | nil s => exact ⟨hh, by simp⟩
  | @cons s t u p ps hstep hrest ih =>
    rw [List.length_cons, Nat.succ_mul] at hfit ⊢
    obtain ⟨hh', hbrk⟩ := hh.pair hpos hsize hnone (by omega) hstep
    obtain ⟨hh'', hbrk'⟩ := ih hh' (by omega)
    exact ⟨hh'', by omega⟩

end Calls

end PiggyOs.MallocFree
