import PiggyOs.MallocFree
import PiggyOs.Transition

/-! Any calls of `malloc`, `free` and `realloc`, and stores to the blocks in between. -/
namespace PiggyOs.MallocFree
open ByteMemory Transition Filter

/-- `live` are the pointers that the program holds, with the sizes that it asked for, and `marked` those whose
chunks have been marked free and not been handed out again; the code reads neither. -/
structure State where
  heap : Heap
  live : ℕ → Option ℕ
  marked : ℕ → Bool

/-- `room` says whether `sbrk` moves the break. -/
inductive Call
  | malloc (size : BitVec 64) (room : Bool)
  | free (ptr : ℕ) (room : Bool)
  | realloc (ptr : ℕ) (newSize : BitVec 64) (room1 room2 : Bool)
  | store (a : ℕ) (byte : BitVec 8)

/-- The pointer returned, or 0, and the heap. -/
def perform (fuel : ℕ) (h : Heap) : Call → Option (ℕ × Heap)
  | .malloc size room => malloc fuel h size room
  | .free ptr room => (free fuel h ptr room).map fun h' => (0, h')
  | .realloc ptr newSize room1 room2 => realloc fuel h ptr newSize room1 room2
  | .store a byte => some (0, { h with mem := Function.update h.mem a byte })

def State.give (s : State) (h : Heap) (p size : ℕ) : State :=
  ⟨h, Function.update s.live p (some size), Function.update s.marked p false⟩

def State.take (s : State) (h : Heap) (p : ℕ) : State :=
  ⟨h, Function.update s.live p none, Function.update s.marked p (chunkFree h.mem (p - 24))⟩

/-- The state after a call that returns `p` and leaves the heap `h`. -/
def State.note (s : State) (p : ℕ) (h : Heap) : Call → State
  | .malloc size _ => if p = 0 then { s with heap := h } else s.give h p size.toNat
  | .free ptr _ => if ptr = 0 then { s with heap := h } else s.take h ptr
  | .realloc ptr newSize _ _ =>
      if p = 0 then { s with heap := h }
      else if ptr = 0 ∨ p = ptr then s.give h p newSize.toNat
      else (s.give h p newSize.toNat).take h ptr
  | .store _ _ => { s with heap := h }

def Valid (s : State) : Call → Prop
  | .malloc size _ => size.toNat < 2 ^ 62
  | .free ptr _ => ptr = 0 ∨ s.live ptr ≠ none
  | .realloc ptr newSize _ _ => newSize.toNat < 2 ^ 62 ∧ (ptr = 0 ∨ s.live ptr ≠ none)
  | .store a _ => ∃ p n, s.live p = some n ∧ p ≤ a ∧ a < p + n

/-- A call with the pointer that it returns. -/
def Step (s : State) (e : Call × ℕ) (s' : State) : Prop :=
  Valid s e.1 ∧ ∃ h', (∀ᶠ fuel in atTop, perform fuel s.heap e.1 = some (e.2, h')) ∧ s' = s.note e.2 h' e.1

/-- Nothing has been allocated. -/
def start (mem : Memory) (brk : ℕ) : State := ⟨⟨mem, 0, 0, brk⟩, fun _ => none, fun _ => false⟩

/-- What is known about the pointer to a chunk. -/
def Noted (c : Chunk) (live : Option ℕ) (marked : Bool) : Prop :=
  marked = c.free ∧ if c.free then live = none else ∃ n, live = some n ∧ n ≤ c.size

structure Inv (s : State) (cs : List Chunk) : Prop where
  chunks : Chunks s.heap cs
  noted : ∀ c ∈ cs, Noted c (s.live c.ptr) (s.marked c.ptr)
  listed : ∀ p, s.live p ≠ none ∨ s.marked p = true → ∃ c ∈ cs, c.ptr = p

section Steps
variable {s s' : State} {h h' : Heap} {cs cs' : List Chunk} {c d : Chunk} {p n : ℕ}

lemma Laid.ptr_inj {brk : ℕ} (h : Laid brk cs) (hc : c ∈ cs) (hd : d ∈ cs) (heq : c.ptr = d.ptr) : c = d := by
  apply h.addr_inj hc hd
  rw [Chunk.ptr, Chunk.ptr] at heq
  omega

lemma Inv.chunk_of_live (hi : Inv s cs) (hp : s.live p = some n) : ∃ c ∈ cs, c.ptr = p ∧ c.free = false ∧ n ≤ c.size := by
  obtain ⟨c, hc, rfl⟩ := hi.listed p (Or.inl (by rw [hp]; exact Option.some_ne_none n))
  obtain ⟨-, hsome⟩ := hi.noted c hc
  rw [hp] at hsome
  cases hfree : c.free with
  | true => simp [hfree] at hsome
  | false =>
    simp only [hfree, Bool.false_eq_true, if_false] at hsome
    obtain ⟨k, hk, hle⟩ := hsome
    obtain rfl := Option.some.inj hk
    exact ⟨c, hc, rfl, hfree, hle⟩

/-- What is known changes for one pointer only. -/
lemma Inv.change (hi : Inv s cs) {v : Option ℕ} {b : Bool} (hh : Chunks h' cs')
    (hold : ∀ c ∈ cs', c.ptr ≠ p → c ∈ cs) (hkeep : ∀ c ∈ cs, c.ptr ≠ p → c ∈ cs')
    (hp : ∀ c ∈ cs', c.ptr = p → Noted c v b) (hhere : v ≠ none ∨ b = true → ∃ c ∈ cs', c.ptr = p) :
    Inv ⟨h', Function.update s.live p v, Function.update s.marked p b⟩ cs' := by
  refine ⟨hh, fun c hc => ?_, fun q hq => ?_⟩
  · dsimp only
    by_cases hcp : c.ptr = p
    · rw [hcp, Function.update_self, Function.update_self]
      exact hp c hc hcp
    · rw [Function.update_of_ne hcp, Function.update_of_ne hcp]
      exact hi.noted c (hold c hc hcp)
  · dsimp only at hq
    by_cases hqp : q = p
    · rw [hqp, Function.update_self, Function.update_self] at hq
      rw [hqp]
      exact hhere hq
    · rw [Function.update_of_ne hqp, Function.update_of_ne hqp] at hq
      obtain ⟨c, hc, rfl⟩ := hi.listed q hq
      exact ⟨c, hkeep c hc hqp, rfl⟩

lemma mark_of_ptr_ne (b : Bool) (hne : d.ptr ≠ c.ptr) : d.mark c.addr b = d := by
  rw [Chunk.mark, if_neg]
  intro heq
  exact hne (congrArg (· + 24) heq)

lemma mark_self (c : Chunk) (b : Bool) : c.mark c.addr b = { c with free := b } := if_pos rfl

@[simp] lemma mark_ptr (a : ℕ) (b : Bool) (c : Chunk) : (c.mark a b).ptr = c.ptr := by simp [Chunk.ptr]

/-- The marked list has the other chunks as they are, and the chunk itself with the new mark. -/
lemma Inv.changeMark (hi : Inv s cs) (hc : c ∈ cs) {v : Option ℕ} {b : Bool}
    (hh : Chunks h' (cs.map (Chunk.mark c.addr b))) (hp : Noted { c with free := b } v b) :
    Inv ⟨h', Function.update s.live c.ptr v, Function.update s.marked c.ptr b⟩ (cs.map (Chunk.mark c.addr b)) := by
  refine hi.change hh ?_ (fun d hd hne => List.mem_map.mpr ⟨d, hd, mark_of_ptr_ne b hne⟩) ?_
    fun _ => ⟨c.mark c.addr b, List.mem_map_of_mem hc, mark_ptr _ _ _⟩
  · refine List.forall_mem_map.mpr fun d hd hne => ?_
    rw [mark_ptr] at hne
    rwa [mark_of_ptr_ne b hne]
  · refine List.forall_mem_map.mpr fun d hd heq => ?_
    rw [mark_ptr] at heq
    rw [hi.chunks.laid.ptr_inj hd hc heq, mark_self]
    exact hp

/-- A call of `malloc` that returns a pointer hands out a chunk that was not in use. -/
lemma Inv.malloc (hi : Inv s cs) {size : BitVec 64} (hsize : size.toNat < 2 ^ 62) (room : Bool) :
    ∃ p h' cs', (∀ᶠ fuel in atTop, malloc fuel s.heap size room = some (p, h')) ∧
      SameBlocks cs s.heap.mem h'.mem ∧ (∀ c ∈ cs, c.free = false → c ∈ cs' ∧ c.ptr ≠ p) ∧
      ((p = 0 ∧ Inv { s with heap := h' } cs') ∨ (p ≠ 0 ∧ Inv (s.give h' p size.toNat) cs')) := by
  obtain ⟨p, h', hev, hsame, ⟨rfl, rfl⟩ | ⟨c, hc, hfree, hle, rfl, hh⟩ | ⟨rfl, hh⟩⟩ := hi.chunks.malloc hsize room
  · refine ⟨0, s.heap, cs, hev, hsame, fun c hc _ => ⟨hc, ?_⟩, Or.inl ⟨rfl, hi⟩⟩
    rw [Chunk.ptr]
    omega
  · have hother : ∀ d ∈ cs, d.free = false → d.ptr ≠ c.ptr := by
      intro d hd hdfree heq
      rw [hi.chunks.laid.ptr_inj hd hc heq, hfree] at hdfree
      cases hdfree
    refine ⟨c.ptr, h', cs.map (Chunk.mark c.addr false), hev, hsame, fun d hd hdfree => ⟨?_, hother d hd hdfree⟩,
      Or.inr ⟨?_, ?_⟩⟩
    · exact List.mem_map.mpr ⟨d, hd, mark_of_ptr_ne false (hother d hd hdfree)⟩
    · rw [Chunk.ptr]
      omega
    · exact hi.changeMark hc hh ⟨rfl, size.toNat, rfl, hle⟩
  · have hbelow : ∀ d ∈ cs, d.ptr ≠ s.heap.brk + 24 := by
      intro d hd
      have hle := hi.chunks.laid.below d hd
      have hpos := (hi.chunks.laid.size d hd).1
      rw [Chunk.stop] at hle
      rw [Chunk.ptr]
      omega
    refine ⟨s.heap.brk + 24, h', _, hev, hsame, fun d hd _ => ⟨List.mem_append_left _ hd, hbelow d hd⟩,
      Or.inr ⟨by omega, hi.change hh ?_ ?_ ?_ ?_⟩⟩
    · intro d hd hne
      rcases List.mem_append.mp hd with hd | hd
      · exact hd
      · rw [List.mem_singleton.mp hd] at hne
        exact absurd rfl hne
    · exact fun d hd _ => List.mem_append_left _ hd
    · intro d hd heq
      rcases List.mem_append.mp hd with hd | hd
      · exact absurd heq (hbelow d hd)
      · rw [List.mem_singleton.mp hd]
        exact ⟨rfl, size.toNat, rfl, le_rfl⟩
    · exact fun _ => ⟨_, List.mem_append_right _ (List.mem_singleton_self _), rfl⟩

/-- A call of `free` takes back a pointer. -/
lemma Inv.free (hi : Inv s cs) (hp : s.live p = some n) (room : Bool) :
    ∃ h' cs', (∀ᶠ fuel in atTop, free fuel s.heap p room = some h') ∧ SameBlocks cs s.heap.mem h'.mem ∧
      Inv (s.take h' p) cs' := by
  obtain ⟨c, hc, rfl, hfree, -⟩ := hi.chunk_of_live hp
  have hchunk : c.ptr - 24 = c.addr := Nat.add_sub_cancel _ _
  obtain ⟨h', hev, hsame, ⟨l, rfl, hh, hmark⟩ | hh⟩ := hi.chunks.free hc room
  · refine ⟨h', l, hev, hsame, ?_⟩
    rw [State.take, hchunk, hmark, hfree]
    have hother : ∀ d ∈ l, d.ptr ≠ c.ptr := by
      intro d hd heq
      have horder := (List.pairwise_append.mp hi.chunks.laid.order).2.2 d hd c (List.mem_singleton_self c)
      rw [Chunk.stop] at horder
      rw [Chunk.ptr, Chunk.ptr] at heq
      omega
    refine hi.change hh (fun d hd _ => List.mem_append_left _ hd) (fun d hd hne => ?_)
      (fun d hd heq => absurd heq (hother d hd)) ?_
    · rcases List.mem_append.mp hd with hd | hd
      · exact hd
      · rw [List.mem_singleton.mp hd] at hne
        exact absurd rfl hne
    · rintro (h | h)
      · exact absurd rfl h
      · cases h
  · refine ⟨h', cs.map (Chunk.mark c.addr true), hev, hsame, ?_⟩
    have hmark : chunkFree h'.mem (c.ptr - 24) = true := by
      have hin : c.mark c.addr true ∈ cs.map (Chunk.mark c.addr true) := List.mem_map_of_mem hc
      have hheader := (hh.header _ hin).chunkFree
      rwa [mark_addr, mark_self, ← hchunk] at hheader
    rw [State.take, hmark]
    exact hi.changeMark hc hh ⟨rfl, rfl⟩

/-- Nothing but the blocks of chunks in use is written. -/
lemma Inv.setMem (hi : Inv s cs) (hc : c ∈ cs) {m : Memory}
    (hsame : ∀ b, b < c.ptr ∨ c.stop ≤ b → m b = s.heap.mem b) : Inv { s with heap := { s.heap with mem := m } } cs := by
  refine ⟨hi.chunks.frame fun d hd k hk => hsame _ ?_, hi.noted, hi.listed⟩
  rw [Chunk.ptr, Chunk.stop]
  by_cases hne : c = d
  · rw [hne]
    omega
  · have h1 := hi.chunks.laid.addr_apart hc hd hne
    have h2 := hi.chunks.laid.addr_apart hd hc (Ne.symm hne)
    omega

/-- What `realloc` moves is what the block had. -/
abbrev Preserves (s : State) (h : Heap) (p ptr : ℕ) (newSize : BitVec 64) : Prop :=
  ∀ n, s.live ptr = some n → p ≠ 0 → ∀ k < min n newSize.toNat, h.mem (p + k) = s.heap.mem (ptr + k)

lemma Inv.realloc (hi : Inv s cs) {newSize : BitVec 64} (hsize : newSize.toNat < 2 ^ 62)
    {ptr : ℕ} (hptr : ptr = 0 ∨ s.live ptr ≠ none) (room1 room2 : Bool) :
    ∃ p h' cs', (∀ᶠ fuel in atTop, realloc fuel s.heap ptr newSize room1 room2 = some (p, h')) ∧
      Inv (s.note p h' (.realloc ptr newSize room1 room2)) cs' ∧ Preserves s h' p ptr newSize := by
  by_cases hnull : ptr = 0
  · obtain ⟨p, h', cs', hev, -, -, hcase⟩ := hi.malloc hsize room1
    refine ⟨p, h', cs', ?_, ?_, fun n hn => ?_⟩
    · filter_upwards [hev] with fuel hf
      rw [MallocFree.realloc, if_pos hnull, hf]
    · rw [State.note]
      rcases hcase with ⟨hp, hi'⟩ | ⟨hp, hi'⟩
      · rwa [if_pos hp]
      · rwa [if_neg hp, if_pos (Or.inl hnull)]
    · obtain ⟨c, hc, hcp, -⟩ := hi.chunk_of_live hn
      rw [Chunk.ptr] at hcp
      omega
  have hlive : ∃ n, s.live ptr = some n := Option.ne_none_iff_exists'.mp (hptr.resolve_left hnull)
  obtain ⟨n, hn⟩ := hlive
  obtain ⟨c, hc, rfl, hfree, hle⟩ := hi.chunk_of_live hn
  have hheader := hi.chunks.header c hc
  have hcsize := hi.chunks.laid.size c hc
  have hchunk : c.ptr - 24 = c.addr := Nat.add_sub_cancel _ _
  have hfit := hheader.le_chunkSize hcsize.2 newSize
  by_cases hzero : newSize = 0
  · refine ⟨0, s.heap, cs, .of_forall fun fuel => ?_, ?_, fun _ _ h => absurd rfl h⟩
    · rw [MallocFree.realloc, if_neg hnull, if_pos hzero]
    · rwa [State.note, if_pos rfl]
  by_cases hstay : newSize.toNat ≤ c.size
  · refine ⟨c.ptr, s.heap, cs, .of_forall fun fuel => ?_, ?_, fun _ _ _ _ _ => rfl⟩
    · rw [MallocFree.realloc, if_neg hnull, if_neg hzero, hchunk, if_pos (hfit.mpr hstay)]
    · rw [State.note, if_neg hnull, if_pos (Or.inr rfl)]
      refine hi.change hi.chunks (fun d hd _ => hd) (fun d hd _ => hd) (fun d hd heq => ?_) fun _ => ⟨c, hc, rfl⟩
      rw [hi.chunks.laid.ptr_inj hd hc heq, Noted, hfree]
      exact ⟨rfl, newSize.toNat, rfl, hstay⟩
  obtain ⟨p, h1, cs1, hmalloc, hsame1, hkeep, ⟨hp, hi1⟩ | ⟨hp, hi1⟩⟩ := hi.malloc hsize room1
  · refine ⟨p, h1, cs1, ?_, ?_, fun _ _ h => absurd hp h⟩
    · filter_upwards [hmalloc] with fuel hf
      rw [MallocFree.realloc, if_neg hnull, if_neg hzero, hchunk, if_neg (hstay ∘ hfit.mp), hf, Option.bind_some,
        if_neg (not_not.mpr hp), hp]
    · rwa [State.note, if_pos hp]
  obtain ⟨hc1, hne⟩ := hkeep c hc hfree
  have hgiven : (s.give h1 p newSize.toNat).live p = some newSize.toNat := Function.update_self _ _ _
  obtain ⟨d, hd, rfl, -, hdsize⟩ := hi1.chunk_of_live hgiven
  have hcopied : (MallocFree.chunkSize h1.mem c.addr).toNat = c.size :=
    (hi1.chunks.header c hc1).toNat_chunkSize hcsize.2
  have hi2 : Inv { s.give h1 d.ptr newSize.toNat with
      heap := { h1 with mem := copy h1.mem d.ptr c.ptr c.size } } cs1 := by
    refine hi1.setMem hd fun b hb => copy_outside _ ?_
    rw [Chunk.stop] at hb
    rw [Chunk.ptr] at hb ⊢
    omega
  have hold : (s.give h1 d.ptr newSize.toNat).live c.ptr = some n := by
    rw [State.give]
    dsimp only
    rw [Function.update_of_ne hne, hn]
  obtain ⟨h', cs', hfreed, hsame2, hi'⟩ := hi2.free (p := c.ptr) hold room2
  refine ⟨d.ptr, h', cs', ?_, ?_, fun k hk _ j hj => ?_⟩
  · filter_upwards [hmalloc, hfreed] with fuel hf1 hf2
    rw [MallocFree.realloc, if_neg hnull, if_neg hzero, hchunk, if_neg (hstay ∘ hfit.mp), hf1, Option.bind_some,
      if_pos hp, hcopied]
    dsimp only at hf2 ⊢
    rw [hf2]
    rfl
  · rw [State.note, if_neg hp, if_neg (not_or.mpr ⟨hnull, Ne.symm hne⟩)]
    exact hi'
  · obtain rfl := Option.some.inj (hn.symm.trans hk)
    rw [hsame2 d hd j (by omega)]
    dsimp only
    rw [copy_inside _ _ (by omega)]
    exact hsame1 c hc j (by omega)

/-- Every valid call ends, no assertion fails, and the invariant is kept. -/
lemma Inv.perform (hi : Inv s cs) {call : Call} (hv : Valid s call) :
    ∃ p h' cs', (∀ᶠ fuel in atTop, perform fuel s.heap call = some (p, h')) ∧ Inv (s.note p h' call) cs' := by
  cases call with
  | malloc size room =>
    obtain ⟨p, h', cs', hev, -, -, hcase⟩ := hi.malloc hv room
    refine ⟨p, h', cs', hev, ?_⟩
    rw [State.note]
    rcases hcase with ⟨hp, hi'⟩ | ⟨hp, hi'⟩
    · rwa [if_pos hp]
    · rwa [if_neg hp]
  | free ptr room =>
    by_cases hnull : ptr = 0
    · refine ⟨0, s.heap, cs, .of_forall fun fuel => ?_, ?_⟩
      · rw [MallocFree.perform, MallocFree.free, if_pos hnull]
        rfl
      · rwa [State.note, if_pos hnull]
    · obtain ⟨n, hn⟩ := Option.ne_none_iff_exists'.mp (hv.resolve_left hnull)
      obtain ⟨h', cs', hev, -, hi'⟩ := hi.free hn room
      refine ⟨0, h', cs', ?_, ?_⟩
      · filter_upwards [hev] with fuel hf
        rw [MallocFree.perform, hf]
        rfl
      · rwa [State.note, if_neg hnull]
  | realloc ptr newSize room1 room2 =>
    obtain ⟨p, h', cs', hev, hi', -⟩ := hi.realloc hv.1 hv.2 room1 room2
    exact ⟨p, h', cs', hev, hi'⟩
  | store a byte =>
    obtain ⟨p, n, hp, hle, hlt⟩ := hv
    obtain ⟨c, hc, rfl, -, hsize⟩ := hi.chunk_of_live hp
    refine ⟨0, _, cs, .of_forall fun fuel => rfl, hi.setMem hc fun b hb => Function.update_of_ne ?_ _ _⟩
    rw [Chunk.ptr] at hb hle hlt
    rw [Chunk.stop] at hb
    omega

lemma eventually_some_inj {α : Type*} {f : ℕ → Option α} {x y : α} (hx : ∀ᶠ fuel in atTop, f fuel = some x)
    (hy : ∀ᶠ fuel in atTop, f fuel = some y) : x = y := by
  obtain ⟨fuel, h1, h2⟩ := (hx.and hy).exists
  exact Option.some.inj (h1.symm.trans h2)

lemma Inv.step (hi : Inv s cs) {e : Call × ℕ} (h : Step s e s') : ∃ cs', Inv s' cs' := by
  obtain ⟨hv, h', hev, rfl⟩ := h
  obtain ⟨p, h'', cs', hev', hi'⟩ := hi.perform hv
  cases eventually_some_inj hev hev'
  exact ⟨cs', hi'⟩

end Steps

lemma start_inv (mem : Memory) {brk : ℕ} (hpos : 0 < brk) (hfit : brk < 2 ^ 64) : Inv (start mem brk) [] := by
  refine ⟨⟨rfl, rfl, fun c hc => absurd hc List.not_mem_nil, ⟨fun c hc => absurd hc List.not_mem_nil,
    List.Pairwise.nil, fun c hc => absurd hc List.not_mem_nil⟩, hpos, hfit⟩, fun c hc => absurd hc List.not_mem_nil, ?_⟩
  rintro p (h | h)
  · exact absurd rfl h
  · cases h

/-- The list from `first` to `last` is `cs`, in the order of addresses and below the break; its chunks are those
that are allocated or marked free; and what has been handed out is apart from each other and from all headers. -/
structure Safe (s : State) (cs : List Chunk) : Prop where
  chunks : Chunks s.heap cs
  listed : ∀ p, (∃ c ∈ cs, c.ptr = p) ↔ s.live p ≠ none ∨ s.marked p = true
  free : ∀ c ∈ cs, c.free = s.marked c.ptr ∧ (c.free = true ↔ s.live c.ptr = none)
  apart : ∀ p q n k, s.live p = some n → s.live q = some k → p ≠ q → p + n ≤ q ∨ q + k ≤ p
  headers : ∀ p n, s.live p = some n → ∀ c ∈ cs, p + n ≤ c.addr ∨ c.addr + 24 ≤ p
  below : ∀ p n, s.live p = some n → p + n ≤ s.heap.brk

lemma Inv.safe {s : State} {cs : List Chunk} (hi : Inv s cs) : Safe s cs := by
  have hfree : ∀ c ∈ cs, c.free = s.marked c.ptr ∧ (c.free = true ↔ s.live c.ptr = none) := by
    intro c hc
    obtain ⟨hmark, hlive⟩ := hi.noted c hc
    refine ⟨hmark.symm, ?_⟩
    split_ifs at hlive with h
    · exact iff_of_true h hlive
    · obtain ⟨n, hn, -⟩ := hlive
      exact iff_of_false h (by simp [hn])
  refine ⟨hi.chunks, fun p => ⟨?_, hi.listed p⟩, hfree, fun p q n k hp hq hne => ?_, fun p n hp c hc => ?_, fun p n hp => ?_⟩
  · rintro ⟨c, hc, rfl⟩
    obtain ⟨hmark, hlive⟩ := hfree c hc
    cases hb : c.free with
    | true => exact Or.inr (hmark.symm.trans hb)
    | false => exact Or.inl fun hnone => by simp [hlive.mpr hnone] at hb
  · obtain ⟨c, hc, rfl, -, hn⟩ := hi.chunk_of_live hp
    obtain ⟨d, hd, rfl, -, hk⟩ := hi.chunk_of_live hq
    have := hi.chunks.laid.apart hc hd fun h => hne (congrArg Chunk.ptr h)
    rw [Chunk.stop, Chunk.stop] at this
    rw [Chunk.ptr, Chunk.ptr]
    omega
  · obtain ⟨d, hd, rfl, -, hn⟩ := hi.chunk_of_live hp
    rw [Chunk.ptr]
    by_cases hne : d = c
    · rw [hne]
      omega
    · have h1 := hi.chunks.laid.addr_apart hd hc hne
      have h2 := hi.chunks.laid.addr_apart hc hd (Ne.symm hne)
      omega
  · obtain ⟨c, hc, rfl, -, hn⟩ := hi.chunk_of_live hp
    have := hi.chunks.laid.below c hc
    rw [Chunk.stop] at this
    rw [Chunk.ptr]
    omega

/-- After any calls with pointers that the program holds the heap is in order, the next call ends without a failed
assertion, and what `realloc` returns has the bytes of the old block. -/
theorem malloc_safe {mem : Memory} {brk : ℕ} (hpos : 0 < brk) (hfit : brk < 2 ^ 64) {s : State}
    {calls : List (Call × ℕ)} (hrun : Run Step (start mem brk) calls s) :
    (∃ cs, Safe s cs) ∧ (∀ call, Valid s call → ∃ p s', Step s (call, p) s') ∧
    ∀ ptr newSize room1 room2 p s', Step s (.realloc ptr newSize room1 room2, p) s' →
      Preserves s s'.heap p ptr newSize := by
  have hkeep : ∀ s e s', (∃ cs, Inv s cs) → Step s e s' → ∃ cs, Inv s' cs :=
    fun s e s' ⟨cs, hi⟩ hstep => hi.step hstep
  obtain ⟨cs, hi⟩ := hrun.invariant hkeep ⟨[], start_inv mem hpos hfit⟩
  refine ⟨⟨cs, hi.safe⟩, fun call hv => ?_, fun ptr newSize room1 room2 p s' hstep => ?_⟩
  · obtain ⟨p, h', cs', hev, -⟩ := hi.perform hv
    exact ⟨p, _, hv, h', hev, rfl⟩
  · obtain ⟨hv, h', hev, rfl⟩ := hstep
    obtain ⟨p', h'', cs', hev', -, hkeep⟩ := hi.realloc hv.1 hv.2 room1 room2
    cases eventually_some_inj hev hev'
    have hheap : (s.note p h' (.realloc ptr newSize room1 room2)).heap = h' := by
      rw [State.note]
      split_ifs <;> rfl
    rw [hheap]
    exact hkeep

/-- The first call of `malloc`, for eight bytes. -/
theorem malloc_safe_first : ∃ s : State, s.live 0x1018 = some 8 ∧ s.heap.brk = 0x1020 ∧ ∃ cs, Safe s cs := by
  have hstep : Step (start (fun _ => 0) 0x1000) (.malloc 8 true, 0x1018)
      ((start (fun _ => 0) 0x1000).give (appendChunk (start (fun _ => 0) 0x1000).heap 8 0x1020) 0x1018 8) := by
    refine ⟨by simp [Valid], appendChunk (start (fun _ => 0) 0x1000).heap 8 0x1020, ?_, rfl⟩
    filter_upwards [eventually_gt_atTop 0] with fuel hf
    obtain ⟨n, rfl⟩ := Nat.exists_eq_succ_of_ne_zero hf.ne'
    rfl
  exact ⟨_, rfl, rfl, (malloc_safe (by decide) (by decide) (.single hstep)).1⟩

end PiggyOs.MallocFree
