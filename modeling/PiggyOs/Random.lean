import Mathlib.Tactic

/-! The random number generator of the kernel and the pseudo devices that read it. -/
namespace PiggyOs.Random

abbrev Word := BitVec 64
abbrev Byte := BitVec 8

def mtSize : ℕ := 312
def mtPeriod : ℕ := 156

/-- `(uint64_t) (1 << 31) - 1`: the shift is one of an `int`, and its sign is extended. -/
def mtLowerMask : Word := 0xffffffff7fffffff
def mtUpperMask : Word := ~~~mtLowerMask

structure RngState where
  state : ℕ → Word
  index : ℕ

/-- The upper bits of one word with the lower bits of the next, shifted. -/
def mix (upper lower : Word) : Word :=
  let x := (upper &&& mtUpperMask) + (lower &&& mtLowerMask)
  if x &&& 1 ≠ 0 then (x >>> 1) ^^^ 0xb5026f5aa96619e9 else x >>> 1

def twistWord (state : ℕ → Word) (i : ℕ) : Word :=
  state ((i + mtPeriod) % mtSize) ^^^ mix (state i) (state ((i + 1) % mtSize))

/-- The first `n` words, each in place, so that the later ones see the earlier ones. -/
def twistUpTo (n : ℕ) (state : ℕ → Word) : ℕ → Word :=
  (List.range n).foldl (fun state i => Function.update state i (twistWord state i)) state

def temper (y : Word) : Word :=
  let y := y ^^^ ((y >>> 29) &&& 0x5555555555555555)
  let y := y ^^^ ((y >>> 17) &&& 0x71d67fffeda60000)
  let y := y ^^^ ((y >>> 37) &&& 0xfff7eee000000000)
  y ^^^ (y >>> 43)

def generate (rng : RngState) : Word × RngState :=
  let rng := if mtSize ≤ rng.index then { state := twistUpTo (mtSize - 1) rng.state, index := 0 } else rng
  (temper (rng.state rng.index), { rng with index := rng.index + 1 })

def rngRand (rng : RngState) : Word × RngState := generate rng

def byteAt (value : Word) (k : ℕ) : Byte := (value >>> (8 * k)).setWidth 8

/-- The bytes after the last whole word: the value is shifted as they are stored. -/
def tailBytes (value : Word) : ℕ → List Byte
  | 0 => []
  | n + 1 => value.setWidth 8 :: tailBytes (value >>> 8) n

def rngRandFill (rng : RngState) (count : ℕ) : List Byte × RngState :=
  if 8 ≤ count then
    let drawn := generate rng
    let rest := rngRandFill drawn.2 (count - 8)
    ((List.range 8).map (byteAt drawn.1) ++ rest.1, rest.2)
  else if 0 < count then
    let drawn := generate rng
    (tailBytes drawn.1 count, drawn.2)
  else ([], rng)
termination_by count

/-- `hardware` is what `get_hardware_rand` returns. The loop ends one word before the last. -/
def rngSeed (rng : RngState) (seed hardware : Word) : RngState :=
  let first := Function.update rng.state 0 (seed * (seed ^^^ hardware))
  { state := (List.range' 1 (mtSize - 2)).foldl (fun state i => Function.update state i
      (0x5851f42d4c957f2d * (state (i - 1) ^^^ (state (i - 1) >>> 62)) + BitVec.ofNat 64 i)) first
    index := mtSize }

/-- `memory` is what the allocated block holds. -/
def rngCreate (memory : ℕ → Word) (count hardware : Word) : RngState :=
  rngSeed { state := memory, index := mtSize } count hardware

def pseudoNullMin : ℕ := 0
def pseudoZeroMin : ℕ := 1
def pseudoRandomMin : ℕ := 2
def pseudoFullMin : ℕ := 3

def enospc : ℤ := 14

/-- The result, the bytes stored in the buffer and the generator of the random device. -/
def pseudoRead (rng : RngState) (minor count : ℕ) : ℤ × List Byte × RngState :=
  if minor = pseudoNullMin then (0, [], rng)
  else if minor = pseudoZeroMin ∨ minor = pseudoFullMin then (count, List.replicate count 0, rng)
  else if minor = pseudoRandomMin then (count, rngRandFill rng count)
  else (-1, [], rng)

def pseudoWrite (minor count : ℕ) : ℤ :=
  if minor = pseudoNullMin ∨ minor = pseudoZeroMin ∨ minor = pseudoRandomMin then count
  else if minor = pseudoFullMin then if count = 0 then 0 else -enospc
  else -1

/-! ## The words as one sequence -/

/-- The twisted generalized feedback sequence that the buffer is a window of. Every last word of a block is the last
word of the block before. -/
def word (init : ℕ → Word) (n : ℕ) : Word :=
  if n < mtSize then init n
  else if n % mtSize = mtSize - 1 then word init (n - mtSize)
  else word init (n - mtPeriod) ^^^ mix (word init (n - mtSize)) (word init (n - mtSize + 1))
termination_by n
decreasing_by
  all_goals
    simp only [mtSize, mtPeriod] at *
    omega

section Sequence

variable {init : ℕ → Word}

lemma word_first {n : ℕ} (h : n < mtSize) : word init n = init n := by rw [word, if_pos h]

lemma word_last (b : ℕ) : word init (mtSize * (b + 1) + (mtSize - 1)) = word init (mtSize * b + (mtSize - 1)) := by
  rw [word, if_neg (by simp only [mtSize]; omega), if_pos (by simp only [mtSize]; omega)]
  have hsize : mtSize * (b + 1) + (mtSize - 1) - mtSize = mtSize * b + (mtSize - 1) := by
    simp only [mtSize]
    omega
  rw [hsize]

lemma word_next (b : ℕ) {k : ℕ} (h : k < mtSize - 1) : word init (mtSize * (b + 1) + k) =
    word init (mtSize * b + k + mtPeriod) ^^^ mix (word init (mtSize * b + k)) (word init (mtSize * b + k + 1)) := by
  have hperiod : mtSize * (b + 1) + k - mtPeriod = mtSize * b + k + mtPeriod := by
    simp only [mtSize, mtPeriod] at h ⊢
    omega
  have hsize : mtSize * (b + 1) + k - mtSize = mtSize * b + k := by
    simp only [mtSize] at h ⊢
    omega
  rw [word, if_neg (by simp only [mtSize]; omega), if_neg (by simp only [mtSize] at h ⊢; omega), hperiod, hsize]

/-- The last word of every block is the last word of the first. -/
lemma word_fixed {n : ℕ} (h : n % mtSize = mtSize - 1) : word init n = init (mtSize - 1) := by
  have hblock : ∀ b, word init (mtSize * b + (mtSize - 1)) = init (mtSize - 1) := by
    intro b
    induction b with
    | zero => rw [Nat.mul_zero, Nat.zero_add, word_first (by decide)]
    | succ b ih => rw [word_last, ih]
  have hn : n = mtSize * (n / mtSize) + (mtSize - 1) := by
    rw [← h, Nat.div_add_mod]
  rw [hn]
  exact hblock _

/-- Twisting in place: the words before the one that is written are of the next block, the others are of this one. -/
lemma twistUpTo_apply {state : ℕ → Word} {b : ℕ} (hs : ∀ j < mtSize, state j = word init (mtSize * b + j)) {k : ℕ}
    (hk : k ≤ mtSize - 1) {j : ℕ} (hj : j < mtSize) :
    twistUpTo k state j = if j < k then word init (mtSize * (b + 1) + j) else word init (mtSize * b + j) := by
  induction k generalizing j with
  | zero => exact hs j hj
  | succ k ih =>
    have ih := fun {j : ℕ} (hj : j < mtSize) => ih (by omega) hj
    have hsplit : twistUpTo (k + 1) state =
        Function.update (twistUpTo k state) k (twistWord (twistUpTo k state) k) := by
      rw [twistUpTo, List.range_succ, List.foldl_append]
      rfl
    have hsize : mtSize = 312 := rfl
    have hperiod : mtPeriod = 156 := rfl
    rw [hsplit]
    rcases eq_or_ne j k with rfl | hne
    · have hnext : twistUpTo j state ((j + 1) % mtSize) = word init (mtSize * b + j + 1) := by
        rw [Nat.mod_eq_of_lt (by omega), ih (by omega), if_neg (by omega), Nat.add_assoc]
      -- the word half a block on has been written already if it wraps around
      have hfar : twistUpTo j state ((j + mtPeriod) % mtSize) = word init (mtSize * b + j + mtPeriod) := by
        by_cases hwrap : j + mtPeriod < mtSize
        · rw [Nat.mod_eq_of_lt hwrap, ih hwrap, if_neg (by omega), Nat.add_assoc]
        · have hmod : (j + mtPeriod) % mtSize = j + mtPeriod - mtSize := by
            rw [Nat.mod_eq_sub_mod (by omega), Nat.mod_eq_of_lt (by omega)]
          have hindex : mtSize * (b + 1) + (j + mtPeriod - mtSize) = mtSize * b + j + mtPeriod := by
            rw [Nat.mul_succ]
            omega
          rw [hmod, ih (by omega), if_pos (by omega), hindex]
      rw [Function.update_self, if_pos (by omega), word_next b (by omega), twistWord, hfar, hnext, ih hj,
        if_neg (by omega)]
    · rw [Function.update_of_ne hne, ih hj]
      by_cases hjk : j < k
      · rw [if_pos hjk, if_pos (by omega)]
      · rw [if_neg hjk, if_neg (by omega)]

lemma twist_window {state : ℕ → Word} {b : ℕ} (hs : ∀ j < mtSize, state j = word init (mtSize * b + j)) {j : ℕ}
    (hj : j < mtSize) : twistUpTo (mtSize - 1) state j = word init (mtSize * (b + 1) + j) := by
  rw [twistUpTo_apply hs le_rfl hj]
  by_cases hlast : j < mtSize - 1
  · rw [if_pos hlast]
  · obtain rfl : j = mtSize - 1 := by omega
    rw [if_neg hlast, word_last]

/-- The next word that is drawn is word `n` of the sequence. -/
def Follows (init : ℕ → Word) (n : ℕ) (rng : RngState) : Prop :=
  ∃ b, n = mtSize * b + rng.index ∧ rng.index ≤ mtSize ∧ ∀ j < mtSize, rng.state j = word init (mtSize * b + j)

lemma generate_spec {n : ℕ} {rng : RngState} (h : Follows init n rng) :
    (generate rng).1 = temper (word init n) ∧ Follows init (n + 1) (generate rng).2 := by
  obtain ⟨b, hn, hindex, hstate⟩ := h
  have hpos : 0 < mtSize := by decide
  by_cases hfull : mtSize ≤ rng.index
  · have hn' : n = mtSize * (b + 1) + 0 := by
      rw [hn, le_antisymm hindex hfull, Nat.mul_succ, Nat.add_zero]
    rw [generate, if_pos hfull]
    have hnext : n + 1 = mtSize * (b + 1) + (0 + 1) := by omega
    dsimp only
    refine ⟨by rw [twist_window hstate hpos, ← hn'], b + 1, ?_⟩
    dsimp only
    exact ⟨hnext, hpos, fun j hj => twist_window hstate hj⟩
  · rw [generate, if_neg hfull]
    refine ⟨?_, b, by rw [hn, Nat.add_assoc], by dsimp only; omega, hstate⟩
    dsimp only
    rw [hstate _ (by omega), ← hn]

/-! ## Reads of the device -/

/-- Byte `i` of a read that starts with word `n`. -/
def streamByte (init : ℕ → Word) (n i : ℕ) : Byte := byteAt (temper (word init (n + i / 8))) (i % 8)

lemma tailBytes_eq (value : Word) (n : ℕ) : tailBytes value n = (List.range n).map (byteAt value) := by
  induction n generalizing value with
  | zero => rfl
  | succ n ih =>
    rw [tailBytes, ih, List.range_succ_eq_map, List.map_cons, List.map_map]
    congr 1
    apply List.map_congr_left
    intro k _
    simp only [Function.comp_apply, byteAt]
    rw [← BitVec.shiftRight_add, Nat.mul_succ, Nat.add_comm]

lemma rngRandFill_spec {count n : ℕ} {rng : RngState} (h : Follows init n rng) :
    (rngRandFill rng count).1 = (List.range count).map (streamByte init n) ∧
      Follows init (n + (count + 7) / 8) (rngRandFill rng count).2 := by
  induction count using Nat.strong_induction_on generalizing n rng with
  | h count ih =>
    obtain ⟨hvalue, hnext⟩ := generate_spec h
    have hword : ∀ m ≤ 8, (List.range m).map (byteAt (generate rng).1) = (List.range m).map (streamByte init n) := by
      intro m hm
      apply List.map_congr_left
      intro i hi
      have hi := List.mem_range.mp hi
      rw [streamByte, hvalue, Nat.div_eq_of_lt (by omega), Nat.mod_eq_of_lt (by omega), Nat.add_zero]
    rw [rngRandFill]
    split_ifs with hwhole htail
    · obtain ⟨hrest, hafter⟩ := ih (count - 8) (by omega) hnext
      refine ⟨?_, ?_⟩
      · have hcount : count = 8 + (count - 8) := by omega
        conv_rhs => rw [hcount, List.range_add, List.map_append, List.map_map]
        dsimp only
        rw [hrest, hword 8 le_rfl]
        congr 1
        apply List.map_congr_left
        intro i _
        have hdiv : n + 1 + i / 8 = n + (8 + i) / 8 := by omega
        have hmod : (8 + i) % 8 = i % 8 := by omega
        rw [Function.comp_apply, streamByte, streamByte, hdiv, hmod]
      · have hwords : n + 1 + (count - 8 + 7) / 8 = n + (count + 7) / 8 := by omega
        rw [hwords] at hafter
        exact hafter
    · have hwords : n + (count + 7) / 8 = n + 1 := by omega
      refine ⟨?_, by rw [hwords]; exact hnext⟩
      dsimp only
      rw [tailBytes_eq, hword count (by omega)]
    · obtain rfl : count = 0 := by omega
      exact ⟨rfl, h⟩

end Sequence

inductive Access
  | read (minor count : ℕ)
  | write (minor count : ℕ)

/-- The device keeps the generator; what is written to it is thrown away. -/
def Access.apply (rng : RngState) : Access → RngState
  | read minor count => (pseudoRead rng minor count).2.2
  | write _ _ => rng

/-- The words that an access uses up. -/
def Access.words : Access → ℕ
  | read minor count => if minor = pseudoRandomMin then (count + 7) / 8 else 0
  | write _ _ => 0

lemma pseudoRead_random (rng : RngState) (count : ℕ) :
    pseudoRead rng pseudoRandomMin count = ((count : ℤ), rngRandFill rng count) := by
  rw [pseudoRead, if_neg (by decide), if_neg (by decide), if_pos rfl]

lemma pseudoRead_keeps (rng : RngState) {minor : ℕ} (count : ℕ) (h : minor ≠ pseudoRandomMin) :
    (pseudoRead rng minor count).2.2 = rng := by
  rw [pseudoRead]
  split_ifs <;> rfl

lemma Follows.apply {init : ℕ → Word} {n : ℕ} {rng : RngState} (h : Follows init n rng) (a : Access) :
    Follows init (n + a.words) (a.apply rng) := by
  cases a with
  | write minor count => exact h
  | read minor count =>
    rw [Access.apply, Access.words]
    split_ifs with hrandom
    · rw [hrandom, pseudoRead_random]
      exact (rngRandFill_spec h).2
    · rw [pseudoRead_keeps rng count hrandom]
      exact h

lemma Follows.foldl {init : ℕ → Word} {n : ℕ} {rng : RngState} (h : Follows init n rng) (accesses : List Access) :
    Follows init (n + (accesses.map Access.words).sum) (accesses.foldl Access.apply rng) := by
  induction accesses generalizing n rng with
  | nil => exact h
  | cons a accesses ih =>
    rw [List.map_cons, List.sum_cons, ← Nat.add_assoc]
    exact ih (h.apply a)

lemma rngCreate_follows (memory : ℕ → Word) (count hardware : Word) :
    Follows (rngCreate memory count hardware).state mtSize (rngCreate memory count hardware) := by
  refine ⟨0, by rfl, le_rfl, fun j hj => ?_⟩
  rw [Nat.mul_zero, Nat.zero_add, word_first hj]

/-- Seeding never writes the last word of the buffer. -/
lemma rngCreate_last (memory : ℕ → Word) (count hardware : Word) :
    (rngCreate memory count hardware).state (mtSize - 1) = memory (mtSize - 1) := by
  have hkeep : ∀ (f : (ℕ → Word) → ℕ → Word) (is : List ℕ) (state : ℕ → Word), mtSize - 1 ∉ is →
      is.foldl (fun state i => Function.update state i (f state i)) state (mtSize - 1) = state (mtSize - 1) := by
    intro f is
    induction is with
    | nil => exact fun state _ => rfl
    | cons i is ih =>
      intro state hi
      rw [List.mem_cons, not_or] at hi
      obtain ⟨hne, hrest⟩ := hi
      rw [List.foldl_cons, ih _ hrest, Function.update_of_ne hne]
  have hfirst : Function.update memory 0 (count * (count ^^^ hardware)) (mtSize - 1) = memory (mtSize - 1) :=
    Function.update_of_ne (by decide) _ _
  have hloop : mtSize - 1 ∉ List.range' 1 (mtSize - 2) := by
    rw [List.mem_range'_1]
    decide
  rw [rngCreate, rngSeed]
  dsimp only
  rw [hkeep _ _ _ hloop, hfirst]

/-- Whatever is read and written before, a read of the random device goes on in the sequence where the last one stopped,
at a whole word, and every last word of a block is what the memory of the generator held before it was seeded. -/
theorem random_stream (memory : ℕ → Word) (hpet hardware : Word) (accesses : List Access) (count : ℕ) :
    let rng := rngCreate memory hpet hardware
    let n := mtSize + (accesses.map Access.words).sum
    (pseudoRead (accesses.foldl Access.apply rng) pseudoRandomMin count).2.1 =
        (List.range count).map (streamByte rng.state n) ∧
      ∀ i < count, (n + i / 8) % mtSize = mtSize - 1 →
        streamByte rng.state n i = byteAt (temper (memory (mtSize - 1))) (i % 8) := by
  intro rng n
  have hfollows : Follows rng.state n (accesses.foldl Access.apply rng) :=
    (rngCreate_follows memory hpet hardware).foldl accesses
  rw [pseudoRead_random]
  refine ⟨(rngRandFill_spec hfollows).1, fun i _ hlast => ?_⟩
  rw [streamByte, word_fixed hlast, rngCreate_last]

end PiggyOs.Random
