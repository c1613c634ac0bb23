import PiggyOs.ByteMemory

/-! `qsort` on the bytes of an array. -/
namespace PiggyOs.Qsort
open ByteMemory Function

abbrev Byte := BitVec 8

/-- The comparison function, on the bytes of two elements. -/
abbrev Compar := List Byte → List Byte → ℤ

def swapAt (m : Memory) (a b : ℕ) : Memory := update (update m a (m b)) b (m a)

section Code
variable (compar : Compar) (lo hi size : ℕ)

/-- The `n` bytes from `a` on belong to the array. -/
def Within (a n : ℕ) : Prop := lo ≤ a ∧ a + n ≤ hi

instance (a n : ℕ) : Decidable (Within lo hi a n) := inferInstanceAs (Decidable (_ ∧ _))

/-- A loop over the bytes of an element; `none` where an access leaves the array. -/
def swapBytes (left right : ℕ → ℕ) (m : Memory) : Option Memory :=
  (List.range size).foldlM (fun m k => if Within lo hi (left k) 1 ∧ Within lo hi (right k) 1 then
    some (swapAt m (left k) (right k)) else none) m

/-- The address of a byte that is reached through `(i - array) * size + k`. -/
def scaled (array i k : ℕ) : ℕ := array + (i * size + k) % 2 ^ 64

/-- The loop over the elements before the pivot, with `i - array` for `i`. -/
def scan (array pivot : ℕ) : ℕ → ℕ → ℕ → Memory → Option (ℕ × Memory)
  | 0, _, i, m => some (i, m)
  | n + 1, j, i, m =>
      if ¬ (Within lo hi (array + j * size) size ∧ Within lo hi pivot size) then none
      else if compar (readBytes m (array + j * size) size) (readBytes m pivot size) < 0 then
        (swapBytes lo hi size (scaled size array i) (fun k => array + (j * size + k)) m).bind fun m =>
          scan array pivot n (j + 1) (i + size) m
      else scan array pivot n (j + 1) i m

/-- The second loop moves the bytes of the pivot's place through its first byte. -/
def qsort : ℕ → ℕ → ℕ → Memory → Option Memory
  | 0, _, _, _ => none
  | fuel + 1, array, num, m =>
      if num < 2 then some m
      else
        let pivot := array + (num - 1) * size
        (scan compar lo hi size array pivot (num - 1) 0 0 m).bind fun (i, m) =>
          (swapBytes lo hi size (scaled size array i) (fun _ => pivot) m).bind fun m =>
            (qsort fuel array (i / size) m).bind fun m => qsort fuel (array + i + size) (num - (i / size + 1)) m

end Code

/-- The elements of an array. -/
def elements (m : Memory) (base num size : ℕ) : List (List Byte) :=
  (List.range num).map fun k => readBytes m (base + k * size) size

/-- A comparison function that orders the elements, though different ones may be equal for it. -/
structure IsPreorder (compar : Compar) : Prop where
  swap : ∀ x y, 0 < compar x y ↔ compar y x < 0
  trans : ∀ x y z, compar x y ≤ 0 → compar y z ≤ 0 → compar x z ≤ 0

/-- Arrays of this form are sorted within their bytes, whatever they hold and however they are compared. -/
def Sorts (num size : ℕ) : Prop :=
  ∀ compar, IsPreorder compar → ∀ base m, ∃ fuel m',
    qsort compar base (base + num * size) size fuel base num m = some m' ∧
    (elements m' base num size).Perm (elements m base num size) ∧
    (elements m' base num size).Pairwise fun x y => compar x y ≤ 0

section Swaps
variable {compar : Compar} {lo hi size : ℕ} {m m' : Memory}

lemma swapAt_same {a b : ℕ} (h : m a = m b) : swapAt m a b = m := by
  rw [swapAt, ← h, update_eq_self, h, update_eq_self]

lemma swapAt_eq_comp (m : Memory) (a b : ℕ) : swapAt m a b = m ∘ Equiv.swap a b := by
  funext x
  rw [swapAt, comp_apply, Equiv.swap_apply_def]
  split_ifs with ha hb
  · subst ha
    obtain rfl | hne := eq_or_ne x b
    · rw [update_self]
    · rw [update_of_ne hne, update_self]
  · subst hb
    rw [update_self]
  · rw [update_of_ne hb, update_of_ne ha]

/-- Where the loop ends well it has swapped the bytes one pair after the other. -/
lemma foldl_of_swapBytes {left right : ℕ → ℕ} (h : swapBytes lo hi size left right m = some m') :
    (List.range size).foldl (fun m k => swapAt m (left k) (right k)) m = m' := by
  rw [swapBytes] at h
  generalize List.range size = l at h
  induction l generalizing m with
  | nil => exact Option.some.inj h
  | cons k l ih =>
    rw [List.foldlM_cons] at h
    split_ifs at h with hin
    · exact ih h
    · exact absurd h (by simp)

lemma foldl_swapAt_same {l : List ℕ} {left right : ℕ → ℕ} (h : ∀ k ∈ l, m (left k) = m (right k)) :
    l.foldl (fun m k => swapAt m (left k) (right k)) m = m := by
  induction l with
  | nil => rfl
  | cons k l ih =>
    rw [List.foldl_cons, swapAt_same (h k List.mem_cons_self)]
    exact ih fun k hk => h k (List.mem_cons_of_mem _ hk)

lemma scaled_zero {array k : ℕ} (h : k < 2 ^ 64) : scaled size array 0 k = array + k := by
  rw [scaled, Nat.zero_mul, Nat.zero_add, Nat.mod_eq_of_lt h]

end Swaps

section Equal
variable {compar : Compar} (hequal : ∀ x y, compar x y = 0) {lo hi size : ℕ} {m m' : Memory}
include hequal

/-- If all elements are equal for the comparison, the first loop does nothing. -/
lemma scan_of_equal {array pivot n j i : ℕ} {r : ℕ × Memory}
    (h : scan compar lo hi size array pivot n j i m = some r) : r = (i, m) := by
  induction n generalizing j with
  | zero => exact (Option.some.inj h).symm
  | succ n ih =>
    rw [scan] at h
    split_ifs at h with hin hlt
    · rw [hequal] at hlt
      exact absurd hlt (lt_irrefl 0)
    · exact ih h

/-- What is left to do is the second loop and the elements behind the first one. -/
lemma qsort_of_equal {fuel array num : ℕ} (hnum : 2 ≤ num)
    (h : qsort compar lo hi size (fuel + 1) array num m = some m') :
    qsort compar lo hi size fuel (array + size) (num - 1)
      ((List.range size).foldl (fun m k => swapAt m (scaled size array 0 k) (array + (num - 1) * size)) m) =
        some m' := by
  rw [qsort, if_neg (by omega)] at h
  dsimp only at h
  obtain ⟨r, hscan, h⟩ := Option.bind_eq_some_iff.mp h
  obtain rfl := scan_of_equal hequal hscan
  obtain ⟨m1, hswap, h⟩ := Option.bind_eq_some_iff.mp h
  obtain ⟨m2, hleft, h⟩ := Option.bind_eq_some_iff.mp h
  rw [Nat.zero_div] at hleft h
  have hm2 : m1 = m2 := by
    cases fuel with
    | zero => exact absurd hleft nofun
    | succ fuel =>
      rw [qsort, if_pos (by decide)] at hleft
      exact Option.some.inj hleft
  rw [foldl_of_swapBytes hswap, hm2]
  exact h

/-- Elements of zeros stay as they are. -/
lemma qsort_zeros (hsize : 0 < size) {fuel array num : ℕ} (hfits : num * size < 2 ^ 64)
    (hzeros : ∀ a, array ≤ a → a < array + num * size → m a = 0)
    (h : qsort compar lo hi size fuel array num m = some m') : m' = m := by
  induction fuel generalizing array num with
  | zero => exact absurd h nofun
  | succ fuel ih =>
    by_cases hnum : num < 2
    · rw [qsort, if_pos hnum] at h
      exact (Option.some.inj h).symm
    · have hsplit : num * size = (num - 1) * size + size := by
        rw [← Nat.succ_mul, Nat.succ_eq_add_one, Nat.sub_add_cancel (by omega)]
      have h' := qsort_of_equal hequal (not_lt.mp hnum) h
      rw [foldl_swapAt_same fun k hk => ?_] at h'
      · exact ih (by omega) (fun a hlo hhi => hzeros a (by omega) (by omega)) h'
      · have hk := List.mem_range.mp hk
        rw [scaled_zero (by omega), hzeros _ (by omega) (by omega), hzeros _ (by omega) (by omega)]

end Equal

/-- Memory with a single byte that is not zero. -/
def spike (a : ℕ) : Memory := fun b => if b = a then 1 else 0

lemma spike_self (a : ℕ) : spike a a = 1 := if_pos rfl

lemma spike_of_ne {a b : ℕ} (h : b ≠ a) : spike a b = 0 := if_neg h

lemma swapAt_spike {a b : ℕ} (h : b ≠ a) : swapAt (spike a) a b = spike b := by
  funext x
  rw [swapAt_eq_comp, comp_apply, Equiv.swap_apply_def, spike, spike]
  split_ifs <;> simp_all

lemma swapAt_spike_symm {a b : ℕ} (h : b ≠ a) : swapAt (spike b) a b = spike a := by
  funext x
  rw [swapAt_eq_comp, comp_apply, Equiv.swap_apply_def, spike, spike]
  split_ifs <;> simp_all

/-- The first byte of the array ends up in the second place. -/
lemma foldl_spike {array pivot n : ℕ} (hpivot : array + n + 2 ≤ pivot) (hn : n + 2 < 2 ^ 64) :
    (List.range (n + 2)).foldl (fun m k => swapAt m (scaled (n + 2) array 0 k) pivot) (spike array) =
      spike (array + 1) := by
  have hscaled : ∀ k < n + 2, scaled (n + 2) array 0 k = array + k := fun k hk => scaled_zero (by omega)
  have hfirst : swapAt (spike array) (array + 0) pivot = spike pivot := swapAt_spike (by omega)
  have hsecond : swapAt (spike pivot) (array + 1) pivot = spike (array + 1) := swapAt_spike_symm (by omega)
  rw [List.range_succ_eq_map, List.range_succ_eq_map, List.map_cons, List.foldl_cons, List.foldl_cons,
    hscaled 0 (by omega), hfirst, hscaled _ (by omega), hsecond]
  apply foldl_swapAt_same
  intro k hk
  simp only [List.mem_map, List.mem_range] at hk
  obtain ⟨_, ⟨k, hlt, rfl⟩, rfl⟩ := hk
  rw [hscaled _ (by omega), spike_of_ne (by omega), spike_of_ne (by omega)]

/-- With elements of several bytes, some arrays lose an element. -/
lemma not_sorts {num size : ℕ} (hnum : 2 ≤ num) (hsize : 2 ≤ size) (hfits : num * size < 2 ^ 64) :
    ¬ Sorts num size := by
  intro h
  have hequal : ∀ x y : List Byte, (fun _ _ => 0 : Compar) x y = 0 := fun _ _ => rfl
  obtain ⟨fuel, m', hrun, hperm, -⟩ := h (fun _ _ => 0) ⟨fun _ _ => Iff.rfl, fun _ _ _ _ _ => le_rfl⟩ 0 (spike 0)
  have hsplit : num * size = (num - 1) * size + size := by
    rw [← Nat.succ_mul, Nat.succ_eq_add_one, Nat.sub_add_cancel (by omega)]
  have hrest : size ≤ (num - 1) * size := Nat.le_mul_of_pos_left size (by omega)
  cases fuel with
  | zero => exact absurd hrun nofun
  | succ fuel =>
    have hrun' := qsort_of_equal hequal hnum hrun
    obtain ⟨n, rfl⟩ := Nat.exists_eq_add_of_le' hsize
    rw [foldl_spike (by omega) (by omega)] at hrun'
    have hm' := qsort_zeros hequal (by omega) (by omega)
      (fun a hlo hhi => spike_of_ne (by omega)) hrun'
    have hmem : readBytes (spike 0) (0 + 0 * (n + 2)) (n + 2) ∈ elements m' 0 num (n + 2) :=
      hperm.symm.mem_iff.mp (List.mem_map.mpr ⟨0, List.mem_range.mpr (by omega), rfl⟩)
    obtain ⟨k, -, hk⟩ := List.mem_map.mp hmem
    have hbyte : m' (0 + k * (n + 2) + 0) = spike 0 (0 + 0 * (n + 2) + 0) := by
      have hget := congrArg (fun l => l[0]?) hk
      simpa [readBytes] using hget
    rw [hm', Nat.zero_mul, spike_self] at hbyte
    have hplace : k * (n + 2) = 1 := by
      by_contra hne
      have hzero : spike (0 + 1) (0 + k * (n + 2) + 0) = 0 := spike_of_ne (by omega)
      exact absurd (hzero.symm.trans hbyte) (by decide)
    have := Nat.eq_one_of_mul_eq_one_left hplace
    omega

/-- The bytes between two addresses have been put in another order. -/
def Rearranged (lo hi : ℕ) (m m' : Memory) : Prop :=
  ∃ σ : Equiv.Perm ℕ, (∀ x, x < lo ∨ hi ≤ x → σ x = x) ∧ m' = m ∘ σ

namespace Rearranged
variable {lo hi lo' hi' x : ℕ} {m m' m'' : Memory}

lemma refl (lo hi : ℕ) (m : Memory) : Rearranged lo hi m m := ⟨1, fun _ _ => rfl, rfl⟩

lemma trans (h : Rearranged lo hi m m') (h' : Rearranged lo hi m' m'') : Rearranged lo hi m m'' := by
  obtain ⟨σ, hσ, rfl⟩ := h
  obtain ⟨τ, hτ, rfl⟩ := h'
  refine ⟨σ * τ, fun x hx => ?_, rfl⟩
  rw [Equiv.Perm.mul_apply, hτ x hx, hσ x hx]

lemma mono (h : Rearranged lo hi m m') (hlo : lo' ≤ lo) (hhi : hi ≤ hi') : Rearranged lo' hi' m m' := by
  obtain ⟨σ, hσ, rfl⟩ := h
  exact ⟨σ, fun x hx => hσ x (by omega), rfl⟩

lemma swapAt {a b : ℕ} (ha : lo ≤ a ∧ a < hi) (hb : lo ≤ b ∧ b < hi) : Rearranged lo hi m (swapAt m a b) :=
  ⟨Equiv.swap a b, fun x hx => Equiv.swap_apply_of_ne_of_ne (by omega) (by omega), swapAt_eq_comp m a b⟩

lemma outside (h : Rearranged lo hi m m') (hx : x < lo ∨ hi ≤ x) : m' x = m x := by
  obtain ⟨σ, hσ, rfl⟩ := h
  rw [comp_apply, hσ x hx]

lemma mem_iff {σ : Equiv.Perm ℕ} (hσ : ∀ x, x < lo ∨ hi ≤ x → σ x = x) : lo ≤ σ x ∧ σ x < hi ↔ lo ≤ x ∧ x < hi := by
  constructor
  · intro h
    by_contra hx
    rw [hσ x (by omega)] at h
    exact hx h
  · intro h
    by_contra hx
    have hsame : σ x = x := σ.injective (hσ (σ x) (by omega))
    rw [hsame] at hx
    exact hx h

/-- What holds of all bytes still holds of all of them. -/
lemma forall_bytes {P : Byte → Prop} (h : Rearranged lo hi m m') (hall : ∀ x, lo ≤ x → x < hi → P (m x)) :
    ∀ x, lo ≤ x → x < hi → P (m' x) := by
  obtain ⟨σ, hσ, rfl⟩ := h
  intro x hlo hhi
  obtain ⟨hlo', hhi'⟩ := (mem_iff hσ).mpr ⟨hlo, hhi⟩
  exact hall (σ x) hlo' hhi'

end Rearranged

lemma elements_bytes (m : Memory) (base num : ℕ) :
    elements m base num 1 = (List.range' base num).map fun a => [m a] := by
  rw [List.range'_eq_map_range, List.map_map]
  exact List.map_congr_left fun k _ => by simp [readBytes]

lemma Rearranged.perm {base num : ℕ} {m m' : Memory} (h : Rearranged base (base + num) m m') :
    (elements m' base num 1).Perm (elements m base num 1) := by
  obtain ⟨σ, hσ, rfl⟩ := h
  have hmap : ((List.range' base num).map σ).Perm (List.range' base num) := by
    refine (List.perm_ext_iff_of_nodup ((List.nodup_range' ..).map σ.injective) (List.nodup_range' ..)).mpr fun x => ?_
    rw [List.mem_map, List.mem_range'_1]
    constructor
    · rintro ⟨y, hy, rfl⟩
      exact (mem_iff hσ).mpr (List.mem_range'_1.mp hy)
    · intro hx
      refine ⟨σ.symm x, List.mem_range'_1.mpr ?_, σ.apply_symm_apply x⟩
      rwa [← mem_iff hσ, σ.apply_symm_apply]
  rw [elements_bytes, elements_bytes]
  have hperm := hmap.map fun a => [m a]
  rwa [List.map_map] at hperm

namespace IsPreorder
variable {compar : Compar} (hc : IsPreorder compar) {x y : List Byte}
include hc

lemma le_of_not_lt (h : ¬ compar x y < 0) : compar y x ≤ 0 := not_lt.mp fun hlt => h ((hc.swap y x).mp hlt)

end IsPreorder

section Bytes
variable {compar : Compar} (hc : IsPreorder compar) {lo hi : ℕ}

/-- The byte at `x` stands before the byte `p`. -/
def Before (compar : Compar) (m : Memory) (p : Byte) (x : ℕ) : Prop := compar [m x] [p] < 0

/-- What the first loop has reached: the bytes that stand before the pivot, and the other ones. -/
structure Parted (compar : Compar) (m : Memory) (p : Byte) (a b c : ℕ) : Prop where
  before : ∀ x, a ≤ x → x < b → Before compar m p x
  behind : ∀ x, b ≤ x → x < c → ¬ Before compar m p x

lemma swapBytes_one (left right : ℕ → ℕ) (m : Memory) (hleft : Within lo hi (left 0) 1)
    (hright : Within lo hi (right 0) 1) :
    swapBytes lo hi 1 left right m = some (swapAt m (left 0) (right 0)) := by
  rw [swapBytes, List.range_one, List.foldlM_cons, if_pos ⟨hleft, hright⟩]
  rfl

lemma readBytes_one (m : Memory) (a : ℕ) : readBytes m a 1 = [m a] := by simp [readBytes]

/-- One more byte that stands before the pivot. -/
lemma Parted.swapAt {m : Memory} {p : Byte} {a b c : ℕ} (h : Parted compar m p a b c) (hbc : b ≤ c)
    (hc : Before compar m p c) : Parted compar (swapAt m b c) p a (b + 1) (c + 1) := by
  constructor
  · intro x hlo hhi
    rw [Before, swapAt_eq_comp, comp_apply, Equiv.swap_apply_def]
    split_ifs with hx hx
    · exact hc
    · omega
    · exact h.before x hlo (by omega)
  · intro x hlo hhi
    rw [Before, swapAt_eq_comp, comp_apply, Equiv.swap_apply_def]
    split_ifs with hx hx
    · omega
    · exact h.behind b le_rfl (by omega)
    · exact h.behind x (by omega) (by omega)

lemma Parted.succ {m : Memory} {p : Byte} {a b c : ℕ} (h : Parted compar m p a b c) (hc : ¬ Before compar m p c) :
    Parted compar m p a b (c + 1) := by
  refine ⟨h.before, fun x hlo hhi => ?_⟩
  obtain rfl | hne := eq_or_ne x c
  · exact hc
  · exact h.behind x hlo (by omega)

/-- The first loop parts the bytes before the pivot. -/
lemma scan_bytes {array n j i : ℕ} {m : Memory} (hlo : lo ≤ array) (hhi : array + j + n < hi) (hij : i ≤ j)
    (hfits : j + n < 2 ^ 64)
    (h : Parted compar m (m (array + j + n)) array (array + i) (array + j)) :
    ∃ i' m', scan compar lo hi 1 array (array + j + n) n j i m = some (i', m') ∧ i' ≤ j + n ∧
      Rearranged array (array + j + n) m m' ∧
      Parted compar m' (m (array + j + n)) array (array + i') (array + j + n) := by
  induction n generalizing j i m with
  | zero => exact ⟨i, m, rfl, hij, Rearranged.refl _ _ _, h⟩
  | succ n ih =>
    have hplace : array + j + (n + 1) = array + (j + 1) + n := by ring
    rw [hplace] at hhi h ⊢
    have hbytes : Within lo hi (array + j * 1) 1 ∧ Within lo hi (array + (j + 1) + n) 1 := by
      constructor <;> constructor <;> omega
    rw [scan, if_neg (not_not.mpr hbytes), readBytes_one, readBytes_one, Nat.mul_one]
    split_ifs with hlt
    · have hscaled : scaled 1 array i 0 = array + i := by
        rw [scaled, Nat.mul_one, Nat.mod_eq_of_lt (by omega), Nat.add_zero]
      have hleft : Within lo hi (scaled 1 array i 0) 1 := by
        rw [hscaled]
        constructor <;> omega
      have hright : Within lo hi (array + (j + 0)) 1 := by constructor <;> omega
      have hswap := swapBytes_one (scaled 1 array i) (fun k => array + (j + k)) m hleft hright
      rw [hscaled, Nat.add_zero] at hswap
      have hpivot : Qsort.swapAt m (array + i) (array + j) (array + (j + 1) + n) = m (array + (j + 1) + n) := by
        rw [swapAt_eq_comp, comp_apply, Equiv.swap_apply_of_ne_of_ne (by omega) (by omega)]
      have hparted := h.swapAt (by omega) hlt
      rw [← hpivot] at hparted
      obtain ⟨i', m', hscan, hi', hmoved, hp⟩ := ih hhi (show i + 1 ≤ j + 1 by omega) (by omega) hparted
      rw [hpivot] at hp
      rw [hswap]
      refine ⟨i', m', hscan, by omega, Rearranged.trans ?_ hmoved, hp⟩
      exact Rearranged.swapAt ⟨by omega, by omega⟩ ⟨by omega, by omega⟩
    · obtain ⟨i', m', hscan, hi', hmoved, hp⟩ := ih hhi (show i ≤ j + 1 by omega) (by omega) (h.succ hlt)
      exact ⟨i', m', hscan, by omega, hmoved, hp⟩

/-- The pivot comes to stand between the bytes before it and the other ones. -/
lemma Parted.pivot {m : Memory} {a b c : ℕ} (h : Parted compar m (m c) a b c) (hbc : b ≤ c) :
    (∀ x, a ≤ x → x < b → Before compar (Qsort.swapAt m b c) (m c) x) ∧ Qsort.swapAt m b c b = m c ∧
      ∀ x, b + 1 ≤ x → x < c + 1 → ¬ Before compar (Qsort.swapAt m b c) (m c) x := by
  refine ⟨fun x hlo hhi => ?_, ?_, fun x hlo hhi => ?_⟩
  · rw [Before, swapAt_eq_comp, comp_apply, Equiv.swap_apply_of_ne_of_ne (by omega) (by omega)]
    exact h.before x hlo hhi
  · rw [swapAt_eq_comp, comp_apply, Equiv.swap_apply_left]
  · rw [Before, swapAt_eq_comp, comp_apply, Equiv.swap_apply_def]
    split_ifs with hx hx
    · omega
    · exact h.behind b le_rfl (by omega)
    · exact h.behind x (by omega) (by omega)

def SortedOn (compar : Compar) (m : Memory) (a b : ℕ) : Prop := ∀ x y, a ≤ x → x < y → y < b → compar [m x] [m y] ≤ 0

include hc

/-- Two sorted parts with the pivot between them. -/
lemma SortedOn.join {m : Memory} {a b c : ℕ} (hleft : SortedOn compar m a b) (hright : SortedOn compar m (b + 1) c)
    (hbefore : ∀ x, a ≤ x → x < b → Before compar m (m b) x)
    (hbehind : ∀ x, b + 1 ≤ x → x < c → ¬ Before compar m (m b) x) : SortedOn compar m a c := by
  have hlow : ∀ x, a ≤ x → x ≤ b → compar [m x] [m b] ≤ 0 := by
    intro x hlo hhi
    obtain rfl | hlt := Nat.eq_or_lt_of_le hhi
    · exact not_lt.mp fun h => absurd h (lt_asymm ((hc.swap _ _).mp h))
    · exact (hbefore x hlo hlt).le
  have hhigh : ∀ y, b < y → y < c → compar [m b] [m y] ≤ 0 := fun y hlo hhi => hc.le_of_not_lt (hbehind y hlo hhi)
  intro x y hx hxy hy
  obtain hlt | hle := lt_or_ge y b
  · exact hleft x y hx hxy hlt
  · obtain hlt | hle' := lt_or_ge b x
    · exact hright x y hlt hxy hy
    · obtain rfl | hby := Nat.eq_or_lt_of_le hle
      · exact hlow x hx hle'
      · exact hc.trans _ _ _ (hlow x hx hle') (hhigh y hby hy)

/-- Bytes are sorted; the recursion is as deep as there are bytes at most. -/
lemma qsort_bytes {fuel array num : ℕ} {m : Memory} (hfuel : num < fuel) (hlo : lo ≤ array) (hhi : array + num ≤ hi)
    (hfits : num < 2 ^ 64) : ∃ m', qsort compar lo hi 1 fuel array num m = some m' ∧
      Rearranged array (array + num) m m' ∧ SortedOn compar m' array (array + num) := by
  induction fuel generalizing array num m with
  | zero => exact absurd hfuel (Nat.not_lt_zero _)
  | succ fuel ih =>
    by_cases hnum : num < 2
    · exact ⟨m, if_pos hnum, Rearranged.refl _ _ _, fun x y hx hxy hy => by omega⟩
    · obtain ⟨n, rfl⟩ := Nat.exists_eq_add_of_le' (show 1 ≤ num by omega)
      obtain ⟨k, m1, hscan, hk, hmoved, hparted⟩ :
          ∃ k m1, scan compar lo hi 1 array (array + 0 + n) n 0 0 m = some (k, m1) ∧ _ ∧ _ ∧ _ :=
        scan_bytes hlo (by omega) le_rfl (by omega) ⟨fun x hx hx' => by omega, fun x hx hx' => by omega⟩
      rw [Nat.add_zero] at hscan hmoved hparted
      rw [Nat.zero_add] at hk
      have hpivot : m1 (array + n) = m (array + n) := hmoved.outside (Or.inr le_rfl)
      rw [← hpivot] at hparted
      obtain ⟨hbefore, hplace, hbehind⟩ := hparted.pivot (Nat.add_le_add_left hk array)
      have hscaled : scaled 1 array k 0 = array + k := by
        rw [scaled, Nat.mul_one, Nat.mod_eq_of_lt (by omega), Nat.add_zero]
      have hwithin : Within lo hi (scaled 1 array k 0) 1 := by
        rw [hscaled]
        constructor <;> omega
      have hwithin' : Within lo hi (array + n) 1 := by constructor <;> omega
      have hswap := swapBytes_one (scaled 1 array k) (fun _ => array + n) m1 hwithin hwithin'
      rw [hscaled] at hswap
      generalize hm2 : Qsort.swapAt m1 (array + k) (array + n) = m2 at hswap hbefore hplace hbehind
      have hend : array + k + 1 + (n - k) = array + (n + 1) := by omega
      obtain ⟨m3, hleft, hmoved3, hsorted3⟩ : ∃ m3, qsort compar lo hi 1 fuel array k m2 = some m3 ∧ _ ∧ _ :=
        ih (by omega) hlo (by omega) (by omega)
      obtain ⟨m4, hright, hmoved4, hsorted4⟩ :
          ∃ m4, qsort compar lo hi 1 fuel (array + k + 1) (n - k) m3 = some m4 ∧ _ ∧ _ :=
        ih (by omega) (by omega) (by omega) (by omega)
      rw [hend] at hmoved4 hsorted4
      have hlow : ∀ x, x ≤ array + k → m4 x = m3 x := fun x hx => hmoved4.outside (Or.inl (by omega))
      have hmid : m4 (array + k) = m1 (array + n) := by
        rw [hlow _ le_rfl, hmoved3.outside (Or.inr le_rfl), hplace]
      refine ⟨m4, ?_, ?_, ?_⟩
      · simp only [qsort, if_neg hnum, Nat.add_sub_cancel, Nat.mul_one, hscan, Option.bind_some, hswap, Nat.div_one,
          hleft, Nat.add_sub_add_right, hright]
      · have hswapped : Rearranged array (array + (n + 1)) m1 m2 :=
          hm2 ▸ Rearranged.swapAt ⟨by omega, by omega⟩ ⟨by omega, by omega⟩
        exact (((hmoved.mono le_rfl (by omega)).trans hswapped).trans (hmoved3.mono le_rfl (by omega))).trans
          (hmoved4.mono (by omega) le_rfl)
      · refine SortedOn.join hc ?_ hsorted4 ?_ ?_
        · intro x y hx hxy hy
          rw [hlow x (by omega), hlow y (by omega)]
          exact hsorted3 x y hx hxy hy
        · intro x hx hx'
          rw [hmid, Before, hlow x (by omega)]
          exact hmoved3.forall_bytes (P := fun v => compar [v] [m1 (array + n)] < 0) hbefore x hx hx'
        · rw [hmid]
          refine hmoved4.forall_bytes (P := fun v => ¬ compar [v] [m1 (array + n)] < 0) fun x hx hx' => ?_
          rw [hmoved3.outside (Or.inr (by omega))]
          exact hbehind x hx (by omega)

end Bytes

/-- `qsort` sorts all arrays of a form exactly if an element is a byte or there are fewer than two of them. -/
theorem sorts_iff {num size : ℕ} (hsize : 0 < size) (hfits : num * size < 2 ^ 64) :
    Sorts num size ↔ num < 2 ∨ size = 1 := by
  constructor
  · intro h
    by_contra hnot
    obtain ⟨hnum, hone⟩ := not_or.mp hnot
    exact not_sorts (not_lt.mp hnum) (by omega) hfits h
  · rintro (hnum | rfl) compar hc base m
    · refine ⟨1, m, if_pos hnum, List.Perm.refl _, ?_⟩
      rw [elements, List.pairwise_map]
      refine List.pairwise_lt_range.imp_of_mem fun hx hy hlt => ?_
      have := List.mem_range.mp hy
      omega
    · rw [Nat.mul_one] at hfits ⊢
      obtain ⟨m', hrun, hmoved, hsorted⟩ := qsort_bytes hc (m := m) (Nat.lt_succ_self num) le_rfl le_rfl hfits
      refine ⟨num + 1, m', hrun, hmoved.perm, ?_⟩
      rw [elements_bytes, List.pairwise_map]
      refine (List.pairwise_lt_range' ..).imp_of_mem fun hx hy hlt => ?_
      exact hsorted _ _ (List.mem_range'_1.mp hx).1 hlt (List.mem_range'_1.mp hy).2

theorem sorts_bytes : Sorts 3 1 := (sorts_iff (by decide) (by decide)).mpr (Or.inr rfl)

/-- Two elements of two bytes each that are equal for the comparison: of 1, 0 and 0, 0 the first one becomes 0, 1. -/
theorem qsort_loses : elements (spike 0) 0 2 2 = [[1, 0], [0, 0]] ∧
    (qsort (fun _ _ => 0) 0 4 2 2 0 2 (spike 0)).map (fun m => elements m 0 2 2) = some [[0, 1], [0, 0]] ∧
    ¬ Sorts 2 2 :=
  ⟨by decide, by decide, not_sorts le_rfl le_rfl (by decide)⟩

end PiggyOs.Qsort
