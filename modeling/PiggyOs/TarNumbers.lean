import Mathlib.Tactic

/-! Numbers in the headers of a tar archive: octal digits in a field of fixed width, and their decoding. -/
namespace PiggyOs.Initrd

def charDigit (c : BitVec 8) : BitVec 64 := c.signExtend 64 - 48

/-- `i` bytes have been passed, `len` are left. The second result is how many bytes were looked at. -/
def oct2intFrom (str : ℕ → BitVec 8) : (len i : ℕ) → BitVec 64 → BitVec 64 × ℕ
  | 0, i, value => (value, i + 1)
  | len + 1, i, value =>
    if str i = 0 then (value, i + 1) else oct2intFrom str len (i + 1) (value * 8 + charDigit (str i))

def oct2int (str : ℕ → BitVec 8) (len : ℕ) : BitVec 64 × ℕ := oct2intFrom str len 0 0

def space : BitVec 8 := 0x20

def IsOctal (c : BitVec 8) : Prop := 48 ≤ c.toNat ∧ c.toNat < 56

/-- The number that octal digits stand for, the first digit the most significant. -/
def octal (digits : List (BitVec 8)) : ℕ := Nat.ofDigits 8 (digits.reverse.map fun c => c.toNat - 48)

/-- Spaces, digits, and then spaces and zero bytes up to the end of the field. -/
structure Encodes (field : List (BitVec 8)) (n : ℕ) (spaces : ℕ) (digits tail : List (BitVec 8)) : Prop where
  field : field = List.replicate spaces space ++ digits ++ tail
  octal : ∀ c ∈ digits, IsOctal c
  some : digits ≠ []
  tail : ∀ c ∈ tail, c = 0 ∨ c = space
  value : Initrd.octal digits = n

/-- The field is decoded to `n`, whatever lies behind it, and nothing behind it is read. -/
def Decodes (field : List (BitVec 8)) (n : ℕ) : Prop :=
  ∀ str : ℕ → BitVec 8, (∀ i (h : i < field.length), str i = field[i]) →
    (oct2int str field.length).1.toNat = n ∧ (oct2int str field.length).2 ≤ field.length

/-- The field has a zero byte, and no space before it. -/
def ZeroEnded (field : List (BitVec 8)) : Prop := 0 ∈ field ∧ space ∉ field.takeWhile (· ≠ 0)

/-- What the loop computes, without the bound of 64 bits. -/
def charSum (v : ℤ) (cs : List (BitVec 8)) : ℤ := cs.foldl (fun v c => v * 8 + (c.toInt - 48)) v

section Loop
variable {str : ℕ → BitVec 8} {cs : List (BitVec 8)} {j : ℕ} {v : ℤ}

lemma charDigit_eq : ∀ c : BitVec 8, charDigit c = BitVec.ofInt 64 (c.toInt - 48) := by
  decide +kernel

/-- Nonzero bytes are added up. -/
lemma oct2intFrom_append (hs : ∀ i (h : i < cs.length), str (j + i) = cs[i]) (h0 : 0 ∉ cs) (len : ℕ) :
    oct2intFrom str (cs.length + len) j (BitVec.ofInt 64 v) =
      oct2intFrom str len (j + cs.length) (BitVec.ofInt 64 (charSum v cs)) := by
  induction cs generalizing j v with
  | nil => simp [charSum]
  | cons c cs ih =>
    obtain ⟨hc, hcs⟩ := not_or.mp (fun h => h0 (List.mem_cons.mpr h))
    have hj : str j = c := hs 0 (Nat.succ_pos _)
    have hnext : BitVec.ofInt 64 v * 8 + charDigit c = BitVec.ofInt 64 (v * 8 + (c.toInt - 48)) := by
      rw [charDigit_eq, BitVec.ofInt_add, BitVec.ofInt_mul]
      rfl
    have htail : ∀ i (h : i < cs.length), str (j + 1 + i) = cs[i] := by
      intro i hi
      have := hs (i + 1) (Nat.succ_lt_succ hi)
      rwa [← Nat.add_assoc, Nat.add_right_comm] at this
    rw [List.length_cons, Nat.add_right_comm, oct2intFrom, hj, if_neg fun h => hc h.symm, hnext, ih htail hcs]
    rw [Nat.add_assoc j 1, Nat.add_comm 1]
    rfl

/-- Up to a zero byte. -/
lemma oct2int_zero {rest : List (BitVec 8)} (h0 : 0 ∉ cs)
    (hs : ∀ i (h : i < (cs ++ 0 :: rest).length), str i = (cs ++ 0 :: rest)[i]) :
    oct2int str (cs ++ 0 :: rest).length = (BitVec.ofInt 64 (charSum 0 cs), cs.length + 1) := by
  have hcs : ∀ i (h : i < cs.length), str (0 + i) = cs[i] := by
    intro i hi
    rw [Nat.zero_add, hs i (by simp; omega), List.getElem_append_left hi]
  have hzero : str cs.length = 0 := by
    rw [hs cs.length (by simp), List.getElem_append_right le_rfl]
    simp
  have h := oct2intFrom_append (v := 0) hcs h0 (rest.length + 1)
  rw [oct2int, List.length_append, List.length_cons]
  rw [show (0 : BitVec 64) = BitVec.ofInt 64 0 from rfl, h, oct2intFrom, Nat.zero_add, if_pos hzero]

/-- A field that has no zero byte is left. -/
lemma oct2int_full (h0 : 0 ∉ cs) (hs : ∀ i (h : i < cs.length), str i = cs[i]) :
    (oct2int str cs.length).2 = cs.length + 1 := by
  have h := oct2intFrom_append (v := 0) (j := 0) (fun i hi => by rw [Nat.zero_add]; exact hs i hi) h0 0
  rw [oct2int, show (0 : BitVec 64) = BitVec.ofInt 64 0 from rfl, ← Nat.add_zero cs.length, h, oct2intFrom]
  simp

end Loop

section Sums

lemma charSum_append (v : ℤ) (cs ds : List (BitVec 8)) : charSum v (cs ++ ds) = charSum (charSum v cs) ds :=
  List.foldl_append ..

/-- Every space takes 16 off. -/
lemma charSum_spaces (v : ℤ) (k : ℕ) : 7 * charSum v (List.replicate k space) - 16 = 8 ^ k * (7 * v - 16) := by
  induction k generalizing v with
  | zero => simp [charSum]
  | succ k ih =>
    have hstep : charSum v (List.replicate (k + 1) space) = charSum (v * 8 - 16) (List.replicate k space) := rfl
    rw [hstep, ih]
    ring

lemma octal_append_single (digits : List (BitVec 8)) (c : BitVec 8) :
    octal (digits ++ [c]) = octal digits * 8 + (c.toNat - 48) := by
  simp [octal, Nat.ofDigits_cons]
  ring

lemma charSum_digits {digits : List (BitVec 8)} (h : ∀ c ∈ digits, IsOctal c) (v : ℤ) :
    charSum v digits = v * 8 ^ digits.length + octal digits := by
  induction digits using List.reverseRecOn with
  | nil => simp [charSum, octal]
  | append_singleton digits c ih =>
    have hc : IsOctal c := h c (by simp)
    have hint : c.toInt - 48 = ((c.toNat - 48 : ℕ) : ℤ) := by
      obtain ⟨h1, h2⟩ := hc
      rw [BitVec.toInt_eq_toNat_of_lt (by omega)]
      omega
    rw [charSum_append, ih fun d hd => h d (by simp [hd]), octal_append_single, List.length_append,
      List.length_singleton]
    change (v * 8 ^ digits.length + octal digits) * 8 + (c.toInt - 48) = _
    rw [hint]
    push_cast
    ring

lemma octal_lt {digits : List (BitVec 8)} (h : ∀ c ∈ digits, IsOctal c) : octal digits < 8 ^ digits.length := by
  have hlt := Nat.ofDigits_lt_base_pow_length (b := 8) (l := digits.reverse.map fun c => c.toNat - 48) (by decide) (by
    intro x hx
    obtain ⟨c, hc, rfl⟩ := List.mem_map.mp hx
    have := h c (List.mem_reverse.mp hc)
    unfold IsOctal at this
    omega)
  simpa [octal] using hlt

end Sums

section Fields
variable {field digits tail : List (BitVec 8)} {n k : ℕ}

lemma tail_split (h : ∀ c ∈ tail, c = 0 ∨ c = space) :
    ∃ a, tail = List.replicate a space ∨ ∃ rest, tail = List.replicate a space ++ 0 :: rest := by
  induction tail with
  | nil => exact ⟨0, .inl rfl⟩
  | cons c tail ih =>
    rcases h c List.mem_cons_self with rfl | rfl
    · exact ⟨0, .inr ⟨tail, rfl⟩⟩
    · obtain ⟨a, rfl | ⟨rest, rfl⟩⟩ := ih fun c hc => h c (List.mem_cons_of_mem _ hc)
      · exact ⟨a + 1, .inl rfl⟩
      · exact ⟨a + 1, .inr ⟨rest, rfl⟩⟩

lemma IsOctal.ne {c : BitVec 8} (h : IsOctal c) : c ≠ 0 ∧ c ≠ space := by
  unfold IsOctal at h
  constructor <;> rintro rfl <;> simp [space] at h

/-- No zero byte among the spaces and digits. -/
lemma zero_notMem (h : ∀ c ∈ digits, IsOctal c) (a : ℕ) :
    (0 : BitVec 8) ∉ List.replicate k space ++ digits ++ List.replicate a space := by
  simp only [List.mem_append, List.mem_replicate, not_or, not_and]
  refine ⟨⟨fun _ => by decide, fun hmem => (h 0 hmem).ne.1 rfl⟩, fun _ => by decide⟩

/-- Where the loop ends. -/
lemma Encodes.cases (h : Encodes field n k digits tail) : 0 ∉ field ∨
    ∃ a rest, field = (List.replicate k space ++ digits ++ List.replicate a space) ++ 0 :: rest := by
  obtain ⟨a, htail | ⟨rest, htail⟩⟩ := tail_split h.tail
  · refine .inl ?_
    rw [h.field, htail]
    exact zero_notMem h.octal a
  · refine .inr ⟨a, rest, ?_⟩
    rw [h.field, htail, List.append_assoc _ _ (0 :: rest)]

lemma zeroEnded_iff (h : ∀ c ∈ digits, IsOctal c) (a : ℕ) (rest : List (BitVec 8)) :
    ZeroEnded ((List.replicate k space ++ digits ++ List.replicate a space) ++ 0 :: rest) ↔
      k = 0 ∧ a = 0 := by
  have htake : ((List.replicate k space ++ digits ++ List.replicate a space) ++ 0 :: rest).takeWhile (· ≠ 0) =
      List.replicate k space ++ digits ++ List.replicate a space := by
    rw [List.takeWhile_append_of_pos]
    · simp
    · intro c hc
      simpa using fun h0 : c = 0 => zero_notMem h a (h0 ▸ hc)
  have hdigits : space ∉ digits := fun hmem => (h space hmem).ne.2 rfl
  rw [ZeroEnded, htake]
  simp [hdigits]

/-- What the loop makes of spaces, digits and spaces. -/
lemma charSum_field (h : ∀ c ∈ digits, IsOctal c) (a : ℕ) :
    7 * charSum 0 (List.replicate k space ++ digits ++ List.replicate a space) - 16 =
      8 ^ a * ((16 - 16 * 8 ^ k) * 8 ^ digits.length + 7 * octal digits - 16) := by
  have hlead := charSum_spaces 0 k
  rw [charSum_append, charSum_append, charSum_spaces, charSum_digits h]
  linear_combination (8 ^ a * 8 ^ digits.length) * hlead

/-- Leading spaces or spaces after the number change it. -/
lemma charSum_field_iff (h : ∀ c ∈ digits, IsOctal c) (a : ℕ) :
    charSum 0 (List.replicate k space ++ digits ++ List.replicate a space) = octal digits ↔
      k = 0 ∧ a = 0 := by
  have hsum := charSum_field (k := k) h a
  have hlt : (octal digits : ℤ) < 8 ^ digits.length := by exact_mod_cast octal_lt h
  constructor
  · intro heq
    rw [heq] at hsum
    have hA : (1 : ℤ) ≤ 8 ^ a := one_le_pow₀ (by decide)
    have hzero : k = 0 := by
      by_contra hs
      have hX : (8 : ℤ) ≤ 8 ^ k := le_self_pow₀ (by decide) hs
      have hlead : (16 - 16 * 8 ^ k : ℤ) * 8 ^ digits.length ≤ -112 * 8 ^ digits.length :=
        mul_le_mul_of_nonneg_right (by linarith) (by positivity)
      have hneg : (16 - 16 * 8 ^ k : ℤ) * 8 ^ digits.length + 7 * octal digits - 16 < 0 := by
        have : (0 : ℤ) < 8 ^ digits.length := by positivity
        linarith
      have hmore := mul_le_mul_of_nonpos_right hA (le_of_lt hneg)
      have : (0 : ℤ) < 8 ^ digits.length := by positivity
      linarith
    refine ⟨hzero, ?_⟩
    rw [hzero, pow_zero, mul_one, sub_self, zero_mul, zero_add] at hsum
    have hprod : (8 ^ a - 1) * (7 * (octal digits : ℤ) - 16) = 0 := by linarith
    rcases mul_eq_zero.mp hprod with hone | hsixteen
    · by_contra ha
      have : (8 : ℤ) ≤ 8 ^ a := le_self_pow₀ (by decide) ha
      omega
    · omega
  · rintro ⟨rfl, rfl⟩
    simp only [pow_zero] at hsum
    linarith

/-- In 20 bytes nothing wraps around. -/
lemma charSum_small (h : ∀ c ∈ digits, IsOctal c) (a : ℕ) (hlen : k + digits.length + a < 20) :
    |charSum 0 (List.replicate k space ++ digits ++ List.replicate a space)| < 2 ^ 62 := by
  have hsum := charSum_field (k := k) h a
  have hlt : (octal digits : ℤ) < 8 ^ digits.length := by exact_mod_cast octal_lt h
  have hpow : (8 : ℤ) ^ a * 8 ^ k * 8 ^ digits.length ≤ 8 ^ 19 := by
    rw [← pow_add, ← pow_add]
    exact pow_le_pow_right₀ (by decide) (by omega)
  generalize hA : (8 : ℤ) ^ a = A at *
  generalize hX : (8 : ℤ) ^ k = X at *
  generalize hD : (8 : ℤ) ^ digits.length = D at *
  have hA1 : 1 ≤ A := hA ▸ one_le_pow₀ (by decide)
  have hX1 : 1 ≤ X := hX ▸ one_le_pow₀ (by decide)
  have hD1 : 1 ≤ D := hD ▸ one_le_pow₀ (by decide)
  have hAD : A * D ≤ A * X * D := mul_le_mul_of_nonneg_right (le_mul_of_one_le_right (by omega) hX1) (by omega)
  have hAA : A ≤ A * D := le_mul_of_one_le_right (by omega) hD1
  have hAn : A * (octal digits : ℤ) ≤ A * D := mul_le_mul_of_nonneg_left (le_of_lt hlt) (by omega)
  have hAn0 : 0 ≤ A * (octal digits : ℤ) := by positivity
  have hexpand : A * ((16 - 16 * X) * D + 7 * octal digits - 16) =
      16 * (A * D) - 16 * (A * X * D) + 7 * (A * octal digits) - 16 * A := by ring
  rw [hexpand] at hsum
  rw [abs_lt]
  omega

/-- A field of at most 20 bytes is decoded if and only if it ends with a zero byte and has no spaces; with these
any field is decoded whose number has 64 bits. -/
theorem oct2int_decodes (h : Encodes field n k digits tail) :
    (field.length ≤ 20 → (Decodes field n ↔ ZeroEnded field)) ∧ (ZeroEnded field → n < 2 ^ 64 → Decodes field n) := by
  have henough : ZeroEnded field → n < 2 ^ 64 → Decodes field n := by
    intro hzero hn str hstr
    rcases h.cases with h0 | ⟨a, rest, hfield⟩
    · exact absurd hzero.1 h0
    · rw [hfield, zeroEnded_iff h.octal] at hzero
      obtain ⟨rfl, rfl⟩ := hzero
      have hsum := (charSum_field_iff (k := 0) h.octal 0).mpr ⟨rfl, rfl⟩
      rw [hfield] at hstr ⊢
      rw [oct2int_zero (zero_notMem h.octal 0) hstr, hsum, h.value]
      refine ⟨?_, by simp⟩
      rw [BitVec.ofInt_natCast, BitVec.toNat_ofNat, Nat.mod_eq_of_lt hn]
  refine ⟨fun hlen => ⟨fun hdec => ?_, fun hzero => henough hzero ?_⟩, henough⟩
  · have hget : ∀ i (hi : i < field.length), field.getD i 0 = field[i] := fun i hi => by simp [hi]
    obtain ⟨hvalue, hread⟩ := hdec (fun i => field.getD i 0) hget
    rcases h.cases with h0 | ⟨a, rest, hfield⟩
    · rw [oct2int_full h0 hget] at hread
      omega
    · rw [hfield] at hvalue hlen hget ⊢
      rw [oct2int_zero (zero_notMem h.octal a) hget, ← h.value] at hvalue
      have hsmall := charSum_small (k := k) h.octal a (by
        simp only [List.length_append, List.length_replicate, List.length_cons] at hlen
        omega)
      have hn : octal digits < 8 ^ 20 := (octal_lt h.octal).trans_le (Nat.pow_le_pow_right (by decide) (by
        simp only [List.length_append, List.length_replicate, List.length_cons] at hlen
        omega))
      rw [abs_lt] at hsmall
      rw [zeroEnded_iff h.octal, ← charSum_field_iff h.octal a]
      rw [BitVec.toNat_ofInt] at hvalue
      omega
  · rw [← h.value]
    refine (octal_lt h.octal).trans_le ((Nat.pow_le_pow_right (by decide) (?_ : digits.length ≤ 20)).trans (by decide))
    rw [h.field] at hlen
    simp only [List.length_append, List.length_replicate] at hlen
    omega

/-- Five in a field of eight bytes, ended with a space. -/
theorem oct2int_spaceEnded : ∃ tail digits, Encodes [0x30, 0x35, 0x20, 0, 0, 0, 0, 0] 5 0 digits tail ∧
    ¬ Decodes [0x30, 0x35, 0x20, 0, 0, 0, 0, 0] 5 := by
  refine ⟨[0x20, 0, 0, 0, 0, 0], [0x30, 0x35], ⟨rfl, ?_, by decide, by decide, by decide⟩, fun h => ?_⟩
  · unfold IsOctal
    decide
  · have hvalue := (h (fun i => [0x30, 0x35, 0x20, 0, 0, 0, 0, 0].getD i 0) (by decide)).1
    revert hvalue
    decide

theorem oct2int_decodes_zeroEnded : Decodes [0x30, 0x35, 0, 0] 5 ↔ ZeroEnded [0x30, 0x35, 0, 0] :=
  have h : Encodes [0x30, 0x35, 0, 0] 5 0 [0x30, 0x35] [0, 0] :=
    ⟨rfl, by unfold IsOctal; decide, by decide, by decide, by decide⟩
  (oct2int_decodes h).1 (by decide)

end Fields

end PiggyOs.Initrd
