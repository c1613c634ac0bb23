import PiggyOs.Vmm
import PiggyOs.PageSource

/-! What the functions on page tables read and write: the bits of an entry, one entry at a time,
and the one way in which a table is added. -/
namespace PiggyOs.Vmm
open ByteMemory Walk

lemma and_twoPow_ne_zero (e : BitVec 64) {k : ℕ} (hk : k < 64) :
    e &&& BitVec.twoPow 64 k ≠ 0 ↔ e.getLsbD k = true := by
  have hne : BitVec.twoPow 64 k ≠ 0 := by
    intro h
    have := congrArg (fun x => x.getLsbD k) h
    simp [hk] at this
  rw [BitVec.and_twoPow]
  by_cases hb : e.getLsbD k = true
  · simp only [hb, if_true]
    exact iff_of_true hne trivial
  · simp [hb]

lemma present_iff (e : BitVec 64) : Present e ↔ e.getLsbD 0 = true :=
  and_twoPow_ne_zero e (k := 0) (by decide)

lemma large_iff (e : BitVec 64) : Large e ↔ e.getLsbD 7 = true :=
  and_twoPow_ne_zero e (k := 7) (by decide)

lemma frameOf_eq (e : BitVec 64) : frameOf e = e.toNat / pageSize % 2 ^ 51 := by
  have hmask : (~~~pteFlagMask).toNat = (2 ^ 51 - 1) * 2 ^ 12 := by decide
  have hpage : pageSize = 2 ^ 12 := rfl
  rw [frameOf, BitVec.toNat_and, hmask, hpage]
  apply Nat.eq_of_testBit_eq
  intro i
  simp only [Nat.testBit_div_two_pow, Nat.testBit_and, Nat.testBit_mod_two_pow,
    Nat.testBit_mul_two_pow, Nat.testBit_two_pow_sub_one]
  simp [Bool.and_comm]

/-- An index is nine bits of the address. -/
lemma index_val (vaddr : BitVec 64) {shift : ℕ} (h : shift ≤ 55) :
    (index vaddr shift).val = vaddr.toNat / 2 ^ shift % 512 := by
  have hpow : 2 ^ shift ≤ 2 ^ 55 := Nat.pow_le_pow_right (by decide) h
  have hmask : (0x1ff#64 <<< shift).toNat = (2 ^ 9 - 1) * 2 ^ shift := by
    rw [BitVec.toNat_shiftLeft, Nat.shiftLeft_eq, BitVec.toNat_ofNat, Nat.mod_eq_of_lt]
    · norm_num
    · norm_num
      omega
  have hbits : (vaddr.toNat &&& (2 ^ 9 - 1) * 2 ^ shift) / 2 ^ shift =
      vaddr.toNat / 2 ^ shift % 2 ^ 9 := by
    apply Nat.eq_of_testBit_eq
    intro i
    simp only [Nat.testBit_div_two_pow, Nat.testBit_and, Nat.testBit_mod_two_pow,
      Nat.testBit_mul_two_pow, Nat.testBit_two_pow_sub_one]
    simp [Bool.and_comm]
  rw [index, Fin.ofNat]
  simp only [BitVec.toNat_ushiftRight, BitVec.toNat_and, hmask, Nat.shiftRight_eq_div_pow, hbits]
  norm_num

/-- The flags lie inside `PTE_FLAG_MASK`. -/
def FlagsOnly (flags : BitVec 64) : Prop := flags &&& ~~~pteFlagMask = 0#64

/-- The value that `vmm_map_page` writes for a new table in frame `f`. -/
def link (f : ℕ) (flags : BitVec 64) : BitVec 64 :=
  BitVec.ofNat 64 (f * pageSize) ||| ((flags &&& maskedFlags) ||| pteWritable)

lemma frameOf_or {a flags : BitVec 64} (h : FlagsOnly flags) : frameOf (a ||| flags) = frameOf a := by
  rw [frameOf, frameOf, BitVec.and_comm, BitVec.and_or_distrib_left, BitVec.and_comm _ flags, h,
    BitVec.or_zero, BitVec.and_comm]

lemma frameOf_ofNat {f : ℕ} (h : f * pageSize < 2 ^ 63) : frameOf (BitVec.ofNat 64 (f * pageSize)) = f := by
  rw [frameOf_eq, BitVec.toNat_ofNat]
  simp only [pageSize] at *
  omega

lemma flagsOnly_link {flags : BitVec 64} (h : FlagsOnly flags) :
    FlagsOnly ((flags &&& maskedFlags) ||| pteWritable) := by
  have hw : pteWritable &&& ~~~pteFlagMask = 0#64 := by decide
  unfold FlagsOnly at *
  rw [BitVec.and_comm, BitVec.and_or_distrib_left, BitVec.and_comm _ (flags &&& _),
    BitVec.and_comm _ pteWritable, hw, BitVec.or_zero, BitVec.and_assoc, BitVec.and_comm maskedFlags,
    ← BitVec.and_assoc, h, BitVec.zero_and]

lemma frameOf_link {f : ℕ} {flags : BitVec 64} (hf : f * pageSize < 2 ^ 63) (h : FlagsOnly flags) :
    frameOf (link f flags) = f := by
  rw [link, frameOf_or (flagsOnly_link h), frameOf_ofNat hf]

lemma ofNat_low_bit {f k : ℕ} (hk : k < 12) : (BitVec.ofNat 64 (f * pageSize)).getLsbD k = false := by
  have hpage : pageSize = 2 ^ 12 := rfl
  rw [BitVec.getLsbD_ofNat, hpage, Nat.testBit_mul_two_pow]
  simp only [Bool.and_eq_false_imp, decide_eq_true_eq]
  omega

lemma present_link {f : ℕ} {flags : BitVec 64} : Present (link f flags) ↔ Present flags := by
  have hm : maskedFlags.getLsbD 0 = true := by decide
  have hw : pteWritable.getLsbD 0 = false := by decide
  rw [present_iff, present_iff, link, BitVec.getLsbD_or, BitVec.getLsbD_or, BitVec.getLsbD_and, hm, hw,
    ofNat_low_bit (by decide)]
  simp

lemma not_large_link (f : ℕ) (flags : BitVec 64) : ¬ Large (link f flags) := by
  have hm : maskedFlags.getLsbD 7 = false := by decide
  have hw : pteWritable.getLsbD 7 = false := by decide
  rw [large_iff, link, BitVec.getLsbD_or, BitVec.getLsbD_or, BitVec.getLsbD_and, hm, hw,
    ofNat_low_bit (by decide)]
  simp

section Entries
variable {σ : Type} (m : Machine σ)

lemma entryAddr_inside (t : ℕ) (i : Fin 512) :
    t * pageSize ≤ entryAddr t i ∧ entryAddr t i + 8 ≤ t * pageSize + pageSize := by
  have := i.isLt
  simp only [entryAddr, pageSize]
  omega

@[simp] lemma entry_setEntry (t : ℕ) (i : Fin 512) (e : BitVec 64) (s : ℕ) (j : Fin 512) :
    (m.setEntry t i e).entry s j = if s = t ∧ j = i then e else m.entry s j := by
  by_cases h : s = t ∧ j = i
  · obtain ⟨rfl, rfl⟩ := h
    simp [Machine.entry, Machine.setEntry]
  · rw [if_neg h]
    apply read64_write64_of_apart
    have hi := i.isLt
    have hj := j.isLt
    have hij : s = t → j.val ≠ i.val := fun hs hv => h ⟨hs, Fin.ext hv⟩
    simp only [entryAddr, pageSize]
    omega

@[simp] lemma setEntry_pmm (t : ℕ) (i : Fin 512) (e : BitVec 64) : (m.setEntry t i e).pmm = m.pmm := rfl

lemma setEntry_bytes (t : ℕ) (i : Fin 512) (e : BitVec 64) {b : ℕ} (hb : b / pageSize ≠ t) :
    (m.setEntry t i e).mem b = m.mem b := by
  have := entryAddr_inside t i
  apply write64_outside
  simp only [pageSize] at *
  omega

/-- An entry depends on the bytes of its own table. -/
lemma entry_congr {m m' : Machine σ} {t : ℕ} (h : ∀ b, b / pageSize = t → m'.mem b = m.mem b)
    (i : Fin 512) : m'.entry t i = m.entry t i := by
  have hin := entryAddr_inside t i
  unfold Machine.entry
  apply read64_congr
  intro k hk
  apply h
  simp only [pageSize] at *
  omega

@[simp] lemma setEntry_setEntry (t : ℕ) (i : Fin 512) (e e' : BitVec 64) :
    (m.setEntry t i e).setEntry t i e' = m.setEntry t i e' := by
  simp [Machine.setEntry]

/-- Clearing one frame clears its entries and no others. -/
lemma entry_clear (f s : ℕ) (j : Fin 512) (p : σ) :
    (⟨clear m.mem (f * pageSize) pageSize, p⟩ : Machine σ).entry s j =
      if s = f then 0 else m.entry s j := by
  have hin := entryAddr_inside s j
  by_cases h : s = f
  · subst h
    rw [if_pos rfl]
    exact read64_clear _ hin.1 hin.2
  · rw [if_neg h]
    apply read64_clear_of_apart
    simp only [pageSize] at *
    omega

end Entries

section Frames
variable {σ : Type} {highVma : ℕ} (src : PageSource σ highVma)

/-- The frame lies in a range that was given out. -/
def Taken (p : σ) (f : ℕ) : Prop :=
  ∃ x ∈ src.granted p, x.1 ≤ f * pageSize ∧ f * pageSize + pageSize ≤ x.1 + x.2

variable {src}

/-- One page from the supplier is a frame that was not taken. -/
lemma alloc_frame {p q : σ} {a : ℕ} (hv : 2 ^ 63 ≤ highVma) (h : src.alloc p 1 = some (a, q)) :
    ∃ f, a = f * pageSize ∧ f * pageSize < 2 ^ 63 ∧ ¬ Taken src p f ∧
      ∀ g, Taken src q g ↔ Taken src p g ∨ g = f := by
  have ha := src.aligned h
  have hm := src.mapped h
  refine ⟨a / pageSize, ?_, ?_, ?_, fun g => ?_⟩
  · simp only [pageSize] at *
    omega
  · simp only [pageSize] at *
    omega
  · rintro ⟨x, hx, h1, h2⟩
    have := src.apart h x hx
    simp only [Apart, pageSize] at *
    omega
  · unfold Taken
    rw [src.record h]
    constructor
    · rintro ⟨x, hx, h1, h2⟩
      rcases List.mem_cons.mp hx with rfl | hx
      · right
        simp only [pageSize] at *
        omega
      · exact Or.inl ⟨x, hx, h1, h2⟩
    · rintro (⟨x, hx, h1, h2⟩ | rfl)
      · exact ⟨x, List.mem_cons_of_mem _ hx, h1, h2⟩
      · refine ⟨_, List.mem_cons_self, ?_⟩
        simp only [pageSize] at *
        omega

/-- `m'` is `m` with a new, empty table in frame `f`, behind entry `i` of table `t`, which is
now `e`. -/
structure Linked (src : PageSource σ highVma) (m m' : Machine σ) (t : ℕ) (i : Fin 512) (f : ℕ)
    (e : BitVec 64) : Prop where
  low : f * pageSize < 2 ^ 63
  mapped : f * pageSize + pageSize + highVma ≤ 2 ^ 64
  fresh : ¬ Taken src m.pmm f
  taken : ∀ g, Taken src m'.pmm g ↔ Taken src m.pmm g ∨ g = f
  entry : ∀ s j, m'.entry s j = if s = t ∧ j = i then e else if s = f then 0 else m.entry s j
  bytes : ∀ b, b / pageSize ≠ f → b / pageSize ≠ t → m'.mem b = m.mem b

/-- A page from `pmm_allocz`, written to an entry. -/
lemma linked_of_allocz {m m1 : Machine σ} {a : ℕ} (hv : 2 ^ 63 ≤ highVma)
    (h : pmmAllocz src.alloc m 1 = some (a, m1)) :
    ∃ f, a = f * pageSize ∧ ∀ t i e, Linked src m (m1.setEntry t i e) t i f e := by
  obtain ⟨⟨a', q⟩, ha, h⟩ := Option.map_eq_some_iff.mp h
  obtain ⟨f, rfl, hlow, hfresh, htaken⟩ := alloc_frame hv ha
  obtain ⟨rfl, rfl⟩ := Prod.mk.inj h
  have hmapped := src.mapped ha
  rw [Nat.mul_one] at hmapped
  refine ⟨f, rfl, fun t i e => ⟨hlow, hmapped, hfresh, htaken, fun s j => ?_, fun b hb hbt => ?_⟩⟩
  · rw [entry_setEntry, Nat.mul_one, entry_clear]
  · rw [setEntry_bytes _ _ _ _ hbt]
    apply clear_outside
    simp only [pageSize] at *
    omega

/-- The outcomes of the step that `vmm_map_page` repeats. -/
theorem ensureTable_cases {m m' : Machine σ} {flags : BitVec 64} {t : ℕ} {i : Fin 512}
    {r : Option ℕ} (hv : 2 ^ 63 ≤ highVma) (h : ensureTable src.alloc m flags t i = some (r, m')) :
    (Present (m.entry t i) ∧ r = some (frameOf (m.entry t i)) ∧ m' = m) ∨
    (¬ Present (m.entry t i) ∧ r = none ∧ Linked src m m' t i 0 0) ∨
    (¬ Present (m.entry t i) ∧ ∃ f, f ≠ 0 ∧ r = some (frameOf (link f flags)) ∧
      Linked src m m' t i f (link f flags)) := by
  unfold ensureTable at h
  split_ifs at h with hp
  · simp only [Option.some.injEq, Prod.mk.injEq] at h
    exact Or.inl ⟨hp, h.1.symm, h.2.symm⟩
  right
  cases ha : pmmAllocz src.alloc m 1 with
  | none => simp [ha] at h
  | some x =>
    obtain ⟨a, m1⟩ := x
    obtain ⟨f, rfl, hlinked⟩ := linked_of_allocz hv ha
    have hlow := (hlinked t i 0).low
    have hzero : BitVec.ofNat 64 (f * pageSize) = 0#64 ↔ f = 0 := by
      rw [← BitVec.toNat_inj, BitVec.toNat_ofNat, BitVec.toNat_zero]
      simp only [pageSize] at *
      omega
    simp only [ha, Option.map_some, entry_setEntry, and_self, if_true, setEntry_setEntry,
      Option.some.injEq] at h
    split_ifs at h with h0
    · obtain ⟨rfl, rfl⟩ := Prod.mk.inj h
      obtain rfl := hzero.mp h0
      exact Or.inl ⟨hp, rfl, h0 ▸ hlinked t i _⟩
    · obtain ⟨rfl, rfl⟩ := Prod.mk.inj h
      exact Or.inr ⟨hp, f, fun hf => h0 (hzero.mpr hf), rfl, hlinked t i _⟩

end Frames

end PiggyOs.Vmm
