import PiggyOs.ByteMemory

/-! What a list of stores leaves in memory. If no two of them overlap, every one of them can be read back. -/
namespace PiggyOs.Stores
open ByteMemory

structure Store where
  addr : ℕ
  bytes : List (BitVec 8)
  deriving DecidableEq, Repr

namespace Store

def stop (st : Store) : ℕ := st.addr + st.bytes.length

def put (m : Memory) (st : Store) : Memory := fun b =>
  if st.addr ≤ b ∧ b < st.stop then st.bytes.getD (b - st.addr) 0 else m b

def Within (lo hi : ℕ) (st : Store) : Prop := lo ≤ st.addr ∧ st.stop ≤ hi

instance (lo hi : ℕ) (st : Store) : Decidable (st.Within lo hi) := inferInstanceAs (Decidable (_ ∧ _))

def Apart (s t : Store) : Prop := s.stop ≤ t.addr ∨ t.stop ≤ s.addr

end Store

def stored (m : Memory) (sts : List Store) : Memory := sts.foldl Store.put m

/-- The bytes of a 64-bit word, lowest first. -/
def word (v : BitVec 64) : List (BitVec 8) := (List.range 8).map (byteOf v)

/-- The stores fall into a range, and no two of them overlap. -/
structure Packed (lo hi : ℕ) (sts : List Store) : Prop where
  within : ∀ st ∈ sts, st.Within lo hi
  apart : sts.Pairwise Store.Apart

section Lemmas
variable {m : Memory} {st : Store} {sts sts' : List Store} {b k lo mid mid' hi lo' hi' : ℕ}

@[simp] lemma length_word (v : BitVec 64) : (word v).length = 8 := by simp [word]

lemma word_getD (v : BitVec 64) (hk : k < 8) : (word v).getD k 0 = byteOf v k := by
  simp [word, List.getD_eq_getElem?_getD, hk]

lemma put_outside (h : b < st.addr ∨ st.stop ≤ b) : st.put m b = m b := if_neg (by omega)

lemma put_inside (hk : k < st.bytes.length) : st.put m (st.addr + k) = st.bytes.getD k 0 := by
  rw [Store.put, Store.stop, if_pos (by omega), Nat.add_sub_cancel_left]

lemma stored_outside (h : ∀ st ∈ sts, b < st.addr ∨ st.stop ≤ b) : stored m sts b = m b := by
  induction sts generalizing m with
  | nil => rfl
  | cons st sts ih =>
    obtain ⟨hst, hsts⟩ := List.forall_mem_cons.mp h
    exact (ih hsts).trans (put_outside hst)

lemma stored_inside (hsts : sts.Pairwise Store.Apart) (hst : st ∈ sts) (hk : k < st.bytes.length) :
    stored m sts (st.addr + k) = st.bytes.getD k 0 := by
  induction sts generalizing m with
  | nil => simp at hst
  | cons s sts ih =>
    obtain ⟨hs, hsts⟩ := List.pairwise_cons.mp hsts
    rcases List.mem_cons.mp hst with rfl | hst
    · change stored (st.put m) sts (st.addr + k) = _
      refine (stored_outside fun t ht => ?_).trans (put_inside hk)
      have hapart := hs t ht
      rw [Store.Apart, Store.stop] at hapart
      omega
    · exact ih hsts hst

lemma packed_nil (lo hi : ℕ) : Packed lo hi [] := ⟨by simp, .nil⟩

lemma packed_singleton (h : st.Within lo hi) : Packed lo hi [st] := ⟨by simpa using h, List.pairwise_singleton _ _⟩

lemma Packed.mono (h : Packed lo hi sts) (hlo : lo' ≤ lo) (hhi : hi ≤ hi') : Packed lo' hi' sts :=
  ⟨fun st hst => ⟨hlo.trans (h.within st hst).1, (h.within st hst).2.trans hhi⟩, h.apart⟩

/-- The first stores lie above the others. -/
lemma Packed.append_below (h : Packed mid hi sts) (h' : Packed lo mid sts') (hlo : lo ≤ mid) (hhi : mid ≤ hi) :
    Packed lo hi (sts ++ sts') := by
  refine ⟨fun st hst => ?_, List.pairwise_append.mpr ⟨h.apart, h'.apart, fun s hs t ht => ?_⟩⟩
  · rcases List.mem_append.mp hst with hst | hst
    · exact (h.mono hlo le_rfl).within st hst
    · exact (h'.mono le_rfl hhi).within st hst
  · exact Or.inr ((h'.within t ht).2.trans (h.within s hs).1)

/-- The first stores lie below the others. -/
lemma Packed.append_above (h : Packed lo mid sts) (h' : Packed mid hi sts') (hlo : lo ≤ mid) (hhi : mid ≤ hi) :
    Packed lo hi (sts ++ sts') := by
  refine ⟨fun st hst => ?_, List.pairwise_append.mpr ⟨h.apart, h'.apart, fun s hs t ht => ?_⟩⟩
  · rcases List.mem_append.mp hst with hst | hst
    · exact (h.mono le_rfl hhi).within st hst
    · exact (h'.mono hlo le_rfl).within st hst
  · exact Or.inl ((h.within s hs).2.trans (h'.within t ht).1)

lemma Packed.outside (h : Packed lo hi sts) (hb : b < lo ∨ hi ≤ b) : stored m sts b = m b := by
  refine stored_outside fun st hst => ?_
  obtain ⟨hlow, hhigh⟩ := h.within st hst
  omega

end Lemmas

end PiggyOs.Stores
