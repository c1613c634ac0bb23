import PiggyOs.Append

/-! Reading at the end of a file of `tmpfs` and behind it. The number of bytes to copy is computed
with unsigned numbers, which is right up to the end only: behind it the difference is negative and
`memcpy` takes it for a huge count. -/
namespace PiggyOs.FileCalls
open ByteMemory Tmpfs Fork Transition

/-- `tmpfs_read` returns the bytes of the file from `offset` on, at most `count` of them, and copies
no others. -/
structure ReadsExactly (file : TmpFile) (offset count : BitVec 64) : Prop where
  copied : (actualCount file.size offset count).toNat = min count.toNat (file.size.toNat - offset.toNat)
  bytes : tmpfsRead file offset count =
    some (((readBytes file.data 0 file.size.toNat).drop offset.toNat).take count.toNat)

section Reads
variable {file : TmpFile} {size offset count : BitVec 64}

lemma lt_actualCount (hsize : size.toNat < 2 ^ 63) (hsum : offset.toNat + count.toNat < 2 ^ 63)
    (hoff : size.toNat < offset.toNat) : count.toNat < (actualCount size offset count).toNat := by
  rw [actualCount_outside hsize hsum hoff]
  omega

lemma readsExactly_inside (hsize : file.size.toNat < 2 ^ 63) (hsum : offset.toNat + count.toNat < 2 ^ 63)
    (hoff : offset.toNat ≤ file.size.toNat) : ReadsExactly file offset count := by
  refine ⟨actualCount_inside hsize hsum hoff, ?_⟩
  rw [take_drop_readBytes, Nat.zero_add, tmpfsRead_inside hsize hsum hoff]

/-- A read is exact just if it does not begin behind the end of the file. -/
theorem tmpfsRead_exact_iff (hsize : file.size.toNat < 2 ^ 63) (hsum : offset.toNat + count.toNat < 2 ^ 63) :
    ReadsExactly file offset count ↔ offset.toNat ≤ file.size.toNat := by
  constructor
  · intro h
    by_contra hoff
    have hlt := lt_actualCount hsize hsum (Nat.not_le.mp hoff)
    rw [h.copied] at hlt
    exact absurd (Nat.min_le_left _ _) (Nat.not_le.mpr hlt)
  · intro hoff
    exact readsExactly_inside hsize hsum hoff

end Reads

/-- Three bytes, of which the last two are read. -/
theorem tmpfsRead_exact_threeBytes : ReadsExactly ⟨4096, 3, fun k => BitVec.ofNat 8 k⟩ 1 7 :=
  (tmpfsRead_exact_iff (by decide) (by decide)).mpr (by decide)

/-- A new file is opened and the descriptor is moved behind its end. -/
def moved : List (Call × Answer) := [(.openFile 1 oRdwr fun _ => 0, .ret 0), (.seek 1 fd0 1 seekSet, .ret 1)]

/-- The read of one byte there copies `2 ^ 64 - 1` bytes. -/
theorem tmpfsRead_behind_end : ∃ s, Run (Performed tmpfsOps) (created fun _ => 0) moved s ∧
    ∃ fd ∈ s.tables 1 fd0, s.file.size = 0 ∧ fd.offset = 1 ∧ ¬ ReadsExactly s.file fd.offset 1 ∧
      (actualCount s.file.size fd.offset 1).toNat = 2 ^ 64 - 1 ∧
      syscall tmpfsOps s (.read 1 fd0 true 1) = none := by
  refine ⟨_, .cons ⟨trivial, rfl⟩ (.cons ⟨trivial, rfl⟩ (.nil _)), _, rfl, rfl, rfl, fun h => ?_, ?_, rfl⟩
  · exact absurd h.copied (by decide)
  · decide

end PiggyOs.FileCalls
