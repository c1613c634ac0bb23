import PiggyOs.FileCalls

/-! Holes in files of `tmpfs`. Neither `tmpfs_write` nor `tmpfs_truncate` clears the bytes between
the old end of the file and the new one, so a hole shows what the buffer held before. -/
namespace PiggyOs.FileCalls
open ByteMemory Tmpfs Fork Transition

/-- A file with the positions that were written since it was created or last shrunk below them. -/
def tracedOps : FileOps (TmpFile × Set ℕ) where
  size file := file.1.size
  read file := tmpfsRead file.1
  write file stale buf offset count := (tmpfsWrite stale file.1 buf offset count).map fun f =>
    (f, file.2 ∪ {k | offset.toNat ≤ k ∧ k < offset.toNat + count.toNat})
  truncate file stale length := (tmpfsTruncate stale file.1 length).map fun f => (f, {k ∈ file.2 | k < length.toNat})

def tracedCreated (stale : Memory) : Files (TmpFile × Set ℕ) := ⟨(tmpfsCreate stale, ∅), fun _ _ => none⟩

/-- The bytes that a call makes part of the file without writing them are zero in the buffer. -/
def ZeroHole (s : Files (TmpFile × Set ℕ)) : Call → Prop
  | .write process fdnum _ _ stale count => ∀ fd ∈ s.tables process fdnum, ∀ f,
      writeBuffer stale s.file.1 fd.offset count = some f →
      ∀ k, s.file.1.size.toNat ≤ k → k < fd.offset.toNat → f.data k = 0
  | .truncate _ _ length stale => ∀ f, truncateBuffer stale s.file.1 length = some f →
      ∀ k, s.file.1.size.toNat ≤ k → k < length.toNat → f.data k = 0
  | _ => True

section Effects
variable {F : Type} {ops : FileOps F} {s s' : Files F} {answer : Answer} {process : ℕ} {fdnum : Fin maxFds}

/-- The body of a call gets a descriptor with the offset that is in the table. -/
lemma withFd_file {body : FileDescriptor → Files F → Option (Answer × Files F)}
    (h : withFd s process fdnum body = some (answer, s')) :
    (s'.file = s.file ∧ ∃ e, answer = .ret e) ∨ ∃ fd fd0 s1, fd0 ∈ s.tables process fdnum ∧
      fd.offset = fd0.offset ∧ s1.file = s.file ∧ body fd s1 = some (answer, s') := by
  rcases withFd_cases h with ⟨-, rfl, rfl⟩ | ⟨fd, hfd, ⟨-, rfl, rfl⟩ | ⟨-, hbody⟩⟩
  · exact Or.inl ⟨rfl, _, rfl⟩
  · exact Or.inl ⟨rfl, _, rfl⟩
  · exact Or.inr ⟨{ fd with refcount := fd.refcount + 1 }, fd, taken s process fdnum fd, hfd, rfl, rfl, hbody⟩

lemma syscallOpen_file {flags : BitVec 32} {stale : Memory}
    (h : syscallOpen ops s process flags stale = some (answer, s')) :
    s'.file = s.file ∨ ops.truncate s.file stale 0 = some s'.file := by
  unfold syscallOpen at h
  by_cases hexcl : flags &&& oCreat ≠ 0 ∧ flags &&& oExcl ≠ 0
  · rw [if_pos hexcl] at h
    obtain ⟨-, rfl⟩ := Prod.mk.inj (Option.some.inj h)
    exact Or.inl rfl
  rw [if_neg hexcl] at h
  by_cases hdir : flags &&& oDirectory ≠ 0
  · rw [if_pos hdir] at h
    obtain ⟨-, rfl⟩ := Prod.mk.inj (Option.some.inj h)
    exact Or.inl rfl
  rw [if_neg hdir] at h
  obtain ⟨file, hfile, h⟩ := Option.map_eq_some_iff.mp h
  have hs' : s'.file = file := by
    split at h
    · obtain ⟨-, rfl⟩ := Prod.mk.inj h
      rfl
    · obtain ⟨-, rfl⟩ := Prod.mk.inj h
      rfl
  rw [hs']
  split_ifs at hfile
  · exact Or.inr hfile
  · exact Or.inl (Option.some.inj hfile).symm

/-- A read returns an error, or the bytes at the offset of the descriptor. -/
lemma syscallRead_cases {userPtr : Bool} {count : BitVec 64}
    (h : syscallRead ops s process fdnum userPtr count = some (answer, s')) :
    s'.file = s.file ∧ ∀ bytes, answer = .bytes bytes →
      ∃ fd ∈ s.tables process fdnum, ops.read s.file fd.offset count = some bytes := by
  unfold syscallRead at h
  by_cases hptr : ¬ userPtr = true
  · rw [if_pos hptr] at h
    obtain ⟨rfl, rfl⟩ := Prod.mk.inj (Option.some.inj h)
    exact ⟨rfl, fun _ h => Answer.noConfusion h⟩
  rw [if_neg hptr] at h
  rcases withFd_file h with ⟨hs', e, rfl⟩ | ⟨fd, fd0, s1, hfd0, hoff, hs1, h⟩
  · exact ⟨hs', fun _ h => Answer.noConfusion h⟩
  · split_ifs at h
    · obtain ⟨rfl, rfl⟩ := Prod.mk.inj (Option.some.inj h)
      exact ⟨hs1, fun _ h => Answer.noConfusion h⟩
    · obtain ⟨bytes, hread, h⟩ := Option.map_eq_some_iff.mp h
      obtain ⟨rfl, rfl⟩ := Prod.mk.inj h
      refine ⟨hs1, fun bytes' hbytes => ⟨fd0, hfd0, ?_⟩⟩
      rw [← hs1, ← hoff, hread, Answer.bytes.inj hbytes]

lemma syscallWrite_file {userPtr : Bool} {buf stale : Memory} {count : BitVec 64}
    (h : syscallWrite ops s process fdnum userPtr buf stale count = some (answer, s')) :
    s'.file = s.file ∨ ∃ fd ∈ s.tables process fdnum, ops.write s.file stale buf fd.offset count = some s'.file := by
  unfold syscallWrite at h
  by_cases hptr : ¬ userPtr = true
  · rw [if_pos hptr] at h
    obtain ⟨-, rfl⟩ := Prod.mk.inj (Option.some.inj h)
    exact Or.inl rfl
  rw [if_neg hptr] at h
  rcases withFd_file h with ⟨hs', -⟩ | ⟨fd, fd0, s1, hfd0, hoff, hs1, h⟩
  · exact Or.inl hs'
  by_cases hmode : accMode fd ≠ oRdwr ∧ accMode fd ≠ oWronly
  · rw [if_pos hmode] at h
    obtain ⟨-, rfl⟩ := Prod.mk.inj (Option.some.inj h)
    exact Or.inl hs1
  rw [if_neg hmode] at h
  obtain ⟨file, hwrite, h⟩ := Option.map_eq_some_iff.mp h
  obtain ⟨-, rfl⟩ := Prod.mk.inj h
  refine Or.inr ⟨fd0, hfd0, ?_⟩
  rw [← hoff, ← hs1, hwrite]
  rfl

lemma syscallTruncate_file {length : BitVec 64} {stale : Memory}
    (h : syscallTruncate ops s process fdnum length stale = some (answer, s')) :
    s'.file = s.file ∨ ops.truncate s.file stale length = some s'.file := by
  unfold syscallTruncate at h
  rcases withFd_file h with ⟨hs', -⟩ | ⟨fd, fd0, s1, -, -, hs1, h⟩
  · exact Or.inl hs'
  by_cases hmode : accMode fd ≠ oRdwr ∧ accMode fd ≠ oWronly
  · rw [if_pos hmode] at h
    obtain ⟨-, rfl⟩ := Prod.mk.inj (Option.some.inj h)
    exact Or.inl hs1
  rw [if_neg hmode] at h
  obtain ⟨file, htrunc, h⟩ := Option.map_eq_some_iff.mp h
  obtain ⟨-, rfl⟩ := Prod.mk.inj h
  right
  rw [← hs1, htrunc]

lemma syscallSeek_file {offset : BitVec 64} {whence : ℕ}
    (h : syscallSeek ops s process fdnum offset whence = some (answer, s')) : s'.file = s.file := by
  unfold syscallSeek at h
  rcases withFd_file h with ⟨hs', -⟩ | ⟨fd, fd0, s1, -, -, hs1, h⟩
  · exact hs'
  have hmove : ∀ new : BitVec 64, (if new.slt 0 then some (Answer.ret (-espipe), s1)
      else some (Answer.ret new.toInt, s1.setOffset process fdnum fd new)) = some (answer, s') → s'.file = s.file := by
    intro new h
    split_ifs at h
    · obtain ⟨-, rfl⟩ := Prod.mk.inj (Option.some.inj h)
      exact hs1
    · obtain ⟨-, rfl⟩ := Prod.mk.inj (Option.some.inj h)
      exact hs1
  dsimp only at h
  by_cases h1 : whence = seekCur
  · rw [if_pos h1] at h
    exact hmove _ h
  rw [if_neg h1] at h
  by_cases h2 : whence = seekEnd
  · rw [if_pos h2] at h
    exact hmove _ h
  rw [if_neg h2] at h
  by_cases h3 : whence = seekSet
  · rw [if_pos h3] at h
    exact hmove _ h
  rw [if_neg h3] at h
  obtain ⟨-, rfl⟩ := Prod.mk.inj (Option.some.inj h)
  exact hs1

/-- What a call can do to the file. -/
theorem syscall_file {c : Call} (h : syscall ops s c = some (answer, s')) :
    s'.file = s.file ∨
    (∃ process fdnum userPtr buf stale count, c = .write process fdnum userPtr buf stale count ∧
      ∃ fd ∈ s.tables process fdnum, ops.write s.file stale buf fd.offset count = some s'.file) ∨
    (∃ process fdnum length stale, c = .truncate process fdnum length stale ∧
      ops.truncate s.file stale length = some s'.file) ∨
    ∃ process flags stale, c = .openFile process flags stale ∧ ops.truncate s.file stale 0 = some s'.file := by
  cases c with
  | openFile process flags stale =>
    exact (syscallOpen_file h).imp id fun h => Or.inr (Or.inr ⟨process, flags, stale, rfl, h⟩)
  | fork process child =>
    obtain ⟨r, -, h⟩ := Option.map_eq_some_iff.mp h
    obtain ⟨-, rfl⟩ := Prod.mk.inj h
    exact Or.inl rfl
  | read process fdnum userPtr count => exact Or.inl (syscallRead_cases h).1
  | write process fdnum userPtr buf stale count =>
    exact (syscallWrite_file h).imp id fun h => Or.inl ⟨process, fdnum, userPtr, buf, stale, count, rfl, h⟩
  | close process fdnum =>
    left
    have hs' : (syscallClose s process fdnum).2 = s' := congrArg Prod.snd (Option.some.inj h)
    rw [← hs', syscallClose]
    split <;> rfl
  | seek process fdnum offset whence => exact Or.inl (syscallSeek_file h)
  | truncate process fdnum length stale =>
    exact (syscallTruncate_file h).imp id fun h => Or.inr (Or.inl ⟨process, fdnum, length, stale, rfl, h⟩)

end Effects

/-- A byte of the file that was not written is zero. -/
structure Clean (file : TmpFile × Set ℕ) : Prop where
  fits : Fits file.1
  zero : ∀ k < file.1.size.toNat, k ∉ file.2 → file.1.data k = 0

lemma tracedCreated_clean (stale : Memory) : Clean (tracedCreated stale).file :=
  ⟨tmpfsCreate_fits stale, fun _ hk => absurd hk (Nat.not_lt_zero _)⟩

section Holes
variable {file file' : TmpFile × Set ℕ} {stale buf : Memory} {offset count length : BitVec 64}

lemma Clean.write (h : Clean file) (hsum : offset.toNat + count.toNat < 2 ^ 63)
    (hhole : ∀ f, writeBuffer stale file.1 offset count = some f →
      ∀ k, file.1.size.toNat ≤ k → k < offset.toNat → f.data k = 0)
    (hwrite : tracedOps.write file stale buf offset count = some file') : Clean file' := by
  obtain ⟨f, f', hf, hb, hf', hfits, hsize, hdata⟩ := tmpfsWrite_some stale buf h.fits hsum
  have hnew : file' = (f', file.2 ∪ {k | offset.toNat ≤ k ∧ k < offset.toNat + count.toNat}) := by
    simp only [tracedOps, hf', Option.map_some] at hwrite
    exact (Option.some.inj hwrite).symm
  subst hnew
  refine ⟨hfits, fun k hk hout => ?_⟩
  have hold : k ∉ file.2 := fun hin => hout (Or.inl hin)
  have hunwritten : k < offset.toNat ∨ offset.toNat + count.toNat ≤ k := by
    by_contra hin
    exact hout (Or.inr ⟨by omega, by omega⟩)
  dsimp only at hk ⊢
  rw [hdata, blit_outside _ _ hunwritten]
  by_cases hin : k < file.1.size.toNat
  · rw [hb.data k (hin.trans_le h.fits.size), h.zero k hin hold]
  · rw [hsize] at hk
    exact hhole f hf k (by omega) (by omega)

lemma Clean.truncate (h : Clean file) (hlen : length.toNat < 2 ^ 63)
    (hhole : ∀ f, truncateBuffer stale file.1 length = some f →
      ∀ k, file.1.size.toNat ≤ k → k < length.toNat → f.data k = 0)
    (htrunc : tracedOps.truncate file stale length = some file') : Clean file' := by
  obtain ⟨f, f', hf, hb, hf', hfits, hsize, hdata⟩ := tmpfsTruncate_some stale h.fits hlen
  have hnew : file' = (f', {k ∈ file.2 | k < length.toNat}) := by
    simp only [tracedOps, hf', Option.map_some] at htrunc
    exact (Option.some.inj htrunc).symm
  subst hnew
  refine ⟨hfits, fun k hk hout => ?_⟩
  dsimp only at hk ⊢
  rw [hsize] at hk
  have hold : k ∉ file.2 := fun hin => hout ⟨hin, hk⟩
  rw [hdata]
  by_cases hin : k < file.1.size.toNat
  · rw [hb.data k (hin.trans_le h.fits.size), h.zero k hin hold]
  · exact hhole f hf k (by omega) hk

/-- What a read returns lies inside the file. -/
lemma Clean.read {bytes : List (BitVec 8)} (h : Clean file) (hsum : offset.toNat + count.toNat < 2 ^ 63)
    (hread : tracedOps.read file offset count = some bytes) :
    ∀ i, (hi : i < bytes.length) → offset.toNat + i ∉ file.2 → bytes[i] = 0 := by
  intro i hi hout
  by_cases hoff : offset.toNat ≤ file.1.size.toNat
  · have hin := tmpfsRead_inside h.fits.low hsum hoff
    rw [show tracedOps.read file offset count = tmpfsRead file.1 offset count from rfl, hin] at hread
    obtain rfl := Option.some.inj hread
    rw [length_readBytes] at hi
    rw [getElem_readBytes]
    exact h.zero _ (by omega) hout
  · rw [show tracedOps.read file offset count = tmpfsRead file.1 offset count from rfl,
      tmpfsRead_outside h.fits.low hsum (by omega)] at hread
    exact absurd hread (by simp)

end Holes

lemma Clean.call {s s' : Files (TmpFile × Set ℕ)} {l : Call × Answer} (h : Clean s.file)
    (hstep : Performed tracedOps s l s') (hhole : ZeroHole s l.1) : Clean s'.file := by
  obtain ⟨c, answer⟩ := l
  obtain ⟨hsmall, hcall⟩ := hstep
  rcases syscall_file hcall with hs' | ⟨process, fdnum, userPtr, buf, stale, count, rfl, fd, hfd, hwrite⟩ |
    ⟨process, fdnum, length, stale, rfl, htrunc⟩ | ⟨process, flags, stale, rfl, htrunc⟩
  · rw [hs']
    exact h
  · exact h.write (hsmall fd hfd) (hhole fd hfd) hwrite
  · exact h.truncate hsmall hhole htrunc
  · exact h.truncate (show (0 : BitVec 64).toNat < 2 ^ 63 by decide) (fun f _ k _ hk => absurd hk (Nat.not_lt_zero k)) htrunc

/-- As long as the bytes that become part of the file without being written are zero in the buffer,
every byte that was not written is zero, and reads as zero. -/
theorem tmpfs_holes_zero {stale : Memory} {s : Files (TmpFile × Set ℕ)} {history : List (Call × Answer)}
    (hrun : Run (fun s l s' => Performed tracedOps s l s' ∧ ZeroHole s l.1) (tracedCreated stale) history s) :
    (∀ k < s.file.1.size.toNat, k ∉ s.file.2 → s.file.1.data k = 0) ∧
    ∀ process fdnum userPtr count bytes s',
      Performed tracedOps s (.read process fdnum userPtr count, .bytes bytes) s' →
      ∃ fd ∈ s.tables process fdnum,
        ∀ i, (hi : i < bytes.length) → fd.offset.toNat + i ∉ s.file.2 → bytes[i] = 0 := by
  have hkeep : ∀ (s : Files (TmpFile × Set ℕ)) (l : Call × Answer) (s' : Files (TmpFile × Set ℕ)), Clean s.file →
      Performed tracedOps s l s' ∧ ZeroHole s l.1 → Clean s'.file := fun _ _ _ h hstep => h.call hstep.1 hstep.2
  have hclean : Clean s.file := hrun.invariant hkeep (tracedCreated_clean stale)
  refine ⟨hclean.zero, fun process fdnum userPtr count bytes s' hread => ?_⟩
  obtain ⟨fd, hfd, hbytes⟩ := (syscallRead_cases hread.2).2 bytes rfl
  exact ⟨fd, hfd, hclean.read (hread.1 fd hfd) hbytes⟩

/-- A new file is extended by two bytes. -/
def extended : List (Call × Answer) := [(.openFile 1 oRdwr fun _ => 0, .ret 0), (.truncate 1 fd0 2 fun _ => 0, .ret 0)]

lemma extended_run : ∃ s, Run (Performed tracedOps) (tracedCreated fun _ => 9) extended s ∧ s.file.2 = ∅ ∧
    ∃ s', Performed tracedOps s (.read 1 fd0 true 2, .bytes [9, 9]) s' := by
  refine ⟨_, .cons ⟨trivial, rfl⟩ (.cons ⟨?_, rfl⟩ (.nil _)), ?_, ?_⟩
  · exact (by decide : (2 : BitVec 64).toNat < 2 ^ 63)
  · exact Set.ext fun k => ⟨fun h => h.1, fun h => h.elim⟩
  · refine ⟨_, fun fd hfd => ?_, rfl⟩
    obtain rfl := Option.some.inj hfd
    decide

theorem tmpfs_hole_stale : ¬ ∀ stale history s, Run (Performed tracedOps) (tracedCreated stale) history s →
    ∀ process fdnum userPtr count bytes s',
      Performed tracedOps s (.read process fdnum userPtr count, .bytes bytes) s' →
      ∃ fd ∈ s.tables process fdnum,
        ∀ i, (hi : i < bytes.length) → fd.offset.toNat + i ∉ s.file.2 → bytes[i] = 0 := by
  intro h
  obtain ⟨s, hrun, hnone, s', hread⟩ := extended_run
  obtain ⟨fd, -, hzero⟩ := h _ _ s hrun 1 fd0 true 2 _ s' hread
  have hnine := hzero 0 (by decide) (hnone ▸ Set.notMem_empty _)
  exact absurd hnine (by decide)

theorem tmpfs_holes_zero_extended : ∃ s, Run (fun s l s' => Performed tracedOps s l s' ∧ ZeroHole s l.1)
      (tracedCreated fun _ => 0) extended s ∧ s.file.1.size = 2 ∧ s.file.2 = ∅ ∧ ∀ k < 2, s.file.1.data k = 0 := by
  have hrun : ∃ s, Run (fun s l s' => Performed tracedOps s l s' ∧ ZeroHole s l.1) (tracedCreated fun _ => 0)
      extended s ∧ s.file.1.size = 2 ∧ s.file.2 = ∅ := by
    refine ⟨_, .cons ⟨⟨trivial, rfl⟩, trivial⟩ (.cons ⟨⟨?_, rfl⟩, fun f hf k _ _ => ?_⟩ (.nil _)), ?_, ?_⟩
    · exact (by decide : (2 : BitVec 64).toNat < 2 ^ 63)
    · obtain rfl := Option.some.inj hf
      rfl
    · rfl
    · exact Set.ext fun k => ⟨fun h => h.1, fun h => h.elim⟩
  obtain ⟨s, hrun, hsize, hnone⟩ := hrun
  refine ⟨s, hrun, hsize, hnone, fun k hk => (tmpfs_holes_zero hrun).1 k ?_ (hnone ▸ Set.notMem_empty k)⟩
  rw [hsize]
  exact hk

end PiggyOs.FileCalls
