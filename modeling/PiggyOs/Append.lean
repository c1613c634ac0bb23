import PiggyOs.FileCalls

/-! Descriptors that are opened with `O_APPEND`. The offset is set to the end of the file once, when the
file is opened. -/
namespace PiggyOs.FileCalls
open ByteMemory Tmpfs Fork Transition

def contents (s : Files TmpFile) : List (BitVec 8) := readBytes s.file.data 0 s.file.size.toNat

/-- The calls of programs that open the file for appending and use what they have opened. -/
def Appending : Call → Prop
  | .openFile _ flags _ => flags &&& oAppend ≠ 0 ∧ flags &&& oTrunc = 0
  | .seek .. => False
  | .truncate .. => False
  | _ => True

lemma Appending.sequential {c : Call} (h : Appending c) : Sequential c := by
  cases c with
  | openFile => exact h.2
  | seek => exact h
  | truncate => exact h
  | _ => trivial

/-- The block that a call has written, as long as its answer says. -/
def written : Call × Answer → List (BitVec 8)
  | (.write _ _ _ buf _ _, .ret n) => readBytes buf 0 n.toNat
  | _ => []

/-- The check of `syscall_write`. -/
def Writable (fd : FileDescriptor) : Prop :=
  accMode fd &&& oPath = 0 ∧ ¬(accMode fd ≠ oRdwr ∧ accMode fd ≠ oWronly)

/-- A write that gets to the file does so at its end. -/
def UpToDate {F : Type} (ops : FileOps F) (s : Files F) : Call → Prop
  | .write process fdnum userPtr _ _ count => ∀ fd ∈ s.tables process fdnum, userPtr = true → Writable fd → count ≠ 0 →
      fd.offset = ops.size s.file
  | _ => True

/-- A block that is put over the bytes at an offset. -/
def splice (file : List (BitVec 8)) (offset : ℕ) (block : List (BitVec 8)) : List (BitVec 8) :=
  file.take offset ++ block ++ file.drop (offset + block.length)

section Splices
variable {file block : List (BitVec 8)} {offset : ℕ}

@[simp] lemma splice_nil (file : List (BitVec 8)) (offset : ℕ) : splice file offset [] = file := by
  rw [splice, List.append_nil, List.length_nil, Nat.add_zero, List.take_append_drop]

lemma splice_end (file block : List (BitVec 8)) : splice file file.length block = file ++ block := by
  rw [splice, List.take_length, List.drop_eq_nil_of_le (Nat.le_add_right _ _), List.append_nil]

lemma length_splice (h : offset ≤ file.length) : (splice file offset block).length = max file.length (offset + block.length) := by
  simp only [splice, List.length_append, List.length_take, List.length_drop]
  omega

end Splices

section Steps
variable {F : Type} {ops : FileOps F} {s s' : Files F} {t t' : Files (List (BitVec 8))} {process : ℕ} {fdnum : Fin maxFds}
  {c : Call} {answer : Answer}

/-- The other calls leave the file alone. -/
lemma file_eq (hc : Appending c) (hwrite : ∀ process fdnum userPtr buf stale count, c ≠ .write process fdnum userPtr buf stale count)
    (h : syscall ops s c = some (answer, s')) : s'.file = s.file := by
  cases c with
  | openFile process flags stale =>
    rw [syscall, syscallOpen] at h
    by_cases hexcl : flags &&& oCreat ≠ 0 ∧ flags &&& oExcl ≠ 0
    · rw [if_pos hexcl] at h
      obtain ⟨-, rfl⟩ := Prod.mk.inj (Option.some.inj h)
      rfl
    rw [if_neg hexcl] at h
    by_cases hdir : flags &&& oDirectory ≠ 0
    · rw [if_pos hdir] at h
      obtain ⟨-, rfl⟩ := Prod.mk.inj (Option.some.inj h)
      rfl
    rw [if_neg hdir, if_neg (not_not.mpr hc.2), Option.map_some] at h
    cases hfree : (List.finRange maxFds).find? fun i => (s.tables process i).isNone with
    | none =>
      rw [hfree] at h
      obtain ⟨-, rfl⟩ := Prod.mk.inj (Option.some.inj h)
      rfl
    | some fdnum =>
      rw [hfree] at h
      obtain ⟨-, rfl⟩ := Prod.mk.inj (Option.some.inj h)
      rfl
  | fork process child =>
    obtain ⟨r, -, hr⟩ := Option.map_eq_some_iff.mp h
    obtain ⟨-, rfl⟩ := Prod.mk.inj hr
    rfl
  | read process fdnum userPtr count =>
    rw [syscall, syscallRead] at h
    by_cases hptr : ¬userPtr = true
    · rw [if_pos hptr] at h
      obtain ⟨-, rfl⟩ := Prod.mk.inj (Option.some.inj h)
      rfl
    rw [if_neg hptr] at h
    rcases withFd_cases h with ⟨-, -, rfl⟩ | ⟨fd, -, ⟨-, -, rfl⟩ | ⟨-, hbody⟩⟩
    · rfl
    · rfl
    · split_ifs at hbody
      · obtain ⟨-, rfl⟩ := Prod.mk.inj (Option.some.inj hbody)
        rfl
      · obtain ⟨bytes, -, hbody⟩ := Option.map_eq_some_iff.mp hbody
        obtain ⟨-, rfl⟩ := Prod.mk.inj hbody
        rfl
  | close process fdnum =>
    rw [syscall, syscallClose] at h
    split at h
    · obtain ⟨-, rfl⟩ := Prod.mk.inj (Option.some.inj h)
      rfl
    · obtain ⟨-, rfl⟩ := Prod.mk.inj (Option.some.inj h)
      rfl
  | write process fdnum userPtr buf stale count => exact (hwrite process fdnum userPtr buf stale count rfl).elim
  | seek => exact hc.elim
  | truncate => exact hc.elim

/-- What a write on the sequence does to it. -/
lemma seq_write {userPtr : Bool} {buf stale : Memory} {count : BitVec 64} (hlow : t.file.length < 2 ^ 63)
    (hbound : Bounded t.file.length t.tables) (hsmall : Small t (.write process fdnum userPtr buf stale count))
    (h : syscallWrite seqOps t process fdnum userPtr buf stale count = some (answer, t')) :
    ∃ offset ≤ t.file.length,
      t'.file = splice t.file offset (written (.write process fdnum userPtr buf stale count, answer)) ∧
      (UpToDate seqOps t (.write process fdnum userPtr buf stale count) ↔
        written (.write process fdnum userPtr buf stale count, answer) = [] ∨ offset = t.file.length) := by
  have hrefused : ∀ e : ℤ, 0 < e → answer = .ret (-e) → t'.file = t.file →
      (∀ fd, t.tables process fdnum = some fd → userPtr = true → ¬Writable fd) → ∃ offset ≤ t.file.length,
      t'.file = splice t.file offset (written (.write process fdnum userPtr buf stale count, answer)) ∧
      (UpToDate seqOps t (.write process fdnum userPtr buf stale count) ↔
        written (.write process fdnum userPtr buf stale count, answer) = [] ∨ offset = t.file.length) := by
    intro e he hanswer hfile hnot
    have hnil : written (.write process fdnum userPtr buf stale count, answer) = [] := by
      rw [hanswer, written, Int.toNat_of_nonpos (by omega)]
      rfl
    refine ⟨0, Nat.zero_le _, ?_, ?_⟩
    · rw [hnil, splice_nil, hfile]
    · exact iff_of_true (fun fd hfd hptr hwritable => absurd hwritable (hnot fd hfd hptr)) (Or.inl hnil)
  unfold syscallWrite at h
  by_cases hptr : ¬userPtr = true
  · rw [if_pos hptr] at h
    obtain ⟨rfl, rfl⟩ := Prod.mk.inj (Option.some.inj h)
    exact hrefused efault (by decide) rfl rfl fun fd _ hptr' => absurd hptr' hptr
  rw [if_neg hptr] at h
  rcases withFd_cases h with ⟨hnone, rfl, rfl⟩ | ⟨fd, hfd, ⟨hpath, rfl, rfl⟩ | ⟨hpath, hbody⟩⟩
  · exact hrefused ebadf (by decide) rfl rfl fun fd hfd => absurd (hnone.symm.trans hfd) (by simp)
  · refine hrefused ebadf (by decide) rfl rfl fun fd' hfd' _ hwritable => ?_
    obtain rfl := Option.some.inj (hfd.symm.trans hfd')
    exact hpath hwritable.1
  · by_cases hmode : accMode fd ≠ oRdwr ∧ accMode fd ≠ oWronly
    · have hbody' := (if_pos hmode).symm.trans hbody
      obtain ⟨rfl, rfl⟩ := Prod.mk.inj (Option.some.inj hbody')
      refine hrefused eperm (by decide) rfl rfl fun fd' hfd' _ hwritable => ?_
      obtain rfl := Option.some.inj (hfd.symm.trans hfd')
      exact hwritable.2 hmode
    · have hbody' := (if_neg hmode).symm.trans hbody
      obtain ⟨file, hfile, hbody'⟩ := Option.map_eq_some_iff.mp hbody'
      obtain ⟨rfl, rfl⟩ := Prod.mk.inj hbody'
      have ho : fd.offset.toNat ≤ t.file.length := hbound process fdnum fd hfd
      have hsum : fd.offset.toNat + count.toNat < 2 ^ 63 := hsmall fd hfd
      have hblock : written (.write process fdnum userPtr buf stale count, .ret count.toInt) =
          readBytes buf 0 count.toNat := by
        rw [written, BitVec.toInt_eq_toNat_of_lt (by omega), Int.toNat_natCast]
      rw [hblock]
      refine ⟨fd.offset.toNat, ho, ?_, ?_⟩
      · obtain rfl := Option.some.inj hfile
        change (t.file ++ List.replicate (fd.offset.toNat - t.file.length) 0).take fd.offset.toNat ++
          readBytes buf 0 count.toNat ++ t.file.drop (fd.offset.toNat + count.toNat) = _
        rw [Nat.sub_eq_zero_of_le ho, List.replicate_zero, List.append_nil, splice, length_readBytes]
      · have hnil : readBytes buf 0 count.toNat = [] ↔ count = 0 := by
          rw [← List.length_eq_zero_iff, length_readBytes, BitVec.toNat_eq]
          rfl
        have hsize : fd.offset = seqOps.size t.file ↔ fd.offset.toNat = t.file.length := by
          change fd.offset = BitVec.ofNat 64 t.file.length ↔ _
          rw [BitVec.toNat_eq, BitVec.toNat_ofNat, Nat.mod_eq_of_lt (by omega)]
        rw [hnil, ← hsize]
        constructor
        · intro hup
          by_cases hcount : count = 0
          · exact Or.inl hcount
          · exact Or.inr (hup fd hfd (not_not.mp hptr) ⟨hpath, hmode⟩ hcount)
        · intro hor fd' hfd' _ _ hcount
          obtain rfl := Option.some.inj (hfd.symm.trans hfd')
          exact hor.resolve_left hcount

/-- What a call on the sequence does to it. -/
lemma seq_splice (hlow : t.file.length < 2 ^ 63) (hbound : Bounded t.file.length t.tables) (hc : Appending c)
    (hsmall : Small t c) (h : syscall seqOps t c = some (answer, t')) :
    ∃ offset ≤ t.file.length, t'.file = splice t.file offset (written (c, answer)) ∧
      (UpToDate seqOps t c ↔ written (c, answer) = [] ∨ offset = t.file.length) := by
  by_cases hwrite : ∃ process fdnum userPtr buf stale count, c = .write process fdnum userPtr buf stale count
  · obtain ⟨process, fdnum, userPtr, buf, stale, count, rfl⟩ := hwrite
    exact seq_write hlow hbound hsmall h
  · push Not at hwrite
    have hnil : written (c, answer) = [] := by
      cases c with
      | write => exact (hwrite _ _ _ _ _ _ rfl).elim
      | _ => rfl
    have hup : UpToDate seqOps t c := by
      cases c with
      | write => exact (hwrite _ _ _ _ _ _ rfl).elim
      | _ => trivial
    refine ⟨0, Nat.zero_le _, ?_, iff_of_true hup (Or.inl hnil)⟩
    rw [hnil, splice_nil, file_eq hc hwrite h]

lemma Refines.upToDate_iff {s : Files TmpFile} (h : Refines s t) : UpToDate tmpfsOps s c ↔ UpToDate seqOps t c := by
  cases c with
  | write process fdnum userPtr buf stale count =>
    rw [UpToDate, UpToDate, h.tables, h.size_eq]
    rfl
  | _ => exact Iff.rfl

/-- A call makes the file longer by what it has written at most, and by exactly that if and only if it
appends. -/
lemma Refines.append {s s' : Files TmpFile} (h : Refines s t) (hc : Appending c) (hstep : Performed tmpfsOps s (c, answer) s') :
    (∃ t', Refines s' t') ∧ (contents s').length ≤ (contents s).length + (written (c, answer)).length ∧
      (UpToDate tmpfsOps s c → contents s' = contents s ++ written (c, answer)) ∧
      ((contents s').length = (contents s).length + (written (c, answer)).length → UpToDate tmpfsOps s c) := by
  obtain ⟨answer', s1, t', hs, ht, h'⟩ := h.call hc.sequential hstep.1
  obtain ⟨rfl, rfl⟩ := Prod.mk.inj (Option.some.inj (hs.symm.trans hstep.2))
  have hlength : t.file.length = s.file.size.toNat := by rw [h.bytes, length_readBytes]
  have hlow : t.file.length < 2 ^ 63 := hlength ▸ h.fits.low
  have hbound : Bounded t.file.length t.tables := by
    rw [hlength, h.tables]
    exact h.bounded
  obtain ⟨offset, ho, hfile, hup⟩ := seq_splice hlow hbound hc (h.small hstep.1) ht
  have hbefore : contents s = t.file := h.bytes.symm
  have hafter : contents s1 = splice t.file offset (written (c, answer')) := h'.bytes.symm.trans hfile
  have hlen : (contents s1).length = max t.file.length (offset + (written (c, answer')).length) := by
    rw [hafter, length_splice ho]
  rw [h.upToDate_iff, hup, hbefore, hlen]
  refine ⟨⟨t', h'⟩, by omega, fun hor => ?_, fun heq => ?_⟩
  · rcases hor with hnil | hend
    · rw [hafter, hnil, splice_nil, List.append_nil]
    · rw [hafter, hend, splice_end]
  · rw [← List.length_eq_zero_iff]
    omega

end Steps

section Runs
variable {s s' : Files TmpFile} {t : Files (List (BitVec 8))} {history : List (Call × Answer)}

/-- Nothing gets longer than what has been written. -/
lemma contents_length_le (h : Refines s t) (happend : ∀ l ∈ history, Appending l.1)
    (hrun : Run (Performed tmpfsOps) s history s') :
    (contents s').length ≤ (contents s).length + (history.flatMap written).length := by
  induction hrun generalizing t with
  | nil s => exact Nat.le_add_right _ _
  | @cons s s1 s2 l history hstep _ ih =>
    obtain ⟨c, answer⟩ := l
    have hc : Appending c := happend _ List.mem_cons_self
    obtain ⟨⟨t1, h1⟩, hle, -, -⟩ := h.append hc hstep
    have hrest := ih h1 fun l hl => happend l (List.mem_cons_of_mem _ hl)
    rw [List.flatMap_cons, List.length_append]
    omega

lemma Refines.concatenates_iff (h : Refines s t) (happend : ∀ l ∈ history, Appending l.1)
    (hrun : Run (Performed tmpfsOps) s history s') : contents s' = contents s ++ history.flatMap written ↔
      Run (fun s l s' => Performed tmpfsOps s l s' ∧ UpToDate tmpfsOps s l.1) s history s' := by
  induction hrun generalizing t with
  | nil s => exact iff_of_true (by simp) (.nil s)
  | @cons s s1 s2 l history hstep hrest ih =>
    obtain ⟨c, answer⟩ := l
    have hc : Appending c := happend _ List.mem_cons_self
    obtain ⟨⟨t1, h1⟩, hle, happended, hup⟩ := h.append hc hstep
    have hrest' : ∀ l ∈ history, Appending l.1 := fun l hl => happend l (List.mem_cons_of_mem _ hl)
    have hlater := contents_length_le h1 hrest' hrest
    rw [List.flatMap_cons, ← List.append_assoc]
    constructor
    · intro hcontents
      have hlength := congrArg List.length hcontents
      rw [List.length_append, List.length_append] at hlength
      have hdate := hup (by omega)
      refine .cons ⟨hstep, hdate⟩ ((ih h1 hrest').mp ?_)
      rw [hcontents, happended hdate]
    · intro hdates
      cases hdates with
      | cons hfirst hothers =>
        obtain ⟨-, rfl⟩ := Prod.mk.inj (Option.some.inj (hstep.2.symm.trans hfirst.1.2))
        rw [(ih h1 hrest').mpr hothers, happended hfirst.2]

/-- The file holds what it held and then every block in the order of the writes if and only if every
write was made with an offset at the end of the file. -/
theorem append_concatenates (hfits : Fits s.file) (hclosed : ∀ process i, s.tables process i = none)
    (happend : ∀ l ∈ history, Appending l.1) (hrun : Run (Performed tmpfsOps) s history s') :
    contents s' = contents s ++ history.flatMap written ↔
      Run (fun s l s' => Performed tmpfsOps s l s' ∧ UpToDate tmpfsOps s l.1) s history s' := by
  have hstart : Refines s ⟨contents s, s.tables⟩ := by
    refine ⟨hfits, rfl, rfl, fun process i fd hfd => ?_⟩
    rw [hclosed process i] at hfd
    simp at hfd
  exact hstart.concatenates_iff happend hrun

/-- One writer, opened for appending. -/
def oneWriter : List (Call × Answer) :=
  [(.openFile 1 (oWronly ||| oAppend) fun _ => 9, .ret 0), (.write 1 fd0 true (fun _ => 0x61) (fun _ => 9) 1, .ret 1)]

lemma oneWriter_appending : ∀ l ∈ oneWriter, Appending l.1 := by
  intro l hl
  simp only [oneWriter, List.mem_cons, List.not_mem_nil, or_false] at hl
  rcases hl with rfl | rfl
  · exact ⟨by decide, by decide⟩
  · trivial

theorem append_concatenates_one : ∃ s, Run (Performed tmpfsOps) (created fun _ => 9) oneWriter s ∧
    contents s = contents (created fun _ => 9) ++ oneWriter.flatMap written := by
  obtain ⟨s, hrun⟩ : ∃ s, Run (fun s l s' => Performed tmpfsOps s l s' ∧ UpToDate tmpfsOps s l.1)
      (created fun _ => 9) oneWriter s := by
    refine ⟨_, .cons ⟨⟨trivial, rfl⟩, trivial⟩ (.single ⟨⟨fun fd hfd => ?_, rfl⟩, fun fd hfd _ _ _ => ?_⟩)⟩
    · obtain rfl := Option.some.inj hfd
      decide
    · obtain rfl := Option.some.inj hfd
      rfl
  have hperformed := hrun.mono fun _ _ _ h => h.1
  exact ⟨s, hperformed, (append_concatenates (tmpfsCreate_fits _) (fun _ _ => rfl) oneWriter_appending hperformed).mpr hrun⟩

/-- Two writers: the second byte is put over the first. -/
def twoWriters : List (Call × Answer) :=
  [(.openFile 1 (oWronly ||| oAppend) fun _ => 9, .ret 0), (.openFile 1 (oWronly ||| oAppend) fun _ => 9, .ret 1),
    (.write 1 fd0 true (fun _ => 0x61) (fun _ => 9) 1, .ret 1), (.write 1 fd1 true (fun _ => 0x62) (fun _ => 9) 1, .ret 1)]

theorem append_overwrites : ¬∀ s history s', Fits s.file → (∀ process i, s.tables process i = none) →
    (∀ l ∈ history, Appending l.1) → Run (Performed tmpfsOps) s history s' →
    contents s' = contents s ++ history.flatMap written := by
  intro h
  obtain ⟨s, hrun, hsize⟩ : ∃ s, Run (Performed tmpfsOps) (created fun _ => 9) twoWriters s ∧ s.file.size = 1 := by
    refine ⟨_, .cons ⟨trivial, rfl⟩ (.cons ⟨trivial, rfl⟩ (.cons ⟨fun fd hfd => ?_, rfl⟩
      (.single ⟨fun fd hfd => ?_, rfl⟩))), rfl⟩
    · obtain rfl := Option.some.inj hfd
      decide
    · obtain rfl := Option.some.inj hfd
      decide
  have happend : ∀ l ∈ twoWriters, Appending l.1 := by
    intro l hl
    simp only [twoWriters, List.mem_cons, List.not_mem_nil, or_false] at hl
    rcases hl with rfl | rfl | rfl | rfl
    · exact ⟨by decide, by decide⟩
    · exact ⟨by decide, by decide⟩
    · trivial
    · trivial
  have hlength := congrArg List.length (h _ _ _ (tmpfsCreate_fits _) (fun _ _ => rfl) happend hrun)
  rw [contents, length_readBytes, hsize] at hlength
  exact absurd hlength (by decide)

end Runs

end PiggyOs.FileCalls
