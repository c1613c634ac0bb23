import PiggyOs.AccessMode

/-! The mode strings of `fopen` and the access checks of the kernel. -/
namespace PiggyOs.Stdio
open CString Fork Descriptors
open FileCalls (oPath oRdonly oWronly oRdwr oAccmode oCreat oTrunc oAppend oExcl fileFlagsMask)

def letterR : BitVec 8 := 0x72
def letterW : BitVec 8 := 0x77
def letterA : BitVec 8 := 0x61
def letterPlus : BitVec 8 := 0x2b
def letterX : BitVec 8 := 0x78
def letterE : BitVec 8 := 0x65
def letterT : BitVec 8 := 0x74
def letterB : BitVec 8 := 0x62

/-- The loop over the letters, with the flags so far. -/
def modeLoop : List (BitVec 8) → BitVec 32 → BitVec 32
  | [], flags => flags
  | c :: mode, flags =>
      if c = letterR then modeLoop mode (flags ||| oRdonly)
      else if c = letterW then modeLoop mode (flags ||| (oWronly ||| oCreat ||| oTrunc))
      else if c = letterA then modeLoop mode (flags ||| (oWronly ||| oAppend ||| oCreat))
      else if c = letterPlus then modeLoop mode (flags ||| oRdwr)
      else if c = letterX then modeLoop mode (flags ||| oExcl)
      else if c = letterE then modeLoop mode (flags ||| oCloexec)
      else if c = letterT ∨ c = letterB then modeLoop mode flags
      else -1

def fopenModeToFlags (mode : CString) : BitVec 32 := modeLoop mode.1 0

/-- The number behind the stream, or none if there is no stream. `memory` is whether `fdopen` gets what
it needs. -/
def fopen (s : Sys) (process : ℕ) (userPtr : Bool) (path mode : CString) (e : Surroundings) (memory : Bool) :
    Option (Option ℤ × Sys) :=
  let flags := fopenModeToFlags mode
  if flags = -1 then some (none, s)
  else
    let flags := if flags &&& oCreat = 0 then flags &&& ~~~oExcl else flags
    (syscallOpen s process userPtr path flags e).map fun (fd, s) =>
      if fd < 0 then (none, s)
      else if memory then (some fd, s)
      else (none, (fdClose s process fd).2)

/-- One letter for the kind of access, and the others after it. -/
structure IsMode (mode : CString) (first : BitVec 8) (rest : List (BitVec 8)) : Prop where
  letters : mode.1 = first :: rest
  first : first ∈ [letterR, letterW, letterA]
  rest : ∀ c ∈ rest, c ∈ [letterPlus, letterB, letterT, letterX, letterE]

/-- What the mode promises is what the checks permit. -/
structure Agrees (f : BitVec 32) (first : BitVec 8) (rest : List (BitVec 8)) : Prop where
  read : permits f .read ↔ first = letterR ∨ letterPlus ∈ rest
  write : permits f .write ↔ (first = letterW ∨ first = letterA) ∨ letterPlus ∈ rest
  truncate : permits f .truncate ↔ (first = letterW ∨ first = letterA) ∨ letterPlus ∈ rest

section Modes
variable {s s' : Sys} {process : ℕ} {userPtr memory : Bool} {path mode : CString} {e : Surroundings} {fdnum : ℤ}
  {first : BitVec 8} {rest : List (BitVec 8)} {f flags : BitVec 32}

/-- The access mode that comes from the letters: two of them do not make a third. -/
def modeAccess (first : BitVec 8) (plus : Bool) : BitVec 32 :=
  (if first = letterR then oRdonly else oWronly) ||| if plus then oRdwr else 0

lemma or_accmode (flags extra : BitVec 32) : (flags ||| extra) &&& oAccmode = flags &&& oAccmode ||| extra &&& oAccmode :=
  BitVec.and_or_distrib_right

/-- Only the plus has to do with the access mode. -/
lemma modeLoop_accmode (h : ∀ c ∈ rest, c ∈ [letterPlus, letterB, letterT, letterX, letterE]) (flags : BitVec 32) :
    modeLoop rest flags &&& oAccmode = flags &&& oAccmode ||| if letterPlus ∈ rest then oRdwr else 0 := by
  induction rest generalizing flags with
  | nil => simp [modeLoop]
  | cons c rest ih =>
    have ihrest := ih fun x hx => h x (List.mem_cons_of_mem _ hx)
    have hc := h c List.mem_cons_self
    have hkept : ∀ extra, extra &&& oAccmode = 0 → c ≠ letterPlus →
        modeLoop rest (flags ||| extra) &&& oAccmode =
          flags &&& oAccmode ||| if letterPlus ∈ c :: rest then oRdwr else 0 := by
      intro extra hextra hplus
      rw [ihrest, or_accmode, hextra]
      simp [List.mem_cons, hplus.symm]
    simp only [List.mem_cons, List.not_mem_nil, or_false] at hc
    rcases hc with rfl | rfl | rfl | rfl | rfl
    · have hstep : modeLoop (letterPlus :: rest) flags = modeLoop rest (flags ||| oRdwr) := rfl
      rw [hstep, ihrest, or_accmode, if_pos List.mem_cons_self, BitVec.or_assoc]
      congr 1
      split_ifs <;> decide
    · have hsame := hkept 0 (by decide) (by decide)
      rwa [show flags ||| 0 = flags from BitVec.or_zero] at hsame
    · have hsame := hkept 0 (by decide) (by decide)
      rwa [show flags ||| 0 = flags from BitVec.or_zero] at hsame
    · exact hkept oExcl (by decide) (by decide)
    · exact hkept oCloexec (by decide) (by decide)

lemma modeLoop_first (h : first ∈ [letterR, letterW, letterA]) : ∃ flags, modeLoop (first :: rest) 0 = modeLoop rest flags ∧
    flags &&& oAccmode = modeAccess first false := by
  simp only [List.mem_cons, List.not_mem_nil, or_false] at h
  rcases h with rfl | rfl | rfl
  · exact ⟨_, rfl, by decide⟩
  · exact ⟨_, rfl, by decide⟩
  · exact ⟨_, rfl, by decide⟩

/-- The access mode of the flags that `fopen` gives to the kernel. -/
lemma fopenModeToFlags_accmode (h : IsMode mode first rest) :
    fopenModeToFlags mode &&& oAccmode = modeAccess first (decide (letterPlus ∈ rest)) := by
  obtain ⟨flags, hflags, haccess⟩ := modeLoop_first h.first
  rw [fopenModeToFlags, h.letters, hflags, modeLoop_accmode h.rest, haccess, modeAccess, modeAccess]
  simp

lemma modeAccess_path (first : BitVec 8) (plus : Bool) : modeAccess first plus &&& oPath = 0 := by
  unfold modeAccess
  split_ifs <;> decide

lemma fopenModeToFlags_accepted (h : IsMode mode first rest) : fopenModeToFlags mode ≠ -1 := by
  intro hflags
  have hpath := modeAccess_path first (decide (letterPlus ∈ rest))
  rw [← fopenModeToFlags_accmode h, hflags] at hpath
  exact absurd hpath (by decide)

/-- The flags of the descriptor behind the stream. -/
lemma fopen_flags (hmem : ∀ p, e.mem = some p → s.fds p = none) (hmode : IsMode mode first rest)
    (h : fopen s process userPtr path mode e memory = some (some fdnum, s')) :
    ∃ f, s'.flags process fdnum = some f ∧ f &&& oAccmode = modeAccess first (decide (letterPlus ∈ rest)) := by
  rw [fopen, if_neg (fopenModeToFlags_accepted hmode)] at h
  obtain ⟨⟨fd, s1⟩, hopen, hret⟩ := Option.map_eq_some_iff.mp h
  dsimp only at hret
  by_cases hneg : fd < 0
  · rw [if_pos hneg] at hret
    simp at hret
  rw [if_neg hneg] at hret
  cases memory with
  | false => simp at hret
  | true =>
    obtain ⟨hfd, rfl⟩ := Prod.mk.inj hret
    obtain rfl := Option.some.inj hfd
    rcases syscallOpen_outcome hmem hopen with hfilled | ⟨hneg', -⟩
    · refine ⟨_, hfilled.flags, ?_⟩
      rw [and_mask _ (by decide), ← fopenModeToFlags_accmode hmode]
      split_ifs
      · exact and_mask _ (by decide)
      · rfl
    · exact absurd hneg' hneg

lemma agrees_iff (h : first ∈ [letterR, letterW, letterA])
    (hf : f &&& oAccmode = modeAccess first (decide (letterPlus ∈ rest))) :
    Agrees f first rest ↔ first = letterR ∨ letterPlus ∉ rest := by
  have hpermits : permits f = permits (modeAccess first (decide (letterPlus ∈ rest))) := by
    refine permits_congr ?_
    rw [hf]
    unfold modeAccess
    split_ifs <;> decide
  have hagrees : Agrees f first rest ↔
      (permits f .read ↔ first = letterR ∨ letterPlus ∈ rest) ∧
      (permits f .write ↔ (first = letterW ∨ first = letterA) ∨ letterPlus ∈ rest) ∧
      (permits f .truncate ↔ (first = letterW ∨ first = letterA) ∨ letterPlus ∈ rest) :=
    ⟨fun h => ⟨h.read, h.write, h.truncate⟩, fun h => ⟨h.1, h.2.1, h.2.2⟩⟩
  rw [hagrees, hpermits]
  simp only [List.mem_cons, List.not_mem_nil, or_false] at h
  by_cases hplus : letterPlus ∈ rest
  · simp only [hplus, decide_true, or_true, not_true_eq_false, or_false]
    rcases h with rfl | rfl | rfl <;> decide
  · simp only [hplus, decide_false, or_false, not_false_eq_true, or_true]
    rcases h with rfl | rfl | rfl <;> decide

/-- A stream can do what its mode says if and only if the mode is one for reading or has no plus. -/
theorem fopen_mode_agrees (hmem : ∀ p, e.mem = some p → s.fds p = none) (hmode : IsMode mode first rest)
    (h : fopen s process userPtr path mode e memory = some (some fdnum, s')) :
    (∃ f, s'.flags process fdnum = some f ∧ Agrees f first rest) ↔ first = letterR ∨ letterPlus ∉ rest := by
  obtain ⟨f, hf, haccess⟩ := fopen_flags hmem hmode h
  rw [← agrees_iff hmode.first haccess]
  constructor
  · rintro ⟨f', hf', hagrees⟩
    obtain rfl := Option.some.inj (hf.symm.trans hf')
    exact hagrees
  · intro hagrees
    exact ⟨f, hf, hagrees⟩

def modeA : CString := ⟨[letterA], by decide⟩

def modeWPlus : CString := ⟨[letterW, letterPlus], by decide⟩

/-- A file that is opened with `"a"`. -/
theorem fopen_mode_agrees_append : ∃ s', fopen unopened 1 true newPath modeA surroundings true = some (some 0, s') ∧
    ∃ f, s'.flags 1 0 = some f ∧ Agrees f letterA [] := by
  have hmode : IsMode modeA letterA [] := ⟨rfl, by decide, by simp⟩
  obtain ⟨s', hopen⟩ : ∃ s', fopen unopened 1 true newPath modeA surroundings true = some (some 0, s') := ⟨_, rfl⟩
  exact ⟨s', hopen, (fopen_mode_agrees (fun _ _ => rfl) hmode hopen).mpr (Or.inr (by simp))⟩

/-- With `"w+"` nothing is permitted. -/
theorem fopen_mode_useless : ¬∀ s process userPtr path mode e memory fdnum s' first rest,
    (∀ p, e.mem = some p → s.fds p = none) → IsMode mode first rest →
    fopen s process userPtr path mode e memory = some (some fdnum, s') →
    ∃ f, s'.flags process fdnum = some f ∧ Agrees f first rest := by
  intro h
  have hmode : IsMode modeWPlus letterW [letterPlus] := ⟨rfl, by decide, by simp⟩
  obtain ⟨s', hopen, hflags⟩ : ∃ s', fopen unopened 1 true newPath modeWPlus surroundings true = some (some 0, s') ∧
      s'.flags 1 0 = some 0x17 := ⟨_, rfl, rfl⟩
  obtain ⟨f, hf, hagrees⟩ := h _ _ _ _ _ _ _ _ _ _ _ (fun _ _ => rfl) hmode hopen
  obtain rfl := Option.some.inj (hflags.symm.trans hf)
  exact absurd (hagrees.write.mpr (by simp)) (by decide)

end Modes

end PiggyOs.Stdio
