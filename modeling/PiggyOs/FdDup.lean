import PiggyOs.RefCounts

/-! `fd_dup` as `fcntl` calls it, for the lowest free number from some number on. -/
namespace PiggyOs.Descriptors
open VfsTree Fork
open FileCalls (einval emfile oCreat)

variable {s s' : Sys} {process p q : ℕ} {fdnum ret least : ℤ} {i j : Fin maxFds} {fd : FileDescriptor} {cloexec : Bool}
  {mem : Option ℕ}

structure LeastFree (s : Sys) (process : ℕ) (least : ℤ) (i : Fin maxFds) : Prop where
  above : least ≤ i.val
  free : s.tables process i = none
  first : ∀ j : Fin maxFds, least ≤ j.val → s.tables process j = none → i ≤ j

/-- A copy of `fd` in slot `i` and in no other. -/
def DuplicatedTo (s : Sys) (process : ℕ) (fd : FileDescriptor) (cloexec : Bool) (i : Fin maxFds) (s' : Sys) : Prop :=
  ∃ q count, s'.tables = (s.setSlot process i (some q)).tables ∧
    s'.fds q = some ⟨fd.node, if cloexec then fd.flags ||| oCloexec else fd.flags, count, fd.offset⟩

/-- The number of the lowest free slot from `least` on, with the copy in it, or if there is none an error for
which nothing has changed. -/
def Duplicates (s : Sys) (process : ℕ) (fdnum least : ℤ) (fd : FileDescriptor) (cloexec : Bool) (mem : Option ℕ) : Prop :=
  ∃ ret s', fdDup s process fdnum process least false cloexec mem = some (ret, s') ∧
    ((∃ i, LeastFree s process least i ∧ ret = i.val ∧ DuplicatedTo s process fd cloexec i s') ∨
      ((least < 0 ∨ ∀ i : Fin maxFds, least ≤ i.val → s.tables process i ≠ none) ∧ ret < 0 ∧
        s'.tables = s.tables ∧ s'.fds = s.fds))

lemma freeSlot_eq_some (h : freeSlot s process least = some i) : LeastFree s process least i := by
  have hfound := List.find?_eq_some_iff_append.mp h
  obtain ⟨hi, l, r, hsplit, hbefore⟩ := hfound
  have hi' : least ≤ i.val ∧ s.tables process i = none := by simpa using hi
  refine ⟨hi'.1, hi'.2, fun j hj hfree => ?_⟩
  have hsorted : (List.finRange maxFds).Pairwise (· < ·) := List.pairwise_lt_finRange maxFds
  have hmem : j ∈ l ++ i :: r := hsplit ▸ List.mem_finRange j
  rw [hsplit, List.pairwise_append] at hsorted
  rcases List.mem_append.mp hmem with hmem | hmem
  · exact absurd (hbefore j hmem) (by simp [hj, hfree])
  · rcases List.mem_cons.mp hmem with rfl | hmem
    · exact le_rfl
    · exact ((List.pairwise_cons.mp hsorted.2.1).1 j hmem).le

lemma freeSlot_eq_none : freeSlot s process least = none ↔ ∀ i : Fin maxFds, least ≤ i.val → s.tables process i ≠ none := by
  rw [freeSlot, List.find?_eq_none]
  simp

/-- The ways in which the call ends for an open number. -/
lemma fdDup_eq (hp : s.object process fdnum = some p) (hfd : s.fds p = some fd) (hne : fdnum ≠ least) (q : ℕ) :
    fdDup s process fdnum process least false cloexec (some q) = if least < 0 then none
      else
        let s1 := (s.addReference p).setFd q (some { fd with
          refcount := fd.refcount + 1
          flags := if cloexec then fd.flags ||| oCloexec else fd.flags })
        match freeSlot s process least with
        | none => some (least, s1.addReference p)
        | some i => if i.val = maxFds - 1 then some (-emfile, s1.setSlot process i (some q))
            else some (i.val, (s1.setSlot process i (some q)).addReference p) := by
  unfold fdDup
  rw [if_neg fun h => hne h.1, fdFromFdnum_of_some hp]
  dsimp only
  rw [addReference_fds hfd, Option.bind_some]
  dsimp only
  rw [if_pos Bool.false_ne_true]
  rfl

lemma addReference_fds_ne (hfd : s.fds p = some fd) : (s.addReference p).fds ≠ s.fds := by
  intro heq
  have hsame := addReference_fds hfd
  rw [heq, hfd, Option.some_inj, FileDescriptor.mk.injEq] at hsame
  omega

/-- If the number is its own lower bound the call is refused. -/
lemma duplicates_self_iff (hp : s.object process fdnum = some p) :
    Duplicates s process fdnum fdnum fd cloexec mem ↔ ∀ i : Fin maxFds, fdnum ≤ i.val → s.tables process i ≠ none := by
  have hcall : fdDup s process fdnum process fdnum false cloexec mem = some (-einval, s) := by
    rw [fdDup, if_pos ⟨rfl, rfl⟩]
  have hpos : 0 ≤ fdnum := by
    by_contra hneg
    rw [Sys.object, slot, dif_neg fun h => hneg h.1] at hp
    simp at hp
  constructor
  · rintro ⟨ret, s', h, hend⟩
    obtain ⟨rfl, rfl⟩ := Prod.mk.inj (Option.some.inj (hcall.symm.trans h))
    rcases hend with ⟨i, -, hret, -⟩ | ⟨hrange, -⟩
    · have hnat : (0 : ℤ) ≤ i.val := Int.natCast_nonneg _
      rw [← hret] at hnat
      exact absurd hnat (by decide)
    · exact hrange.resolve_left (by omega)
  · intro hfull
    exact ⟨_, _, hcall, Or.inr ⟨Or.inr hfull, by decide, rfl, rfl⟩⟩

/-- Without memory the reference that has been taken is not given back. -/
lemma not_duplicates_none (hp : s.object process fdnum = some p) (hfd : s.fds p = some fd) (hne : fdnum ≠ least) :
    ¬Duplicates s process fdnum least fd cloexec none := by
  have hcall : fdDup s process fdnum process least false cloexec none = some (-enomem, s.addReference p) := by
    unfold fdDup
    rw [if_neg fun h => hne h.1, fdFromFdnum_of_some hp]
    dsimp only
    rw [addReference_fds hfd, Option.bind_some]
  rintro ⟨ret, s', h, hend⟩
  obtain ⟨rfl, rfl⟩ := Prod.mk.inj (Option.some.inj (hcall.symm.trans h))
  rcases hend with ⟨i, -, hret, -⟩ | ⟨-, -, -, hsame⟩
  · have hnat : (0 : ℤ) ≤ i.val := Int.natCast_nonneg _
    rw [← hret] at hnat
    exact absurd hnat (by decide)
  · exact addReference_fds_ne hfd hsame

/-- Of the other calls those are right that find a slot before the last one. -/
lemma duplicates_some_iff (hp : s.object process fdnum = some p) (hfd : s.fds p = some fd) (hne : fdnum ≠ least)
    (hq : s.fds q = none) : Duplicates s process fdnum least fd cloexec (some q) ↔
      0 ≤ least ∧ ∃ i : Fin maxFds, least ≤ i.val ∧ i.val < maxFds - 1 ∧ s.tables process i = none := by
  have hpq : q ≠ p := by
    rintro rfl
    rw [hq] at hfd
    simp at hfd
  have hcall : fdDup s process fdnum process least false cloexec (some q) = _ := fdDup_eq hp hfd hne q
  rcases lt_or_ge least 0 with hneg | hpos
  · rw [if_pos hneg] at hcall
    refine iff_of_false ?_ fun h => absurd h.1 (not_le.mpr hneg)
    rintro ⟨ret, s', h, -⟩
    rw [hcall] at h
    simp at h
  rw [if_neg (not_lt.mpr hpos)] at hcall
  cases hslot : freeSlot s process least with
  | none =>
    have hfull := freeSlot_eq_none.mp hslot
    simp only [hslot] at hcall
    refine iff_of_false ?_ ?_
    · rintro ⟨ret, s', h, hend⟩
      obtain ⟨rfl, rfl⟩ := Prod.mk.inj (Option.some.inj (hcall.symm.trans h))
      rcases hend with ⟨i, hi, -⟩ | ⟨-, hneg, -⟩
      · exact hfull i hi.above hi.free
      · exact absurd hneg (not_lt.mpr hpos)
    · rintro ⟨-, i, hi, -, hfree⟩
      exact hfull i hi hfree
  | some i =>
    have hleast := freeSlot_eq_some hslot
    simp only [hslot] at hcall
    by_cases hlast : i.val = maxFds - 1
    · rw [if_pos hlast] at hcall
      refine iff_of_false ?_ ?_
      · rintro ⟨ret, s', h, hend⟩
        obtain ⟨rfl, rfl⟩ := Prod.mk.inj (Option.some.inj (hcall.symm.trans h))
        rcases hend with ⟨j, -, hret, -⟩ | ⟨-, -, htables, -⟩
        · have hnat : (0 : ℤ) ≤ j.val := Int.natCast_nonneg _
          rw [← hret] at hnat
          exact absurd hnat (by decide)
        · have hi := congrFun (congrFun htables process) i
          rw [setSlot_tables, if_pos ⟨rfl, rfl⟩, hleast.free] at hi
          simp at hi
      · rintro ⟨-, j, hj, hlt, hfree⟩
        have hle : i.val ≤ j.val := hleast.first j hj hfree
        omega
    · rw [if_neg hlast] at hcall
      refine iff_of_true ⟨_, _, hcall, Or.inl ⟨i, hleast, rfl, ⟨q, fd.refcount + 1, rfl, ?_⟩⟩⟩ ?_
      · rw [Sys.addReference, setFd_fds_of_ne _ _ hpq]
        exact setFd_fds_self ..
      · exact ⟨hpos, i, hleast.above, by omega, hleast.free⟩

/-- The call is right if and only if it has nothing to find and is given its own number, or if there is memory and
a free slot before the last one. -/
theorem fdDup_duplicates_iff (hp : s.object process fdnum = some p) (hfd : s.fds p = some fd)
    (hmem : ∀ q, mem = some q → s.fds q = none) : Duplicates s process fdnum least fd cloexec mem ↔
      (fdnum = least ∧ ∀ i : Fin maxFds, least ≤ i.val → s.tables process i ≠ none) ∨
      (fdnum ≠ least ∧ mem ≠ none ∧ 0 ≤ least ∧
        ∃ i : Fin maxFds, least ≤ i.val ∧ i.val < maxFds - 1 ∧ s.tables process i = none) := by
  by_cases hsame : fdnum = least
  · subst hsame
    simp [duplicates_self_iff hp]
  · cases mem with
    | none => simp [hsame, not_duplicates_none hp hfd hsame]
    | some q => simp [hsame, duplicates_some_iff hp hfd hsame (hmem q rfl)]

/-- After one file has been opened, for a number from 1 on. -/
theorem fdDup_duplicates_open : ∃ s fd, syscallOpen unopened 1 true newPath oCreat surroundings = some (0, s) ∧
    s.object 1 0 = some 32 ∧ Duplicates s 1 0 1 fd false (some 33) := by
  obtain ⟨s, fd, hopen, hobject, hfd, hmem, hslots⟩ : ∃ s fd, syscallOpen unopened 1 true newPath oCreat surroundings = some (0, s) ∧
      s.object 1 0 = some 32 ∧ s.fds 32 = some fd ∧ s.fds 33 = none ∧ s.tables 1 FileCalls.fd1 = none := ⟨_, _, rfl, rfl, rfl, rfl, rfl⟩
  refine ⟨s, fd, hopen, hobject, (fdDup_duplicates_iff hobject hfd fun q hq => ?_).mpr (Or.inr ⟨by decide, by simp, by decide, FileCalls.fd1, ?_⟩)⟩
  · rwa [← Option.some.inj hq]
  · exact ⟨le_rfl, by decide, hslots⟩

/-- `dup(0)` with 31 slots that are free. -/
theorem fdDup_refuses : ∃ s fd, syscallOpen unopened 1 true newPath oCreat surroundings = some (0, s) ∧
    s.object 1 0 = some 32 ∧ s.fds 32 = some fd ∧ fdDup s 1 0 1 0 false false (some 33) = some (-einval, s) ∧
    ¬Duplicates s 1 0 0 fd false (some 33) := by
  obtain ⟨s, fd, hopen, hobject, hfd, hslots⟩ : ∃ s fd, syscallOpen unopened 1 true newPath oCreat surroundings = some (0, s) ∧
      s.object 1 0 = some 32 ∧ s.fds 32 = some fd ∧ s.tables 1 FileCalls.fd1 = none := ⟨_, _, rfl, rfl, rfl, rfl⟩
  refine ⟨s, fd, hopen, hobject, hfd, if_pos ⟨rfl, rfl⟩, fun hdup => ?_⟩
  exact (duplicates_self_iff hobject).mp hdup FileCalls.fd1 (by decide) hslots

end PiggyOs.Descriptors
