import Mathlib.Tactic

/-! Trees of directories in which a directory may be covered by another one that stands in for it.
`reduce` leads from a node to what stands for it in the end, `up` to what is above a directory. -/
namespace PiggyOs.CoveredTree

variable {α N : Type*} {d e m n p x : α} {c : N}

structure Tree (α N : Type*) where
  reduce : α → α
  root : α
  isDir : α → Prop
  child : α → N → Option α
  up : α → Option α

/-- A directory that a walk can be in. -/
structure Tree.Place (t : Tree α N) (d : α) : Prop where
  settled : t.reduce d = d
  above : t.up d ≠ none

/-- The child of a directory, if it is a directory itself, has that directory above it, and only the
root is above itself. -/
structure Tree.Sound (t : Tree α N) : Prop where
  idem : ∀ x, t.reduce (t.reduce x) = t.reduce x
  root_dir : t.isDir (t.reduce t.root)
  root_up : ∃ e, t.up (t.reduce t.root) = some e ∧ t.reduce e = t.reduce t.root
  child_up : ∀ d c x, t.Place d → t.child d c = some x → t.isDir (t.reduce x) →
    t.reduce x ≠ t.reduce t.root ∧ ∃ e, t.up (t.reduce x) = some e ∧ t.reduce e = d
  top : ∀ d e, t.reduce d = d → t.up d = some e → t.reduce e = d → d = t.reduce t.root
  up_up : ∀ d e, t.reduce d = d → t.up d = some e → t.up (t.reduce e) ≠ none

variable {t : Tree α N}

namespace Tree.Sound

lemma place_root (h : t.Sound) : t.Place (t.reduce t.root) :=
  ⟨h.idem _, let ⟨e, he, _⟩ := h.root_up; by simp [he]⟩

lemma place_up (h : t.Sound) (hd : t.Place d) (he : t.up d = some e) : t.Place (t.reduce e) :=
  ⟨h.idem e, h.up_up d e hd.settled he⟩

lemma place_child (h : t.Sound) (hd : t.Place d) (hx : t.child d c = some x) (hdir : t.isDir (t.reduce x)) :
    t.Place (t.reduce x) := by
  obtain ⟨-, e, he, -⟩ := h.child_up d c x hd hx hdir
  exact ⟨h.idem x, by simp [he]⟩

end Tree.Sound

/-- Nothing leads to `n`, and it leads nowhere. -/
structure Tree.Unused (t : Tree α N) (n : α) : Prop where
  reduce_self : t.reduce n = n
  unreached : ∀ x, t.reduce x = n → x = n
  noUp : t.up n = none
  noChild : ∀ c, t.child n c = none
  notChild : ∀ d c, t.child d c ≠ some n
  not_root : t.root ≠ n

lemma Tree.Unused.reduce_ne (h : t.Unused n) (hx : x ≠ n) : t.reduce x ≠ n := fun hr => hx (h.unreached x hr)

/-- Where a directory can be covered: at the root, by something below it, or at a child of `p`. -/
inductive Tree.CoverAt (t : Tree α N) : α → α → Prop
  | root : t.CoverAt (t.reduce t.root) (t.reduce t.root)
  | child {p x : α} {c : N} : t.Place p → t.child p c = some x → t.isDir (t.reduce x) → t.CoverAt (t.reduce x) p

/-- What is known of the two directories. Only at the root do they coincide. -/
lemma Tree.Sound.coverAt (h : t.Sound) (hp : t.CoverAt d p) :
    t.Place d ∧ t.Place p ∧ t.isDir d ∧
      ((d = t.reduce t.root ∧ p = d) ∨ (d ≠ t.reduce t.root ∧ p ≠ d ∧ ∃ f, t.up d = some f ∧ t.reduce f = p)) := by
  cases hp with
  | root => exact ⟨h.place_root, h.place_root, h.root_dir, Or.inl ⟨rfl, rfl⟩⟩
  | @child p x c hplace hx hdir =>
    obtain ⟨hroot, f, hf, hfp⟩ := h.child_up p c x hplace hx hdir
    refine ⟨h.place_child hplace hx hdir, hplace, hdir, Or.inr ⟨hroot, fun hpx => ?_, f, hf, hfp⟩⟩
    exact hroot (h.top _ f (h.idem x) hf (hfp.trans hpx))

lemma Tree.Place.ne_unused (hd : t.Place d) (hm : t.Unused m) : d ≠ m := fun hdm => hd.above (hdm ▸ hm.noUp)

section Operations
variable [DecidableEq α]

/-- A new directory below `e`, entered under some names. -/
def Tree.enterDir (t : Tree α N) (e n : α) (child : α → N → Option α) : Tree α N :=
  { t with isDir := Function.update t.isDir n True, child := child, up := Function.update t.up n (some e) }

/-- A new node that is no directory. -/
def Tree.enterFile (t : Tree α N) (n : α) (child : α → N → Option α) : Tree α N :=
  { t with isDir := Function.update t.isDir n False, child := child }

/-- A node may become a directory before anything leads to it. -/
def Tree.makeDir (t : Tree α N) (n : α) : Tree α N := { t with isDir := Function.update t.isDir n True }

/-- `m` covers `d`, and `p` is above it. -/
def Tree.cover (t : Tree α N) (d m p : α) : Tree α N :=
  { t with
    reduce := fun x => if t.reduce x = d then m else t.reduce x
    isDir := Function.update t.isDir m True
    up := Function.update t.up m (some p) }

/-- The new names lead to the new node, below `e`. -/
def Entered (t : Tree α N) (e n : α) (child : α → N → Option α) : Prop :=
  ∀ d c, child d c = t.child d c ∨ (d = e ∧ child d c = some n)

variable {child : α → N → Option α}

lemma Tree.Sound.makeDir (h : t.Sound) (hn : t.Unused n) : (t.makeDir n).Sound := by
  refine ⟨h.idem, ?_, h.root_up, fun d c x hd hx hdir => ?_, h.top, h.up_up⟩
  · change Function.update t.isDir n True (t.reduce t.root)
    rw [Function.update_of_ne (hn.reduce_ne hn.not_root)]
    exact h.root_dir
  · have hxn : t.reduce x ≠ n := hn.reduce_ne fun hxn => hn.notChild d c (hxn ▸ hx)
    change Function.update t.isDir n True (t.reduce x) at hdir
    rw [Function.update_of_ne hxn] at hdir
    exact h.child_up d c x ⟨hd.settled, hd.above⟩ hx hdir

lemma Tree.CoverAt.makeDir (h : t.CoverAt d p) (hn : t.Unused n) : (t.makeDir n).CoverAt d p := by
  cases h with
  | root => exact Tree.CoverAt.root (t := t.makeDir n)
  | @child p x c hp hx hdir =>
    have hxn : t.reduce x ≠ n := hn.reduce_ne fun hxn => hn.notChild p c (hxn ▸ hx)
    have hdir' : (t.makeDir n).isDir (t.reduce x) := by
      change Function.update t.isDir n True (t.reduce x)
      rwa [Function.update_of_ne hxn]
    exact Tree.CoverAt.child (t := t.makeDir n) ⟨hp.settled, hp.above⟩ hx hdir'

theorem Tree.Sound.enterDir (h : t.Sound) (hn : t.Unused n) (he : t.Place e) (hchild : Entered t e n child) :
    (t.enterDir e n child).Sound := by
  have hen : e ≠ n := fun hen => he.above (hen ▸ hn.noUp)
  have hup : ∀ {d}, d ≠ n → (t.enterDir e n child).up d = t.up d := fun hd => Function.update_of_ne hd ..
  have hself : (t.enterDir e n child).up n = some e := Function.update_self ..
  refine ⟨h.idem, ?_, ?_, fun d c x hd hx hdir => ?_, fun d f hd hf hfd => ?_, fun d f hd hf => ?_⟩
  · change Function.update t.isDir n True (t.reduce t.root)
    rw [Function.update_of_ne (hn.reduce_ne hn.not_root)]
    exact h.root_dir
  · obtain ⟨f, hf, hroot⟩ := h.root_up
    exact ⟨f, (hup (hn.reduce_ne hn.not_root)).trans hf, hroot⟩
  · change child d c = some x at hx
    change Function.update t.isDir n True (t.reduce x) at hdir
    have hdn : d ≠ n := by
      rintro rfl
      rcases hchild d c with hold | ⟨rfl, -⟩
      · rw [hold, hn.noChild] at hx
        simp at hx
      · exact hen rfl
    rcases hchild d c with hold | ⟨rfl, hnew⟩
    · rw [hold] at hx
      have hxn : t.reduce x ≠ n := hn.reduce_ne fun hxn => hn.notChild d c (hxn ▸ hx)
      rw [Function.update_of_ne hxn] at hdir
      obtain ⟨hroot, f, hf, hfd⟩ := h.child_up d c x ⟨hd.settled, hup hdn ▸ hd.above⟩ hx hdir
      exact ⟨hroot, f, (hup hxn).trans hf, hfd⟩
    · obtain rfl : n = x := Option.some.inj (hnew.symm.trans hx)
      change t.reduce n ≠ _ ∧ _
      rw [show (t.enterDir d n child).reduce n = n from hn.reduce_self, hn.reduce_self]
      exact ⟨(hn.reduce_ne hn.not_root).symm, d, hself, he.settled⟩
  · by_cases hdn : d = n
    · subst hdn
      obtain rfl : e = f := Option.some.inj (hself.symm.trans hf)
      exact absurd (he.settled.symm.trans hfd) hen
    · exact h.top d f hd ((hup hdn).symm.trans hf) hfd
  · have hkeep : ∀ y, t.up y ≠ none → (t.enterDir e n child).up y ≠ none := by
      intro y hy
      have hyn : y ≠ n := by
        rintro rfl
        exact hy hn.noUp
      rw [hup hyn]
      exact hy
    by_cases hdn : d = n
    · subst hdn
      obtain rfl : e = f := Option.some.inj (hself.symm.trans hf)
      refine hkeep _ ?_
      change t.up (t.reduce e) ≠ none
      rw [he.settled]
      exact he.above
    · exact hkeep _ (h.up_up d f hd ((hup hdn).symm.trans hf))

theorem Tree.Sound.enterFile (h : t.Sound) (hn : t.Unused n) (hchild : Entered t e n child) :
    (t.enterFile n child).Sound := by
  refine ⟨h.idem, ?_, h.root_up, fun d c x hd hx hdir => ?_, h.top, h.up_up⟩
  · change Function.update t.isDir n False (t.reduce t.root)
    rw [Function.update_of_ne (hn.reduce_ne hn.not_root)]
    exact h.root_dir
  change child d c = some x at hx
  change Function.update t.isDir n False (t.reduce x) at hdir
  have hxn : t.reduce x ≠ n := by
    intro hxn
    rw [hxn, Function.update_self] at hdir
    exact hdir
  rw [Function.update_of_ne hxn] at hdir
  rcases hchild d c with hold | ⟨rfl, hnew⟩
  · exact h.child_up d c x ⟨hd.settled, hd.above⟩ (hold ▸ hx) hdir
  · obtain rfl : n = x := Option.some.inj (hnew.symm.trans hx)
    exact absurd hn.reduce_self hxn

lemma cover_reduce_of_eq (hx : t.reduce x = d) : (t.cover d m p).reduce x = m := if_pos hx

lemma cover_reduce_of_ne (hx : t.reduce x ≠ d) : (t.cover d m p).reduce x = t.reduce x := if_neg hx

lemma cover_up_of_ne (hx : x ≠ m) : (t.cover d m p).up x = t.up x := Function.update_of_ne hx ..

lemma cover_up_self : (t.cover d m p).up m = some p := Function.update_self ..

lemma cover_reduce_self (hm : t.Unused m) (hd : t.Place d) : (t.cover d m p).reduce m = m := by
  rw [cover_reduce_of_ne (by rw [hm.reduce_self]; exact (hd.ne_unused hm).symm), hm.reduce_self]

/-- What is settled in the new tree is `m`, or was settled and is not covered. -/
lemma cover_settled (hx : (t.cover d m p).reduce x = x) (hxm : x ≠ m) : t.reduce x = x ∧ x ≠ d := by
  by_cases hxd : t.reduce x = d
  · rw [cover_reduce_of_eq hxd] at hx
    exact absurd hx.symm hxm
  · rw [cover_reduce_of_ne hxd] at hx
    exact ⟨hx, fun h => hxd (hx.trans h)⟩

theorem Tree.Sound.cover (h : t.Sound) (hm : t.Unused m) (hp : t.CoverAt d p) : (t.cover d m p).Sound := by
  obtain ⟨hd, hpp, hdir, hwhere⟩ := h.coverAt hp
  have hdm := hd.ne_unused hm
  have hpm := hpp.ne_unused hm
  have hroot : t.reduce t.root ≠ m := hm.reduce_ne hm.not_root
  refine ⟨fun x => ?_, ?_, ?_, fun y c x hy hx hxdir => ?_, fun y e hy he hey => ?_, fun y e hy he => ?_⟩
  · by_cases hx : t.reduce x = d
    · rw [cover_reduce_of_eq hx, cover_reduce_self hm hd]
    · rw [cover_reduce_of_ne hx, cover_reduce_of_ne (by rwa [h.idem]), h.idem]
  · change Function.update t.isDir m True (if t.reduce t.root = d then m else t.reduce t.root)
    split_ifs
    · rw [Function.update_self]
      trivial
    · rw [Function.update_of_ne hroot]
      exact h.root_dir
  · change ∃ e, (t.cover d m p).up ((t.cover d m p).reduce t.root) = some e ∧
      (t.cover d m p).reduce e = (t.cover d m p).reduce t.root
    rcases hwhere with ⟨hdroot, rfl⟩ | ⟨hdroot, -, -⟩
    · rw [cover_reduce_of_eq hdroot.symm]
      exact ⟨p, cover_up_self, cover_reduce_of_eq hd.settled⟩
    · obtain ⟨e, he, her⟩ := h.root_up
      rw [cover_reduce_of_ne hdroot.symm, cover_up_of_ne hroot]
      exact ⟨e, he, by rw [cover_reduce_of_ne (her ▸ hdroot.symm), her]⟩
  · change t.child y c = some x at hx
    change Function.update t.isDir m True ((t.cover d m p).reduce x) at hxdir
    have hym : y ≠ m := by
      rintro rfl
      simp [hm.noChild] at hx
    have hxm : x ≠ m := fun hxm => hm.notChild y c (hxm ▸ hx)
    obtain ⟨hys, hyd⟩ := cover_settled hy.settled hym
    have hyp : t.Place y := ⟨hys, cover_up_of_ne hym ▸ hy.above⟩
    by_cases hxd : t.reduce x = d
    · rw [cover_reduce_of_eq hxd]
      obtain ⟨hxroot, f, hf, hfy⟩ := h.child_up y c x hyp hx (hxd ▸ hdir)
      rw [hxd] at hxroot hf
      rcases hwhere with ⟨hdroot, -⟩ | ⟨-, hpd, f', hf', hfp⟩
      · exact absurd hdroot hxroot
      · obtain rfl : f = f' := Option.some.inj (hf.symm.trans hf')
        obtain rfl : y = p := hfy.symm.trans hfp
        change m ≠ (t.cover d m y).reduce t.root ∧ _
        rw [cover_reduce_of_ne hxroot.symm]
        exact ⟨hroot.symm, y, cover_up_self, by rw [cover_reduce_of_ne (by rwa [hys]), hys]⟩
    · have hxm' : t.reduce x ≠ m := hm.reduce_ne hxm
      rw [cover_reduce_of_ne hxd] at hxdir ⊢
      rw [Function.update_of_ne hxm'] at hxdir
      obtain ⟨hxroot, f, hf, hfy⟩ := h.child_up y c x hyp hx hxdir
      refine ⟨?_, f, (cover_up_of_ne hxm').trans hf, ?_⟩
      · change t.reduce x ≠ (if t.reduce t.root = d then m else t.reduce t.root)
        split_ifs
        · exact hxm'
        · exact hxroot
      · rw [cover_reduce_of_ne (hfy ▸ hyd), hfy]
  · by_cases hym : y = m
    · subst hym
      obtain rfl : p = e := Option.some.inj (cover_up_self.symm.trans he)
      rcases hwhere with ⟨hdroot, -⟩ | ⟨-, hpd, -⟩
      · exact (cover_reduce_of_eq hdroot.symm).symm
      · rw [cover_reduce_of_ne (by rwa [hpp.settled]), hpp.settled] at hey
        exact absurd hey hpm
    · obtain ⟨hys, hyd⟩ := cover_settled hy hym
      rw [cover_up_of_ne hym] at he
      by_cases hed : t.reduce e = d
      · rw [cover_reduce_of_eq hed] at hey
        exact absurd hey.symm hym
      · rw [cover_reduce_of_ne hed] at hey
        have hyroot := h.top y e hys he hey
        exact hyroot.trans (cover_reduce_of_ne (hyroot ▸ hyd)).symm
  · by_cases hed : t.reduce e = d
    · rw [cover_reduce_of_eq hed, cover_up_self]
      exact Option.some_ne_none p
    · rw [cover_reduce_of_ne hed]
      have habove : t.up (t.reduce e) ≠ none := by
        by_cases hym : y = m
        · subst hym
          obtain rfl : p = e := Option.some.inj (cover_up_self.symm.trans he)
          rw [hpp.settled]
          exact hpp.above
        · rw [cover_up_of_ne hym] at he
          exact h.up_up y e (cover_settled hy hym).1 he
      have hem : t.reduce e ≠ m := fun hem => habove (hem.symm ▸ hm.noUp)
      rw [cover_up_of_ne hem]
      exact habove

end Operations

end PiggyOs.CoveredTree
