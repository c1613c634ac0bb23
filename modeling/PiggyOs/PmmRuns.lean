import PiggyOs.Pmm
import PiggyOs.Transition

/-! Histories of the page allocator: any mixture of allocations and releases of live ranges,
started from the bitmap that initialisation leaves behind. -/
namespace PiggyOs.Pmm
open Bitmap Transition

/-- The allocator together with the `(address, pages)` ranges its callers hold. -/
structure Session where
  pmm : State
  live : List (ℕ × ℕ)

inductive Call
  | alloc (pages : ℕ)
  | free (addr pages : ℕ)
  deriving DecidableEq, Repr

def serve (s : Session) : Call → Option Session
  | .alloc pages => (pmmAlloc s.pmm pages).map fun r => ⟨r.2, (r.1, pages) :: s.live⟩
  | .free addr pages =>
      if (addr, pages) ∈ s.live then
        some ⟨pmmFree s.pmm addr pages, s.live.erase (addr, pages)⟩
      else none

def pagesOf (x : ℕ × ℕ) : ℕ × ℕ := (x.1 / pageSize, x.2)

def Holds (x : ℕ × ℕ) (i : ℕ) : Prop := (pagesOf x).1 ≤ i ∧ i < (pagesOf x).1 + (pagesOf x).2

/-- No two live ranges share a page, and none holds a page that `initial` reserves. -/
structure Sound (initial : Bytes) (s : Session) : Prop where
  disjoint : s.live.Pairwise fun x y => Apart (pagesOf x) (pagesOf y)
  unreserved : ∀ x ∈ s.live, ∀ i, Holds x i → test initial i = false

def Served (s : Session) (c : Call) (t : Session) : Prop := serve s c = some t

def Fits (s : Session) : Call → Prop
  | .alloc pages => StartsAtCursor s.pmm pages
  | .free _ _ => True

/-- Every set bit is accounted for, by the initial map or by one live range. -/
structure Accounted (initial : Bytes) (s : Session) : Prop extends Sound initial s where
  marks : ∀ i, test s.pmm.bitmap i = true ↔ test initial i = true ∨ ∃ x ∈ s.live, Holds x i
  nonempty : ∀ x ∈ s.live, 1 ≤ x.2

lemma apart_iff {x y : ℕ × ℕ} (hx : 1 ≤ x.2) (hy : 1 ≤ y.2) :
    Apart (pagesOf x) (pagesOf y) ↔ ∀ i, Holds x i → ¬ Holds y i := by
  simp only [Apart, Holds, pagesOf]
  constructor
  · intro h i hi
    omega
  · intro h
    have h1 := h (x.1 / pageSize)
    have h2 := h (y.1 / pageSize)
    omega

lemma accounted_start (s : State) : Accounted s.bitmap ⟨s, []⟩ where
  disjoint := List.Pairwise.nil
  unreserved := by simp
  marks := by simp
  nonempty := by simp

/-- An exact allocation keeps the accounts. -/
lemma Accounted.alloc {initial : Bytes} {s : Session} {pages addr : ℕ} {t : State}
    (h : Accounted initial s) (hn : 1 ≤ pages) (he : AllocExact s.pmm pages addr t) :
    Accounted initial ⟨t, (addr, pages) :: s.live⟩ := by
  have hclear : ∀ i, Holds (addr, pages) i → test s.pmm.bitmap i = false := by
    rintro i ⟨h1, h2⟩
    simp only [pagesOf] at h1 h2
    have := he.free (i - addr / pageSize) (by omega)
    rwa [Nat.add_sub_cancel' h1] at this
  refine ⟨⟨List.pairwise_cons.mpr ⟨fun y hy => ?_, h.disjoint⟩, ?_⟩, ?_, ?_⟩
  · refine (apart_iff hn (h.nonempty y hy)).mpr fun i hi hyi => ?_
    have hset := (h.marks i).mpr (Or.inr ⟨y, hy, hyi⟩)
    simp [hclear i hi] at hset
  · intro x hx i hi
    rcases List.mem_cons.mp hx with rfl | hx
    · by_contra hr
      have hset := (h.marks i).mpr (Or.inl (by simpa using hr))
      simp [hclear i hi] at hset
    · exact h.unreserved x hx i hi
  · intro i
    simp only [he.marks, Bool.or_eq_true, decide_eq_true_eq, h.marks, List.mem_cons,
      exists_eq_or_imp]
    simp only [Holds, pagesOf]
    tauto
  · intro x hx
    rcases List.mem_cons.mp hx with rfl | hx
    · exact hn
    · exact h.nonempty x hx

/-- Releasing a live range keeps the accounts. -/
lemma Accounted.free {initial : Bytes} {s : Session} {addr pages : ℕ}
    (h : Accounted initial s) (hx : (addr, pages) ∈ s.live) :
    Accounted initial ⟨pmmFree s.pmm addr pages, s.live.erase (addr, pages)⟩ := by
  have hsub : (s.live.erase (addr, pages)).Sublist s.live := List.erase_sublist
  have hperm := List.perm_cons_erase hx
  have hpair := (hperm.pairwise_iff fun h => Apart.symm h).mp h.disjoint
  obtain ⟨hother, -⟩ := List.pairwise_cons.mp hpair
  have hn := h.nonempty _ hx
  refine ⟨⟨h.disjoint.sublist hsub, fun x hm => h.unreserved x (hsub.subset hm)⟩, ?_,
    fun x hm => h.nonempty x (hsub.subset hm)⟩
  intro i
  simp only [pmmFree, test_clearRange, Bool.and_eq_true, Bool.not_eq_true',
    decide_eq_false_iff_not, h.marks]
  constructor
  · rintro ⟨hout, hr | ⟨x, hxm, hxi⟩⟩
    · exact Or.inl hr
    · rcases List.mem_cons.mp (hperm.subset hxm) with rfl | hxm
      · exact (hout hxi).elim
      · exact Or.inr ⟨x, hxm, hxi⟩
  · rintro (hr | ⟨x, hxm, hxi⟩)
    · refine ⟨fun hi => ?_, Or.inl hr⟩
      have := h.unreserved _ hx i hi
      simp [this] at hr
    · have hxm' := hsub.subset hxm
      refine ⟨fun hi => ?_, Or.inr ⟨x, hxm', hxi⟩⟩
      exact (apart_iff hn (h.nonempty x hxm')).mp (hother x hxm) i hi hxi

lemma Accounted.step {initial : Bytes} {s t : Session} {c : Call} (h : Accounted initial s)
    (hf : Fits s c) (hs : Served s c t) : Accounted initial t := by
  cases c with
  | alloc pages =>
    obtain ⟨⟨addr, u⟩, hr, rfl⟩ := Option.map_eq_some_iff.mp hs
    exact h.alloc (pmmAlloc_cases hr).1 ((pmmAlloc_exact_iff hr).mpr hf)
  | free addr pages =>
    simp only [Served, serve] at hs
    split_ifs at hs with hm
    obtain rfl := Option.some.inj hs
    exact h.free hm

/-- An allocation off the cursor hands out a page that is reserved or already held. -/
lemma Accounted.not_sound {initial : Bytes} {s : Session} {pages addr : ℕ} {t : State}
    (h : Accounted initial s) (hr : pmmAlloc s.pmm pages = some (addr, t))
    (hf : ¬ StartsAtCursor s.pmm pages) : ¬ Sound initial ⟨t, (addr, pages) :: s.live⟩ := by
  intro hs
  obtain ⟨hn, page, rfl, rfl, -⟩ := pmmAlloc_cases hr
  rw [← pmmAlloc_exact_iff hr] at hf
  refine hf ⟨Nat.mul_mod_left _ _, fun i hi => ?_, by simp [pageSize]⟩
  have hold : Holds (page * pageSize, pages) (page * pageSize / pageSize + i) :=
    ⟨Nat.le_add_right _ _, by simpa [pagesOf] using hi⟩
  by_contra hset
  rcases (h.marks _).mp (by simpa using hset) with hres | ⟨x, hx, hxi⟩
  · have := hs.unreserved _ (by simp) _ hold
    simp [this] at hres
  · obtain ⟨hd, -⟩ := List.pairwise_cons.mp hs.disjoint
    exact (apart_iff hn (h.nonempty x hx)).mp (hd x hx) _ hold hxi

/-- In every history whose allocations all start at the cursor the live ranges are disjoint and
unreserved. The next allocation gives out free pages only, and keeps this so, if and only if it
starts at the cursor too. -/
theorem pmmAlloc_sound_at_cursor {s0 : State} {calls : List Call} {s : Session}
    (hrun : Run (fun s c t => Fits s c ∧ Served s c t) ⟨s0, []⟩ calls s) :
    Sound s0.bitmap s ∧ ∀ pages addr t, pmmAlloc s.pmm pages = some (addr, t) →
      (AllocExact s.pmm pages addr t ↔ StartsAtCursor s.pmm pages) ∧
      (Sound s0.bitmap ⟨t, (addr, pages) :: s.live⟩ ↔ StartsAtCursor s.pmm pages) := by
  have hacc : Accounted s0.bitmap s :=
    hrun.invariant (fun s c t hi hst => hi.step hst.1 hst.2) (accounted_start s0)
  refine ⟨hacc.toSound, fun pages addr t hr => ⟨pmmAlloc_exact_iff hr, ?_, fun hf => ?_⟩⟩
  · intro hs
    by_contra hf
    exact hacc.not_sound hr hf hs
  · exact (hacc.alloc (pmmAlloc_cases hr).1 ((pmmAlloc_exact_iff hr).mpr hf)).toSound

/-- Seven usable pages from address 0; their bitmap needs no page of its own. -/
def lowMap : List MemmapEntry := [⟨0, 0x7000, .usable⟩]

def lowState : State := (pmmInit (fun _ => 0) lowMap).get (by decide)

def lowSession : Session := (serve ⟨lowState, []⟩ (.alloc 2)).get (by decide)

theorem pmmAlloc_sound_at_cursor_lowMap :
    pmmInit (fun _ => 0) lowMap = some lowState ∧
      Run (fun s c t => Fits s c ∧ Served s c t) ⟨lowState, []⟩ [.alloc 2] lowSession ∧
      Sound lowState.bitmap lowSession := by
  have hfit : Fits ⟨lowState, []⟩ (.alloc 2) := Or.inl ⟨by decide, by decide, by decide⟩
  have hrun : Run (fun s c t => Fits s c ∧ Served s c t) ⟨lowState, []⟩ [.alloc 2] lowSession :=
    .single ⟨hfit, (Option.some_get _).symm⟩
  exact ⟨(Option.some_get _).symm, hrun, (pmmAlloc_sound_at_cursor hrun).1⟩

/-- A reserved first page and eight usable ones, the first of which takes the bitmap. -/
def smallMap : List MemmapEntry := [⟨0, 0x1000, .reserved⟩, ⟨0x1000, 0x8000, .usable⟩]

def smallState : State := (pmmInit (fun _ => 0) smallMap).get (by decide)

/-- The very first page given out after this boot is the one that holds the bitmap. -/
lemma smallState_alloc : (pmmAlloc smallState 1).map Prod.fst = some 0x1000 := by decide

theorem pmmAlloc_unsound_at_smallMap :
    ¬ ∀ ram entries s0 calls s, pmmInit ram entries = some s0 → Run Served ⟨s0, []⟩ calls s →
      Sound s0.bitmap s ∧ ∀ pages addr t, pmmAlloc s.pmm pages = some (addr, t) →
        AllocExact s.pmm pages addr t := by
  intro hall
  obtain ⟨-, hexact⟩ := hall (fun _ => 0) smallMap smallState [] ⟨smallState, []⟩
    (Option.some_get _).symm (.nil _)
  obtain ⟨⟨addr, t⟩, hr, ha⟩ := Option.map_eq_some_iff.mp smallState_alloc
  obtain rfl : addr = 0x1000 := ha
  have hfree := (hexact 1 0x1000 t hr).free 0 (by decide)
  exact absurd hfree (by decide)

end PiggyOs.Pmm
