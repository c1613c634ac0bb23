import PiggyOs.Pathname
import PiggyOs.UserAccess

/-! The bytes that `getcwd` copies out of a buffer on the kernel's stack. -/
namespace PiggyOs.UserAccess
open ByteMemory VfsTree Fuel IntrusiveList Filter Transition CoveredTree

def pathMax : ℕ := 4096

/-- The value that is returned, and the memory of the process. `stack` is the kernel's memory from the
temporary buffer on, which nothing has been stored to yet. -/
def syscallGetcwd (s : Vfs) (codeBase : BitVec 64) (cwd : ℕ) (buffer length : BitVec 64) (mem : BitVec 64 → BitVec 8)
    (stack : Memory) (fuel : ℕ) : Option (BitVec 64 × (BitVec 64 → BitVec 8)) :=
  (vfsGetPathname s stack fuel cwd (BitVec.ofNat 64 (pathMax - 1))).map fun (actualLength, stack) =>
    if length.toNat ≤ actualLength then (0, mem)
    else match copyToUser codeBase mem buffer stack length with
      | none => (0, mem)
      | some mem => (buffer, mem)

/-- Two calls that only differ in what was on the stack give the process the same. -/
def RevealsOnlyPath (s : Vfs) (codeBase : BitVec 64) (cwd : ℕ) (buffer length : BitVec 64) : Prop :=
  ∀ mem stack stack', ∀ᶠ fuel in atTop, syscallGetcwd s codeBase cwd buffer length mem stack fuel =
    syscallGetcwd s codeBase cwd buffer length mem stack' fuel

/-- The path of a current directory. Until it is changed, that is `vfs_root` itself. -/
def CwdPath (s : Vfs) (cwd : ℕ) (p : CString) : Prop :=
  if cwd = s.vfsRoot then p = slashPath else Spelled s cwd p

section Paths
variable {s : Vfs} {n cwd : ℕ} {p : CString} {cwds : Set ℕ} {flag : Bool} {reduce : ℕ → ℕ} {up : ℕ → Option ℕ}

/-- Parents come before their children, so every node has a path. -/
lemma exists_spelled (h : Shaped s) (hinv : Inv s cwds flag reduce up) (hlt : n < s.count) (hn0 : n ≠ 0) :
    ∃ p, Spelled s n p := by
  induction n using Nat.strong_induction_on with
  | _ n ih =>
    by_cases hn2 : n = 2
    · subst hn2
      exact ⟨_, .root⟩
    cases hparent : (s.nodes n).parent with
    | none =>
      have hn1 := h.below n hlt hparent
      obtain rfl : n = 1 := by omega
      exact ⟨_, .dev⟩
    | some e =>
      obtain ⟨hen, hlink⟩ := h.parents n e hparent
      have he0 : e ≠ 0 := by
        rintro rfl
        exact (h.named n hn2).2 hparent
      have hm := hinv.reduced e hlink
      obtain ⟨hmn, hm0⟩ := h.reduced_parent_lt hparent he0 hm
      obtain ⟨p, hp⟩ := ih _ hmn (hmn.trans hlt) hm0
      exact ⟨_, .child hparent he0 hm hm0 hp⟩

lemma Inv.lt_of_start (hinv : Inv s cwds flag reduce up) (hcwd : cwd ∈ cwds) : cwd < s.count := by
  by_contra hge
  refine (hinv.starts cwd hcwd).2 ?_
  rw [hinv.reduce_of_le (not_lt.mp hge)]
  exact (hinv.unused (not_lt.mp hge)).noUp

lemma exists_cwdPath (h : Shaped s) (hinv : Inv s cwds flag reduce up) (hcwd : cwd ∈ cwds) : ∃ p, CwdPath s cwd p := by
  by_cases hroot : cwd = s.vfsRoot
  · exact ⟨slashPath, by rw [CwdPath, if_pos hroot]⟩
  · obtain ⟨p, hp⟩ := exists_spelled h hinv (Inv.lt_of_start hinv hcwd) (h.vfsRoot ▸ hroot)
    exact ⟨p, by rwa [CwdPath, if_neg hroot]⟩

/-- The call does not return if the last name would start behind the buffer. -/
lemma CwdPath.settles (h : Shaped s) (hp : CwdPath s cwd p) (hlen : p.strlen < 2 ^ 47) (stack : Memory) :
    Settles (fun fuel => vfsGetPathname s stack fuel cwd (BitVec.ofNat 64 (pathMax - 1)))
      (if p.strlen ≤ pathMax - 1 + (s.nodes cwd).name.strlen
        then some (p.strlen, written stack p (pathMax - 1)) else none) := by
  have hint : (BitVec.ofNat 64 (pathMax - 1)).toInt = 4095 := by decide
  rw [CwdPath] at hp
  split_ifs at hp with hroot
  · subst hp
    rw [if_pos (Nat.le_trans (show slashPath.strlen ≤ pathMax - 1 by decide) (Nat.le_add_right _ _))]
    refine Settles.of_succ rfl ?_
    have hreduced := settles_reduced s 0
    rw [h.reduced_root] at hreduced
    simp only [vfsGetPathname, hroot, h.vfsRoot, if_true]
    have hcall := hreduced.bind fun a _ => settles_const ((strncpy stack 0 (s.nodes a).name
      (BitVec.ofNat 64 (pathMax - 1))).map fun mem => ((s.nodes a).name.strlen, mem))
    rw [Option.bind_some, h.root.1, strncpy_eq, hint] at hcall
    exact hcall
  · have hsettles := hp.settles h stack (BitVec.ofNat 64 (pathMax - 1)) (by omega) (by omega)
    rw [hint] at hsettles
    have hiff : (p.1 = [] ∨ (p.strlen : ℤ) ≤ 4095 + (s.nodes cwd).name.strlen) ↔
        p.strlen ≤ pathMax - 1 + (s.nodes cwd).name.strlen := by
      rw [pathMax]
      refine ⟨fun hor => ?_, fun hle => Or.inr (by omega)⟩
      rcases hor with hnil | hle
      · have hzero : p.strlen = 0 := List.length_eq_zero_iff.mpr hnil
        omega
      · omega
    rw [if_congr hiff rfl rfl] at hsettles
    exact hsettles

lemma CwdPath.strlen_lt (h : Shaped s) (hinv : Inv s cwds flag reduce up) (hfits : Fits s) (hcwd : cwd ∈ cwds)
    (hp : CwdPath s cwd p) : p.strlen < 2 ^ 47 := by
  rw [CwdPath] at hp
  split_ifs at hp with hroot
  · rw [hp]
    decide
  · exact hp.strlen_lt_of_fits h hfits (Inv.lt_of_start hinv hcwd)

end Paths

section Copies
variable {mem : BitVec 64 → BitVec 8} {buffer codeBase length : BitVec 64} {ksrc ksrc' : Memory} {n : ℕ}

lemma memcpyToUser_apply (hn : n ≤ 2 ^ 64) {k : ℕ} (hk : k < n) :
    memcpyToUser mem buffer ksrc n (buffer + BitVec.ofNat 64 k) = ksrc k := by
  induction n with
  | zero => omega
  | succ n ih =>
    rw [memcpyToUser]
    by_cases hkn : k = n
    · rw [hkn, Function.update_self]
    · rw [Function.update_of_ne, ih (by omega) (by omega)]
      intro heq
      have hnat := congrArg BitVec.toNat ((BitVec.add_right_inj buffer).mp heq)
      rw [BitVec.toNat_ofNat, BitVec.toNat_ofNat, Nat.mod_eq_of_lt (by omega), Nat.mod_eq_of_lt (by omega)] at hnat
      exact hkn hnat

/-- The process can tell two sources apart by the bytes that are copied and by no others. -/
lemma memcpyToUser_eq_iff (hn : n ≤ 2 ^ 64) :
    memcpyToUser mem buffer ksrc n = memcpyToUser mem buffer ksrc' n ↔ ∀ k < n, ksrc k = ksrc' k := by
  constructor
  · intro h k hk
    have hbyte : memcpyToUser mem buffer ksrc n (buffer + BitVec.ofNat 64 k) = ksrc k := memcpyToUser_apply hn hk
    rw [← hbyte, h, memcpyToUser_apply hn hk]
  · intro h
    induction n with
    | zero => rfl
    | succ n ih =>
      rw [memcpyToUser, memcpyToUser, ih (by omega) fun k hk => h k (Nat.lt_succ_of_lt hk), h n (Nat.lt_succ_self n)]

lemma written_congr_iff {p : CString} {m n : ℕ} : (∀ stack stack' : Memory, ∀ k < n, written stack p m k = written stack' p m k) ↔
    n = 0 ∨ (p.1 ≠ [] ∧ n ≤ m) := by
  constructor
  · intro h
    by_contra hnot
    push Not at hnot
    by_cases hp : p.1 = []
    · have h0 := h (fun _ => 0) (fun _ => 1) 0 (Nat.pos_of_ne_zero hnot.1)
      rw [written, written, if_pos hp, if_pos hp] at h0
      exact absurd h0 (by decide)
    · have hm := h (fun _ => 0) (fun _ => 1) m (hnot.2 hp)
      rw [written, written, if_neg hp, if_neg hp, blit_outside _ _ (by omega), blit_outside _ _ (by omega)] at hm
      exact absurd hm (by decide)
  · rintro (rfl | ⟨hp, hnm⟩) stack stack' k hk
    · omega
    · rw [written_apply hp (by omega), written_apply hp (by omega)]

end Copies

section Stack
variable {S : System} {events : List Event} {codeBase buffer length : BitVec 64} {cwd : ℕ} {p : CString}

lemma CwdPath.nil_iff (h : Shaped S.vfs) (hp : CwdPath S.vfs cwd p) : p.1 = [] ↔ S.vfs.reduced S.vfs.vfsRoot = some cwd := by
  rw [h.vfsRoot, h.reduced_root, Option.some_inj]
  rw [CwdPath, h.vfsRoot] at hp
  split_ifs at hp with hroot
  · rw [hp, hroot]
    decide
  · cases hp with
    | root => exact iff_of_true rfl rfl
    | dev => decide
    | child hparent he0 hm hm0 hp =>
      refine iff_of_false (join_ne_nil _ _) ?_
      rintro rfl
      exact he0 (Option.some.inj (hparent.symm.trans h.root.2.1))

/-- What a call comes to. -/
def outcome (s : Vfs) (codeBase : BitVec 64) (cwd : ℕ) (p : CString) (buffer length : BitVec 64) (mem : BitVec 64 → BitVec 8)
    (stack : Memory) : Option (BitVec 64 × (BitVec 64 → BitVec 8)) :=
  if pathMax - 1 + (s.nodes cwd).name.strlen < p.strlen then none
  else if length.toNat ≤ p.strlen ∨ checkUserPtr codeBase buffer = false then some (0, mem)
  else some (buffer, memcpyToUser mem buffer (written stack p (pathMax - 1)) length.toNat)

lemma CwdPath.settles_getcwd (h : Shaped S.vfs) (hp : CwdPath S.vfs cwd p) (hlen : p.strlen < 2 ^ 47)
    (mem : BitVec 64 → BitVec 8) (stack : Memory) :
    Settles (fun fuel => syscallGetcwd S.vfs codeBase cwd buffer length mem stack fuel)
      (outcome S.vfs codeBase cwd p buffer length mem stack) := by
  have hvalue : outcome S.vfs codeBase cwd p buffer length mem stack =
      (if p.strlen ≤ pathMax - 1 + (S.vfs.nodes cwd).name.strlen
        then some (p.strlen, written stack p (pathMax - 1)) else none).map fun (actualLength, stack) =>
          if length.toNat ≤ actualLength then (0, mem)
          else match copyToUser codeBase mem buffer stack length with
            | none => (0, mem)
            | some mem => (buffer, mem) := by
    unfold outcome
    by_cases hreturns : p.strlen ≤ pathMax - 1 + (S.vfs.nodes cwd).name.strlen
    · rw [if_neg (by omega), if_pos hreturns, Option.map_some]
      by_cases hlength : length.toNat ≤ p.strlen
      · simp [hlength]
      · cases hcheck : checkUserPtr codeBase buffer with
        | false => simp [hlength, copyToUser, hcheck]
        | true => simp [hlength, copyToUser, hcheck]
    · rw [if_pos (by omega), if_neg hreturns, Option.map_none]
  rw [hvalue]
  exact (hp.settles h hlen stack).map _

/-- Apart from copying nothing, only the part of the buffer that `vfs_get_pathname` has filled is safe to copy. -/
lemma CwdPath.reveals_iff (h : Shaped S.vfs) (hp : CwdPath S.vfs cwd p) (hlen : p.strlen < 2 ^ 47) :
    RevealsOnlyPath S.vfs codeBase cwd buffer length ↔
      checkUserPtr codeBase buffer = false ∨ length.toNat ≤ p.strlen ∨
      pathMax - 1 + (S.vfs.nodes cwd).name.strlen < p.strlen ∨
      (S.vfs.reduced S.vfs.vfsRoot ≠ some cwd ∧ length.toNat ≤ pathMax - 1) := by
  have hsame : RevealsOnlyPath S.vfs codeBase cwd buffer length ↔ ∀ mem stack stack',
      outcome S.vfs codeBase cwd p buffer length mem stack = outcome S.vfs codeBase cwd p buffer length mem stack' :=
    forall_congr' fun mem => forall_congr' fun stack => forall_congr' fun stack' =>
      (hp.settles_getcwd h hlen mem stack).eventually_eq_iff (hp.settles_getcwd h hlen mem stack')
  rw [hsame, ne_eq, ← hp.nil_iff h]
  by_cases hlost : pathMax - 1 + (S.vfs.nodes cwd).name.strlen < p.strlen
  · simp [outcome, hlost]
  by_cases hrefused : length.toNat ≤ p.strlen ∨ checkUserPtr codeBase buffer = false
  · refine iff_of_true (fun mem stack stack' => ?_) (by tauto)
    rw [outcome, outcome, if_neg hlost, if_neg hlost, if_pos hrefused, if_pos hrefused]
  · push Not at hrefused
    have hpos : length.toNat ≠ 0 := by omega
    have hcopied : (∀ mem stack stack', outcome S.vfs codeBase cwd p buffer length mem stack =
        outcome S.vfs codeBase cwd p buffer length mem stack') ↔
        ∀ stack stack' : Memory, ∀ k < length.toNat, written stack p (pathMax - 1) k = written stack' p (pathMax - 1) k := by
      simp only [outcome, if_neg hlost, if_neg (not_or.mpr ⟨not_le.mpr hrefused.1, hrefused.2⟩), Option.some_inj,
        Prod.mk.injEq, true_and, memcpyToUser_eq_iff length.isLt.le]
      exact ⟨fun hall => hall fun _ => 0, fun hall _ => hall⟩
    rw [hcopied, written_congr_iff, or_iff_right hpos, or_iff_right hrefused.2, or_iff_right (not_le.mpr hrefused.1),
      or_iff_right hlost]

/-- `getcwd` gives a process nothing but its path if and only if it copies nothing, or it copies no more than
the part of the buffer that has been filled, which is nothing at all for the mounted root. -/
theorem getcwd_reveals_only_path (hrun : Run KernelStep systemInit events S) (hcwd : cwd ∈ S.cwds) :
    ∃ p, CwdPath S.vfs cwd p ∧ ∀ codeBase buffer length, RevealsOnlyPath S.vfs codeBase cwd buffer length ↔
      checkUserPtr codeBase buffer = false ∨ length.toNat ≤ p.strlen ∨
      pathMax - 1 + (S.vfs.nodes cwd).name.strlen < p.strlen ∨
      (S.vfs.reduced S.vfs.vfsRoot ≠ some cwd ∧ length.toNat ≤ pathMax - 1) := by
  obtain ⟨⟨reduce, up, hinv⟩, h, -⟩ := kernelValid_of_run hrun
  obtain ⟨p, hp⟩ := exists_cwdPath h hinv hcwd
  have hlen : p.strlen < 2 ^ 47 := hp.strlen_lt h hinv (fits_of_run hrun) hcwd
  exact ⟨p, hp, fun codeBase buffer length => hp.reveals_iff h hlen⟩

/-- The first process, before it changes its directory, with a buffer of 4095 bytes. -/
theorem getcwd_reveals_only_path_init : RevealsOnlyPath rootMounted 0x400000#64 0 0x500000#64 4095#64 := by
  obtain ⟨p, -, hiff⟩ := getcwd_reveals_only_path (.nil systemInit) (show 0 ∈ systemInit.cwds from rfl)
  obtain ⟨-, h, -⟩ := kernelValid_of_run (.nil systemInit)
  refine (hiff _ _ _).mpr (Or.inr (Or.inr (Or.inr ⟨?_, by decide⟩)))
  rw [h.vfsRoot, h.reduced_root]
  decide

/-- After a change to `/`, the first byte of the stack that is copied is not a part of the path. -/
theorem getcwd_reveals_stack : ∃ events S, Run KernelStep systemInit events S ∧ 2 ∈ S.cwds ∧
    ¬RevealsOnlyPath S.vfs 0x400000#64 2 0x500000#64 1#64 := by
  have hchdir : KernelStep systemInit (.chdir (fun _ => []) 0 slashPath) { systemInit with cwds := insert 2 systemInit.cwds } :=
    ⟨by unfold Fits; decide, rfl, 10, 2, by decide, by decide, rfl⟩
  have hrun : Run KernelStep systemInit [.chdir (fun _ => []) 0 slashPath] _ := .single hchdir
  obtain ⟨-, h, -⟩ := kernelValid_of_run hrun
  refine ⟨_, _, hrun, Set.mem_insert _ _, fun hreveals => ?_⟩
  have hp : CwdPath rootMounted 2 emptyPath := .root
  rcases (hp.reveals_iff h (by decide)).mp hreveals with hcheck | hshort | hlost | ⟨hroot, -⟩
  · exact absurd hcheck (by decide)
  · exact absurd hshort (by decide)
  · exact absurd hlost (by decide)
  · rw [h.vfsRoot] at hroot
    exact hroot h.reduced_root

end Stack

end PiggyOs.UserAccess
