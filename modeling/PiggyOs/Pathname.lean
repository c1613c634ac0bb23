import PiggyOs.ByteMemory
import PiggyOs.KernelTree

/-! The pathname that the kernel makes up for a node, from the names on the way to the root. -/
namespace PiggyOs.VfsTree
open Hash CString Separated Fuel IntrusiveList Filter Transition CoveredTree ByteMemory

variable {s : Vfs} {d e m n x y : ℕ} {c k p q : CString}

/-- A string, filled up with zeros. A size that has wrapped around does not fit into the address space. -/
def strncpy (mem : Memory) (dest : ℕ) (src : CString) (n : BitVec 64) : Option Memory :=
  if n.msb then none else some (blit mem dest (fun k => src.1.getD k 0) n.toNat)

/-- The length that is returned, and the memory from the buffer on. -/
def vfsGetPathname (s : Vfs) (mem : Memory) : ℕ → ℕ → BitVec 64 → Option (ℕ × Memory)
  | 0, _, _ => none
  | fuel + 1, node, len =>
      if node = s.vfsRoot then
        (vfsReduceNode s fuel node).bind fun root =>
          (strncpy mem 0 (s.nodes root).name len).map fun mem => ((s.nodes root).name.strlen, mem)
      else
        let above := match (s.nodes node).parent with
          | none => some (0, mem)
          | some parent =>
              if parent = s.vfsRoot then some (0, mem)
              else (vfsReduceNode s fuel parent).bind fun parent =>
                if parent = s.vfsRoot then some (0, mem)
                else (vfsGetPathname s mem fuel parent (len - 1)).map fun (offset, mem) =>
                  (offset + 1, Function.update mem offset slash)
        above.bind fun (offset, mem) =>
          if (s.nodes node).name ≠ slashPath then
            (strncpy mem offset (s.nodes node).name (len - BitVec.ofNat 64 offset)).map fun mem =>
              ((s.nodes node).name.strlen + offset, mem)
          else some (offset, mem)

/-- What is spelled for a node other than `vfs_root`. -/
inductive Spelled (s : Vfs) : ℕ → CString → Prop
  | root : Spelled s 2 emptyPath
  | dev : Spelled s 1 devName
  | child {n e m : ℕ} {p : CString} : (s.nodes n).parent = some e → e ≠ 0 → s.reduced e = some m → m ≠ 0 →
      Spelled s m p → Spelled s n (join p (s.nodes n).name)

/-- A name in the buffer, with zeros behind it. For the empty one nothing has been written. -/
def written (mem : Memory) (p : CString) (len : ℕ) : Memory :=
  if p.1 = [] then mem else blit mem 0 (fun k => p.1.getD k 0) len

section Spelling
variable {mem : Memory} {len : BitVec 64}

lemma strlen_join (p c : CString) : (join p c).strlen = p.strlen + 1 + c.strlen := by
  simp only [CString.strlen, join, List.length_append, List.length_cons]
  omega

lemma toInt_sub_ofNat (len : BitVec 64) {k : ℕ} (hk : k < 2 ^ 63) (hlow : -2 ^ 63 ≤ len.toInt - k) :
    (len - BitVec.ofNat 64 k).toInt = len.toInt - k := by
  have hhigh : len.toInt < 2 ^ 63 := BitVec.toInt_lt
  have hofNat : (BitVec.ofNat 64 k).toInt = k := by
    rw [BitVec.toInt_eq_toNat_of_lt (by rw [BitVec.toNat_ofNat]; omega), BitVec.toNat_ofNat, Nat.mod_eq_of_lt (by omega)]
  rw [BitVec.toInt_sub, hofNat, Int.bmod_eq_of_le (by omega) (by omega)]

/-- The size counts as negative if it has wrapped around. -/
lemma strncpy_eq (n : BitVec 64) (dest : ℕ) : strncpy mem dest p n =
    if 0 ≤ n.toInt then some (blit mem dest (fun k => p.1.getD k 0) n.toInt.toNat) else none := by
  rw [strncpy]
  cases hmsb : n.msb with
  | true =>
    have hneg : n.toInt < 0 := by simpa [BitVec.msb_eq_toInt] using hmsb
    rw [if_pos rfl, if_neg (by omega)]
  | false => rw [if_neg (by decide), BitVec.toInt_eq_toNat_of_msb hmsb, if_pos (by omega), Int.toNat_natCast]

/-- A slash and a name behind what was written for the parent. -/
lemma written_join {n : ℕ} (hlen : p.strlen + 1 ≤ n) (c : CString) :
    blit (Function.update (written mem p (n - 1)) p.strlen slash) (p.strlen + 1) (fun k => c.1.getD k 0)
      (n - (p.strlen + 1)) = written mem (join p c) n := by
  have hjoin : written mem (join p c) n = blit mem 0 (fun k => (p.1 ++ slash :: c.1).getD k 0) n :=
    if_neg (join_ne_nil p c)
  funext b
  rw [hjoin]
  rw [CString.strlen] at hlen ⊢
  by_cases hb : b < p.1.length + 1
  · rw [blit_outside _ _ (Or.inl hb), blit, if_pos (by omega), Nat.sub_zero]
    by_cases hlast : b = p.1.length
    · subst hlast
      rw [Function.update_self, List.getD_append_right _ _ _ _ le_rfl, Nat.sub_self]
      rfl
    · have hlt : b < p.1.length := by omega
      have hne : p.1 ≠ [] := List.ne_nil_of_length_pos (by omega)
      rw [Function.update_of_ne hlast, written, if_neg hne, blit, if_pos (by omega), Nat.sub_zero,
        List.getD_append _ _ _ _ hlt]
  · by_cases hn : b < n
    · obtain ⟨k, rfl⟩ : ∃ k, b = p.1.length + 1 + k := ⟨b - (p.1.length + 1), by omega⟩
      rw [blit_inside _ _ (by omega), blit, if_pos (by omega), Nat.sub_zero, List.getD_append_right _ _ _ _ (by omega),
        show p.1.length + 1 + k - p.1.length = k + 1 by omega, List.getD_cons_succ]
    · rw [blit_outside _ _ (by omega), Function.update_of_ne (by omega), blit, if_neg (by omega), written]
      split_ifs
      · rfl
      · rw [blit, if_neg (by omega)]

/-- What the call returns, or that it does not return because the last name would start behind the buffer. -/
lemma Spelled.settles (h : Shaped s) (hn : Spelled s n p) (mem : Memory) (len : BitVec 64) (hlow : -2 ^ 62 ≤ len.toInt - p.strlen)
    (hhigh : p.strlen < 2 ^ 62) : Settles (fun fuel => vfsGetPathname s mem fuel n len)
      (if p.1 = [] ∨ (p.strlen : ℤ) ≤ len.toInt + (s.nodes n).name.strlen
        then some (p.strlen, written mem p len.toInt.toNat) else none) := by
  induction hn generalizing len with
  | root =>
    refine Settles.of_succ rfl ?_
    have hroot : (if emptyPath.1 = [] ∨ (emptyPath.strlen : ℤ) ≤ len.toInt + (s.nodes 2).name.strlen
        then some (emptyPath.strlen, written mem emptyPath len.toInt.toNat) else none) = some (0, mem) := if_pos (Or.inl rfl)
    rw [hroot]
    simp only [vfsGetPathname, h.vfsRoot, h.root.2.1, h.root.1]
    exact settles_const _
  | dev =>
    refine Settles.of_succ rfl ?_
    have hne : devName ≠ slashPath := by decide
    have hzero : len - BitVec.ofNat 64 0 = len := by simp
    simp only [vfsGetPathname, h.vfsRoot, h.dev.2.1, h.dev.1, Option.bind_some, one_ne_zero, if_false, hne, ne_eq,
      not_false_eq_true, if_true, hzero, strncpy_eq]
    have hdev : devName.1 ≠ [] := by decide
    have hiff : (devName.1 = [] ∨ (devName.strlen : ℤ) ≤ len.toInt + devName.strlen) ↔ 0 ≤ len.toInt := by
      rw [or_iff_right hdev]
      omega
    rw [if_congr hiff rfl rfl]
    split_ifs
    · rw [Option.map_some, Nat.add_zero, written, if_neg hdev]
      exact settles_const _
    · exact settles_const _
  | @child n e m p hparent he0 hm hm0 hp ih =>
    refine Settles.of_succ rfl ?_
    have hn0 : n ≠ 0 := Nat.ne_zero_of_lt (h.parents n e hparent).1
    have hn2 : n ≠ 2 := by
      rintro rfl
      exact he0 (Option.some.inj (hparent.symm.trans h.root.2.1))
    have hname := (h.named n hn2).1
    rw [strlen_join] at hlow hhigh ⊢
    have hone : (len - 1).toInt = len.toInt - 1 := toInt_sub_ofNat len (k := 1) (by omega) (by omega)
    have hoffset := toInt_sub_ofNat len (k := p.strlen + 1) (by omega) (by omega)
    have hparentPath := ih (len - 1) (by rw [hone]; omega) (by omega)
    rw [hone] at hparentPath
    have habove : Settles (fun fuel => (vfsReduceNode s fuel e).bind fun parent => if parent = 0 then some (0, mem)
        else (vfsGetPathname s mem fuel parent (len - 1)).map fun (offset, mem) => (offset + 1, Function.update mem offset slash))
        ((if p.1 = [] ∨ (p.strlen : ℤ) ≤ len.toInt - 1 + (s.nodes m).name.strlen
          then some (p.strlen, written mem p (len.toInt - 1).toNat) else none).map fun (offset, mem) =>
            (offset + 1, Function.update mem offset slash)) := by
      have hreduced := settles_reduced s e
      rw [hm] at hreduced
      refine hreduced.bind (w := fun _ => _) fun a ha => ?_
      obtain rfl := Option.some.inj ha
      simp only [if_neg hm0]
      exact hparentPath.map _
    simp only [vfsGetPathname, h.vfsRoot, hn0, if_false, hparent, he0, hname, ne_eq, not_false_eq_true, if_true]
    have hcall := habove.bind fun a _ => settles_const
      ((strncpy a.2 a.1 (s.nodes n).name (len - BitVec.ofNat 64 a.1)).map fun mem => ((s.nodes n).name.strlen + a.1, mem))
    convert hcall using 1
    by_cases hfits : (p.strlen : ℤ) + 1 ≤ len.toInt
    · rw [if_pos (by push_cast; omega), if_pos (by omega), Option.map_some, Option.bind_some, strncpy_eq, hoffset,
        if_pos (by push_cast; omega), Option.map_some]
      refine congrArg some (Prod.ext ?_ ?_)
      · dsimp only
        omega
      · dsimp only
        rw [← written_join (n := len.toInt.toNat) (by omega), show (len.toInt - 1).toNat = len.toInt.toNat - 1 by omega,
          show (len.toInt - ((p.strlen + 1 : ℕ) : ℤ)).toNat = len.toInt.toNat - (p.strlen + 1) by omega]
    · rw [if_neg (by push_cast; simp [join_ne_nil]; omega)]
      split_ifs
      · rw [Option.map_some, Option.bind_some, strncpy_eq, hoffset, if_neg (by push_cast; omega), Option.map_none]
      · rfl

end Spelling

/-- A node of the tree below the root, and the names that lead to it. -/
inductive Rooted (s : Vfs) : ℕ → CString → Prop
  | root : Rooted s 2 emptyPath
  | child {e x : ℕ} {p : CString} : Rooted s e p → s.isDir e = true → s.lookup e (s.nodes x).name = some x →
      s.redirect x = none → (s.nodes x).parent = some e → FileName (s.nodes x).name → (s.nodes x).fs = some .tmpfs →
      Rooted s x (join p (s.nodes x).name)

/-- The node and everything above it, up to what stands for `vfs_root`. -/
inductive Above (s : Vfs) : ℕ → ℕ → Prop
  | self (n : ℕ) : Above s n n
  | parent {n e x : ℕ} : (s.nodes n).parent = some e → e ≠ s.vfsRoot → Above s e x → Above s n x

/-- The call leaves a terminated absolute path in a buffer that is long enough, and that path leads back to
the node. -/
def RoundTrips (s : Vfs) (n : ℕ) : Prop :=
  ∃ p : CString, p.strlen < 2 ^ 47 ∧ absolute p = true ∧ (∀ stale, Resolves s stale s.vfsRoot p n) ∧
    ∀ (mem : Memory) (len : BitVec 64), p.strlen < len.toNat → len.toNat ≤ 2 ^ 47 → ∀ᶠ fuel in atTop, ∃ r mem',
      vfsGetPathname s mem fuel n len = some (r, mem') ∧ readBytes mem' 0 (p.strlen + 1) = p.1 ++ [0]

section Trees
variable {cwds : Set ℕ} {flag : Bool} {reduce : ℕ → ℕ} {up : ℕ → Option ℕ}

lemma Rooted.fs (h : Shaped s) (hn : Rooted s n p) : (s.nodes n).fs = some .tmpfs := by
  cases hn with
  | root => exact h.root.2.2
  | child _ _ _ _ _ _ hfs => exact hfs

lemma Rooted.redirect (h : Shaped s) (hn : Rooted s n p) : s.redirect n = none := by
  cases hn with
  | root => exact h.redirect_root.trans h.covered.2.2
  | child _ _ _ hredirect _ _ _ => exact hredirect

lemma Rooted.reduced (h : Shaped s) (hn : Rooted s n p) : s.reduced n = some n := ending_of_none (hn.redirect h)

lemma Rooted.ne_zero (h : Shaped s) (hn : Rooted s n p) : n ≠ 0 := by
  rintro rfl
  have hredirect := hn.redirect h
  rw [Vfs.redirect, h.covered.2.1, h.covered.1] at hredirect
  simp at hredirect

lemma Rooted.spelled (h : Shaped s) (hn : Rooted s n p) : Spelled s n p := by
  induction hn with
  | root => exact .root
  | @child e x p he _ _ _ hparent _ _ ih => exact .child hparent (he.ne_zero h) (he.reduced h) (he.ne_zero h) ih

lemma Rooted.reduce_self (h : Shaped s) (hinv : Inv s cwds flag reduce up) (hn : Rooted s n p) : reduce n = n := by
  have hlink : (s.nodes n).link = none := (Option.or_eq_none_iff.mp (hn.redirect h)).1
  exact Option.some.inj ((hinv.reduced n hlink).symm.trans (hn.reduced h))

lemma Rooted.place (h : Shaped s) (hinv : Inv s cwds flag reduce up) (hn : Rooted s n p) (hdir : s.isDir n = true) :
    (treeOf s reduce up).Place n := by
  induction hn with
  | root => exact h.place_root hinv
  | @child e x p he hedir hx hredirect hparent hname hfs ih =>
    have hself := (Rooted.child he hedir hx hredirect hparent hname hfs).reduce_self h hinv
    have hchild : (treeOf s reduce up).child e ⟨_, hname.ordinary⟩ = some x := hx
    have hxdir : (treeOf s reduce up).isDir ((treeOf s reduce up).reduce x) := by
      change s.isDir (reduce x) = true
      rwa [hself]
    have hplace := hinv.sound.place_child (ih hedir) hchild hxdir
    change (treeOf s reduce up).Place (reduce x) at hplace
    rwa [hself] at hplace

/-- The root of `devfs`, seen from a directory in which it is mounted. -/
structure MountedIn (s : Vfs) (e : ℕ) : Prop where
  rooted : ∃ p, Rooted s e p
  isDir : s.isDir e = true
  entry : ∃ k x, Ordinary k ∧ s.lookup e k = some x ∧ s.redirect x = some 1

/-- Where walks from the root can be. -/
def Reached (s : Vfs) (d : ℕ) : Prop := ((∃ p, Rooted s d p) ∧ s.isDir d = true) ∨ (d = 1 ∧ ∃ e, MountedIn s e)

/-- A node of a driver. -/
structure IsDevice (s : Vfs) (n : ℕ) : Prop where
  parent : (s.nodes n).parent = some 1
  fs : (s.nodes n).fs = some .devfs
  isDir : s.isDir n = false

/-- An ordinary component, below the root or below `devfs`. -/
lemma Shaped.lookup_child (h : Shaped s) (hinv : Inv s cwds flag reduce up) (hd : Reached s d) (hc : Ordinary c)
    (hx : s.lookup d c = some x) (hm : s.reduced x = some m) :
    (∃ p, Rooted s m p) ∨ (m = 1 ∧ ∃ e, MountedIn s e) ∨ IsDevice s m := by
  obtain ⟨hparent, hfs, hname, hown⟩ := h.own d c x hc hx
  have hlink := (hinv.child d c x hc hx).1
  cases hmount : (s.nodes x).mountpoint with
  | none =>
    have hredirect : s.redirect x = none := by rw [Vfs.redirect, hlink, hmount]; rfl
    obtain rfl : x = m := Option.some.inj ((ending_of_none hredirect).symm.trans hm)
    rcases hd with ⟨⟨p, hd⟩, hdir⟩ | ⟨rfl, -⟩
    · exact Or.inl ⟨_, .child hd hdir hown hredirect hparent hname (hfs.trans (hd.fs h))⟩
    · exact Or.inr (Or.inr ⟨hparent, hfs.trans h.dev.2.2, h.devices c x hc hx⟩)
  | some y =>
    have hredirect : s.redirect x = some y := by rw [Vfs.redirect, hlink, hmount]; rfl
    rcases h.mounts x y hmount with ⟨rfl, -⟩ | ⟨rfl, hparent2⟩
    · exact absurd (h.parents 0 d hparent).1 (Nat.not_lt_zero _)
    · have h1 : s.reduced 1 = some 1 := ending_of_none (h.redirect_dev.trans h.unlinked.1)
      obtain rfl : 1 = m := Option.some.inj ((h1.symm.trans (ending_of_some hredirect).symm).trans hm)
      rcases hd with ⟨hd, hdir⟩ | ⟨rfl, -⟩
      · exact Or.inr (Or.inl ⟨rfl, d, hd, hdir, c, x, hc, hx, hredirect⟩)
      · rw [hparent] at hparent2
        simp at hparent2

lemma Shaped.reduced_dev (h : Shaped s) : s.reduced 1 = some 1 := ending_of_none (h.redirect_dev.trans h.unlinked.1)

lemma Shaped.reduce_dev (h : Shaped s) (hinv : Inv s cwds flag reduce up) : reduce 1 = 1 :=
  Option.some.inj ((hinv.reduced 1 h.unlinked.1).symm.trans h.reduced_dev)

/-- What is above the root of `devfs`. -/
lemma MountedIn.place_up (hmounted : MountedIn s e) (h : Shaped s) (hinv : Inv s cwds flag reduce up) :
    (treeOf s reduce up).Place 1 ∧ ∃ f, up 1 = some f ∧ reduce f = e := by
  obtain ⟨⟨p, he⟩, hdir, k, x, hk, hx, hredirect⟩ := hmounted
  have hred : s.reduced x = some 1 := (ending_of_some hredirect).trans h.reduced_dev
  have hxd : reduce x = 1 := Option.some.inj ((hinv.reduced x (hinv.child e k x hk hx).1).symm.trans hred)
  have hchild : (treeOf s reduce up).child e ⟨k, hk⟩ = some x := hx
  have hxdir : (treeOf s reduce up).isDir ((treeOf s reduce up).reduce x) := by
    change s.isDir (reduce x) = true
    rw [hxd]
    exact h.unlinked.2
  obtain ⟨-, f, hf, hfe⟩ := hinv.sound.child_up e ⟨k, hk⟩ x (he.place h hinv hdir) hchild hxdir
  change up (reduce x) = some f at hf
  rw [hxd] at hf
  exact ⟨⟨h.reduce_dev hinv, by change up 1 ≠ none; simp [hf]⟩, f, hf, hfe⟩

/-- What is above a directory of the tree. -/
lemma Rooted.dir_above (h : Shaped s) (hinv : Inv s cwds flag reduce up) (hn : Rooted s n p) (hdir : s.isDir n = true)
    {f : ℕ} (hf : up n = some f) : (∃ q, Rooted s (reduce f) q) ∧ s.isDir (reduce f) = true := by
  cases hn with
  | root =>
    obtain ⟨e, he, hred⟩ := hinv.sound.root_up
    change up (reduce s.vfsRoot) = some e at he
    change reduce e = reduce s.vfsRoot at hred
    rw [h.vfsRoot, h.reduce_root hinv] at he hred
    obtain rfl : e = f := Option.some.inj (he.symm.trans hf)
    rw [hred]
    exact ⟨⟨_, .root⟩, hdir⟩
  | @child e _ p he hedir hx hredirect hparent hname hfs =>
    have hself := (Rooted.child he hedir hx hredirect hparent hname hfs).reduce_self h hinv
    have hchild : (treeOf s reduce up).child e ⟨_, hname.ordinary⟩ = some n := hx
    have hndir : (treeOf s reduce up).isDir ((treeOf s reduce up).reduce n) := by
      change s.isDir (reduce n) = true
      rwa [hself]
    obtain ⟨-, g, hg, hge⟩ := hinv.sound.child_up e ⟨_, hname.ordinary⟩ n (he.place h hinv hedir) hchild hndir
    change up (reduce n) = some g at hg
    change reduce g = e at hge
    rw [hself] at hg
    obtain rfl : g = f := Option.some.inj (hg.symm.trans hf)
    rw [hge]
    exact ⟨⟨p, he⟩, hedir⟩

/-- One component further. -/
lemma Reached.lookup (h : Shaped s) (hinv : Inv s cwds flag reduce up) (hd : Reached s d) (hc : c.1 ≠ [])
    (hx : s.lookup d c = some x) (hm : s.reduced x = some m) :
    (∃ p, Rooted s m p) ∨ (m = 1 ∧ ∃ e, MountedIn s e) ∨ IsDevice s m := by
  have hplace : (treeOf s reduce up).Place d := by
    rcases hd with ⟨⟨p, hd⟩, hdir⟩ | ⟨rfl, e, hmounted⟩
    · exact hd.place h hinv hdir
    · exact (hmounted.place_up h hinv).1
  obtain ⟨hdot, f, hf, hdotdot⟩ := hinv.dots hplace
  have hsame : ∀ m', Descends s d [c] m' → m' = m := by
    intro m' hdesc
    cases hdesc with
    | cons hx' hm' _ hnil =>
      cases hnil
      obtain rfl : x = _ := Option.some.inj (hx.symm.trans hx')
      exact Option.some.inj (hm'.symm.trans hm)
  by_cases hcd : c = dot
  · subst hcd
    obtain rfl := hsame d hdot
    exact hd.elim (fun hd => Or.inl hd.1) fun hd => Or.inr (Or.inl hd)
  · by_cases hcdd : c = dotdot
    · subst hcdd
      obtain rfl := hsame _ hdotdot
      rcases hd with ⟨⟨p, hd⟩, hdir⟩ | ⟨rfl, e, hmounted⟩
      · exact Or.inl (hd.dir_above h hinv hdir hf).1
      · obtain ⟨-, g, hg, hge⟩ := hmounted.place_up h hinv
        obtain rfl : g = f := Option.some.inj (hg.symm.trans hf)
        rw [hge]
        exact Or.inl hmounted.rooted
    · exact h.lookup_child hinv hd ⟨hc, hcd, hcdd⟩ hx hm

lemma Reached.descends (h : Shaped s) (hinv : Inv s cwds flag reduce up) {cs : List CString} (hdesc : Descends s d cs e)
    (hcs : ∀ c ∈ cs, c.1 ≠ []) (hd : Reached s d) : Reached s e := by
  induction hdesc with
  | nil e => exact hd
  | @cons d x m e c cs hx hm hdir _ ih =>
    refine ih (fun c hc => hcs c (List.mem_cons_of_mem _ hc)) ?_
    rcases hd.lookup h hinv (hcs c List.mem_cons_self) hx hm with hm | hm | hm
    · exact Or.inl ⟨hm, hdir⟩
    · exact Or.inr hm
    · exact absurd (hdir.symm.trans hm.isDir) (by decide)

/-- What `vfs_get_node` can return from the root: a node of the tree, the root of `devfs` or a device. -/
lemma Shaped.found (h : Shaped s) (hinv : Inv s cwds flag reduce up) {stale : ℕ → List (BitVec 8)} {path : CString} {fuel : ℕ}
    (hget : vfsGetNode s stale s.vfsRoot path fuel = some (some n)) :
    (∃ p, Rooted s n p) ∨ (n = 1 ∧ ∃ e, MountedIn s e) ∨ IsDevice s n := by
  obtain ⟨r, hr, hnode⟩ := Option.map_eq_some_iff.mp hget
  have hresolve := (settles_path2node s stale s.vfsRoot path).sound fuel r hr
  have hpath : path.1 ≠ [] := by
    intro hnil
    rw [resolve, if_pos hnil] at hresolve
    obtain rfl := Option.some.inj hresolve
    simp at hnode
  obtain ⟨d, ⟨start, hstart, hd⟩, hwalk⟩ := (resolve_eq_some hpath).mp hresolve
  rw [h.vfsRoot, h.reduced_root] at hstart hd
  obtain rfl := Option.some.inj hstart
  rw [ite_self] at hd
  obtain rfl := Option.some.inj hd
  have hroot : Reached s 2 := Or.inl ⟨⟨_, .root⟩, (hinv.place (h.place_root hinv)).2.2.1⟩
  rcases List.eq_nil_or_concat (components slash path.1) with hcs | ⟨elems, elem, hcs⟩
  · rw [hcs] at hwalk
    obtain rfl := Option.some.inj hwalk
    obtain rfl := Option.some.inj hnode
    exact Or.inl ⟨_, .root⟩
  · rw [List.concat_eq_append] at hcs
    have hvalid : ∀ elem ∈ components slash path.1, 0 ∉ elem ∧ elem ≠ [] := fun _ helem => component_valid helem
    rw [hcs] at hvalid
    rw [hcs, copies_concat] at hwalk
    rcases walkFrom_concat hwalk with rfl | ⟨e, hdesc, hlast⟩
    · simp at hnode
    · have he : Reached s e := by
        refine hroot.descends h hinv hdesc fun k hk => copies_mem (fun elem helem => ?_) hk
        exact hvalid elem (List.mem_append_left _ helem)
      rcases walkFrom_single hlast with ⟨-, rfl⟩ | ⟨x, m, hx, hm, rfl⟩
      · simp at hnode
      · obtain ⟨h0, hne⟩ := hvalid elem (by simp)
        rw [lastResult] at hnode
        split_ifs at hnode
        obtain rfl : m = n := Option.some.inj hnode
        exact he.lookup h hinv (elemStr_ne_nil _ h0 hne) hx hm

end Trees

section Names
variable {stale : ℕ → List (BitVec 8)}

lemma above_iff : Above s n x ↔ x = n ∨ ∃ e, (s.nodes n).parent = some e ∧ e ≠ s.vfsRoot ∧ Above s e x := by
  constructor
  · intro h
    cases h with
    | self => exact Or.inl rfl
    | parent hparent he h => exact Or.inr ⟨_, hparent, he, h⟩
  · rintro (rfl | ⟨e, hparent, he, h⟩)
    · exact .self x
    · exact .parent hparent he h

lemma names_join_name (p : CString) (hc : FileName c) : names (join p c) = names p ++ [c] := by
  rw [names_join, names_of_notMem hc.slash hc.ordinary.1]

/-- The components of the path are the names of the node and of what is above it. -/
lemma Rooted.short_iff (h : Shaped s) (hn : Rooted s n p) :
    (∀ c ∈ names p, c.strlen ≤ 2047) ↔ ∀ x, Above s n x → (s.nodes x).name.strlen ≤ 2047 := by
  induction hn with
  | root =>
    refine iff_of_true (by decide) fun x hx => ?_
    rcases above_iff.mp hx with rfl | ⟨e, hparent, he, -⟩
    · rw [h.root.1]
      decide
    · rw [h.root.2.1] at hparent
      exact absurd ((Option.some.inj hparent).symm.trans h.vfsRoot.symm) he
  | @child e x p he hedir hx hredirect hparent hname hfs ih =>
    have he0 : e ≠ s.vfsRoot := by
      rw [h.vfsRoot]
      exact he.ne_zero h
    rw [names_join_name p hname]
    constructor
    · intro hshort y hy
      rcases above_iff.mp hy with rfl | ⟨f, hf, -, hy⟩
      · exact hshort _ (by simp)
      · obtain rfl : e = f := Option.some.inj (hparent.symm.trans hf)
        exact ih.mp (fun c hc => hshort c (List.mem_append_left _ hc)) y hy
    · intro hshort c hc
      rcases List.mem_append.mp hc with hc | hc
      · exact ih.mpr (fun y hy => hshort y (.parent hparent he0 hy)) c hc
      · rw [List.mem_singleton.mp hc]
        exact hshort x (.self x)

lemma Rooted.descends (hn : Rooted s n p) (hdir : s.isDir n = true) : Descends s 2 (names p) n := by
  induction hn with
  | root => exact .nil 2
  | @child e x p he hedir hx hredirect hparent hname hfs ih =>
    rw [names_join_name p hname]
    exact descends_append.mpr ⟨e, ih hedir, .cons hx (ending_of_none hredirect) hdir (.nil x)⟩

lemma asksForDir_join (p : CString) (hc : FileName c) : asksForDir (join p c) = false := by
  have hlast : (join p c).1.getLast? = c.1.getLast? := by
    change (p.1 ++ slash :: c.1).getLast? = _
    rw [List.getLast?_append_of_ne_nil _ (List.cons_ne_nil _ _), List.getLast?_cons_of_ne_nil hc.ordinary.1]
  rw [asksForDir, hlast, decide_eq_false_iff_not]
  exact fun hslash => hc.slash (List.mem_of_getLast? hslash)

lemma Rooted.absolute (hn : Rooted s n p) (hp : p.1 ≠ []) : absolute p = true := by
  induction hn with
  | root => exact absurd rfl hp
  | @child e x p _ _ _ _ _ _ _ ih =>
    by_cases hnil : p.1 = []
    · simp [VfsTree.absolute, join, hnil]
    · rw [absolute_join hnil]
      exact ih hnil

lemma Shaped.starts_root (h : Shaped s) (p : CString) : s.Starts s.vfsRoot p 2 := by
  rw [h.vfsRoot]
  exact ⟨2, h.reduced_root, by rw [h.vfsRoot, h.reduced_root, ite_self]⟩

/-- Short names lead back. -/
lemma Rooted.resolves (h : Shaped s) (hn : Rooted s n p) (hn2 : n ≠ 2) (hshort : ∀ c ∈ names p, c.strlen ≤ 2047) :
    Resolves s stale s.vfsRoot p n := by
  cases hn with
  | root => exact absurd rfl hn2
  | @child e _ p he hedir hx hredirect hparent hname hfs =>
    refine resolves_iff.mpr ⟨⟨some e, some n⟩, ?_, rfl⟩
    refine (resolve_eq_some (join_ne_nil _ _)).mpr ⟨2, h.starts_root _, ?_⟩
    have hreduced : s.reduced n = some n := ending_of_none hredirect
    rw [copies_names stale hshort, names_join_name p hname, (he.descends hedir).walkFrom (List.cons_ne_nil _ _), walkFrom, hx]
    simp only [hreduced, Option.map_some, lastResult, asksForDir_join p hname, Bool.false_eq_true, false_and, if_false]

/-- Every component of the path is looked up in a directory that the ones before it lead to. -/
lemma Rooted.descends_prefix (hn : Rooted s n p) {pre post : List CString} (hnames : names p = pre ++ c :: post) :
    ∃ e, Descends s 2 pre e := by
  induction hn generalizing post with
  | root =>
    rw [show names emptyPath = [] from rfl] at hnames
    simp at hnames
  | @child e x p he hedir _ _ _ hname _ ih =>
    rw [names_join_name p hname] at hnames
    rcases List.eq_nil_or_concat post with rfl | ⟨post, k, rfl⟩
    · obtain ⟨rfl, -⟩ := List.append_inj' hnames rfl
      exact ⟨e, he.descends hedir⟩
    · rw [List.concat_eq_append, ← List.cons_append, ← List.append_assoc] at hnames
      exact ih (List.append_inj' hnames rfl).1

/-- A key that is longer than all others is not found. -/
lemma exists_long_missing (map : HashMap ℕ) : ∃ size, ∀ key : CString, size ≤ key.strlen → hashmapGet map key key.strlen = none := by
  refine ⟨(((List.range map.size).flatMap map.entries).map fun entry => entry.1.strlen).sum + 1, fun key hkey => ?_⟩
  refine chainGet_eq_none fun entry hentry => ?_
  have hmem : entry ∈ (List.range map.size).flatMap map.entries :=
    List.mem_flatMap.mpr ⟨_, List.mem_range.mpr (bucket_lt map key), hentry⟩
  have hle := List.le_sum_of_mem (List.mem_map_of_mem (f := fun entry => entry.1.strlen) hmem)
  rw [decide_eq_false_iff_not, strncmp_strlen_iff]
  intro hpre
  have hlen := hpre.length_le
  rw [CString.strlen] at hkey hle
  omega

lemma elemStr_long {elem t : List (BitVec 8)} (h0 : 0 ∉ elem) (ht : 0 ∉ t) (hlong : 2047 < elem.length) :
    (elemStr elem t).1 = elem ++ t := by
  rw [elemStr, if_neg (by omega)]
  exact ofBytes_val fun hmem => (List.mem_append.mp hmem).elim h0 ht

lemma copies_append_short {pre : List CString} (rest : List (List (BitVec 8))) (hpre : ∀ c ∈ pre, c.strlen ≤ 2047) :
    copies stale (pre.map Subtype.val ++ rest) = pre ++ copies (fun i => stale (i + pre.length)) rest := by
  induction pre generalizing stale with
  | nil => rfl
  | cons c pre ih =>
    have hc : elemStr c.1 (stale 0) = c := Subtype.ext (elemStr_short (stale 0) c.2 (hpre c List.mem_cons_self))
    rw [List.map_cons, List.cons_append, copies, ih fun c hc => hpre c (List.mem_cons_of_mem _ hc), hc, List.cons_append,
      List.length_cons]
    simp only [Nat.add_assoc]

lemma exists_first_long {cs : List CString} (h : ¬∀ c ∈ cs, c.strlen ≤ 2047) :
    ∃ pre c post, cs = pre ++ c :: post ∧ (∀ c ∈ pre, c.strlen ≤ 2047) ∧ 2047 < c.strlen := by
  induction cs with
  | nil => simp at h
  | cons c cs ih =>
    by_cases hc : c.strlen ≤ 2047
    · have hcs : ¬∀ c ∈ cs, c.strlen ≤ 2047 := fun hcs => h (List.forall_mem_cons.mpr ⟨hc, hcs⟩)
      obtain ⟨pre, k, post, rfl, hpre, hk⟩ := ih hcs
      exact ⟨c :: pre, k, post, rfl, List.forall_mem_cons.mpr ⟨hc, hpre⟩, hk⟩
    · exact ⟨[], c, cs, rfl, by simp, not_le.mp hc⟩

lemma walkFrom_missing (askForDir : Bool) (cs : List CString) (hnone : s.lookup e k = none) :
    ∃ r, walkFrom s askForDir e (k :: cs) = some r ∧ r.node = none := by
  cases cs with
  | nil => exact ⟨_, by rw [walkFrom, hnone], rfl⟩
  | cons c cs => exact ⟨_, by rw [walkFrom, hnone], rfl⟩

/-- A long component is not found if many bytes follow the copy of it. -/
lemma exists_walkFrom_missing {pre post : List CString} (hdesc : Descends s d pre e) (askForDir : Bool)
    (hpre : ∀ c ∈ pre, c.strlen ≤ 2047) (hc : 2047 < c.strlen) : ∃ stale r,
      walkFrom s askForDir d (copies stale ((pre ++ c :: post).map Subtype.val)) = some r ∧ r.node = none := by
  obtain ⟨size, hsize⟩ : ∃ size, ∀ key : CString, size ≤ key.strlen → s.lookup e key = none := by
    cases hmap : (s.nodes e).children with
    | none => exact ⟨0, fun key _ => by rw [Vfs.lookup, hmap]; rfl⟩
    | some map =>
      obtain ⟨size, hsize⟩ := exists_long_missing map
      exact ⟨size, fun key hkey => by rw [Vfs.lookup, hmap]; exact hsize key hkey⟩
  have hzero : (0 : BitVec 8) ∉ List.replicate size 0x61 := fun h0 => absurd (List.eq_of_mem_replicate h0) (by decide)
  have hmissing : s.lookup e (elemStr c.1 (List.replicate size 0x61)) = none := by
    refine hsize _ ?_
    rw [CString.strlen, elemStr_long c.2 hzero hc, List.length_append, List.length_replicate]
    omega
  obtain ⟨r, hr, hnone⟩ := walkFrom_missing askForDir (copies (fun _ => List.replicate size 0x61) (post.map Subtype.val)) hmissing
  refine ⟨fun _ => List.replicate size 0x61, r, ?_, hnone⟩
  rw [List.map_append, copies_append_short _ hpre, List.map_cons, copies, hdesc.walkFrom (List.cons_ne_nil _ _)]
  exact hr

lemma Rooted.not_resolves (h : Shaped s) (hn : Rooted s n p) (hlong : ¬∀ c ∈ names p, c.strlen ≤ 2047) :
    ∃ stale, ¬Resolves s stale s.vfsRoot p n := by
  obtain ⟨pre, c, post, hnames, hpre, hc⟩ := exists_first_long hlong
  obtain ⟨e, hdesc⟩ := hn.descends_prefix hnames
  obtain ⟨stale, r, hmissing, hnone⟩ := exists_walkFrom_missing hdesc (asksForDir p) hpre hc
  refine ⟨stale, fun hres => ?_⟩
  obtain ⟨r', hr', hnode⟩ := resolves_iff.mp hres
  have hpath : p.1 ≠ [] := by
    intro hnil
    rw [names, hnil, components_nil] at hnames
    simp at hnames
  obtain ⟨d, ⟨start, hstart, hd⟩, hwalk⟩ := (resolve_eq_some hpath).mp hr'
  rw [h.vfsRoot, h.reduced_root] at hstart hd
  obtain rfl := Option.some.inj hstart
  rw [ite_self] at hd
  obtain rfl := Option.some.inj hd
  rw [← val_names, hnames, hmissing] at hwalk
  rw [← Option.some.inj hwalk, hnone] at hnode
  simp at hnode

end Names

section Buffers
variable {mem : Memory} {n : ℕ}

lemma getD_ne_zero (p : CString) {k : ℕ} (hk : k < p.strlen) : p.1.getD k 0 ≠ 0 := by
  rw [List.getD_eq_getElem _ _ hk]
  intro h0
  have hmem := List.getElem_mem hk
  rw [h0] at hmem
  exact p.2 hmem

lemma getD_strlen (p : CString) {k : ℕ} (hk : p.strlen ≤ k) : p.1.getD k 0 = 0 := List.getD_eq_default _ _ hk

lemma written_apply (hp : p.1 ≠ []) {k : ℕ} (hk : k < n) : written mem p n k = p.1.getD k 0 := by
  rw [written, if_neg hp, blit, if_pos (by omega), Nat.sub_zero]

lemma getD_concat_zero (l : List (BitVec 8)) (k : ℕ) : (l ++ [0]).getD k 0 = l.getD k 0 := by
  by_cases hk : k < l.length
  · rw [List.getD_append _ _ _ _ hk]
  · rw [List.getD_append_right _ _ _ _ (by omega), List.getD_eq_default l _ (by omega)]
    cases k - l.length <;> rfl

/-- A string is found again in the buffer, and no other one. -/
lemma readBytes_written_iff (hq : q.1 ≠ []) (hqn : q.strlen < n) (hpn : p.strlen < n) :
    readBytes (written mem q n) 0 (p.strlen + 1) = p.1 ++ [0] ↔ p = q := by
  constructor
  · intro h
    have hbyte : ∀ k ≤ p.strlen, q.1.getD k 0 = p.1.getD k 0 := by
      intro k hk
      have hlen : k < (readBytes (written mem q n) 0 (p.strlen + 1)).length := by
        rw [length_readBytes]
        omega
      rw [← getD_concat_zero p.1, ← h, List.getD_eq_getElem _ _ hlen, getElem_readBytes, Nat.zero_add, written_apply hq (by omega)]
    have hlen : p.strlen = q.strlen := by
      rcases lt_trichotomy p.strlen q.strlen with hlt | heq | hgt
      · exact absurd ((hbyte _ le_rfl).trans (getD_strlen p le_rfl)) (getD_ne_zero q hlt)
      · exact heq
      · exact absurd ((hbyte _ hgt.le).symm.trans (getD_strlen q le_rfl)) (getD_ne_zero p hgt)
    refine Subtype.ext (List.ext_getElem hlen fun k h1 h2 => ?_)
    rw [← List.getD_eq_getElem p.1 0 h1, ← List.getD_eq_getElem q.1 0 h2, hbyte k h1.le]
  · rintro rfl
    refine List.ext_getElem (by simp [CString.strlen]) fun k h1 h2 => ?_
    rw [length_readBytes] at h1
    rw [getElem_readBytes, Nat.zero_add, written_apply hq (by omega), ← getD_concat_zero, List.getD_eq_getElem _ _ h2]

end Buffers

section Lengths

lemma Shaped.reduced_parent_lt (h : Shaped s) (hparent : (s.nodes n).parent = some e) (he0 : e ≠ 0)
    (hm : s.reduced e = some m) : m < n ∧ m ≠ 0 := by
  obtain ⟨hlt, hlink⟩ := h.parents n e hparent
  cases hmount : (s.nodes e).mountpoint with
  | none =>
    have hredirect : s.redirect e = none := by rw [Vfs.redirect, hlink, hmount]; rfl
    obtain rfl : e = m := Option.some.inj ((ending_of_none hredirect).symm.trans hm)
    exact ⟨hlt, he0⟩
  | some y =>
    have hredirect : s.redirect e = some y := by rw [Vfs.redirect, hlink, hmount]; rfl
    rcases h.mounts e y hmount with ⟨rfl, -⟩ | ⟨rfl, -⟩
    · exact absurd rfl he0
    · obtain rfl : 1 = m := Option.some.inj ((h.reduced_dev.symm.trans (ending_of_some hredirect).symm).trans hm)
      omega

/-- The names above a node are all different ones. -/
lemma Spelled.strlen_lt (h : Shaped s) (hn : Spelled s n p) :
    p.strlen < ∑ x ∈ Finset.range (n + 1), ((s.nodes x).name.strlen + 1) := by
  induction hn with
  | root =>
    rw [Finset.sum_range_succ]
    exact Nat.lt_add_left _ (Nat.succ_pos _)
  | dev =>
    rw [Finset.sum_range_succ, h.dev.1]
    omega
  | @child n e m p hparent he0 hm hm0 hp ih =>
    have hmono : ∑ x ∈ Finset.range (m + 1), ((s.nodes x).name.strlen + 1) ≤
        ∑ x ∈ Finset.range n, ((s.nodes x).name.strlen + 1) :=
      Finset.sum_le_sum_of_subset (Finset.range_subset_range.mpr (h.reduced_parent_lt hparent he0 hm).1)
    rw [Finset.sum_range_succ, strlen_join]
    omega

lemma Spelled.strlen_lt_of_fits (h : Shaped s) (hfits : Fits s) (hn : Spelled s n p) (hlt : n < s.count) :
    p.strlen < 2 ^ 47 := by
  have hmono : ∑ x ∈ Finset.range (n + 1), ((s.nodes x).name.strlen + 1) ≤
      ∑ x ∈ Finset.range s.count, ((s.nodes x).name.strlen + 1) :=
    Finset.sum_le_sum_of_subset (Finset.range_subset_range.mpr hlt)
  exact ((hn.strlen_lt h).trans_le hmono).trans_le hfits

/-- A buffer that is longer than the path. -/
lemma Spelled.pathname (h : Shaped s) (hn : Spelled s n p) (mem : Memory) (len : BitVec 64) (hlen : p.strlen < len.toNat)
    (hfits : len.toNat ≤ 2 ^ 47) :
    Settles (fun fuel => vfsGetPathname s mem fuel n len) (some (p.strlen, written mem p len.toNat)) := by
  have hint : len.toInt = len.toNat := BitVec.toInt_eq_toNat_of_lt (by omega)
  have hsettles := hn.settles h mem len (by omega) (by omega)
  rwa [if_pos (Or.inr (by omega)), hint, Int.toNat_natCast] at hsettles

end Lengths

section RoundTrip
variable {S : System} {events : List Event} {stale : ℕ → List (BitVec 8)} {path : CString} {fuel : ℕ}

/-- A node that round trips does so along the path that is spelled for it. -/
lemma RoundTrips.spelled (hround : RoundTrips s n) (h : Shaped s) (hq : Spelled s n q) (hqlen : q.strlen < 2 ^ 47) :
    absolute q = true ∧ ∀ stale, Resolves s stale s.vfsRoot q n := by
  obtain ⟨p, hplen, habs, hres, hbuf⟩ := hround
  have hlen : (BitVec.ofNat 64 (max p.strlen q.strlen + 1)).toNat = max p.strlen q.strlen + 1 := by
    rw [BitVec.toNat_ofNat]
    omega
  have hcall := hbuf (fun _ => 1) (BitVec.ofNat 64 (max p.strlen q.strlen + 1)) (by omega) (by omega)
  have hspell := hq.pathname h (fun _ => 1) (BitVec.ofNat 64 (max p.strlen q.strlen + 1)) (by omega) (by omega)
  obtain ⟨fuel, ⟨r, mem', hret, hread⟩, hret'⟩ := (hcall.and hspell.eventually).exists
  rw [hret, hlen] at hret'
  obtain ⟨-, rfl⟩ := Prod.mk.inj (Option.some.inj hret')
  have hne : q.1 ≠ [] := by
    intro hnil
    have hlast := congrArg (fun l => l.getD p.strlen 0) hread
    rw [written, if_pos hnil, getD_concat_zero, getD_strlen p le_rfl,
      List.getD_eq_getElem _ _ (by rw [length_readBytes]; omega), getElem_readBytes] at hlast
    exact absurd hlast (by decide)
  obtain rfl := (readBytes_written_iff hne (by omega) (by omega)).mp hread
  exact ⟨habs, hres⟩

lemma Rooted.roundTrips (h : Shaped s) (hn : Rooted s n p) (hn2 : n ≠ 2) (hplen : p.strlen < 2 ^ 47)
    (hshort : ∀ c ∈ names p, c.strlen ≤ 2047) : RoundTrips s n := by
  have hp : p.1 ≠ [] := by
    cases hn with
    | root => exact absurd rfl hn2
    | child => exact join_ne_nil _ _
  refine ⟨p, hplen, hn.absolute hp, fun stale => hn.resolves h hn2 hshort, fun mem len hlen hfits => ?_⟩
  filter_upwards [((hn.spelled h).pathname h mem len hlen hfits).eventually] with fuel hfuel
  exact ⟨_, _, hfuel, (readBytes_written_iff hp hlen hlen).mpr rfl⟩

lemma Rooted.lt_count (h : Shaped s) (hs : Fresh s) (hn : Rooted s n p) : n < s.count := by
  cases hn with
  | root => exact hs.lt_of_parent h.root.2.1
  | child _ _ _ _ hparent _ _ => exact hs.lt_of_parent hparent

/-- Pathnames and lookups are inverse for a node that a path leads to if and only if it is not the root,
belongs to `tmpfs`, and neither its name nor one above it is too long for a copy in a block of a cache. -/
theorem pathname_roundTrips (hrun : Run KernelStep systemInit events S) {n : ℕ}
    (hget : vfsGetNode S.vfs stale S.vfs.vfsRoot path fuel = some (some n)) :
    RoundTrips S.vfs n ↔ S.vfs.reduced S.vfs.vfsRoot ≠ some n ∧ (S.vfs.nodes n).fs = some .tmpfs ∧
      ∀ x, Above S.vfs n x → (S.vfs.nodes x).name.strlen ≤ 2047 := by
  obtain ⟨⟨reduce, up, hinv⟩, h, -⟩ := kernelValid_of_run hrun
  have hfits := fits_of_run hrun
  rw [h.vfsRoot, h.reduced_root]
  rcases h.found hinv hget with ⟨p, hn⟩ | ⟨rfl, e, hmounted⟩ | hdevice
  · have hplen := (hn.spelled h).strlen_lt_of_fits h hfits (hn.lt_count h hinv.fresh)
    rw [← hn.short_iff h]
    constructor
    · intro hround
      obtain ⟨habs, hres⟩ := hround.spelled h (hn.spelled h) hplen
      refine ⟨fun h2 => ?_, hn.fs h, ?_⟩
      · obtain rfl := Option.some.inj h2
        exact absurd (hround.spelled h .root (by decide)).1 (by decide)
      · by_contra hlong
        obtain ⟨stale, hno⟩ := hn.not_resolves h hlong
        exact hno (hres stale)
    · rintro ⟨hn2, -, hshort⟩
      exact hn.roundTrips h (fun h2 => hn2 (h2 ▸ rfl)) hplen hshort
  · refine iff_of_false (fun hround => ?_) fun hright => ?_
    · exact absurd (hround.spelled h .dev (by decide)).1 (by decide)
    · exact absurd (h.dev.2.2.symm.trans hright.2.1) (by decide)
  · refine iff_of_false (fun hround => ?_) fun hright => ?_
    · have hn : Spelled S.vfs n (join devName (S.vfs.nodes n).name) :=
        .child hdevice.parent one_ne_zero h.reduced_dev one_ne_zero .dev
      have hlen := hn.strlen_lt_of_fits h hfits (hinv.fresh.lt_of_parent hdevice.parent)
      have habs := (hround.spelled h hn hlen).1
      rw [absolute_join (by decide)] at habs
      exact absurd habs (by decide)
    · exact absurd (hdevice.fs.symm.trans hright.2.1) (by decide)

/-- The directory `/a`. -/
theorem pathname_roundTrips_dir : RoundTrips (withDir dirName).vfs 5 := by
  have hord : Ordinary dirName := ⟨by decide, by decide, by decide⟩
  have hrun := kernelRun_withDir dirName (by decide) hord (by norm_num [CString.strlen, dirName])
  obtain ⟨-, h, -⟩ := kernelValid_of_run hrun
  have hresolves := (withDir_resolves (c := dirName) (by decide) hord).1
  rw [← h.vfsRoot] at hresolves
  obtain ⟨fuel, hget⟩ := hresolves.exists
  have hlookup : (withDir dirName).vfs.lookup 2 dirName = some 5 := by
    rw [Vfs.lookup, withDir_children]
    exact hashmapGet_hashmapSet_self ..
  obtain ⟨hparent, hfs, -⟩ := h.own 2 dirName 5 hord hlookup
  refine (pathname_roundTrips hrun hget).mpr ⟨?_, hfs.trans h.root.2.2, fun x hx => ?_⟩
  · rw [h.vfsRoot, h.reduced_root]
    decide
  · rcases above_iff.mp hx with rfl | ⟨e, he, -, hx⟩
    · rw [withDir_name]
      decide
    · obtain rfl : 2 = e := Option.some.inj (hparent.symm.trans he)
      exact (Rooted.root.short_iff h).mp (by decide) x hx

/-- For the root nothing is written into the buffer. -/
theorem pathname_root_not_roundTrips : ∃ S path stale fuel, Run KernelStep systemInit [] S ∧
    vfsGetNode S.vfs stale S.vfs.vfsRoot path fuel = some (some 2) ∧ ¬RoundTrips S.vfs 2 := by
  refine ⟨systemInit, slashPath, fun _ => [], 10, .nil _, by decide, fun hround => ?_⟩
  obtain ⟨-, h, -⟩ := kernelValid_of_run (.nil systemInit)
  exact absurd (hround.spelled h .root (by decide)).1 (by decide)

end RoundTrip

end PiggyOs.VfsTree
