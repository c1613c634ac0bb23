import PiggyOs.VfsDots

/-! The chains of links and mountpoints that `vfs_reduce_node` follows. Every call only adds to them, and
all that can close a cycle is a file system with a shared root. -/
namespace PiggyOs.VfsTree
open Hash CString Separated Fuel IntrusiveList Filter Transition

variable {s s' : Vfs} {d dir e m node x y : ℕ} {a : Call} {calls : List Call}

section Redirects

lemma redirect_congr (hlink : (s'.nodes d).link = (s.nodes d).link) (hmount : (s'.nodes d).mountpoint = (s.nodes d).mountpoint) :
    s'.redirect d = s.redirect d := by
  rw [Vfs.redirect, Vfs.redirect, hlink, hmount]

lemma setChild_redirect (s : Vfs) (x : ℕ) (key : CString) (n v : ℕ) : (s.setChild x key n v).redirect = s.redirect := by
  funext d
  refine redirect_congr ?_ ?_
  · rw [setChild_nodes]
  · rw [setChild_nodes]

/-- The two new nodes lead to the directory and to the one above it. -/
lemma createDotentries_redirect (s : Vfs) (parent : ℕ) (hnode : node < s.count) : (createDotentries s parent node).redirect =
    Function.update (Function.update s.redirect s.count (some node)) (s.count + 1) (some parent) := by
  funext d
  by_cases h1 : d = s.count + 1
  · rw [h1, Function.update_self, Vfs.redirect, createDotentries_dotdot s parent hnode]
    rfl
  by_cases h0 : d = s.count
  · rw [Function.update_of_ne h1, h0, Function.update_self, Vfs.redirect, createDotentries_dot s parent hnode]
    rfl
  rw [Function.update_of_ne h1, Function.update_of_ne h0]
  by_cases hd : d = node
  · rw [hd, Vfs.redirect, createDotentries_node s parent hnode]
    rfl
  · exact congrArg (fun node : Node => node.link.or node.mountpoint) (createDotentries_nodes s parent (by omega) hd)

lemma redirect_tmpfsCreate (hs : Fresh s) (parent : ℕ) (name : CString) (mode : BitVec 32) :
    (tmpfsCreate s parent name mode).2.redirect = s.redirect :=
  funext (tmpfsCreate_redirect hs)

lemma redirect_setMountpoint (hlink : (s.nodes node).link = none) :
    (s.set node { s.nodes node with mountpoint := some m }).redirect = Function.update s.redirect node (some m) := by
  funext d
  by_cases hd : d = node
  · rw [hd, Function.update_self, Vfs.redirect, set_nodes_self, hlink, Option.none_or]
  · rw [Function.update_of_ne hd]
    exact setMountpoint_redirect s m hd

end Redirects

/-- Links and mountpoints are nodes that exist. -/
structure Chained (s : Vfs) : Prop where
  fresh : Fresh s
  bounded : ∀ x y, s.redirect x = some y → x < s.count ∧ y < s.count

section Chains

lemma Chained.redirect_fresh (h : Chained s) (hx : s.count ≤ x) : s.redirect x = none := by
  by_contra hsome
  obtain ⟨y, hy⟩ := Option.ne_none_iff_exists'.mp hsome
  exact absurd (h.bounded x y hy).1 (not_lt.mpr hx)

lemma Chained.reduced_lt (h : Chained s) (hx : x < s.count) (hy : s.reduced x = some y) : y < s.count := by
  have hmem : y ∈ {z | z < s.count} := ending_mem (fun z _ w hw => (h.bounded z w hw).2) hx hy
  exact hmem

lemma Chained.createDotentries (h : Chained s) (hnode : node < s.count) (hdir : dir < s.count) :
    Chained (VfsTree.createDotentries s dir node) where
  fresh := h.fresh.createDotentries dir hnode
  bounded x y hy := by
    rw [createDotentries_redirect s dir hnode] at hy
    rw [createDotentries_count]
    by_cases h1 : x = s.count + 1
    · rw [h1, Function.update_self] at hy
      have hdy := Option.some.inj hy
      omega
    rw [Function.update_of_ne h1] at hy
    by_cases h0 : x = s.count
    · rw [h0, Function.update_self] at hy
      have hny := Option.some.inj hy
      omega
    · rw [Function.update_of_ne h0] at hy
      have hold := h.bounded x y hy
      omega

/-- What is new and has nothing in front of it does not close a cycle. -/
lemma Chained.createDotentries_wellFounded_iff (h : Chained s) (hnode : node < s.count) (hdir : dir < s.count) :
    WellFoundedChains (VfsTree.createDotentries s dir node) ↔ WellFoundedChains s := by
  have h0 : s.redirect s.count = none := h.redirect_fresh le_rfl
  have h1 : Function.update s.redirect s.count (some node) (s.count + 1) = none := by
    rw [Function.update_of_ne (by omega)]
    exact h.redirect_fresh (Nat.le_succ _)
  rw [WellFoundedChains, createDotentries_redirect s dir hnode]
  constructor
  · intro hwf
    refine Subrelation.wf (fun {y x} hy => ?_) hwf
    have hx := (h.bounded x y hy).1
    rwa [Function.update_of_ne (by omega), Function.update_of_ne (by omega)]
  · intro hwf
    have hdot : WellFounded fun y x => Function.update s.redirect s.count (some node) x = some y := by
      refine (wellFounded_update_iff hwf h0).mpr fun hend => ?_
      exact absurd (h.reduced_lt hnode hend) (lt_irrefl _)
    refine (wellFounded_update_iff hdot h1).mpr fun hend => ?_
    have hmem : s.count + 1 ∈ {z | z < s.count} := by
      refine ending_mem (fun z hz w hw => ?_) hdir hend
      rw [Function.update_of_ne (ne_of_lt hz)] at hw
      exact (h.bounded z w hw).2
    exact absurd hmem (by simp)

lemma Chained.tmpfsCreate (h : Chained s) (parent : ℕ) (name : CString) (mode : BitVec 32) :
    Chained (VfsTree.tmpfsCreate s parent name mode).2 where
  fresh := h.fresh.tmpfsCreate ..
  bounded x y hy := by
    rw [redirect_tmpfsCreate h.fresh] at hy
    have hold := h.bounded x y hy
    rw [tmpfsCreate_count]
    omega

lemma Chained.addEntry (h : Chained s) (name : CString) (hdir : dir < s.count) (hnode : node < s.count) :
    Chained (VfsTree.addEntry s dir name node) ∧
      (WellFoundedChains (VfsTree.addEntry s dir name node) ↔ WellFoundedChains s) := by
  have hchild : Chained (s.setChild dir name name.strlen node) := by
    refine ⟨h.fresh.set _ hdir, fun x y hy => ?_⟩
    rw [setChild_redirect] at hy
    exact h.bounded x y hy
  have hiff : WellFoundedChains (s.setChild dir name name.strlen node) ↔ WellFoundedChains s := by
    rw [WellFoundedChains, WellFoundedChains, setChild_redirect]
  rw [VfsTree.addEntry]
  split_ifs
  · exact ⟨hchild.createDotentries hnode hdir, (hchild.createDotentries_wellFounded_iff hnode hdir).trans hiff⟩
  · exact ⟨hchild, hiff⟩

/-- A mount closes a cycle exactly if what is mounted leads to where it is mounted. -/
lemma Chained.attach (h : Chained s) (hdir : dir < s.count) (hnode : node < s.count) (hm : m < s.count)
    (hredirect : s.redirect node = none) : Chained (VfsTree.attach s dir node m) ∧
      (WellFoundedChains (VfsTree.attach s dir node m) ↔ WellFoundedChains s ∧ s.reduced m ≠ some node) := by
  have hlink : (s.nodes node).link = none := (Option.or_eq_none_iff.mp hredirect).1
  have hset : Chained (s.set node { s.nodes node with mountpoint := some m }) := by
    refine ⟨h.fresh.set _ hnode, fun x y hy => ?_⟩
    rw [redirect_setMountpoint hlink] at hy
    rw [set_count]
    by_cases hx : x = node
    · rw [hx, Function.update_self] at hy
      exact ⟨hx ▸ hnode, Option.some.inj hy ▸ hm⟩
    · rw [Function.update_of_ne hx] at hy
      exact h.bounded x y hy
  refine ⟨hset.createDotentries hm hdir, (hset.createDotentries_wellFounded_iff hm hdir).trans ?_⟩
  rw [WellFoundedChains, redirect_setMountpoint hlink]
  constructor
  · intro hwf
    have hold : WellFoundedChains s := by
      refine Subrelation.wf (fun {y x} hy => ?_) hwf
      rwa [Function.update_of_ne]
      rintro rfl
      rw [hredirect] at hy
      simp at hy
    exact ⟨hold, (wellFounded_update_iff hold hredirect).mp hwf⟩
  · rintro ⟨hold, hend⟩
    exact (wellFounded_update_iff hold hredirect).mpr hend

end Chains

/-- A mount of `devfs` on the node that the root of `devfs` leads to. -/
def ClosesCycle (s : Vfs) : Call → Prop
  | .create .. => False
  | .mount stale stale' parent source target fs => fs = .devfs ∧ (∃ fuel, mountSource s stale parent source fuel = some true) ∧
      ∃ node, Resolves s stale' parent target node ∧ (node = s.vfsRoot ∨ s.isDir node = true) ∧
        s.reduced s.devfsRoot = some node

section Steps

/-- Where a walk that finds something has been before. -/
lemma Chained.walk_parent_lt (h : Chained s) {askForDir : Bool} {cs : List CString} {r : Path2NodeRes}
    (hd : d < s.count ∨ cs ≠ []) (hwalk : walkFrom s askForDir d cs = some r) (hnode : r.node = some node) :
    ∃ dir < s.count, r.parent = some dir := by
  rcases List.eq_nil_or_concat cs with rfl | ⟨cs, c, rfl⟩
  · obtain rfl := Option.some.inj hwalk
    exact ⟨d, hd.resolve_right (fun hne => hne rfl), rfl⟩
  · rw [List.concat_eq_append] at hwalk
    rcases walkFrom_concat hwalk with rfl | ⟨e, -, hlast⟩
    · simp at hnode
    · refine ⟨e, ?_, walkFrom_single_parent hlast⟩
      rcases walkFrom_single hlast with ⟨-, rfl⟩ | ⟨x, m, hx, -, -⟩
      · simp at hnode
      · exact h.fresh.lt_of_lookup hx

/-- A relative path starts with a component. -/
lemma copies_ne_nil_of_relative (stale : ℕ → List (BitVec 8)) {path : CString} (hpath : path.1 ≠ [])
    (hrel : absolute path ≠ true) : copies stale (components slash path.1) ≠ [] := by
  obtain ⟨x, l, hl⟩ := List.exists_cons_of_ne_nil hpath
  have hx : x ≠ slash := by
    rintro rfl
    exact hrel (by simp [absolute, hl])
  obtain ⟨c, cs, hcs⟩ := copies_ne_nil stale (show components slash path.1 ≠ [] by
    rw [hl, components_cons hx]
    exact List.cons_ne_nil _ _)
  rw [hcs]
  exact List.cons_ne_nil c cs

lemma Chained.resolve_parent_lt (h : Chained s) {stale : ℕ → List (BitVec 8)} {parent : ℕ} {path : CString} {r : Path2NodeRes}
    (hr : resolve s stale parent path = some r) (hnode : r.node = some node) :
    (∃ dir < s.count, r.parent = some dir) ∧ s.redirect node = none := by
  have hpath : path.1 ≠ [] := by
    intro hnil
    rw [resolve, if_pos hnil] at hr
    obtain rfl := Option.some.inj hr
    simp at hnode
  obtain ⟨d, ⟨start, hstart, hd⟩, hwalk⟩ := (resolve_eq_some hpath).mp hr
  constructor
  · refine h.walk_parent_lt ?_ hwalk hnode
    by_cases habs : absolute path = true
    · rw [if_pos habs] at hd
      exact Or.inl (h.reduced_lt h.fresh.vfsRoot_lt hd)
    · exact Or.inr (copies_ne_nil_of_relative stale hpath habs)
  · have hcurrent : s.reduced d = some d := by
      split_ifs at hd
      · exact reduced_reduced hd
      · exact Option.some.inj hd ▸ reduced_reduced hstart
    exact next_of_ending (walkFrom_reduced hcurrent hwalk hnode)

lemma mountSource_unique {stale : ℕ → List (BitVec 8)} {parent fuel fuel' : ℕ} {source : Option CString} {b b' : Bool}
    (h : mountSource s stale parent source fuel = some b) (h' : mountSource s stale parent source fuel' = some b') : b = b' := by
  cases source with
  | none => exact (Option.some.inj h).symm.trans (Option.some.inj h')
  | some source =>
    rw [mountSource] at h h'
    split_ifs at h h'
    · exact (Option.some.inj h).symm.trans (Option.some.inj h')
    · obtain ⟨n, hn, rfl⟩ := Option.map_eq_some_iff.mp h
      obtain ⟨n', hn', rfl⟩ := Option.map_eq_some_iff.mp h'
      have hsettles := (settles_path2node s stale parent source).map Path2NodeRes.node
      obtain rfl := Option.some.inj ((hsettles.sound fuel n hn).symm.trans (hsettles.sound fuel' n' hn'))
      rfl

lemma resolves_unique {stale : ℕ → List (BitVec 8)} {parent fuel : ℕ} {path : CString} {r : Path2NodeRes}
    (hr : path2node s stale parent path fuel = some r) (h : Resolves s stale parent path node) : r.node = some node := by
  obtain ⟨r', hr', hnode⟩ := resolves_iff.mp h
  obtain rfl := Option.some.inj (((settles_path2node s stale parent path).sound fuel r hr).symm.trans hr')
  exact hnode

/-- A mount that fails would not have closed a cycle. -/
lemma Chained.not_closesCycle (h : Chained s) {stale stale' : ℕ → List (BitVec 8)} {parent fuel : ℕ}
    {source : Option CString} {target : CString} {fs : Filesystem}
    (hmount : vfsMount s stale stale' parent source target fs fuel = some (s, false)) :
    ¬ClosesCycle s (.mount stale stale' parent source target fs) := by
  rintro ⟨-, ⟨fuel', haccepted⟩, node, hres, hdir, -⟩
  obtain ⟨accepted, hsource, hmount⟩ := Option.bind_eq_some_iff.mp hmount
  obtain rfl := mountSource_unique haccepted hsource
  obtain ⟨r, hr, hon⟩ := Option.map_eq_some_iff.mp hmount
  have hnode := resolves_unique hr hres
  obtain ⟨⟨dir, -, hparent⟩, -⟩ :=
    h.resolve_parent_lt ((settles_path2node s stale' parent target).sound fuel r hr) hnode
  have hcheck : ¬(node ≠ s.vfsRoot ∧ ¬s.isDir node = true) := by tauto
  simp only [mountOn, hparent, hnode, if_neg hcheck] at hon
  exact absurd (Prod.mk.inj hon).2.symm (Bool.false_ne_true)

/-- What one call does to the chains. -/
lemma Chained.step (h : Chained s) (hstep : Step s a s') :
    Chained s' ∧ (WellFoundedChains s' ↔ WellFoundedChains s ∧ ¬ClosesCycle s a) := by
  cases a with
  | create stale parent name mode =>
    obtain ⟨fuel, n, hstep⟩ := hstep
    obtain ⟨r, -, hr⟩ := vfsCreate_cases hstep
    rw [show ¬ClosesCycle s (.create stale parent name mode) ↔ True from iff_of_true not_false trivial, and_true]
    rcases createIn_cases hr with ⟨rfl, -⟩ | ⟨dir, -, hfs, ⟨-, -, rfl⟩ | ⟨-, -, rfl⟩⟩
    · exact ⟨h, Iff.rfl⟩
    · refine ⟨h.tmpfsCreate .., ?_⟩
      rw [WellFoundedChains, redirect_tmpfsCreate h.fresh, WellFoundedChains]
    · have hdir := h.fresh.lt_of_fs hfs
      obtain ⟨hchained, hiff⟩ := (h.tmpfsCreate dir (basename name) mode).addEntry (basename name) (Nat.lt_succ_of_lt hdir)
        (Nat.lt_succ_self s.count)
      refine ⟨hchained, hiff.trans ?_⟩
      rw [WellFoundedChains, redirect_tmpfsCreate h.fresh, WellFoundedChains]
  | mount stale stale' parent source target fs =>
    obtain ⟨fuel, b, hstep⟩ := hstep
    rcases vfsMount_cases hstep with ⟨rfl, rfl⟩ | ⟨dir, node, hr, hnode, rfl, rfl⟩
    · exact ⟨h, by rw [and_iff_left (h.not_closesCycle hstep)]⟩
    · have hresolve := (settles_path2node s stale' parent target).sound fuel _ hr
      obtain ⟨⟨dir', hdir, hdir'⟩, hredirect⟩ := h.resolve_parent_lt hresolve rfl
      obtain rfl := Option.some.inj hdir'
      have hlt : node < s.count := hnode.elim (fun hn => hn ▸ h.fresh.vfsRoot_lt) h.fresh.lt_of_isDir
      cases fs with
      | tmpfs =>
        have hnew := h.tmpfsCreate dir (basename target) sIfdir
        have hredirect' := redirect_tmpfsCreate h.fresh dir (basename target) sIfdir
        obtain ⟨hchained, hiff⟩ := hnew.attach (Nat.lt_succ_of_lt hdir) (Nat.lt_succ_of_lt hlt) (Nat.lt_succ_self s.count)
          (by rw [hredirect', hredirect])
        refine ⟨hchained, hiff.trans ?_⟩
        have hself : (VfsTree.tmpfsCreate s dir (basename target) sIfdir).2.reduced s.count = some s.count :=
          ending_of_none (by rw [hredirect', h.redirect_fresh le_rfl])
        have hne : (VfsTree.tmpfsCreate s dir (basename target) sIfdir).2.reduced s.count ≠ some node := by
          rw [hself, ne_eq, Option.some_inj]
          omega
        have hopen : ¬ClosesCycle s (.mount stale stale' parent source target .tmpfs) := fun hcloses =>
          absurd hcloses.1 (by decide)
        rw [WellFoundedChains, hredirect', and_iff_left hne, and_iff_left hopen, WellFoundedChains]
      | devfs =>
        obtain ⟨hchained, hiff⟩ := h.attach hdir hlt h.fresh.devfsRoot_lt hredirect
        refine ⟨hchained, hiff.trans (and_congr Iff.rfl (not_congr ⟨fun hend => ?_, ?_⟩))⟩
        · obtain ⟨accepted, hsource, hmount⟩ := Option.bind_eq_some_iff.mp hstep
          have haccepted : accepted = true := by
            by_contra hrefused
            rw [if_neg hrefused] at hmount
            simp at hmount
          exact ⟨rfl, ⟨fuel, haccepted ▸ hsource⟩, node, resolves_iff.mpr ⟨_, hresolve, rfl⟩, hnode, hend⟩
        · rintro ⟨-, -, node', hres, -, hend⟩
          obtain rfl := Option.some.inj (resolves_unique hr hres)
          exact hend

end Steps

section Runs

lemma chained_vfsInit : Chained vfsInit ∧ WellFoundedChains vfsInit := by
  have hnone : ∀ x, vfsInit.redirect x = none := by
    intro x
    by_cases h0 : x = 0
    · rw [h0]
      rfl
    by_cases h1 : x = 1
    · rw [h1]
      rfl
    · simp [Vfs.redirect, vfsInit, vfsCreateNode, set_nodes_of_ne, h0, h1, blank]
  refine ⟨⟨fresh_vfsInit, fun x y hy => ?_⟩, ⟨fun x => ⟨x, fun y hy => ?_⟩⟩⟩
  · rw [hnone] at hy
    simp at hy
  · rw [hnone] at hy
    simp at hy

/-- The links and mountpoints have no cycle, so that every node is reduced to one. -/
def ChainsEnd (s : Vfs) : Prop := WellFoundedChains s ∧ ∀ x, ∃ fuel m, vfsReduceNode s fuel x = some m

lemma chainsEnd_iff : ChainsEnd s ↔ WellFoundedChains s := by
  refine and_iff_left_of_imp fun h x => ?_
  obtain ⟨z, hz⟩ := wellFounded_iff_ending.mp h x
  obtain ⟨fuel, hfuel⟩ := exists_lastFrom hz
  exact ⟨fuel, z, (vfsReduceNode_eq s fuel x).trans hfuel⟩

lemma Chained.of_run (h : Chained s) (hwf : WellFoundedChains s)
    (hrun : Run (fun s a s' => Step s a s' ∧ ¬ClosesCycle s a) s calls s') : WellFoundedChains s' := by
  have hkeep : ∀ s a t, Chained s ∧ WellFoundedChains s → Step s a t ∧ ¬ClosesCycle s a → Chained t ∧ WellFoundedChains t := by
    intro s a t ⟨h, hwf⟩ ⟨hstep, hopen⟩
    obtain ⟨hchained, hiff⟩ := h.step hstep
    exact ⟨hchained, hiff.mpr ⟨hwf, hopen⟩⟩
  exact (hrun.invariant hkeep ⟨h, hwf⟩).2

/-- Links and mountpoints stay, so a cycle is never opened again. -/
lemma Chained.run_of_wellFounded (h : Chained s) (hrun : Run Step s calls s') (hwf : WellFoundedChains s') :
    WellFoundedChains s ∧ Run (fun s a s' => Step s a s' ∧ ¬ClosesCycle s a) s calls s' := by
  induction hrun with
  | nil s => exact ⟨hwf, .nil s⟩
  | cons hstep hrun ih =>
    obtain ⟨hchained, hiff⟩ := h.step hstep
    obtain ⟨ht, hrest⟩ := ih hchained hwf
    obtain ⟨hs, hopen⟩ := hiff.mp ht
    exact ⟨hs, .cons ⟨hstep, hopen⟩ hrest⟩

/-- After any calls there is no cycle if and only if none of them mounted `devfs` on the node that its root
led to at that time. -/
theorem chainsEnd_iff_run (hrun : Run Step vfsInit calls s) :
    ChainsEnd s ↔ Run (fun s a s' => Step s a s' ∧ ¬ClosesCycle s a) vfsInit calls s := by
  obtain ⟨h, hwf⟩ := chained_vfsInit
  rw [chainsEnd_iff]
  exact ⟨fun hs => (h.run_of_wellFounded hrun hs).2, h.of_run hwf⟩

/-- The mount of the root. -/
theorem chainsEnd_root : ChainsEnd rootMounted := by
  have hstep : Step vfsInit (.mount (fun _ => []) (fun _ => []) 0 none slashPath .tmpfs) rootMounted := ⟨1, true, rfl⟩
  exact (chainsEnd_iff_run (.single hstep)).mpr (.single ⟨hstep, fun hcloses => absurd hcloses.1 (by decide)⟩)

/-- The second mount of `devfs` on the same path makes its root lead to itself. -/
theorem devfs_mounted_twice : ∃ s, Run Step vfsInit
    [.mount (fun _ => []) (fun _ => []) 0 none slashPath .devfs, .mount (fun _ => []) (fun _ => []) 0 none slashPath .devfs] s ∧
      ¬ChainsEnd s := by
  refine ⟨attach (attach vfsInit 0 0 1) 1 1 1, .cons ⟨3, true, rfl⟩ (.single ⟨3, true, rfl⟩), fun h => ?_⟩
  have hself : (attach (attach vfsInit 0 0 1) 1 1 1).redirect 1 = some 1 := rfl
  exact h.1.irrefl.irrefl 1 hself

end Runs

end PiggyOs.VfsTree
