import PiggyOs.Transition
import PiggyOs.VfsPath

/-! Creation of files and directories, and the entries that were there before. -/
namespace PiggyOs.VfsTree
open Hash CString Separated Fuel IntrusiveList Filter Transition

variable {s s' : Vfs} {d e x y : ℕ} {k : CString}

section Basename

lemma stripSlashes_run {str : List (BitVec 8)} {i n : ℕ} (hi : 0 < i → str.getD i 0 ≠ slash)
    (hn : ∀ j, i < j → j ≤ i + n → str.getD j 0 = slash) : stripSlashes str (i + n) = i := by
  induction n with
  | zero =>
    cases i with
    | zero => rfl
    | succ i => rw [Nat.add_zero, stripSlashes, if_neg (hi i.succ_pos)]
  | succ n ih =>
    rw [← Nat.add_assoc, stripSlashes, if_pos (hn _ (by omega) (by omega))]
    exact ih fun j hj hj' => hn j hj (by omega)

lemma backToSlash_run {str : List (BitVec 8)} {i n : ℕ} (hi : i = 0 ∨ str.getD (i - 1) 0 = slash)
    (hn : ∀ j, i ≤ j → j < i + n → str.getD j 0 ≠ slash) : backToSlash str (i + n) = i := by
  induction n with
  | zero =>
    cases i with
    | zero => rfl
    | succ i =>
      have hslash : str.getD i 0 = slash := hi.resolve_left i.succ_ne_zero
      rw [Nat.add_zero, backToSlash, if_neg (not_not.mpr hslash)]
  | succ n ih =>
    rw [← Nat.add_assoc, backToSlash, if_pos (hn _ (by omega) (by omega))]
    exact ih fun j hj hj' => hn j hj (by omega)

/-- `basename` gives the last component. -/
lemma basename_val {path : CString} {cs : List (List (BitVec 8))} {c : List (BitVec 8)}
    (h : components slash path.1 = cs ++ [c]) : (basename path).1 = c := by
  obtain ⟨p, c', n, hpath, hc', hslash, hp, hcomps⟩ := components_last (by rw [h]; simp)
  obtain rfl : c' = c := by simpa using (List.append_inj' (hcomps.symm.trans h) rfl).2
  obtain ⟨m, hm⟩ : ∃ m, c'.length = m + 1 := ⟨c'.length - 1, by have := List.length_pos_iff.mpr hc'; omega⟩
  have hmid : ∀ j, p.length ≤ j → j < p.length + (m + 1) → path.1.getD j 0 ≠ slash := by
    intro j hj hj' heq
    refine hslash (heq ▸ ?_)
    rw [hpath, List.append_assoc, List.getD_append_right _ _ _ _ hj, List.getD_append _ _ _ _ (by omega),
      List.getD_eq_getElem _ _ (by omega)]
    exact List.getElem_mem _
  have hend : ∀ j, p.length + m < j → j ≤ p.length + m + n → path.1.getD j 0 = slash := by
    intro j hj hj'
    rw [hpath, List.getD_append_right _ _ _ _ (by simp; omega), List.getD_eq_getElem _ _ (by simp; omega)]
    exact List.getElem_replicate _
  have hbefore : p.length = 0 ∨ path.1.getD (p.length - 1) 0 = slash := by
    rcases hp with rfl | hp
    · exact Or.inl rfl
    · refine Or.inr ?_
      obtain ⟨q, rfl⟩ := List.getLast?_eq_some_iff.mp hp
      rw [hpath, List.append_assoc, List.getD_append _ _ _ _ (by simp), List.length_append, List.length_singleton,
        Nat.add_sub_cancel, List.getD_append_right _ _ _ _ le_rfl, Nat.sub_self]
      rfl
  have hlen : path.strlen - 1 = p.length + m + n := by
    simp only [strlen, hpath, List.length_append, List.length_replicate, hm]
    omega
  have hne : path.1 ≠ [] := by simp [hpath, hc']
  have hback : backToSlash path.1 (p.length + m) = p.length :=
    backToSlash_run hbefore fun j hj hj' => hmid j hj (by omega)
  have htake : (path.1.take (p.length + m + 1)).drop p.length = c' := by
    rw [hpath, List.take_append_of_le_length (by simp; omega), List.take_of_length_le (by simp; omega), List.drop_left]
  rw [basename, if_neg hne, hlen, stripSlashes_run (fun _ => hmid _ (by omega) (by omega)) hend]
  dsimp only
  rw [hback, htake]
  exact ofBytes_val fun h0 => path.2 (hpath ▸ List.mem_append_left _ (List.mem_append_right _ h0))

end Basename

section Calls

/-- Callers may start anywhere, and nothing is known of the bytes behind their copies. -/
inductive Call
  | create (stale : ℕ → List (BitVec 8)) (parent : ℕ) (name : CString) (mode : BitVec 32)
  | mount (stale stale' : ℕ → List (BitVec 8)) (parent : ℕ) (source : Option CString) (target : CString)
      (fs : Filesystem)

def Step (s : Vfs) (a : Call) (s' : Vfs) : Prop :=
  match a with
  | .create stale parent name mode => ∃ fuel r, vfsCreate s stale parent name mode fuel = some (.returns (s', r))
  | .mount stale stale' parent source target fs =>
      ∃ fuel r, vfsMount s stale stale' parent source target fs fuel = some (s', r)

/-- What has not been allocated is clear. -/
structure Fresh (s : Vfs) : Prop where
  clear : ∀ x, s.count ≤ x → s.nodes x = blank
  vfsRoot_lt : s.vfsRoot < s.count
  devfsRoot_lt : s.devfsRoot < s.count

/-- The ways in which `vfs_create` returns. -/
lemma createIn_cases {name : CString} {mode : BitVec 32} {r : Path2NodeRes} {node : Option ℕ}
    (h : createIn s name mode r = .returns (s', node)) :
    (s' = s ∧ node = none ∧ (r.parent = none ∨ r.node ≠ none)) ∨
    ∃ dir, r = ⟨some dir, none⟩ ∧ (s.nodes dir).fs = some .tmpfs ∧
      ((((tmpfsCreate s dir (basename name) mode).2.nodes dir).children = none ∧ node = none ∧
          s' = (tmpfsCreate s dir (basename name) mode).2) ∨
        (((tmpfsCreate s dir (basename name) mode).2.nodes dir).children ≠ none ∧ node = some s.count ∧
          s' = addEntry (tmpfsCreate s dir (basename name) mode).2 dir (basename name) s.count)) := by
  obtain ⟨_ | dir, node'⟩ := r
  · obtain ⟨hs, hnode⟩ := Prod.mk.inj (Outcome.returns.inj h)
    exact Or.inl ⟨hs.symm, hnode.symm, Or.inl rfl⟩
  · cases node' with
    | some y =>
      obtain ⟨hs, hnode⟩ := Prod.mk.inj (Outcome.returns.inj h)
      exact Or.inl ⟨hs.symm, hnode.symm, Or.inr (Option.some_ne_none y)⟩
    | none =>
      refine Or.inr ⟨dir, rfl, ?_⟩
      simp only [createIn] at h
      split at h
      · simp at h
      · simp at h
      · rename_i hfs
        refine ⟨hfs, ?_⟩
        split_ifs at h with hchildren
        · obtain ⟨hs, hnode⟩ := Prod.mk.inj (Outcome.returns.inj h)
          exact Or.inl ⟨hchildren, hnode.symm, hs.symm⟩
        · obtain ⟨hs, hnode⟩ := Prod.mk.inj (Outcome.returns.inj h)
          exact Or.inr ⟨hchildren, hnode.symm, hs.symm⟩

lemma createIn_tmpfs {name : CString} {dir : ℕ} (hfs : (s.nodes dir).fs = some .tmpfs) (mode : BitVec 32)
    (hchildren : ((tmpfsCreate s dir (basename name) mode).2.nodes dir).children ≠ none) :
    createIn s name mode ⟨some dir, none⟩ =
      .returns (addEntry (tmpfsCreate s dir (basename name) mode).2 dir (basename name) s.count, some s.count) := by
  simp only [createIn, hfs]
  rw [if_neg hchildren]
  rfl

/-- A call that creates a node changes the state. -/
lemma createIn_unchanged {name : CString} {mode : BitVec 32} {r : Path2NodeRes} {node : Option ℕ}
    (h : createIn s name mode r = .returns (s, node)) : r.parent = none ∨ r.node ≠ none := by
  rcases createIn_cases h with ⟨-, -, hr⟩ | ⟨dir, -, -, ⟨-, -, hs⟩ | ⟨-, -, hs⟩⟩
  · exact hr
  · have hcount := congrArg Vfs.count hs
    simp at hcount
  · have hle := le_addEntry_count (tmpfsCreate s dir (basename name) mode).2 dir (basename name) s.count
    rw [← hs, tmpfsCreate_count] at hle
    omega

lemma mountOn_cases {target : CString} {fs : Filesystem} {r : Path2NodeRes} {b : Bool}
    (h : mountOn s target fs r = (s', b)) : (s' = s ∧ b = false) ∨
    ∃ dir node, r = ⟨some dir, some node⟩ ∧ (node = s.vfsRoot ∨ s.isDir node = true) ∧ b = true ∧
      s' = attach (fsMount s fs dir (basename target)).2 dir node (fsMount s fs dir (basename target)).1 := by
  obtain ⟨_ | dir, _ | node⟩ := r
  · exact Or.inl ⟨(Prod.mk.inj h).1.symm, (Prod.mk.inj h).2.symm⟩
  · exact Or.inl ⟨(Prod.mk.inj h).1.symm, (Prod.mk.inj h).2.symm⟩
  · exact Or.inl ⟨(Prod.mk.inj h).1.symm, (Prod.mk.inj h).2.symm⟩
  · simp only [mountOn] at h
    split_ifs at h with hnode
    · exact Or.inl ⟨(Prod.mk.inj h).1.symm, (Prod.mk.inj h).2.symm⟩
    · refine Or.inr ⟨dir, node, rfl, ?_, (Prod.mk.inj h).2.symm, (Prod.mk.inj h).1.symm⟩
      by_cases hroot : node = s.vfsRoot
      · exact Or.inl hroot
      · exact Or.inr (by simpa [hroot] using hnode)

lemma vfsMount_cases {stale stale' : ℕ → List (BitVec 8)} {parent : ℕ} {source : Option CString} {target : CString}
    {fs : Filesystem} {fuel : ℕ} {b : Bool}
    (h : vfsMount s stale stale' parent source target fs fuel = some (s', b)) : (s' = s ∧ b = false) ∨
    ∃ dir node, path2node s stale' parent target fuel = some ⟨some dir, some node⟩ ∧
      (node = s.vfsRoot ∨ s.isDir node = true) ∧ b = true ∧
      s' = attach (fsMount s fs dir (basename target)).2 dir node (fsMount s fs dir (basename target)).1 := by
  obtain ⟨accepted, -, h⟩ := Option.bind_eq_some_iff.mp h
  split_ifs at h
  · obtain ⟨r, hr, h⟩ := Option.map_eq_some_iff.mp h
    exact (mountOn_cases h).imp_right fun ⟨dir, node, hrn, hrest⟩ => ⟨dir, node, hrn ▸ hr, hrest⟩
  · obtain ⟨hs, hb⟩ := Prod.mk.inj (Option.some.inj h)
    exact Or.inl ⟨hs.symm, hb.symm⟩

lemma vfsCreate_cases {stale : ℕ → List (BitVec 8)} {parent : ℕ} {name : CString} {mode : BitVec 32} {fuel : ℕ}
    {o : Outcome (Vfs × Option ℕ)} (h : vfsCreate s stale parent name mode fuel = some o) :
    ∃ r, resolve s stale parent name = some r ∧ createIn s name mode r = o := by
  obtain ⟨r, hr, h⟩ := Option.map_eq_some_iff.mp h
  exact ⟨r, (settles_path2node s stale parent name).sound fuel r hr, h⟩

lemma Fresh.set (h : Fresh s) (node : Node) (hx : x < s.count) : Fresh (s.set x node) where
  clear y hy := by
    rw [set_nodes_of_ne _ _ (by simp at hy; omega)]
    exact h.clear y hy
  vfsRoot_lt := h.vfsRoot_lt
  devfsRoot_lt := h.devfsRoot_lt

lemma Fresh.createDotentries (h : Fresh s) (parent : ℕ) (hx : x < s.count) : Fresh (createDotentries s parent x) where
  clear y hy := by
    rw [createDotentries_count] at hy
    rw [createDotentries_nodes _ _ (Or.inr hy) (by omega)]
    exact h.clear y (by omega)
  vfsRoot_lt := Nat.lt_add_right 2 h.vfsRoot_lt
  devfsRoot_lt := Nat.lt_add_right 2 h.devfsRoot_lt

lemma Fresh.tmpfsCreate (h : Fresh s) (parent : ℕ) (name : CString) (mode : BitVec 32) :
    Fresh (tmpfsCreate s parent name mode).2 where
  clear y hy := by
    rw [tmpfsCreate_count] at hy
    rw [tmpfsCreate_nodes _ _ _ _ (by omega)]
    exact h.clear y (by omega)
  vfsRoot_lt := Nat.lt_succ_of_lt h.vfsRoot_lt
  devfsRoot_lt := Nat.lt_succ_of_lt h.devfsRoot_lt

lemma Fresh.addEntry (h : Fresh s) (name : CString) (hx : x < s.count) (hy : y < s.count) :
    Fresh (addEntry s x name y) := by
  rw [VfsTree.addEntry]
  split_ifs
  · exact (h.set _ hx).createDotentries _ hy
  · exact h.set _ hx

lemma Fresh.attach (h : Fresh s) (dir : ℕ) (hx : x < s.count) (hy : y < s.count) : Fresh (attach s dir x y) :=
  (h.set _ hx).createDotentries _ hy

lemma Fresh.lt_of_lookup (h : Fresh s) (hx : s.lookup d k = some x) : d < s.count := by
  by_contra hd
  rw [Vfs.lookup, h.clear d (not_lt.mp hd)] at hx
  simp [blank] at hx

lemma Fresh.lt_of_fs (h : Fresh s) {fs : Filesystem} (hfs : (s.nodes d).fs = some fs) : d < s.count := by
  by_contra hd
  rw [h.clear d (not_lt.mp hd)] at hfs
  simp [blank] at hfs

lemma Fresh.lt_of_isDir (h : Fresh s) (hd : s.isDir d = true) : d < s.count := by
  by_contra hlt
  rw [Vfs.isDir, h.clear d (not_lt.mp hlt)] at hd
  exact absurd hd (by decide)

lemma Fresh.step {a : Call} (h : Fresh s) (hstep : Step s a s') : Fresh s' := by
  cases a with
  | create stale parent name mode =>
    obtain ⟨fuel, node, hstep⟩ := hstep
    obtain ⟨r, -, hr⟩ := vfsCreate_cases hstep
    rcases createIn_cases hr with ⟨rfl, -⟩ | ⟨dir, -, hfs, ⟨-, -, rfl⟩ | ⟨-, -, rfl⟩⟩
    · exact h
    · exact h.tmpfsCreate ..
    · have hdir := h.lt_of_fs hfs
      exact (h.tmpfsCreate ..).addEntry _ (Nat.lt_succ_of_lt hdir) (Nat.lt_succ_self _)
  | mount stale stale' parent source target fs =>
    obtain ⟨fuel, b, hstep⟩ := hstep
    rcases vfsMount_cases hstep with ⟨rfl, -⟩ | ⟨dir, node, -, hnode, -, rfl⟩
    · exact h
    · have hlt : node < s.count := hnode.elim (fun hn => hn ▸ h.vfsRoot_lt) h.lt_of_isDir
      cases fs with
      | tmpfs => exact (h.tmpfsCreate ..).attach _ (Nat.lt_succ_of_lt hlt) (Nat.lt_succ_self _)
      | devfs => exact h.attach _ hlt h.devfsRoot_lt

lemma fresh_vfsInit : Fresh vfsInit where
  clear x hx := by
    have h0 : x ≠ 0 := by rintro rfl; exact absurd hx (by decide)
    have h1 : x ≠ 1 := by rintro rfl; exact absurd hx (by decide)
    simp [vfsInit, vfsCreateNode, set_nodes_of_ne, h0, h1]
  vfsRoot_lt := by decide
  devfsRoot_lt := by decide

lemma fresh_of_run {calls : List Call} (h : Run Step vfsInit calls s) : Fresh s :=
  h.invariant (fun _ _ _ hs hstep => hs.step hstep) fresh_vfsInit

end Calls

section Keeping

/-- Every entry that was there still leads to its node. -/
def Keeps (s s' : Vfs) : Prop := ∀ d k x, s.lookup d k = some x → s'.lookup d k = some x

/-- A name that is not found is added without changing an entry. -/
lemma createIn_keeps (hs : Fresh s) {name : CString} {mode : BitVec 32} {node : Option ℕ}
    (hnone : s.lookup e (basename name) = none) (h : createIn s name mode ⟨some e, none⟩ = .returns (s', node)) :
    Keeps s s' := by
  intro d k x hx
  have hd := hs.lt_of_lookup hx
  have ht := tmpfsCreate_nodes s e (basename name) mode hd.ne
  rcases createIn_cases h with ⟨-, -, h'⟩ | ⟨dir, hr, hfs, ⟨-, -, rfl⟩ | ⟨-, -, rfl⟩⟩
  · simp at h'
  · obtain rfl : e = dir := by simpa using hr
    rw [lookup_congr ht]
    exact hx
  · obtain rfl : e = dir := by simpa using hr
    by_cases hde : d = e
    · subst hde
      rw [lookup_congr (addEntry_dir _ _ (by simp; omega) hd.ne), lookup_setChild, ht]
      obtain ⟨map, hmap, hx⟩ := Option.bind_eq_some_iff.mp hx
      rw [Vfs.lookup, hmap, Option.bind_some] at hnone
      rw [hmap, Option.bind_some]
      exact hashmapGet_hashmapSet_of_none hnone hx
    · rw [lookup_congr (addEntry_nodes _ _ (by simp; omega) hde hd.ne), lookup_congr ht]
      exact hx

end Keeping

section Rebinding
variable {stale : ℕ → List (BitVec 8)} {parent : ℕ} {path c copy : CString} {mode : BitVec 32}

/-- All components but the last lead to `e`. The last one is `c`, and `copy` is looked up for it. -/
def Leads (s : Vfs) (stale : ℕ → List (BitVec 8)) (parent : ℕ) (path : CString) (e : ℕ) (c copy : CString) : Prop :=
  ∃ cs d, components slash path.1 = cs ++ [c.1] ∧ copy = elemStr c.1 (stale cs.length) ∧ s.Starts parent path d ∧
    Descends s d (copies stale cs) e

/-- A call of `vfs_create` leaves every entry bound to its node, and where the last component exists
it fails and changes nothing. -/
structure NeverRebinds (s : Vfs) (stale : ℕ → List (BitVec 8)) (parent : ℕ) (path : CString) (mode : BitVec 32) :
    Prop where
  keeps : ∀ fuel s' node, vfsCreate s stale parent path mode fuel = some (.returns (s', node)) → Keeps s s'
  refuses : ∀ e c copy, Leads s stale parent path e c copy → s.lookup e c ≠ none →
    ∀ᶠ fuel in atTop, vfsCreate s stale parent path mode fuel = some (.returns (s, none))

/-- Where the last component exists, the copy of it is found too, and what is found can be reduced, to
a directory if the path ends in a slash. -/
def ExistingFound (s : Vfs) (stale : ℕ → List (BitVec 8)) (parent : ℕ) (path : CString) : Prop :=
  ∀ e c copy, Leads s stale parent path e c copy → s.lookup e c ≠ none →
    ∃ x m, s.lookup e copy = some x ∧ s.reduced x = some m ∧ (asksForDir path = true → s.isDir m = true)

lemma settles_vfsCreate (s : Vfs) (stale : ℕ → List (BitVec 8)) (parent : ℕ) (path : CString) (mode : BitVec 32) :
    Settles (vfsCreate s stale parent path mode) ((resolve s stale parent path).map (createIn s path mode)) :=
  (settles_path2node s stale parent path).map _

lemma Leads.resolve (h : Leads s stale parent path e c copy) :
    resolve s stale parent path = walkFrom s (asksForDir path) e [copy] := by
  obtain ⟨cs, d, hcs, rfl, ⟨start, hstart, hd⟩, hdesc⟩ := h
  have hpath : path.1 ≠ [] := by
    intro hnil
    rw [hnil, components_nil] at hcs
    simp at hcs
  rw [VfsTree.resolve, if_neg hpath, hstart, Option.bind_some, hd, Option.bind_some, hcs, copies_concat]
  exact hdesc.walkFrom (List.cons_ne_nil _ _)

lemma Leads.basename (h : Leads s stale parent path e c copy) : basename path = c := by
  obtain ⟨cs, d, hcs, -⟩ := h
  exact Subtype.ext (basename_val hcs)

/-- A lookup that ends with a directory but no node has looked for the last component there. -/
lemma leads_of_resolve (h : resolve s stale parent path = some ⟨some e, none⟩) :
    ∃ c copy, Leads s stale parent path e c copy := by
  have hpath : path.1 ≠ [] := by
    intro hnil
    rw [resolve, if_pos hnil] at h
    simp at h
  obtain ⟨d, hd, hwalk⟩ := (resolve_eq_some hpath).mp h
  rcases List.eq_nil_or_concat (components slash path.1) with hcs | ⟨cs, c, hcs⟩
  · rw [hcs] at hwalk
    simp [copies, walkFrom] at hwalk
  · rw [List.concat_eq_append] at hcs
    rw [hcs, copies_concat] at hwalk
    rcases walkFrom_concat hwalk with hnone | ⟨e', hdesc, hlast⟩
    · simp at hnone
    · have hc : 0 ∉ c := fun h0 => path.2 ((mem_components (by rw [hcs]; simp)).2.2 h0)
      obtain rfl : e = e' := Option.some.inj (walkFrom_single_parent hlast)
      exact ⟨⟨c, hc⟩, _, cs, d, hcs, rfl, hd, hdesc⟩

/-- In every state that calls of `vfs_create` and `vfs_mount` reach, a call of `vfs_create` rebinds no
name if and only if an existing last component is found. -/
theorem vfsCreate_neverRebinds {calls : List Call} (hrun : Run Step vfsInit calls s)
    (stale : ℕ → List (BitVec 8)) (parent : ℕ) (path : CString) (mode : BitVec 32) :
    NeverRebinds s stale parent path mode ↔ ExistingFound s stale parent path := by
  have hs := fresh_of_run hrun
  have hcreate := settles_vfsCreate s stale parent path mode
  constructor
  · intro h e c copy hlead hc
    obtain ⟨fuel, hret, hfuel⟩ := ((h.refuses e c copy hlead hc).and hcreate.eventually).exists
    rw [hret] at hfuel
    obtain ⟨r, hr, hcreated⟩ := Option.map_eq_some_iff.mp hfuel.symm
    rw [hlead.resolve] at hr
    have hmissing : r.node ≠ none := by
      have hparent := walkFrom_single_parent hr
      exact (createIn_unchanged hcreated).resolve_left (by simp [hparent])
    rcases walkFrom_single hr with ⟨-, rfl⟩ | ⟨x, m, hx, hm, rfl⟩
    · exact absurd rfl hmissing
    · refine ⟨x, m, hx, hm, fun hask => ?_⟩
      by_contra hdir
      exact hmissing (by rw [lastResult, if_pos ⟨hask, hdir⟩])
  · intro h
    have hfound : ∀ e c copy, Leads s stale parent path e c copy → s.lookup e c ≠ none →
        ∃ m, resolve s stale parent path = some ⟨some e, some m⟩ := by
      intro e c copy hlead hc
      obtain ⟨x, m, hx, hm, hdir⟩ := h e c copy hlead hc
      refine ⟨m, ?_⟩
      rw [hlead.resolve, walkFrom, hx]
      simp only [hm, Option.map_some, lastResult]
      rw [if_neg fun hn => hn.2 (hdir hn.1)]
    refine ⟨fun fuel s' node hret => ?_, fun e c copy hlead hc => ?_⟩
    · obtain ⟨r, hr, hcreated⟩ := vfsCreate_cases hret
      rcases createIn_cases hcreated with ⟨rfl, -⟩ | ⟨e, rfl, -⟩
      · exact fun _ _ _ hx => hx
      · obtain ⟨c, copy, hlead⟩ := leads_of_resolve hr
        have hc : s.lookup e c = none := by
          by_contra hc
          obtain ⟨m, hm⟩ := hfound e c copy hlead hc
          rw [hr] at hm
          simp at hm
        exact createIn_keeps hs (hlead.basename.symm ▸ hc) hcreated
    · obtain ⟨m, hm⟩ := hfound e c copy hlead hc
      rw [hm] at hcreate
      exact hcreate.eventually

def filePath : CString := ⟨[slash, 0x66], by decide⟩
def fileSlashPath : CString := ⟨[slash, 0x66, slash], by decide⟩
def fileName : CString := ⟨[0x66], by decide⟩

/-- A regular file `"/f"`. -/
def withFile : Vfs := addEntry (tmpfsCreate rootMounted 2 fileName sIfreg).2 2 fileName 5

lemma run_withFile : Run Step vfsInit [.mount (fun _ => []) (fun _ => []) 0 none slashPath .tmpfs,
    .create (fun _ => []) 0 filePath sIfreg] withFile := by
  refine .cons (t := rootMounted) ⟨1, true, rfl⟩ (.single ⟨5, some 5, ?_⟩)
  rfl

/-- `open("/f", O_CREAT)` where the file exists. -/
theorem vfsCreate_neverRebinds_file : NeverRebinds withFile (fun _ => []) 0 filePath sIfreg := by
  refine (vfsCreate_neverRebinds run_withFile _ 0 filePath sIfreg).mpr ?_
  rintro e c copy ⟨cs, d, hcs, rfl, ⟨start, -, hd⟩, hdesc⟩ -
  have hcomps : components slash filePath.1 = [[0x66]] := by decide
  rw [hcomps] at hcs
  obtain ⟨rfl, hc⟩ := List.append_eq_singleton_iff.mp hcs.symm |>.resolve_right (by simp)
  have hroot : withFile.reduced 0 = some 2 := (settles_reduced withFile 0).sound 3 2 rfl
  have hfile : withFile.reduced 5 = some 5 := (settles_reduced withFile 5).sound 3 5 rfl
  obtain rfl : 2 = d := Option.some.inj (hroot.symm.trans hd)
  cases hdesc
  refine ⟨5, 5, ?_, hfile, by decide⟩
  rw [List.singleton_inj.mp hc]
  decide

/-- `mkdir("/f/")` finds no directory and puts a new one in the place of the file. -/
theorem vfsCreate_rebinds : Run Step vfsInit [.mount (fun _ => []) (fun _ => []) 0 none slashPath .tmpfs,
    .create (fun _ => []) 0 filePath sIfreg] withFile ∧
    withFile.lookup 2 fileName = some 5 ∧ ¬NeverRebinds withFile (fun _ => []) 0 fileSlashPath sIfdir := by
  refine ⟨run_withFile, by decide, fun h => ?_⟩
  have hkeeps := h.keeps 5 (addEntry (tmpfsCreate withFile 2 fileName sIfdir).2 2 fileName 6) (some 6) rfl
    2 fileName 5 (by decide)
  exact absurd hkeeps (by decide)

end Rebinding

end PiggyOs.VfsTree
