import PiggyOs.CoveredTree
import PiggyOs.VfsCreate

/-! The entries `"."` and `".."`, in every directory that paths lead to. -/
namespace PiggyOs.VfsTree
open Hash CString Separated Fuel IntrusiveList Filter Transition CoveredTree

variable {s s' : Vfs} {d e m n x y : ℕ} {c k : CString}

section Names

def Ordinary (c : CString) : Prop := c.1 ≠ [] ∧ c ≠ dot ∧ c ≠ dotdot

abbrev Name := {c : CString // Ordinary c}

lemma ordinary_of_lt (h : 2 < c.strlen) : Ordinary c := by
  refine ⟨fun hnil => ?_, fun hdot => ?_, fun hdotdot => ?_⟩
  · rw [strlen, hnil] at h
    exact absurd h (by decide)
  · rw [hdot] at h
    exact absurd h (by decide)
  · rw [hdotdot] at h
    exact absurd h (by decide)

lemma Ordinary.not_isPrefix_dot (h : Ordinary c) : ¬c.1 <+: dot.1 := by
  rintro ⟨t, ht⟩
  obtain ⟨hne, hdot, -⟩ := h
  obtain ⟨b, l, hc⟩ := List.exists_cons_of_ne_nil hne
  rw [hc] at ht
  obtain ⟨hb, hl⟩ := List.cons.inj ht
  obtain ⟨rfl, -⟩ := List.append_eq_nil_iff.mp hl
  exact hdot (Subtype.ext (by rw [hc, hb]))

lemma Ordinary.not_isPrefix_dotdot (h : Ordinary c) : ¬c.1 <+: dotdot.1 := by
  rintro ⟨t, ht⟩
  obtain ⟨hne, hdot, hdotdot⟩ := h
  obtain ⟨b, l, hc⟩ := List.exists_cons_of_ne_nil hne
  rw [hc] at ht
  obtain ⟨hb, hl⟩ := List.cons.inj ht
  rcases List.append_eq_singleton_iff.mp hl with ⟨rfl, -⟩ | ⟨rfl, -⟩
  · exact hdot (Subtype.ext (by rw [hc, hb]))
  · exact hdotdot (Subtype.ext (by rw [hc, hb]))

lemma isPrefix_elemStr {elem : List (BitVec 8)} (stale : List (BitVec 8)) (h0 : 0 ∉ elem) :
    elem <+: (elemStr elem stale).1 := by
  have hpos : ∀ b ∈ elem, decide (b ≠ 0) = true := fun b hb => by simpa using ne_of_mem_of_not_mem hb h0
  change elem <+: List.takeWhile _ (elem ++ _)
  rw [List.takeWhile_append_of_pos hpos]
  exact List.prefix_append _ _

lemma elemStr_short {elem : List (BitVec 8)} (stale : List (BitVec 8)) (h0 : 0 ∉ elem) (hlen : elem.length ≤ 2047) :
    (elemStr elem stale).1 = elem := by
  rw [elemStr, if_pos (Nat.succ_le_succ hlen), List.append_nil, ofBytes_val h0]

/-- What is looked up for an ordinary component is ordinary. -/
lemma ordinary_elemStr (stale : List (BitVec 8)) (hc : Ordinary c) : Ordinary (elemStr c.1 stale) := by
  by_cases hlen : c.1.length ≤ 2047
  · rwa [show elemStr c.1 stale = c from Subtype.ext (elemStr_short stale c.2 hlen)]
  · have hle := (isPrefix_elemStr stale c.2).length_le
    have hlong : ∀ k : CString, k.1.length ≤ 2 → elemStr c.1 stale ≠ k := by
      rintro k hk rfl
      omega
    refine ⟨fun hnil => ?_, hlong dot (by decide), hlong dotdot (by decide)⟩
    rw [hnil, List.length_nil] at hle
    omega

lemma elemStr_ne_nil {elem : List (BitVec 8)} (stale : List (BitVec 8)) (h0 : 0 ∉ elem) (hne : elem ≠ []) :
    (elemStr elem stale).1 ≠ [] := by
  intro hnil
  have hpre := isPrefix_elemStr stale h0
  rw [hnil] at hpre
  exact hne (List.prefix_nil.mp hpre)

end Names

section Maps
variable {map : HashMap ℕ} {key : CString}

/-- `key` is the first entry of its chain. -/
def Heads (map : HashMap ℕ) (key : CString) (x : ℕ) : Prop :=
  ∃ rest, map.entries (bucket map.size key) = (key, x) :: rest

lemma Heads.get (h : Heads map key x) : hashmapGet map key key.strlen = some x := by
  obtain ⟨rest, h⟩ := h
  rw [hashmapGet, h, chainGet, if_pos]
  simpa using (strncmp_strlen_iff key key).mpr List.prefix_rfl

/-- It stays there, unless a prefix of it is set. -/
lemma Heads.set (h : Heads map key x) (hc : ¬c.1 <+: key.1) (v : ℕ) :
    Heads (hashmapSet map c c.strlen v) key x := by
  obtain ⟨rest, h⟩ := h
  by_cases hb : bucket map.size key = bucket map.size c
  · refine ⟨chainSet (fun k => strncmp k c c.strlen = 0) c v rest, ?_⟩
    change Function.update map.entries (bucket map.size c) _ (bucket map.size key) = _
    rw [hb, Function.update_self, ← hb, h, chainSet, if_neg]
    simpa [strncmp_strlen_iff] using hc
  · refine ⟨rest, ?_⟩
    change Function.update map.entries (bucket map.size c) _ (bucket map.size key) = _
    rw [Function.update_of_ne hb]
    exact h

lemma one_le_buckets : 1 ≤ 128 := by decide

/-- The map of a new directory. -/
def dotMap (a b : ℕ) : HashMap ℕ :=
  hashmapSet (hashmapSet (hashmapCreate ℕ 128 one_le_buckets) dot 1 a) dotdot 2 b

lemma dotMap_size (a b : ℕ) : (dotMap a b).size = 128 := rfl

lemma dotMap_entries (a b i : ℕ) : (dotMap a b).entries i =
    if i = bucket 128 dotdot then [(dotdot, b)] else if i = bucket 128 dot then [(dot, a)] else [] := by
  have hne : bucket 128 dotdot ≠ bucket 128 dot := by decide
  simp only [dotMap, hashmapSet, hashmapCreate, Function.update_apply, hne, if_false, chainSet]

lemma dotMap_dot (a b : ℕ) : Heads (dotMap a b) dot a := by
  refine ⟨[], ?_⟩
  rw [dotMap_size, dotMap_entries, if_neg (by decide), if_pos rfl]

lemma dotMap_dotdot (a b : ℕ) : Heads (dotMap a b) dotdot b := by
  refine ⟨[], ?_⟩
  rw [dotMap_size, dotMap_entries, if_pos rfl]

lemma dotMap_ordinary (a b : ℕ) (hc : Ordinary c) : hashmapGet (dotMap a b) c c.strlen = none := by
  have hdot : ¬strncmp dot c c.strlen = 0 := (strncmp_strlen_iff _ _).not.mpr hc.not_isPrefix_dot
  have hdotdot : ¬strncmp dotdot c c.strlen = 0 := (strncmp_strlen_iff _ _).not.mpr hc.not_isPrefix_dotdot
  rw [hashmapGet, dotMap_entries]
  split_ifs <;> simp [chainGet, hdot, hdotdot]

end Maps

section Invariant

/-- `d` has an entry for itself and one for `e`. -/
def Dotted (s : Vfs) (d e : ℕ) : Prop :=
  ∃ map a b, (s.nodes d).children = some map ∧ Heads map dot a ∧ Heads map dotdot b ∧
    (s.nodes a).link = some d ∧ (s.nodes b).link = some e

/-- The directories as the entries and the chains describe them. -/
def treeOf (s : Vfs) (reduce : ℕ → ℕ) (up : ℕ → Option ℕ) : Tree ℕ Name :=
  ⟨reduce, s.vfsRoot, fun x => s.isDir x = true, fun d c => s.lookup d c.1, up⟩

/-- A directory without entries that nothing leads to. -/
structure UnusedDir (s : Vfs) (t : Tree ℕ Name) (m : ℕ) : Prop where
  unused : t.Unused m
  isDir : s.isDir m = true
  link : (s.nodes m).link = none
  children : (s.nodes m).children = some (hashmapCreate ℕ 128 (by decide))

/-- Chains end where `reduce` says, directories have the entries that `up` says, and all other entries
lead to nodes without a link. -/
structure Wired (s : Vfs) (reduce : ℕ → ℕ) (up : ℕ → Option ℕ) : Prop where
  fresh : Fresh s
  reduced : ∀ x, (s.nodes x).link = none → s.reduced x = some (reduce x)
  bounded : ∀ x, x < s.count → reduce x < s.count
  dotted : ∀ d e, up d = some e →
    Dotted s d e ∧ (s.nodes d).link = none ∧ (s.nodes e).link = none ∧ s.isDir d = true ∧ e < s.count
  child : ∀ d c x, Ordinary c → s.lookup d c = some x → (s.nodes x).link = none ∧ x < s.count
  root_link : (s.nodes s.vfsRoot).link = none

/-- `cwds` are the directories from which paths may start. -/
structure Inv (s : Vfs) (cwds : Set ℕ) (devfsMounted : Bool) (reduce : ℕ → ℕ) (up : ℕ → Option ℕ) : Prop
    extends Wired s reduce up where
  sound : (treeOf s reduce up).Sound
  starts : ∀ x ∈ cwds, (s.nodes x).link = none ∧ up (reduce x) ≠ none
  devfs : devfsMounted = false → UnusedDir s (treeOf s reduce up) s.devfsRoot

variable {cwds : Set ℕ} {devfsMounted : Bool} {reduce : ℕ → ℕ} {up : ℕ → Option ℕ}

lemma Wired.reduce_of_le (h : Wired s reduce up) (hx : s.count ≤ x) : reduce x = x := by
  have hblank := h.fresh.clear x hx
  have hred := h.reduced x (by rw [hblank]; rfl)
  have hself : s.reduced x = some x := ending_of_none (by rw [Vfs.redirect, hblank]; rfl)
  exact Option.some.inj (hred.symm.trans hself)

lemma Wired.reduced_link (h : Wired s reduce up) (hx : (s.nodes x).link = some y) (hy : (s.nodes y).link = none) :
    s.reduced x = some (reduce y) := by
  rw [← h.reduced y hy]
  exact ending_of_some (by rw [Vfs.redirect, hx]; rfl)

/-- What has not been allocated is not used. -/
lemma Wired.unused (h : Wired s reduce up) (hn : s.count ≤ n) : (treeOf s reduce up).Unused n where
  reduce_self := h.reduce_of_le hn
  unreached x hx := by
    change reduce x = n at hx
    by_cases hlt : x < s.count
    · have := h.bounded x hlt
      omega
    · rwa [h.reduce_of_le (not_lt.mp hlt)] at hx
  noUp := by
    by_contra hup
    obtain ⟨e, he⟩ := Option.ne_none_iff_exists'.mp hup
    obtain ⟨⟨map, a, b, hmap, -⟩, -⟩ := h.dotted n e he
    rw [h.fresh.clear n hn] at hmap
    simp [blank] at hmap
  noChild c := by
    by_contra hc
    obtain ⟨x, hx⟩ := Option.ne_none_iff_exists'.mp hc
    exact absurd (h.fresh.lt_of_lookup hx) (not_lt.mpr hn)
  notChild d c hc := absurd (h.child d c.1 n c.2 hc).2 (not_lt.mpr hn)
  not_root := ne_of_lt (h.fresh.vfsRoot_lt.trans_le hn)

/-- One component further, from a directory of the tree. -/
lemma Inv.lookup_place (h : Inv s cwds devfsMounted reduce up) (hd : (treeOf s reduce up).Place d) (hc : c.1 ≠ [])
    (hx : s.lookup d c = some x) (hm : s.reduced x = some m) (hdir : s.isDir m = true) :
    (treeOf s reduce up).Place m := by
  obtain ⟨e, he⟩ := Option.ne_none_iff_exists'.mp hd.above
  obtain ⟨⟨map, a, b, hmap, hdot, hdotdot, ha, hb⟩, hlink, helink, -⟩ := h.dotted d e he
  have hget : hashmapGet map c c.strlen = some x := by rwa [Vfs.lookup, hmap, Option.bind_some] at hx
  by_cases hcd : c = dot
  · subst hcd
    obtain rfl : a = x := Option.some.inj (hdot.get.symm.trans hget)
    rw [h.reduced_link ha hlink] at hm
    obtain rfl := Option.some.inj hm
    exact (show reduce d = d from hd.settled).symm ▸ hd
  · by_cases hcdd : c = dotdot
    · subst hcdd
      obtain rfl : b = x := Option.some.inj (hdotdot.get.symm.trans hget)
      rw [h.reduced_link hb helink] at hm
      obtain rfl := Option.some.inj hm
      exact h.sound.place_up hd he
    · have hord : Ordinary c := ⟨hc, hcd, hcdd⟩
      rw [h.reduced x (h.child d c x hord hx).1] at hm
      obtain rfl := Option.some.inj hm
      have hchild : (treeOf s reduce up).child d ⟨c, hord⟩ = some x := hx
      exact h.sound.place_child hd hchild hdir

lemma Inv.descends_place (h : Inv s cwds devfsMounted reduce up) {cs : List CString} (hdesc : Descends s d cs e)
    (hcs : ∀ c ∈ cs, c.1 ≠ []) (hd : (treeOf s reduce up).Place d) : (treeOf s reduce up).Place e := by
  induction hdesc with
  | nil e => exact hd
  | cons hx hm hdir _ ih =>
    refine ih (fun c hc => hcs c (List.mem_cons_of_mem _ hc)) ?_
    exact h.lookup_place hd (hcs _ List.mem_cons_self) hx hm hdir

lemma Inv.starts_place (h : Inv s cwds devfsMounted reduce up) {parent : ℕ} {path : CString} (hp : parent ∈ cwds)
    (hd : s.Starts parent path d) : (treeOf s reduce up).Place d := by
  obtain ⟨start, hstart, hd⟩ := hd
  obtain ⟨hlink, habove⟩ := h.starts parent hp
  rw [h.reduced parent hlink] at hstart
  obtain rfl := Option.some.inj hstart
  split_ifs at hd
  · rw [h.reduced _ h.root_link] at hd
    obtain rfl := Option.some.inj hd
    exact h.sound.place_root
  · obtain rfl := Option.some.inj hd
    exact ⟨h.sound.idem parent, habove⟩

end Invariant

section Keeping
variable {reduce : ℕ → ℕ} {up : ℕ → Option ℕ} {parent : ℕ} {name : CString} {mode : BitVec 32}

/-- Where links and mounts are only added behind the ends of the chains, a chain with an old end stays. -/
lemma Wired.reduced_keep (h : Wired s reduce up) (hkeep : ∀ y w, s.redirect y = some w → s'.redirect y = some w)
    (hlink : (s.nodes x).link = none) (hend : s'.redirect (reduce x) = none) : s'.reduced x = some (reduce x) :=
  (ending_extend (h.reduced x hlink) hkeep).trans (ending_of_none hend)

lemma Wired.redirect_reduce (h : Wired s reduce up) (hlink : (s.nodes x).link = none) :
    s.redirect (reduce x) = none :=
  next_of_ending (h.reduced x hlink)

lemma Fresh.lt_of_link (hs : Fresh s) (hx : (s.nodes x).link = some y) : x < s.count := by
  by_contra hge
  rw [hs.clear x (not_lt.mp hge)] at hx
  simp [blank] at hx

lemma Fresh.redirect_of_le (hs : Fresh s) (hx : s.count ≤ x) : s.redirect x = none := by
  rw [Vfs.redirect, hs.clear x hx]
  rfl

/-- Nodes that keep their links, and a directory that keeps its two entries. -/
lemma Dotted.congr (h : Dotted s d e) (hs : Fresh s)
    (hheads : ∀ map, (s.nodes d).children = some map → ∃ map', (s'.nodes d).children = some map' ∧
      ∀ key x, key = dot ∨ key = dotdot → Heads map key x → Heads map' key x)
    (hlink : ∀ x < s.count, (s'.nodes x).link = (s.nodes x).link) : Dotted s' d e := by
  obtain ⟨map, a, b, hmap, hdot, hdotdot, ha, hb⟩ := h
  obtain ⟨map', hmap', hkeep⟩ := hheads map hmap
  refine ⟨map', a, b, hmap', hkeep _ _ (Or.inl rfl) hdot, hkeep _ _ (Or.inr rfl) hdotdot, ?_, ?_⟩
  · rw [hlink a (hs.lt_of_link ha), ha]
  · rw [hlink b (hs.lt_of_link hb), hb]

lemma Dotted.congr_children (h : Dotted s d e) (hs : Fresh s)
    (hchildren : (s'.nodes d).children = (s.nodes d).children)
    (hlink : ∀ x < s.count, (s'.nodes x).link = (s.nodes x).link) : Dotted s' d e :=
  h.congr hs (fun map hmap => ⟨map, hchildren.trans hmap, fun _ _ _ hk => hk⟩) hlink

lemma Wired.lt_of_up (h : Wired s reduce up) (hd : up d = some e) : d < s.count :=
  h.fresh.lt_of_isDir (h.dotted d e hd).2.2.2.1

lemma tmpfsCreate_lookup (hs : Fresh s) (d : ℕ) (k : CString) :
    (tmpfsCreate s parent name mode).2.lookup d k = s.lookup d k := by
  by_cases hd : d = s.count
  · subst hd
    rw [Vfs.lookup, tmpfsCreate_self, Vfs.lookup, hs.clear s.count le_rfl]
    split_ifs <;> rfl
  · exact lookup_congr (tmpfsCreate_nodes s _ _ _ hd) k

lemma tmpfsCreate_isDir (s : Vfs) (parent : ℕ) (name : CString) (mode : BitVec 32) (x : ℕ) :
    (tmpfsCreate s parent name mode).2.isDir x = if x = s.count then sIsdir mode else s.isDir x := by
  split_ifs with hx
  · rw [hx, Vfs.isDir, tmpfsCreate_self]
  · rw [Vfs.isDir, tmpfsCreate_nodes s _ _ _ hx]
    rfl

lemma tmpfsCreate_link (hs : Fresh s) (x : ℕ) :
    ((tmpfsCreate s parent name mode).2.nodes x).link = (s.nodes x).link := by
  by_cases hx : x = s.count
  · rw [hx, tmpfsCreate_self, hs.clear s.count le_rfl]
  · rw [tmpfsCreate_nodes s _ _ _ hx]

lemma tmpfsCreate_redirect (hs : Fresh s) (x : ℕ) :
    (tmpfsCreate s parent name mode).2.redirect x = s.redirect x := by
  by_cases hx : x = s.count
  · rw [hx, Vfs.redirect, tmpfsCreate_self, hs.redirect_of_le le_rfl]
    rfl
  · rw [Vfs.redirect, tmpfsCreate_nodes s _ _ _ hx]
    rfl

lemma Wired.tmpfsCreate (h : Wired s reduce up) (parent : ℕ) (name : CString) (mode : BitVec 32) :
    Wired (tmpfsCreate s parent name mode).2 reduce up where
  fresh := h.fresh.tmpfsCreate parent name mode
  reduced x hx := by
    rw [tmpfsCreate_link h.fresh] at hx
    refine h.reduced_keep (fun y w hy => (tmpfsCreate_redirect h.fresh y).trans hy) hx ?_
    exact (tmpfsCreate_redirect h.fresh _).trans (h.redirect_reduce hx)
  bounded x hx := by
    rw [tmpfsCreate_count] at hx ⊢
    by_cases hlt : x < s.count
    · exact Nat.lt_succ_of_lt (h.bounded x hlt)
    · rwa [h.reduce_of_le (not_lt.mp hlt)]
  dotted d e hd := by
    obtain ⟨hdots, hdlink, helink, hdir, helt⟩ := h.dotted d e hd
    have hne : d ≠ s.count := (h.lt_of_up hd).ne
    refine ⟨hdots.congr_children h.fresh ?_ fun x _ => tmpfsCreate_link h.fresh x, ?_, ?_, ?_, Nat.lt_succ_of_lt helt⟩
    · rw [tmpfsCreate_nodes s _ _ _ hne]
    · rw [tmpfsCreate_link h.fresh, hdlink]
    · rw [tmpfsCreate_link h.fresh, helink]
    · rw [tmpfsCreate_isDir, if_neg hne, hdir]
  child d c x hc hx := by
    rw [tmpfsCreate_lookup h.fresh] at hx
    obtain ⟨hlink, hlt⟩ := h.child d c x hc hx
    exact ⟨(tmpfsCreate_link h.fresh x).trans hlink, Nat.lt_succ_of_lt hlt⟩
  root_link := (tmpfsCreate_link h.fresh _).trans h.root_link

lemma setChild_attributes (s : Vfs) (e : ℕ) (key : CString) (size v x : ℕ) :
    ((s.setChild e key size v).nodes x).link = (s.nodes x).link ∧
      (s.setChild e key size v).redirect x = s.redirect x ∧ (s.setChild e key size v).isDir x = s.isDir x := by
  rw [Vfs.redirect, Vfs.isDir, setChild_nodes]
  exact ⟨rfl, rfl, rfl⟩

lemma Wired.setChild (h : Wired s reduce up) (he : e < s.count) (hc : Ordinary c) (hlink : (s.nodes x).link = none)
    (hx : x < s.count) : Wired (s.setChild e c c.strlen x) reduce up where
  fresh := h.fresh.set _ he
  reduced y hy := by
    obtain ⟨hylink, -, -⟩ := setChild_attributes s e c c.strlen x y
    have hred : ∀ y, (s.setChild e c c.strlen x).redirect y = s.redirect y :=
      fun y => (setChild_attributes s e c c.strlen x y).2.1
    rw [hylink] at hy
    exact h.reduced_keep (fun z w hz => (hred z).trans hz) hy ((hred _).trans (h.redirect_reduce hy))
  bounded := h.bounded
  dotted d f hd := by
    obtain ⟨hdots, hdlink, hflink, hdir, hflt⟩ := h.dotted d f hd
    have hattr := setChild_attributes s e c c.strlen x
    refine ⟨hdots.congr h.fresh (fun map hmap => ?_) fun y _ => (hattr y).1, (hattr d).1.trans hdlink,
      (hattr f).1.trans hflink, (hattr d).2.2.trans hdir, hflt⟩
    by_cases hde : d = e
    · subst hde
      refine ⟨hashmapSet map c c.strlen x, by simp [Vfs.setChild, hmap], fun key y hkey hheads => ?_⟩
      refine hheads.set ?_ x
      rcases hkey with rfl | rfl
      · exact hc.not_isPrefix_dot
      · exact hc.not_isPrefix_dotdot
    · exact ⟨map, by rw [setChild_nodes_of_ne s _ _ _ hde, hmap], fun _ _ _ hk => hk⟩
  child d k y hk hy := by
    rw [(setChild_attributes s e c c.strlen x y).1]
    by_cases hde : d = e
    · subst hde
      rw [lookup_setChild] at hy
      obtain ⟨map, hmap, hy⟩ := Option.bind_eq_some_iff.mp hy
      rcases hashmapGet_hashmapSet_cases map c k k.strlen c.strlen x with hold | hnew
      · refine h.child d k y hk ?_
        rw [Vfs.lookup, hmap, Option.bind_some, ← hold, hy]
      · obtain rfl : x = y := Option.some.inj (hnew.symm.trans hy)
        exact ⟨hlink, hx⟩
    · rw [lookup_congr (setChild_nodes_of_ne s _ _ _ hde)] at hy
      exact h.child d k y hk hy
  root_link := (setChild_attributes s e c c.strlen x _).1.trans h.root_link

/-- `m` is put over `node`. -/
def Vfs.setMountpoint (s : Vfs) (node m : ℕ) : Vfs := s.set node { s.nodes node with mountpoint := some m }

lemma setMountpoint_attributes (s : Vfs) (node m x : ℕ) :
    ((s.setMountpoint node m).nodes x).link = (s.nodes x).link ∧
      ((s.setMountpoint node m).nodes x).children = (s.nodes x).children ∧
      (s.setMountpoint node m).isDir x = s.isDir x := by
  by_cases hx : x = node
  · subst hx
    simp [Vfs.setMountpoint, Vfs.isDir]
  · simp [Vfs.setMountpoint, Vfs.isDir, set_nodes_of_ne s _ hx]

lemma setMountpoint_redirect (s : Vfs) {node : ℕ} (m : ℕ) (hx : x ≠ node) :
    (s.setMountpoint node m).redirect x = s.redirect x := by
  rw [Vfs.redirect, Vfs.setMountpoint, set_nodes_of_ne s _ hx]
  rfl

lemma setMountpoint_lookup (s : Vfs) (node m d : ℕ) (k : CString) :
    (s.setMountpoint node m).lookup d k = s.lookup d k := by
  rw [Vfs.lookup, (setMountpoint_attributes s node m d).2.1]
  rfl

lemma Wired.setMountpoint (h : Wired s reduce up) {node : ℕ} (hnode : s.redirect node = none) (hlt : node < s.count)
    (hm : s.redirect m = none) (hmlt : m < s.count) (hne : m ≠ node) :
    Wired (s.setMountpoint node m) (fun x => if reduce x = node then m else reduce x) up := by
  have hattr := setMountpoint_attributes s node m
  have hkeep : ∀ y w, s.redirect y = some w → (s.setMountpoint node m).redirect y = some w := by
    intro y w hy
    rwa [setMountpoint_redirect s m]
    rintro rfl
    rw [hnode] at hy
    simp at hy
  have hlinkNode : (s.nodes node).link = none := (Option.or_eq_none_iff.mp hnode).1
  refine ⟨h.fresh.set _ hlt, fun x hx => ?_, fun x hx => ?_, fun d e hd => ?_, fun d c x hc hx => ?_, ?_⟩
  · rw [(hattr x).1] at hx
    split_ifs with hxn
    · have hchain : (s.setMountpoint node m).reduced x = (s.setMountpoint node m).reduced node :=
        (ending_extend (h.reduced x hx) hkeep).trans (by rw [hxn]; rfl)
      have hover : (s.setMountpoint node m).redirect node = some m := by
        rw [Vfs.redirect, (hattr node).1, hlinkNode, Vfs.setMountpoint, set_nodes_self]
        rfl
      rw [hchain, Vfs.reduced, ending_of_some hover]
      exact ending_of_none ((setMountpoint_redirect s m hne).trans hm)
    · refine h.reduced_keep hkeep hx ?_
      rw [setMountpoint_redirect s m hxn]
      exact h.redirect_reduce hx
  · split_ifs
    · exact hmlt
    · exact h.bounded x hx
  · obtain ⟨hdots, hdlink, helink, hdir, helt⟩ := h.dotted d e hd
    exact ⟨hdots.congr_children h.fresh (hattr d).2.1 fun x _ => (hattr x).1, (hattr d).1.trans hdlink,
      (hattr e).1.trans helink, (hattr d).2.2.trans hdir, helt⟩
  · rw [setMountpoint_lookup] at hx
    rw [(hattr x).1]
    exact h.child d c x hc hx
  · exact (hattr s.vfsRoot).1.trans h.root_link

lemma createDotentries_attributes (s : Vfs) (p : ℕ) (hm : m < s.count) (hx : x < s.count) :
    ((createDotentries s p m).nodes x).link = (s.nodes x).link ∧
      (createDotentries s p m).redirect x = s.redirect x := by
  by_cases hxm : x = m
  · subst hxm
    rw [Vfs.redirect, createDotentries_node s p hm]
    exact ⟨rfl, rfl⟩
  · rw [Vfs.redirect, createDotentries_nodes s p (Or.inl hx) hxm]
    exact ⟨rfl, rfl⟩

lemma createDotentries_isDir (hs : Fresh s) (p : ℕ) (hm : m < s.count) (x : ℕ) :
    (createDotentries s p m).isDir x = s.isDir x := by
  have hblank : ∀ y, s.count ≤ y → s.isDir y = false := fun y hy => by rw [Vfs.isDir, hs.clear y hy]; decide
  by_cases hxm : x = m
  · rw [hxm, Vfs.isDir, createDotentries_node s p hm]
    rfl
  · by_cases h0 : x = s.count
    · rw [h0, hblank _ le_rfl, Vfs.isDir, createDotentries_dot s p hm]
      exact (by decide : sIsdir blank.mode = false)
    · by_cases h1 : x = s.count + 1
      · rw [h1, hblank _ (Nat.le_succ _), Vfs.isDir, createDotentries_dotdot s p hm]
        exact (by decide : sIsdir blank.mode = false)
      · rw [Vfs.isDir, createDotentries_nodes s p (by omega) hxm]
        rfl

lemma createDotentries_children (s : Vfs) (p : ℕ) (hm : m < s.count)
    (hchildren : (s.nodes m).children = some (hashmapCreate ℕ 128 (by decide))) :
    ((createDotentries s p m).nodes m).children = some (dotMap s.count (s.count + 1)) := by
  rw [createDotentries_node s p hm, hchildren]
  rfl

lemma createDotentries_lookup (hs : Fresh s) (p : ℕ) (hm : m < s.count)
    (hchildren : (s.nodes m).children = some (hashmapCreate ℕ 128 (by decide))) (d : ℕ) (hk : Ordinary k) :
    (createDotentries s p m).lookup d k = s.lookup d k := by
  have hblank : ∀ y, s.count ≤ y → s.lookup y k = none := fun y hy => by rw [Vfs.lookup, hs.clear y hy]; rfl
  by_cases hdm : d = m
  · rw [hdm, Vfs.lookup, createDotentries_children s p hm hchildren, Vfs.lookup, hchildren]
    exact dotMap_ordinary _ _ hk
  · by_cases h0 : d = s.count
    · rw [h0, hblank _ le_rfl, Vfs.lookup, createDotentries_dot s p hm]
      rfl
    · by_cases h1 : d = s.count + 1
      · rw [h1, hblank _ (Nat.le_succ _), Vfs.lookup, createDotentries_dotdot s p hm]
        rfl
      · exact lookup_congr (createDotentries_nodes s p (by omega) hdm) k

lemma Wired.createDotentries (h : Wired s reduce up) {p : ℕ} (hp : p < s.count) (hplink : (s.nodes p).link = none)
    (hm : m < s.count) (hmlink : (s.nodes m).link = none) (hmdir : s.isDir m = true)
    (hchildren : (s.nodes m).children = some (hashmapCreate ℕ 128 (by decide))) :
    Wired (createDotentries s p m) reduce (Function.update up m (some p)) := by
  have hattr : ∀ {x}, x < s.count → ((VfsTree.createDotentries s p m).nodes x).link = (s.nodes x).link ∧
      (VfsTree.createDotentries s p m).redirect x = s.redirect x := createDotentries_attributes s p hm
  have hfresh := h.fresh.createDotentries p hm
  have hdot := createDotentries_dot s p hm
  have hdotdot := createDotentries_dotdot s p hm
  have hdir := createDotentries_isDir h.fresh p hm
  refine ⟨hfresh, fun x hx => ?_, fun x hx => ?_, fun d e hd => ?_, fun d c x hc hx => ?_, ?_⟩
  · by_cases hlt : x < s.count
    · rw [(hattr hlt).1] at hx
      refine h.reduced_keep (fun y w hy => ?_) hx ?_
      · have hylt : y < s.count := by
          by_contra hge
          rw [h.fresh.redirect_of_le (not_lt.mp hge)] at hy
          simp at hy
        exact (hattr hylt).2.trans hy
      · exact (hattr (h.bounded x hlt)).2.trans (h.redirect_reduce hx)
    · rw [h.reduce_of_le (not_lt.mp hlt)]
      have h0 : x ≠ s.count := by
        rintro rfl
        simp [hdot] at hx
      have h1 : x ≠ s.count + 1 := by
        rintro rfl
        simp [hdotdot] at hx
      exact ending_of_none (hfresh.redirect_of_le (by rw [createDotentries_count]; omega))
  · rw [createDotentries_count] at hx ⊢
    by_cases hlt : x < s.count
    · exact Nat.lt_add_right 2 (h.bounded x hlt)
    · rwa [h.reduce_of_le (not_lt.mp hlt)]
  · by_cases hdm : d = m
    · subst hdm
      rw [Function.update_self] at hd
      obtain rfl := Option.some.inj hd
      refine ⟨⟨_, _, _, createDotentries_children s p hm hchildren, dotMap_dot _ _, dotMap_dotdot _ _, ?_, ?_⟩, ?_, ?_, ?_,
        Nat.lt_add_right 2 hp⟩
      · rw [hdot]
      · rw [hdotdot]
      · exact (hattr hm).1.trans hmlink
      · exact (hattr hp).1.trans hplink
      · exact (hdir d).trans hmdir
    · rw [Function.update_of_ne hdm] at hd
      obtain ⟨hdots, hdlink, helink, hddir, helt⟩ := h.dotted d e hd
      have hdlt := h.lt_of_up hd
      have hchildren' := congrArg Node.children (createDotentries_nodes s p (Or.inl hdlt) hdm)
      exact ⟨hdots.congr_children h.fresh hchildren' fun x hx => (hattr hx).1, (hattr hdlt).1.trans hdlink,
        (hattr helt).1.trans helink, (hdir d).trans hddir, Nat.lt_add_right 2 helt⟩
  · rw [createDotentries_lookup h.fresh p hm hchildren d hc] at hx
    obtain ⟨hxlink, hxlt⟩ := h.child d c x hc hx
    exact ⟨(hattr hxlt).1.trans hxlink, Nat.lt_add_right 2 hxlt⟩
  · exact (hattr h.fresh.vfsRoot_lt).1.trans h.root_link

end Keeping

section Steps
variable {cwds : Set ℕ} {flag flag' : Bool} {reduce : ℕ → ℕ} {up : ℕ → Option ℕ} {dir node : ℕ} {name : CString}
  {mode : BitVec 32}

lemma setChild_lookup_cases (s : Vfs) (e : ℕ) (c : CString) (size v d : ℕ) (k : CString) :
    (s.setChild e c size v).lookup d k = s.lookup d k ∨ (d = e ∧ (s.setChild e c size v).lookup d k = some v) := by
  by_cases hde : d = e
  · subst hde
    rw [lookup_setChild, Vfs.lookup]
    cases (s.nodes d).children with
    | none => exact Or.inl rfl
    | some map => exact (hashmapGet_hashmapSet_cases map c k k.strlen size v).imp_right fun h => ⟨rfl, h⟩
  · exact Or.inl (lookup_congr (setChild_nodes_of_ne s _ _ _ hde) k)

lemma treeOf_ext {t : Tree ℕ Name} (hreduce : t.reduce = reduce) (hroot : t.root = s.vfsRoot)
    (hdir : ∀ x, t.isDir x ↔ s.isDir x = true) (hchild : ∀ d c, t.child d c = s.lookup d c.1) (hup : t.up = up) :
    treeOf s reduce up = t := by
  obtain ⟨r, root, isDir, child, u⟩ := t
  obtain rfl := hreduce
  obtain rfl := hroot
  obtain rfl := hup
  obtain rfl : isDir = fun x => s.isDir x = true := funext fun x => propext (hdir x)
  obtain rfl : child = fun d c => s.lookup d c.1 := funext fun d => funext fun c => hchild d c
  rfl

/-- The facts about a directory that a walk can be in. -/
lemma Inv.place (h : Inv s cwds flag reduce up) (hd : (treeOf s reduce up).Place d) :
    d < s.count ∧ (s.nodes d).link = none ∧ s.isDir d = true ∧ s.redirect d = none := by
  obtain ⟨e, he⟩ := Option.ne_none_iff_exists'.mp hd.above
  obtain ⟨-, hlink, -, hdir, -⟩ := h.dotted d e he
  have hsettled : reduce d = d := hd.settled
  exact ⟨h.lt_of_up he, hlink, hdir, hsettled ▸ h.redirect_reduce hlink⟩

lemma Inv.start_lt (h : Inv s cwds flag reduce up) (hx : x ∈ cwds) : x < s.count := by
  by_contra hge
  have habove := (h.starts x hx).2
  rw [h.reduce_of_le (not_lt.mp hge)] at habove
  exact habove (h.unused (not_lt.mp hge)).noUp

/-- An unused directory stays unused when other nodes are entered elsewhere. -/
lemma UnusedDir.congr {up' : ℕ → Option ℕ} {reduce' : ℕ → ℕ} (h : UnusedDir s (treeOf s reduce up) m)
    (hnode : s'.nodes m = s.nodes m) (hroot : s'.vfsRoot = s.vfsRoot) (hself : reduce' m = m)
    (hreduce : ∀ x, reduce' x = m → reduce x = m) (hup : up' m = none)
    (hchild : ∀ d c, Ordinary c → s'.lookup d c = some m → s.lookup d c = some m) :
    UnusedDir s' (treeOf s' reduce' up') m where
  unused :=
    { reduce_self := hself
      unreached := fun x hx => h.unused.unreached x (hreduce x hx)
      noUp := hup
      noChild := fun c => (lookup_congr hnode c.1).trans (h.unused.noChild c)
      notChild := fun d c hx => h.unused.notChild d c (hchild d c.1 c.2 hx)
      not_root := fun hx => h.unused.not_root (hroot.symm.trans hx) }
  isDir := by rw [Vfs.isDir, hnode]; exact h.isDir
  link := by rw [hnode, h.link]
  children := by rw [hnode, h.children]

/-- After the new node has been entered in `e`, before it gets entries of its own. -/
def entered (s : Vfs) (e : ℕ) (c : CString) (mode : BitVec 32) : Vfs :=
  (tmpfsCreate s e c mode).2.setChild e c c.strlen s.count

lemma addEntry_eq (s : Vfs) (e : ℕ) (c : CString) (mode : BitVec 32) :
    addEntry (tmpfsCreate s e c mode).2 e c s.count =
      if (entered s e c mode).isDir s.count then createDotentries (entered s e c mode) e s.count
      else entered s e c mode := rfl

lemma entered_isDir (s : Vfs) (e : ℕ) (c : CString) (mode : BitVec 32) (x : ℕ) :
    (entered s e c mode).isDir x = if x = s.count then sIsdir mode else s.isDir x :=
  (setChild_attributes _ e c _ _ x).2.2.trans (tmpfsCreate_isDir s e c mode x)

lemma entered_link (hs : Fresh s) (x : ℕ) : ((entered s e c mode).nodes x).link = (s.nodes x).link :=
  (setChild_attributes _ e c _ _ x).1.trans (tmpfsCreate_link hs x)

lemma entered_nodes (s : Vfs) (c : CString) (mode : BitVec 32) (hxe : x ≠ e) (hx : x ≠ s.count) :
    (entered s e c mode).nodes x = s.nodes x :=
  (setChild_nodes_of_ne _ _ _ _ hxe).trans (tmpfsCreate_nodes s e c mode hx)

lemma entered_lookup (hs : Fresh s) (d : ℕ) (k : CString) :
    (entered s e c mode).lookup d k = s.lookup d k ∨
      (d = e ∧ (entered s e c mode).lookup d k = some s.count) := by
  rw [← tmpfsCreate_lookup hs d k]
  exact setChild_lookup_cases _ e c _ _ d k

lemma Wired.entered (h : Wired s reduce up) (he : e < s.count) (hc : Ordinary c) (mode : BitVec 32) :
    Wired (entered s e c mode) reduce up := by
  have hlink : ((VfsTree.tmpfsCreate s e c mode).2.nodes s.count).link = none := by rw [tmpfsCreate_self]; rfl
  exact (h.tmpfsCreate e c mode).setChild (Nat.lt_succ_of_lt he) hc hlink (Nat.lt_succ_self _)

lemma Inv.notMem_entered (h : Inv s cwds flag reduce up) (hne : m ≠ s.count) (k : CString)
    (hx : (VfsTree.entered s e c mode).lookup d k = some m) : s.lookup d k = some m := by
  rcases entered_lookup h.fresh d k with hold | ⟨-, hnew⟩
  · rwa [hold] at hx
  · exact absurd (Option.some.inj (hx.symm.trans hnew)) hne

/-- A new file below `e`. -/
lemma Inv.enterFile (h : Inv s cwds flag reduce up) (he : (treeOf s reduce up).Place e) (hc : Ordinary c)
    (hmode : sIsdir mode = false) : Inv (entered s e c mode) cwds flag reduce up where
  toWired := h.toWired.entered (h.place he).1 hc mode
  sound := by
    have htree : treeOf (entered s e c mode) reduce up =
        (treeOf s reduce up).enterFile s.count fun d k => (entered s e c mode).lookup d k.1 := by
      refine treeOf_ext rfl rfl (fun x => ?_) (fun _ _ => rfl) rfl
      change Function.update (fun x => s.isDir x = true) s.count False x ↔ _
      rw [entered_isDir, Function.update_apply]
      split_ifs <;> simp [hmode]
    rw [htree]
    exact h.sound.enterFile (h.unused le_rfl) fun d k => entered_lookup h.fresh d k.1
  starts x hx := ⟨(entered_link h.fresh x).trans (h.starts x hx).1, (h.starts x hx).2⟩
  devfs hflag := by
    have hdev := h.devfs hflag
    have hne : s.devfsRoot ≠ s.count := h.fresh.devfsRoot_lt.ne
    exact hdev.congr (entered_nodes s c mode (he.ne_unused hdev.unused).symm hne) rfl hdev.unused.reduce_self
      (fun _ hx => hx) hdev.unused.noUp fun d k _ hx => h.notMem_entered hne k hx

/-- A new directory below `e`. -/
lemma Inv.enterDir (h : Inv s cwds flag reduce up) (he : (treeOf s reduce up).Place e) (hc : Ordinary c)
    (hmode : sIsdir mode = true) :
    Inv (createDotentries (entered s e c mode) e s.count) cwds flag reduce (Function.update up s.count (some e)) := by
  obtain ⟨helt, helink, -, -⟩ := h.place he
  have hunused := h.unused (le_refl s.count)
  have hwired := h.toWired.entered helt hc mode
  have hlt : s.count < (entered s e c mode).count := Nat.lt_succ_self _
  have hen : s.count ≠ e := helt.ne'
  have hself : (entered s e c mode).nodes s.count = (tmpfsCreate s e c mode).2.nodes s.count :=
    setChild_nodes_of_ne _ _ _ _ hen
  have hchildren : ((entered s e c mode).nodes s.count).children = some (hashmapCreate ℕ 128 (by decide)) := by
    rw [hself, tmpfsCreate_self, hmode]
    rfl
  have hdir : ∀ x, (createDotentries (entered s e c mode) e s.count).isDir x =
      if x = s.count then sIsdir mode else s.isDir x :=
    fun x => (createDotentries_isDir hwired.fresh e hlt x).trans (entered_isDir s e c mode x)
  have hlookup : ∀ d k, Ordinary k → (createDotentries (entered s e c mode) e s.count).lookup d k =
      (entered s e c mode).lookup d k := fun d k hk => createDotentries_lookup hwired.fresh e hlt hchildren d hk
  refine ⟨?_, ?_, fun x hx => ?_, fun hflag => ?_⟩
  · refine hwired.createDotentries (Nat.lt_succ_of_lt helt) ((entered_link h.fresh e).trans helink) hlt ?_ ?_ hchildren
    · rw [hself, tmpfsCreate_self]
      rfl
    · rw [entered_isDir, if_pos rfl, hmode]
  · have htree : treeOf (createDotentries (entered s e c mode) e s.count) reduce (Function.update up s.count (some e)) =
        (treeOf s reduce up).enterDir e s.count fun d k => (entered s e c mode).lookup d k.1 := by
      refine treeOf_ext rfl rfl (fun x => ?_) (fun d k => (hlookup d k.1 k.2).symm) rfl
      change Function.update (fun x => s.isDir x = true) s.count True x ↔ _
      rw [hdir, Function.update_apply]
      split_ifs <;> simp [hmode]
    rw [htree]
    exact h.sound.enterDir hunused he fun d k => entered_lookup h.fresh d k.1
  · have hxlt := h.start_lt hx
    obtain ⟨hlink, habove⟩ := h.starts x hx
    refine ⟨?_, ?_⟩
    · rw [(createDotentries_attributes _ e hlt (Nat.lt_succ_of_lt hxlt)).1, entered_link h.fresh, hlink]
    · rw [Function.update_of_ne (h.bounded x hxlt).ne]
      exact habove
  · have hdev := h.devfs hflag
    have hne : s.devfsRoot ≠ s.count := h.fresh.devfsRoot_lt.ne
    have hnode : (createDotentries (entered s e c mode) e s.count).nodes s.devfsRoot = s.nodes s.devfsRoot := by
      rw [createDotentries_nodes _ e (Or.inl (Nat.lt_succ_of_lt h.fresh.devfsRoot_lt)) hne]
      exact entered_nodes s c mode (he.ne_unused hdev.unused).symm hne
    refine hdev.congr hnode rfl hdev.unused.reduce_self (fun _ hx => hx) ?_ fun d k hk hx => ?_
    · exact (Function.update_of_ne hne ..).trans hdev.unused.noUp
    · rw [hlookup d k hk] at hx
      exact h.notMem_entered hne k hx

lemma Inv.addEntry (h : Inv s cwds flag reduce up) (he : (treeOf s reduce up).Place e) (hc : Ordinary c)
    (mode : BitVec 32) : ∃ up', Inv (addEntry (tmpfsCreate s e c mode).2 e c s.count) cwds flag reduce up' := by
  rw [addEntry_eq, entered_isDir, if_pos rfl]
  cases hmode : sIsdir mode with
  | true => exact ⟨_, h.enterDir he hc hmode⟩
  | false => exact ⟨_, h.enterFile he hc hmode⟩

/-- `m` is mounted over `node`, below `dir`. -/
lemma Inv.attach (h : Inv s cwds flag reduce up) (hm : UnusedDir s (treeOf s reduce up) m)
    (hp : (treeOf s reduce up).CoverAt node dir) (hflag : flag' = false → flag = false ∧ m ≠ s.devfsRoot) :
    Inv (attach s dir node m) cwds flag' (fun x => if reduce x = node then m else reduce x)
      (Function.update up m (some dir)) := by
  obtain ⟨hnode, hdirPlace, -, -⟩ := h.sound.coverAt hp
  obtain ⟨hnlt, hnlink, -, hnredirect⟩ := h.place hnode
  obtain ⟨hdlt, hdlink, -, -⟩ := h.place hdirPlace
  have hmlt := h.fresh.lt_of_isDir hm.isDir
  have hmself : reduce m = m := hm.unused.reduce_self
  have hmredirect : s.redirect m = none := hmself ▸ h.redirect_reduce hm.link
  have hne : node ≠ m := hnode.ne_unused hm.unused
  have hattr := setMountpoint_attributes s node m
  have hwired := h.toWired.setMountpoint hnredirect hnlt hmredirect hmlt hne.symm
  have hchildren := (hattr m).2.1.trans hm.children
  have hdir : ∀ x, (VfsTree.attach s dir node m).isDir x = s.isDir x :=
    fun x => (createDotentries_isDir hwired.fresh dir hmlt x).trans (hattr x).2.2
  have hlookup : ∀ d k, Ordinary k → (VfsTree.attach s dir node m).lookup d k = s.lookup d k := fun d k hk =>
    (createDotentries_lookup hwired.fresh dir hmlt hchildren d hk).trans (setMountpoint_lookup s node m d k)
  refine ⟨?_, ?_, fun x hx => ?_, fun hfalse => ?_⟩
  · exact hwired.createDotentries hdlt ((hattr dir).1.trans hdlink) hmlt ((hattr m).1.trans hm.link)
      ((hattr m).2.2.trans hm.isDir) hchildren
  · have htree : treeOf (VfsTree.attach s dir node m) (fun x => if reduce x = node then m else reduce x)
        (Function.update up m (some dir)) = (treeOf s reduce up).cover node m dir := by
      refine treeOf_ext rfl rfl (fun x => ?_) (fun d k => (hlookup d k.1 k.2).symm) rfl
      change Function.update (fun x => s.isDir x = true) m True x ↔ _
      rw [hdir, Function.update_apply]
      split_ifs with hxm
      · simp [hxm, hm.isDir]
      · rfl
    rw [htree]
    exact h.sound.cover hm.unused hp
  · have hxlt := h.start_lt hx
    obtain ⟨hlink, habove⟩ := h.starts x hx
    refine ⟨?_, ?_⟩
    · exact (createDotentries_attributes (s.setMountpoint node m) dir hmlt hxlt).1.trans ((hattr x).1.trans hlink)
    · by_cases hxn : reduce x = node
      · rw [if_pos hxn, Function.update_self]
        exact Option.some_ne_none dir
      · have hxm : reduce x ≠ m := fun hxm => habove (hxm.symm ▸ hm.unused.noUp)
        rw [if_neg hxn, Function.update_of_ne hxm]
        exact habove
  · obtain ⟨hold, hmdev⟩ := hflag hfalse
    have hdev := h.devfs hold
    have hdevNode : node ≠ s.devfsRoot := hnode.ne_unused hdev.unused
    have hnodes : (VfsTree.attach s dir node m).nodes s.devfsRoot = s.nodes s.devfsRoot :=
      (createDotentries_nodes (s.setMountpoint node m) dir (Or.inl h.fresh.devfsRoot_lt) hmdev.symm).trans
        (set_nodes_of_ne s _ hdevNode.symm)
    have hdevself : reduce s.devfsRoot = s.devfsRoot := hdev.unused.reduce_self
    refine hdev.congr hnodes rfl ?_ (fun x hx => ?_) ?_ fun d k hk hx => hlookup d k hk ▸ hx
    · rw [hdevself, if_neg hdevNode.symm]
    · split_ifs at hx
      · exact absurd hx hmdev
      · exact hx
    · exact (Function.update_of_ne hmdev.symm ..).trans hdev.unused.noUp

lemma Inv.treeOf_tmpfsCreate (h : Inv s cwds flag reduce up) (parent : ℕ) (name : CString) :
    treeOf (tmpfsCreate s parent name sIfdir).2 reduce up = (treeOf s reduce up).makeDir s.count := by
  refine treeOf_ext rfl rfl (fun x => ?_) (fun d k => (tmpfsCreate_lookup h.fresh d k.1).symm) rfl
  change Function.update (fun x => s.isDir x = true) s.count True x ↔ _
  rw [tmpfsCreate_isDir, Function.update_apply]
  split_ifs
  · simp [show sIsdir sIfdir = true by decide]
  · rfl

/-- A directory that is allocated for a mount. -/
lemma Inv.tmpfsCreate (h : Inv s cwds flag reduce up) (parent : ℕ) (name : CString) :
    Inv (tmpfsCreate s parent name sIfdir).2 cwds flag reduce up ∧
      UnusedDir (tmpfsCreate s parent name sIfdir).2 (treeOf (tmpfsCreate s parent name sIfdir).2 reduce up) s.count := by
  have hunused := h.unused (le_refl s.count)
  have hwired := h.toWired.tmpfsCreate parent name sIfdir
  have hself := tmpfsCreate_self s parent name sIfdir
  have htree := h.treeOf_tmpfsCreate parent name
  refine ⟨⟨hwired, ?_, fun x hx => ?_, fun hflag => ?_⟩, ?_, ?_, ?_, ?_⟩
  · rw [htree]
    exact h.sound.makeDir hunused
  · exact ⟨(tmpfsCreate_link h.fresh x).trans (h.starts x hx).1, (h.starts x hx).2⟩
  · have hdev := h.devfs hflag
    exact hdev.congr (tmpfsCreate_nodes s _ _ _ h.fresh.devfsRoot_lt.ne) rfl hdev.unused.reduce_self (fun _ hx => hx)
      hdev.unused.noUp fun d k _ hx => tmpfsCreate_lookup h.fresh d k ▸ hx
  · rw [htree]
    exact ⟨hunused.reduce_self, hunused.unreached, hunused.noUp, hunused.noChild, hunused.notChild, hunused.not_root⟩
  · rw [tmpfsCreate_isDir, if_pos rfl]
    decide
  · rw [hself]
    rfl
  · rw [hself]
    rfl

end Steps

section Runs

/-- `cwds` are the directories that calls may start from: the root, and those that became somebody's
working directory. -/
structure System where
  vfs : Vfs
  cwds : Set ℕ
  devfsMounted : Bool

inductive Request
  | create (stale : ℕ → List (BitVec 8)) (parent : ℕ) (name : CString) (mode : BitVec 32)
  | mount (stale stale' : ℕ → List (BitVec 8)) (parent : ℕ) (source : Option CString) (target : CString)
      (fs : Filesystem)
  | chdir (stale : ℕ → List (BitVec 8)) (parent : ℕ) (path : CString)

/-- Nothing but slashes, or a last component other than `"."` and `".."`. -/
def MountTarget (target : CString) : Prop :=
  ∀ cs c, components slash target.1 = cs ++ [c] → c ≠ dot.1 ∧ c ≠ dotdot.1

/-- `devfs` is mounted at most once. -/
def SystemStep (S : System) (a : Request) (S' : System) : Prop :=
  match a with
  | .create stale parent name mode => parent ∈ S.cwds ∧ S'.cwds = S.cwds ∧ S'.devfsMounted = S.devfsMounted ∧
      ∃ fuel r, vfsCreate S.vfs stale parent name mode fuel = some (.returns (S'.vfs, r))
  | .mount stale stale' parent source target fs => parent ∈ S.cwds ∧ S'.cwds = S.cwds ∧ MountTarget target ∧
      (fs = .devfs → S.devfsMounted = false) ∧ ∃ fuel r,
        vfsMount S.vfs stale stale' parent source target fs fuel = some (S'.vfs, r) ∧
        S'.devfsMounted = (S.devfsMounted || (decide (fs = .devfs) && r))
  | .chdir stale parent path => parent ∈ S.cwds ∧ ∃ fuel d,
      vfsGetNode S.vfs stale parent path fuel = some (some d) ∧ S.vfs.isDir d = true ∧
      S' = { S with cwds := insert d S.cwds }

/-- `kernel_main` has mounted the root. -/
def systemInit : System := ⟨rootMounted, {0}, false⟩

variable {cwds : Set ℕ} {flag : Bool} {reduce : ℕ → ℕ} {up : ℕ → Option ℕ} {stale : ℕ → List (BitVec 8)}
  {parent dir node : ℕ} {path : CString} {cs : List CString} {r : Path2NodeRes}

lemma copies_mem {elems : List (List (BitVec 8))} (helems : ∀ elem ∈ elems, 0 ∉ elem ∧ elem ≠ [])
    (hc : c ∈ copies stale elems) : c.1 ≠ [] := by
  induction elems generalizing stale with
  | nil => simp [copies] at hc
  | cons elem elems ih =>
    rcases List.mem_cons.mp hc with rfl | hc
    · obtain ⟨h0, hne⟩ := helems elem List.mem_cons_self
      exact elemStr_ne_nil _ h0 hne
    · exact ih (fun e he => helems e (List.mem_cons_of_mem _ he)) hc

lemma component_valid {path : CString} {elem : List (BitVec 8)} (h : elem ∈ components slash path.1) : 0 ∉ elem ∧ elem ≠ [] :=
  ⟨fun h0 => path.2 ((mem_components h).2.2 h0), (mem_components h).1⟩

/-- The two special entries of a directory. -/
lemma Inv.dots (h : Inv s cwds flag reduce up) (hd : (treeOf s reduce up).Place d) :
    Descends s d [dot] d ∧ ∃ e, up d = some e ∧ Descends s d [dotdot] (reduce e) := by
  obtain ⟨e, he⟩ := Option.ne_none_iff_exists'.mp hd.above
  obtain ⟨⟨map, a, b, hmap, hdot, hdotdot, ha, hb⟩, hlink, helink, hdir, -⟩ := h.dotted d e he
  have hsettled : reduce d = d := hd.settled
  have hget : ∀ key x, Heads map key x → s.lookup d key = some x := by
    intro key x hx
    rw [Vfs.lookup, hmap, Option.bind_some, hx.get]
  refine ⟨.cons (hget dot a hdot) ((h.reduced_link ha hlink).trans (by rw [hsettled])) hdir (.nil d), e, he, ?_⟩
  have hplace := h.sound.place_up hd he
  exact .cons (hget dotdot b hdotdot) (h.reduced_link hb helink) (h.place hplace).2.2.1 (.nil _)

/-- Where the lookup of a path is when it comes to the last component. -/
lemma Inv.leads_place (h : Inv s cwds flag reduce up) (hp : parent ∈ cwds) {copy : CString}
    (hlead : Leads s stale parent path e c copy) : (treeOf s reduce up).Place e := by
  obtain ⟨cs, d, hcs, -, hstart, hdesc⟩ := hlead
  refine h.descends_place hdesc (fun k hk => copies_mem (fun elem helem => ?_) hk) (h.starts_place hp hstart)
  exact component_valid (by rw [hcs]; exact List.mem_append_left _ helem)

/-- What a path leads to is a directory if and only if the walk goes down to it. -/
lemma resolve_isDir (hdir : s.isDir d = true) : (∃ r, resolve s stale parent path = some r ∧ r.node = some d) ↔
    ∃ e, path.1 ≠ [] ∧ s.Starts parent path e ∧ Descends s e (copies stale (components slash path.1)) d := by
  by_cases hpath : path.1 = []
  · simp [resolve, hpath]
  · simp only [resolve_eq_some hpath, ne_eq, hpath, not_false_eq_true, true_and,
      ← walkFrom_isDir (asksForDir path) hdir]
    constructor
    · rintro ⟨r, ⟨e, hstart, hwalk⟩, hnode⟩
      exact ⟨e, hstart, r, hwalk, hnode⟩
    · rintro ⟨e, hstart, r, hwalk, hnode⟩
      exact ⟨r, ⟨e, hstart, hwalk⟩, hnode⟩

lemma Inv.walk_place (h : Inv s cwds flag reduce up) (hp : parent ∈ cwds) (hstart : s.Starts parent path e)
    (hdesc : Descends s e (copies stale (components slash path.1)) d) : (treeOf s reduce up).Place d :=
  h.descends_place hdesc (fun _ hk => copies_mem (fun _ helem => component_valid helem) hk) (h.starts_place hp hstart)

/-- A name that `vfs_create` enters is ordinary, because the two special ones are always found. -/
lemma Inv.ordinary_of_missing (h : Inv s cwds flag reduce up) (hp : parent ∈ cwds) {copy : CString}
    (hlead : Leads s stale parent path e c copy) (hr : resolve s stale parent path = some ⟨some e, none⟩) :
    Ordinary c := by
  have hplace := h.leads_place hp hlead
  obtain ⟨hdot, f, -, hdotdot⟩ := h.dots hplace
  have hfound : ∀ k m, k.1.length ≤ 2 → Descends s e [k] m → s.isDir m = true → c ≠ k := by
    rintro k m hlen hdesc hdir rfl
    obtain ⟨cs, d, -, rfl, -⟩ := id hlead
    have hcopy : elemStr c.1 (stale cs.length) = c := Subtype.ext (elemStr_short _ c.2 (by omega))
    obtain ⟨r, hr', hnode⟩ := (walkFrom_isDir (asksForDir path) hdir).mpr hdesc
    rw [hlead.resolve, hcopy, hr'] at hr
    rw [Option.some.inj hr] at hnode
    simp at hnode
  obtain ⟨cs, d, hcs, -⟩ := hlead
  have hmem : c.1 ∈ components slash path.1 := by rw [hcs]; simp
  have hvalid := component_valid hmem
  have hfdir : s.isDir (reduce f) = true := by
    cases hdotdot with
    | cons _ _ hdir hnil => cases hnil; exact hdir
  exact ⟨hvalid.2, hfound dot e (by decide) hdot (h.place hplace).2.2.1, hfound dotdot _ (by decide) hdotdot hfdir⟩

lemma Inv.create (h : Inv s cwds flag reduce up) (hp : parent ∈ cwds) {name : CString} {mode : BitVec 32} {fuel : ℕ}
    {new : Option ℕ} (hcreate : vfsCreate s stale parent name mode fuel = some (.returns (s', new))) :
    ∃ up', Inv s' cwds flag reduce up' := by
  obtain ⟨r, hr, hreturn⟩ := vfsCreate_cases hcreate
  rcases createIn_cases hreturn with ⟨rfl, -⟩ | ⟨e, rfl, -, hcases⟩
  · exact ⟨up, h⟩
  · obtain ⟨c, copy, hlead⟩ := leads_of_resolve hr
    have hplace := h.leads_place hp hlead
    obtain ⟨f, hf⟩ := Option.ne_none_iff_exists'.mp hplace.above
    obtain ⟨⟨map, -, -, hmap, -⟩, -⟩ := h.dotted e f hf
    rw [hlead.basename] at hcases
    rcases hcases with ⟨hnone, -⟩ | ⟨-, -, rfl⟩
    · rw [tmpfsCreate_nodes s _ _ _ (h.place hplace).1.ne, hmap] at hnone
      simp at hnone
    · exact h.addEntry hplace (h.ordinary_of_missing hp hlead hr) mode

/-- Where a target of a mount can be. -/
lemma Inv.coverAt (h : Inv s cwds flag reduce up) (hp : parent ∈ cwds) (htarget : MountTarget path)
    (hr : resolve s stale parent path = some ⟨some dir, some node⟩)
    (hnode : node = s.vfsRoot ∨ s.isDir node = true) : (treeOf s reduce up).CoverAt node dir := by
  have hpath : path.1 ≠ [] := by
    intro hnil
    rw [resolve, if_pos hnil] at hr
    simp at hr
  obtain ⟨d, hstart, hwalk⟩ := (resolve_eq_some hpath).mp hr
  rcases List.eq_nil_or_concat (components slash path.1) with hcs | ⟨elems, elem, hcs⟩
  · rw [hcs] at hwalk
    simp only [copies, walkFrom, Option.some.injEq, Path2NodeRes.mk.injEq] at hwalk
    obtain ⟨rfl, rfl⟩ := hwalk
    have habs : absolute path = true := by
      by_contra habs
      exact hpath (eq_nil_of_names (by rw [names, hcs]; rfl) (by simpa using habs))
    obtain ⟨start, -, hd⟩ := hstart
    rw [if_pos habs, h.reduced _ h.root_link] at hd
    obtain rfl := Option.some.inj hd
    exact .root
  · rw [List.concat_eq_append] at hcs
    rw [hcs, copies_concat] at hwalk
    rcases walkFrom_concat hwalk with hnone | ⟨e, hdesc, hlast⟩
    · simp at hnone
    · have helem : elem ∈ components slash path.1 := by
        rw [hcs]
        simp
      obtain ⟨h0, hne⟩ := component_valid helem
      obtain ⟨hdot, hdotdot⟩ := htarget elems elem hcs
      have hord : Ordinary (elemStr elem (stale elems.length)) := by
        refine ordinary_elemStr (c := ⟨elem, h0⟩) _ ⟨hne, fun hc => hdot ?_, fun hc => hdotdot ?_⟩
        · exact congrArg Subtype.val hc
        · exact congrArg Subtype.val hc
      have hplace : (treeOf s reduce up).Place e := by
        refine h.descends_place hdesc (fun k hk => copies_mem (fun elem' helem => ?_) hk) (h.starts_place hp hstart)
        exact component_valid (by rw [hcs]; exact List.mem_append_left _ helem)
      rcases walkFrom_single hlast with ⟨-, hnone⟩ | ⟨x, m, hx, hm, hres⟩
      · simp at hnone
      · rw [lastResult] at hres
        split_ifs at hres
        · simp at hres
        · simp only [Path2NodeRes.mk.injEq, Option.some.injEq] at hres
          obtain ⟨rfl, rfl⟩ := hres
          rw [h.reduced x (h.child _ _ x hord hx).1] at hm
          obtain rfl := Option.some.inj hm
          have hchild : (treeOf s reduce up).child dir ⟨_, hord⟩ = some x := hx
          refine .child hplace hchild (hnode.elim (fun hroot => ?_) id)
          have hidem := h.sound.idem x
          have hdir := h.sound.root_dir
          change reduce x = s.vfsRoot at hroot
          change reduce (reduce x) = reduce x at hidem
          change s.isDir (reduce s.vfsRoot) = true at hdir
          rwa [← hroot, hidem] at hdir

lemma Inv.mount (h : Inv s cwds flag reduce up) (hp : parent ∈ cwds) {stale' : ℕ → List (BitVec 8)}
    {source : Option CString} {fs : Filesystem} {fuel : ℕ} {b : Bool} (htarget : MountTarget path)
    (hfs : fs = .devfs → flag = false) (hmount : vfsMount s stale stale' parent source path fs fuel = some (s', b)) :
    ∃ reduce' up', Inv s' cwds (flag || (decide (fs = .devfs) && b)) reduce' up' := by
  rcases vfsMount_cases hmount with ⟨rfl, -⟩ | ⟨dir, node, hr, hnode, rfl, rfl⟩
  · refine ⟨reduce, up, h.toWired, h.sound, h.starts, fun hflag => h.devfs ?_⟩
    exact (Bool.or_eq_false_iff.mp hflag).1
  · have hcover := h.coverAt hp htarget ((settles_path2node s stale' parent path).sound fuel _ hr) hnode
    cases fs with
    | tmpfs =>
      obtain ⟨hinv, hunused⟩ := h.tmpfsCreate dir (basename path)
      refine ⟨_, _, hinv.attach hunused ?_ fun hflag => ⟨?_, h.fresh.devfsRoot_lt.ne'⟩⟩
      · rw [h.treeOf_tmpfsCreate]
        exact hcover.makeDir (h.unused le_rfl)
      · exact (Bool.or_eq_false_iff.mp hflag).1
    | devfs =>
      refine ⟨_, _, h.attach (h.devfs (hfs rfl)) hcover fun hflag => ?_⟩
      simp at hflag

lemma vfsInit_lookup (d : ℕ) (k : CString) : vfsInit.lookup d k = none := by
  by_cases h1 : d = 1
  · rw [h1]
    rfl
  · by_cases h0 : d = 0
    · rw [h0]
      rfl
    · simp [Vfs.lookup, vfsInit, vfsCreateNode, set_nodes_of_ne, h0, h1, blank]

lemma rootMounted_lookup (d : ℕ) (hk : Ordinary k) : rootMounted.lookup d k = none := by
  have hinit := fresh_vfsInit.tmpfsCreate 0 slashPath sIfdir
  have hchildren : (((tmpfsCreate vfsInit 0 slashPath sIfdir).2.setMountpoint 0 2).nodes 2).children =
      some (hashmapCreate ℕ 128 (by decide)) := rfl
  refine (createDotentries_lookup (hinit.set _ (by decide)) 0 (by decide) hchildren d hk).trans ?_
  exact (setMountpoint_lookup _ 0 2 d k).trans ((tmpfsCreate_lookup fresh_vfsInit d k).trans (vfsInit_lookup d k))

/-- The invariant after the first mount. -/
lemma inv_systemInit :
    Inv rootMounted {0} false (fun x => if x = 0 then 2 else x) (fun d => if d = 2 then some 0 else none) := by
  have hinit := fresh_vfsInit.tmpfsCreate 0 slashPath sIfdir
  refine ⟨⟨hinit.attach 0 (by decide) (by decide), fun x hx => ?_, fun x hx => ?_, fun d e hd => ?_,
    fun d c x hc hx => ?_, rfl⟩, ?_, fun x hx => ?_, fun _ => ?_⟩
  · by_cases h0 : x = 0
    · rw [if_pos h0, h0]
      exact (settles_reduced rootMounted 0).sound 3 2 rfl
    · rw [if_neg h0]
      refine ending_of_none ?_
      rw [rootMounted_redirect, if_neg h0, if_neg, if_neg]
      · rintro rfl
        exact absurd hx (by decide)
      · rintro rfl
        exact absurd hx (by decide)
  · split_ifs
    · decide
    · exact hx
  · split_ifs at hd with h2
    · subst h2
      obtain rfl := Option.some.inj hd
      exact ⟨⟨dotMap 3 4, 3, 4, rfl, dotMap_dot 3 4, dotMap_dotdot 3 4, rfl, rfl⟩, rfl, rfl, rfl, by decide⟩
  · rw [rootMounted_lookup d hc] at hx
    simp at hx
  · refine ⟨fun x => ?_, rfl, ⟨0, rfl, rfl⟩, fun d c x _ hx => ?_, fun d e _ hd _ => ?_, fun d e _ hd => ?_⟩
    · change (if (if x = 0 then 2 else x) = 0 then 2 else (if x = 0 then 2 else x)) = if x = 0 then 2 else x
      split_ifs <;> simp_all
    · change rootMounted.lookup d c.1 = some x at hx
      rw [rootMounted_lookup d c.2] at hx
      simp at hx
    · change (if d = 2 then some 0 else none) = some e at hd
      split_ifs at hd with h2
      exact h2
    · change (if d = 2 then some 0 else none) = some e at hd
      split_ifs at hd with h2
      obtain rfl := Option.some.inj hd
      exact Option.some_ne_none 0
  · obtain rfl : x = 0 := hx
    exact ⟨rfl, Option.some_ne_none 0⟩
  · refine ⟨⟨rfl, fun x hx => ?_, rfl, fun c => rootMounted_lookup 1 c.2, fun d c hx => ?_, by decide⟩, rfl, rfl, rfl⟩
    · change (if x = 0 then 2 else x) = 1 at hx
      split_ifs at hx
      · exact absurd hx (by decide)
      · exact hx
    · change rootMounted.lookup d c.1 = _ at hx
      rw [rootMounted_lookup d c.2] at hx
      simp at hx

def System.Valid (S : System) : Prop := ∃ reduce up, Inv S.vfs S.cwds S.devfsMounted reduce up

lemma System.Valid.step (S : System) (a : Request) (S' : System) (h : S.Valid) (hstep : SystemStep S a S') :
    S'.Valid := by
  obtain ⟨reduce, up, hS⟩ := h
  cases a with
  | create stale parent name mode =>
    obtain ⟨hp, hcwds, hflag, fuel, new, hcreate⟩ := hstep
    rw [System.Valid, hcwds, hflag]
    exact ⟨reduce, hS.create hp hcreate⟩
  | mount stale stale' parent source target fs =>
    obtain ⟨hp, hcwds, htarget, hfs, fuel, b, hmount, hflag⟩ := hstep
    rw [System.Valid, hcwds, hflag]
    exact hS.mount hp htarget hfs hmount
  | chdir stale parent path =>
    obtain ⟨hp, fuel, d, hget, hdir, rfl⟩ := hstep
    obtain ⟨r, hr, hnode⟩ := Option.map_eq_some_iff.mp hget
    obtain ⟨e, -, hstart, hdesc⟩ := (resolve_isDir hdir).mp ⟨r, (settles_path2node _ _ _ _).sound fuel r hr, hnode⟩
    have hplace := hS.walk_place hp hstart hdesc
    refine ⟨reduce, up, hS.toWired, hS.sound, fun x hx => ?_, hS.devfs⟩
    rcases hx with rfl | hx
    · refine ⟨(hS.place hplace).2.1, ?_⟩
      rw [show reduce x = x from hplace.settled]
      exact hplace.above
    · exact hS.starts x hx

lemma valid_of_run {requests : List Request} {S : System} (h : Run SystemStep systemInit requests S) : S.Valid :=
  h.invariant System.Valid.step ⟨_, _, inv_systemInit⟩

end Runs

section Dots
variable {S : System} {requests : List Request} {start : ℕ} {p q : CString}

/-- The path `p/c`. -/
def join (p c : CString) : CString :=
  ⟨p.1 ++ slash :: c.1, fun h => (List.mem_append.mp h).elim p.2 fun h =>
    (List.mem_cons.mp h).elim (by decide) c.2⟩

def emptyPath : CString := ⟨[], zero_notMem_nil⟩

lemma names_join (p c : CString) : names (join p c) = names p ++ names c := by
  rw [names, join, components_append_sep, List.map_append]
  rfl

lemma names_of_notMem (h : slash ∉ c.1) (hc : c.1 ≠ []) : names c = [c] := by
  rw [names, components_of_notMem h hc, List.map_singleton]
  exact congrArg (fun k => [k]) (Subtype.ext (ofBytes_val c.2))

lemma absolute_join (hp : p.1 ≠ []) (c : CString) : absolute (join p c) = absolute p := by
  rw [absolute, join, absolute, List.head?_append_of_ne_nil _ hp]

lemma absolute_join_congr (q c c' : CString) : absolute (join q c) = absolute (join q c') := by
  by_cases hq : q.1 = []
  · simp [absolute, join, hq]
  · rw [absolute_join hq, absolute_join hq]

lemma join_ne_nil (p c : CString) : (join p c).1 ≠ [] := by simp [join]

/-- With short components the walk along the names decides. -/
lemma resolves_isDir (hshort : ∀ c ∈ names p, c.strlen ≤ 2047) (hdir : s.isDir d = true) :
    Resolves s stale start p d ↔ ∃ e, p.1 ≠ [] ∧ s.Starts start p e ∧ Descends s e (names p) d := by
  rw [resolves_iff, resolve_isDir hdir, copies_names stale hshort]

lemma starts_congr (h : s.Starts start p e) (habs : absolute q = absolute p) : s.Starts start q e := by
  rwa [Vfs.Starts, habs]

/-- What is above a child. -/
lemma Inv.up_child {cwds : Set ℕ} {flag : Bool} {reduce : ℕ → ℕ} {up : ℕ → Option ℕ} {f g : ℕ}
    (h : Inv s cwds flag reduce up) (hf : (treeOf s reduce up).Place f) (hc : Ordinary c) (hdesc : Descends s f [c] d)
    (hg : up d = some g) : reduce g = f := by
  cases hdesc with
  | @cons _ x _ _ _ _ hx hm hdir hnil =>
    cases hnil
    rw [h.reduced x (h.child f c x hc hx).1] at hm
    obtain rfl := Option.some.inj hm
    have hchild : (treeOf s reduce up).child f ⟨c, hc⟩ = some x := hx
    obtain ⟨-, e, he, hef⟩ := h.sound.child_up f ⟨c, hc⟩ x hf hchild hdir
    obtain rfl : e = g := Option.some.inj (he.symm.trans hg)
    exact hef

/-- `"."` and `".."` in every directory that a path `p` leads to, if its components have at most 2047
bytes: `p/.` is the same directory, and if `p` is `q/c`, `p/..` is the one that `q` leads to, or the root
for `"/c"`. -/
theorem dot_entries (hrun : Run SystemStep systemInit requests S) (hstart : start ∈ S.cwds)
    (stale stale' : ℕ → List (BitVec 8)) :
    (∀ p d, (∀ c ∈ names p, c.strlen ≤ 2047) → Resolves S.vfs stale start p d → S.vfs.isDir d = true →
      Resolves S.vfs stale' start (join p dot) d ∧
      ∀ q c, p = join q c → slash ∉ c.1 → Ordinary c → ∃ e, S.vfs.isDir e = true ∧
        Resolves S.vfs stale' start (join p dotdot) e ∧ Resolves S.vfs stale' start (join q emptyPath) e ∧
        (q.1 ≠ [] → Resolves S.vfs stale' start q e)) ∧
    ∃ r, S.vfs.isDir r = true ∧ Resolves S.vfs stale' start slashPath r ∧
      Resolves S.vfs stale' start (join emptyPath dot) r ∧ Resolves S.vfs stale' start (join emptyPath dotdot) r := by
  obtain ⟨reduce, up, h⟩ := valid_of_run hrun
  have hdotNames : names dot = [dot] := by decide
  have hdotdotNames : names dotdot = [dotdot] := by decide
  refine ⟨fun p d hshort hp hdir => ?_, ?_⟩
  · obtain ⟨e, hpne, hstarts, hdesc⟩ := (resolves_isDir hshort hdir).mp hp
    have hjoin : ∀ k : CString, names k = [k] → k.strlen ≤ 2047 → ∀ m, S.vfs.isDir m = true →
        Descends S.vfs d [k] m → Resolves S.vfs stale' start (join p k) m := by
      intro k hk hlen m hm hdk
      refine (resolves_isDir ?_ hm).mpr ⟨e, join_ne_nil p k, starts_congr hstarts (absolute_join hpne k), ?_⟩
      · rw [names_join, hk]
        intro c hc
        rcases List.mem_append.mp hc with hc | hc
        · exact hshort c hc
        · rwa [List.mem_singleton.mp hc]
      · rw [names_join, hk]
        exact descends_append.mpr ⟨d, hdesc, hdk⟩
    have hplace : (treeOf S.vfs reduce up).Place d := by
      rw [← copies_names stale hshort] at hdesc
      exact h.walk_place hstart hstarts hdesc
    obtain ⟨hdot, g, hg, hdotdot⟩ := h.dots hplace
    refine ⟨hjoin dot hdotNames (by decide) d hdir hdot, fun q c hpq hslash hord => ?_⟩
    have hnames : names p = names q ++ [c] := by rw [hpq, names_join, names_of_notMem hslash hord.1]
    have hshortq : ∀ k ∈ names q, k.strlen ≤ 2047 := fun k hk => hshort k (by simp [hnames, hk])
    rw [hnames] at hdesc
    obtain ⟨f, hq, hc⟩ := descends_append.mp hdesc
    have hfplace : (treeOf S.vfs reduce up).Place f := by
      refine h.descends_place hq (fun k hk => ?_) (h.starts_place hstart hstarts)
      rw [← copies_names stale hshortq] at hk
      exact copies_mem (fun _ helem => component_valid helem) hk
    have hfdir := (h.place hfplace).2.2.1
    have hgf : reduce g = f := h.up_child hfplace hord hc hg
    refine ⟨f, hfdir, hjoin dotdot hdotdotNames (by decide) f hfdir (hgf ▸ hdotdot), ?_, fun hqne => ?_⟩
    · have hempty : names (join q emptyPath) = names q := by rw [names_join]; exact List.append_nil _
      refine (resolves_isDir (by rwa [hempty]) hfdir).mpr ⟨e, join_ne_nil q _, ?_, hempty ▸ hq⟩
      exact starts_congr hstarts (by rw [hpq]; exact absolute_join_congr q _ _)
    · refine (resolves_isDir hshortq hfdir).mpr ⟨e, hqne, starts_congr hstarts ?_, hq⟩
      rw [hpq, absolute_join hqne]
  · have hplace := h.sound.place_root
    have hrdir := (h.place hplace).2.2.1
    have hroot : ∀ k : CString, absolute k = true → S.vfs.Starts start k (reduce S.vfs.vfsRoot) := by
      intro k hk
      refine ⟨_, h.reduced start (h.starts start hstart).1, ?_⟩
      rw [if_pos hk, h.reduced _ h.root_link]
    obtain ⟨hdot, g, hg, hdotdot⟩ := h.dots hplace
    have hgr : reduce g = reduce S.vfs.vfsRoot := by
      obtain ⟨e, he, her⟩ := h.sound.root_up
      obtain rfl : e = g := Option.some.inj (he.symm.trans hg)
      exact her
    refine ⟨reduce S.vfs.vfsRoot, hrdir, ?_, ?_, ?_⟩
    · exact (resolves_isDir (by decide) hrdir).mpr ⟨_, by decide, hroot slashPath (by decide), .nil _⟩
    · exact (resolves_isDir (by decide) hrdir).mpr ⟨_, by decide, hroot (join emptyPath dot) (by decide), hdot⟩
    · rw [hgr] at hdotdot
      exact (resolves_isDir (by decide) hrdir).mpr ⟨_, by decide, hroot (join emptyPath dotdot) (by decide), hdotdot⟩

/-- One directory in the root. -/
def withDir (c : CString) : System := ⟨addEntry (tmpfsCreate rootMounted 2 c sIfdir).2 2 c 5, {0}, false⟩

lemma elemStr_nil (c : CString) : elemStr c.1 [] = c := by
  refine Subtype.ext ?_
  rw [elemStr, ite_self, List.append_nil]
  exact ofBytes_val c.2

section OneDirectory
variable (hslash : slash ∉ c.1) (hc : Ordinary c)
include hslash hc

lemma components_root : components slash (join emptyPath c).1 = [c.1] := by
  change components slash ([] ++ slash :: c.1) = _
  rw [components_append_of_notMem [] hslash hc.1, components_nil, List.nil_append]

lemma run_withDir : Run SystemStep systemInit [.create (fun _ => []) 0 (join emptyPath c) sIfdir] (withDir c) := by
  have hroot : rootMounted.reduced 0 = some 2 := (settles_reduced rootMounted 0).sound 3 2 rfl
  have hresolve : resolve rootMounted (fun _ => []) 0 (join emptyPath c) = some ⟨some 2, none⟩ := by
    refine (resolve_eq_some (join_ne_nil _ _)).mpr ⟨2, ⟨2, hroot, hroot⟩, ?_⟩
    rw [components_root hslash hc]
    simp only [copies, elemStr_nil, walkFrom, rootMounted_lookup 2 hc]
  have hcreate := (settles_vfsCreate rootMounted (fun _ => []) 0 (join emptyPath c) sIfdir).eventually
  rw [hresolve, Option.map_some] at hcreate
  obtain ⟨fuel, hfuel⟩ := hcreate.exists
  have hcomps : components slash (join emptyPath c).1 = [] ++ [c.1] := components_root hslash hc
  have hbase : basename (join emptyPath c) = c := Subtype.ext (basename_val hcomps)
  have hchildren : ((tmpfsCreate rootMounted 2 (basename (join emptyPath c)) sIfdir).2.nodes 2).children ≠ none := by
    rw [tmpfsCreate_nodes _ _ _ _ (by decide)]
    exact Option.some_ne_none _
  refine .single ⟨rfl, rfl, rfl, fuel, some 5, hfuel.trans ?_⟩
  rw [createIn_tmpfs rfl sIfdir hchildren, hbase]
  rfl

omit hslash hc in
lemma withDir_children (c : CString) :
    ((withDir c).vfs.nodes 2).children = some (hashmapSet (dotMap 3 4) c c.strlen 5) := by
  change ((addEntry (tmpfsCreate rootMounted 2 c sIfdir).2 2 c 5).nodes 2).children = _
  rw [addEntry_dir _ c (show 2 < 6 by decide) (by decide), Vfs.setChild, set_nodes_self,
    tmpfsCreate_nodes _ _ _ _ (by decide)]
  rfl

omit hslash hc in
lemma withDir_starts (c path : CString) (hpath : absolute path = true) : (withDir c).vfs.Starts 0 path 2 := by
  have h0 : (withDir c).vfs.redirect 0 = some 2 := by
    change (addEntry (tmpfsCreate rootMounted 2 c sIfdir).2 2 c 5).redirect 0 = _
    rw [Vfs.redirect, addEntry_nodes _ c (Or.inl (show 0 < 6 by decide)) (by decide) (by decide),
      tmpfsCreate_nodes _ _ _ _ (by decide)]
    rfl
  have h2 : (withDir c).vfs.redirect 2 = none := by
    change (addEntry (tmpfsCreate rootMounted 2 c sIfdir).2 2 c 5).redirect 2 = _
    rw [Vfs.redirect, addEntry_dir _ c (show 2 < 6 by decide) (by decide), Vfs.setChild, set_nodes_self,
      tmpfsCreate_nodes _ _ _ _ (by decide)]
    rfl
  have hroot : (withDir c).vfs.reduced 0 = some 2 := (ending_of_some h0).trans (ending_of_none h2)
  have hvfsRoot : (withDir c).vfs.vfsRoot = 0 := addEntry_vfsRoot _ _ _ _
  exact ⟨2, hroot, by rw [if_pos hpath, hvfsRoot, hroot]⟩

omit hslash hc in
lemma withDir_new (c : CString) : (withDir c).vfs.redirect 5 = none ∧ (withDir c).vfs.isDir 5 = true := by
  have hdir := entered_isDir rootMounted 2 c sIfdir 5
  have hfresh : Fresh rootMounted := inv_systemInit.fresh
  have hstate : (withDir c).vfs = createDotentries (entered rootMounted 2 c sIfdir) 2 5 := by
    change addEntry (tmpfsCreate rootMounted 2 c sIfdir).2 2 c rootMounted.count = _
    rw [addEntry_eq, if_pos]
    · rfl
    · exact hdir.trans rfl
  have hentered : Fresh (entered rootMounted 2 c sIfdir) := (hfresh.tmpfsCreate 2 c sIfdir).set _ (show 2 < 6 by decide)
  rw [hstate]
  refine ⟨?_, ?_⟩
  · rw [(createDotentries_attributes _ 2 (show 5 < 6 by decide) (show 5 < 6 by decide)).2]
    exact ((setChild_attributes _ 2 c _ _ 5).2.1.trans (tmpfsCreate_redirect hfresh 5)).trans (hfresh.redirect_of_le le_rfl)
  · rw [createDotentries_isDir hentered 2 (show 5 < 6 by decide), hdir]
    rfl

lemma withDir_resolves : Resolves (withDir c).vfs (fun _ => []) 0 (join emptyPath c) 5 ∧
    (withDir c).vfs.isDir 5 = true := by
  obtain ⟨hnode, hdir⟩ := withDir_new c
  refine ⟨resolves_iff.mpr ((resolve_isDir hdir).mpr ⟨2, join_ne_nil _ _, withDir_starts c _ rfl, ?_⟩), hdir⟩
  rw [components_root hslash hc]
  simp only [copies, elemStr_nil]
  refine .cons ?_ (ending_of_none hnode) hdir (.nil 5)
  rw [Vfs.lookup, withDir_children, Option.bind_some, hashmapGet_hashmapSet_self]

end OneDirectory

def dirName : CString := ⟨[0x61], zero_notMem_a⟩

/-- `"/a/."` is `"/a"`, and `"/a/.."` is the root. -/
theorem dot_entries_dir : Resolves (withDir dirName).vfs (fun _ => []) 0 (join emptyPath dirName) 5 ∧
    Resolves (withDir dirName).vfs (fun _ => []) 0 (join (join emptyPath dirName) dot) 5 ∧
    ∃ e, Resolves (withDir dirName).vfs (fun _ => []) 0 (join (join emptyPath dirName) dotdot) e ∧
      Resolves (withDir dirName).vfs (fun _ => []) 0 (join emptyPath emptyPath) e := by
  have hord : Ordinary dirName := ⟨by decide, by decide, by decide⟩
  have hrun := run_withDir (c := dirName) (by decide) hord
  obtain ⟨hresolves, hdir⟩ := withDir_resolves (c := dirName) (by decide) hord
  obtain ⟨hdot, hup⟩ := (dot_entries hrun rfl (fun _ => []) (fun _ => [])).1 _ 5 (by decide) hresolves hdir
  obtain ⟨e, -, hdotdot, hq, -⟩ := hup emptyPath dirName rfl (by decide) hord
  exact ⟨hresolves, hdot, e, hdotdot, hq⟩

/-- A name that does not fit into a block of a cache. -/
def longName : CString := ⟨List.replicate 2048 0x61, fun h => absurd (List.eq_of_mem_replicate h) (by decide)⟩

/-- The copy of a long name is looked up with a byte behind it that the pages held before. -/
theorem dot_missing : ∃ requests S p d stale stale', Run SystemStep systemInit requests S ∧
    Resolves S.vfs stale 0 p d ∧ S.vfs.isDir d = true ∧ ¬Resolves S.vfs stale' 0 (join p dot) d := by
  have hslash : slash ∉ longName.1 := fun h => absurd (List.eq_of_mem_replicate h) (by decide)
  have hlength : longName.1.length = 2048 := List.length_replicate
  have hord : Ordinary longName := ordinary_of_lt (by rw [strlen, hlength]; norm_num)
  obtain ⟨hresolves, hdir⟩ := withDir_resolves hslash hord
  refine ⟨_, withDir longName, join emptyPath longName, 5, fun _ => [], fun _ => [0x62], run_withDir hslash hord,
    hresolves, hdir, fun hbad => ?_⟩
  obtain ⟨e, -, hstart, hdesc⟩ := (resolve_isDir hdir).mp (resolves_iff.mp hbad)
  obtain rfl : 2 = e := by
    obtain ⟨_, -, h2⟩ := withDir_starts longName (join (join emptyPath longName) dot) rfl
    obtain ⟨_, -, he⟩ := hstart
    have habs : absolute (join (join emptyPath longName) dot) = true := rfl
    rw [if_pos habs] at h2 he
    exact Option.some.inj (h2.symm.trans he)
  have hcomps : components slash (join (join emptyPath longName) dot).1 = [longName.1, dot.1] := by
    change components slash ((join emptyPath longName).1 ++ slash :: dot.1) = _
    rw [components_append_of_notMem _ (by decide) (by decide), components_root hslash hord]
    rfl
  have hcopy : (elemStr longName.1 [0x62]).1 = longName.1 ++ [0x62] := by
    rw [elemStr, if_neg (by rw [hlength]; decide)]
    refine ofBytes_val fun h0 => ?_
    rcases List.mem_append.mp h0 with h0 | h0
    · exact longName.2 h0
    · exact absurd h0 (by decide)
  have hlong : (elemStr longName.1 [0x62]).1.length = 2049 := by
    rw [hcopy, List.length_append, hlength]
    rfl
  have hshort : ∀ k : CString, k.1.length ≤ 2048 → ¬(elemStr longName.1 [0x62]).1 <+: k.1 := by
    intro k hk hpre
    have hle := hpre.length_le
    omega
  rw [hcomps] at hdesc
  cases hdesc with
  | cons hx _ _ _ =>
    rw [Vfs.lookup, withDir_children, Option.bind_some, hashmapGet_hashmapSet_of_not_isPrefix] at hx
    · simp at hx
    · exact hshort longName hlength.le
    · intro b k hk
      refine hshort k.1 ?_
      rw [dotMap_entries] at hk
      split_ifs at hk
      · rw [List.mem_singleton.mp hk]
        decide
      · rw [List.mem_singleton.mp hk]
        decide
      · simp at hk

end Dots

end PiggyOs.VfsTree
