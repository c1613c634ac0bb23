import PiggyOs.Getdents
import PiggyOs.VfsDots

/-! The tree as the kernel builds it: `tmpfs` on `"/"`, `devfs` on `"/dev"`, the nodes of the drivers, and
whatever `vfs_create` adds. -/
namespace PiggyOs.VfsTree
open Hash CString Separated Fuel IntrusiveList Filter Transition CoveredTree

variable {s s' : Vfs} {d e m n x y : ℕ} {c k : CString}

section Tables
variable {map : HashMap ℕ} {key : CString} {size v : ℕ}

lemma bucket_lt (map : HashMap ℕ) (key : CString) : bucket map.size key < map.size :=
  Nat.mod_lt _ map.positive

/-- The children of one bucket, among all. -/
lemma childrenOf_split {b : ℕ} (hb : b < map.size) : ∃ l r, childrenOf map = l ++ (map.entries b).map Prod.snd ++ r ∧
    ∀ chain, childrenOf { map with entries := Function.update map.entries b chain } = l ++ chain.map Prod.snd ++ r := by
  have hrange : List.range map.size = List.range b ++ b :: (List.range (map.size - b - 1)).map (b + 1 + ·) := by
    rw [show map.size = b + (1 + (map.size - b - 1)) by omega, List.range_add, List.range_add]
    simp [Function.comp_def, Nat.add_assoc]
  have hother : ∀ chain, ∀ l : List ℕ, b ∉ l →
      (l.flatMap fun i => (Function.update map.entries b chain i).map Prod.snd) =
        l.flatMap fun i => (map.entries i).map Prod.snd := by
    intro chain l hl
    refine List.flatMap_congr fun i hi => ?_
    rw [Function.update_of_ne (ne_of_mem_of_not_mem hi hl)]
  refine ⟨(List.range b).flatMap fun i => (map.entries i).map Prod.snd,
    ((List.range (map.size - b - 1)).map (b + 1 + ·)).flatMap fun i => (map.entries i).map Prod.snd, ?_, fun chain => ?_⟩
  · rw [childrenOf, hrange, List.flatMap_append, List.flatMap_cons, List.append_assoc]
  · rw [childrenOf, hrange, List.flatMap_append, List.flatMap_cons, hother chain _ (by simp), hother chain _ (by simp; omega)]
    dsimp only
    rw [Function.update_self, List.append_assoc]

/-- A call of `hashmap_set` adds a child or puts it in the place of another. -/
lemma childrenOf_hashmapSet (map : HashMap ℕ) (key : CString) (size v : ℕ) :
    ∃ l r, childrenOf (hashmapSet map key size v) = l ++ v :: r ∧
      (childrenOf map = l ++ r ∨ ∃ x, childrenOf map = l ++ x :: r) := by
  obtain ⟨l, r, hold, hnew⟩ := childrenOf_split (bucket_lt map key)
  rcases chainSet_cases (fun k => strncmp k key size = 0) key v (map.entries (bucket map.size key)) with
    hset | ⟨p, k, x, q, hchain, hset⟩
  · refine ⟨l ++ (map.entries (bucket map.size key)).map Prod.snd, r, ?_, Or.inl hold⟩
    refine (hnew _).trans ?_
    rw [hset]
    simp
  · refine ⟨l ++ p.map Prod.snd, q.map Prod.snd ++ r, ?_, Or.inr ⟨x, ?_⟩⟩
    · refine (hnew _).trans ?_
      rw [hset]
      simp
    · rw [hold, hchain]
      simp

lemma mem_childrenOf_hashmapSet (hx : x ∈ childrenOf (hashmapSet map key size v)) : x = v ∨ x ∈ childrenOf map := by
  obtain ⟨l, r, hnew, hold⟩ := childrenOf_hashmapSet map key size v
  rw [hnew] at hx
  rcases hold with hold | ⟨z, hold⟩
  · rw [hold]
    simpa [or_left_comm] using hx
  · rw [hold]
    rcases List.mem_append.mp hx with hx | hx
    · exact Or.inr (List.mem_append_left _ hx)
    · refine (List.mem_cons.mp hx).imp_right fun hx => ?_
      exact List.mem_append_right _ (List.mem_cons_of_mem _ hx)

lemma nodup_childrenOf_hashmapSet (h : (childrenOf map).Nodup) (hv : v ∉ childrenOf map) :
    (childrenOf (hashmapSet map key size v)).Nodup := by
  obtain ⟨l, r, hnew, hold⟩ := childrenOf_hashmapSet map key size v
  rw [hnew, List.nodup_middle]
  rcases hold with hold | ⟨z, hold⟩
  · rw [hold] at h hv
    exact List.nodup_cons.mpr ⟨hv, h⟩
  · rw [hold] at h hv
    refine List.nodup_cons.mpr ⟨fun hmem => hv ?_, (List.nodup_middle.mp h).of_cons⟩
    rcases List.mem_append.mp hmem with hmem | hmem
    · exact List.mem_append_left _ hmem
    · exact List.mem_append_right _ (List.mem_cons_of_mem _ hmem)

lemma mem_childrenOf_of_get (h : hashmapGet map k size = some x) : x ∈ childrenOf map := by
  obtain ⟨key, hmem⟩ := mem_of_chainGet h
  refine List.mem_flatMap.mpr ⟨bucket map.size k, List.mem_range.mpr (bucket_lt map k), ?_⟩
  exact List.mem_map.mpr ⟨_, hmem, rfl⟩

/-- A child whose place was taken by another is gone. -/
lemma notMem_childrenOf_hashmapSet {n : ℕ} (h : (childrenOf map).Nodup) (hx : hashmapGet map k n = some x)
    (hv : hashmapGet (hashmapSet map key size v) k n = some v) (hne : x ≠ v) :
    x ∉ childrenOf (hashmapSet map key size v) := by
  rw [hashmapGet_hashmapSet] at hv
  split_ifs at hv with hb
  · obtain ⟨l, r, hold, hnew⟩ := childrenOf_split (bucket_lt map key)
    rw [hashmapGet, hb] at hx
    rcases chainSet_cases (fun k => strncmp k key size = 0) key v (map.entries (bucket map.size key)) with
      hset | ⟨p, k', z, q, hchain, hset⟩
    · rw [hset, chainGet_append hx] at hv
      exact absurd (Option.some.inj hv) hne
    · obtain rfl : z = x := by
        rw [hset] at hv
        rw [hchain] at hx
        exact chainGet_replaced hx hv hne
      have hset' : childrenOf (hashmapSet map key size v) = (l ++ p.map Prod.snd) ++ v :: (q.map Prod.snd ++ r) := by
        refine (hnew _).trans ?_
        rw [hset]
        simp
      have hold' : childrenOf map = (l ++ p.map Prod.snd) ++ z :: (q.map Prod.snd ++ r) := by
        rw [hold, hchain]
        simp
      rw [hold', List.nodup_middle, List.nodup_cons] at h
      rw [hset', List.mem_append, List.mem_cons]
      rintro (hmem | rfl | hmem)
      · exact h.1 (List.mem_append_left _ hmem)
      · exact hne rfl
      · exact h.1 (List.mem_append_right _ hmem)
  · rw [hx] at hv
    exact absurd (Option.some.inj hv) hne

lemma childrenOf_hashmapCreate (hsize : 1 ≤ size) : childrenOf (hashmapCreate ℕ size hsize) = [] := by
  rw [childrenOf, List.flatMap_eq_nil_iff]
  exact fun _ _ => rfl

end Tables

section Shape

lemma zero_notMem_dev : (0 : BitVec 8) ∉ [0x64, 0x65, 0x76] := by decide

def devName : CString := ⟨[0x64, 0x65, 0x76], zero_notMem_dev⟩

/-- Every name and the node that has it are somewhere in the upper half of the address space. -/
def Fits (s : Vfs) : Prop := ((List.range s.count).map fun x => (s.nodes x).name.strlen + 1).sum ≤ 2 ^ 47

/-- A name that can be a component of a path, apart from `"."` and `".."`. -/
structure FileName (c : CString) : Prop where
  ordinary : Ordinary c
  slash : slash ∉ c.1

/-- What is known of the nodes and the tables beyond the directories that paths lead to. An entry may be
found under the beginning of its key, but then it is also found under the name of its node. -/
structure Shaped (s : Vfs) : Prop where
  vfsRoot : s.vfsRoot = 0
  devfsRoot : s.devfsRoot = 1
  root : (s.nodes 2).name = slashPath ∧ (s.nodes 2).parent = some 0 ∧ (s.nodes 2).fs = some .tmpfs
  dev : (s.nodes 1).name = devName ∧ (s.nodes 1).parent = none ∧ (s.nodes 1).fs = some .devfs
  covered : (s.nodes 0).mountpoint = some 2 ∧ (s.nodes 0).link = none ∧ (s.nodes 2).link = none
  unlinked : (s.nodes 1).link = none ∧ s.isDir 1 = true
  named : ∀ x, x ≠ 2 → (s.nodes x).name ≠ slashPath ∧ (s.nodes x).parent ≠ some 0
  mounts : ∀ x y, (s.nodes x).mountpoint = some y → (x = 0 ∧ y = 2) ∨ (y = 1 ∧ (s.nodes x).parent = some 2)
  parents : ∀ x p, (s.nodes x).parent = some p → p < x ∧ (s.nodes p).link = none
  nodup : ∀ d map, (s.nodes d).children = some map → (childrenOf map).Nodup
  linked : ∀ d map, (s.nodes d).children = some map → ∀ x ∈ childrenOf map, x < s.count ∧
    ((s.nodes x).link = none ∨ ∃ y < s.count, (s.nodes x).link = some y ∧ (s.nodes y).link = none)
  own : ∀ d k x, Ordinary k → s.lookup d k = some x → (s.nodes x).parent = some d ∧ (s.nodes x).fs = (s.nodes d).fs ∧
    FileName (s.nodes x).name ∧ s.lookup d (s.nodes x).name = some x
  devices : ∀ k x, Ordinary k → s.lookup 1 k = some x → s.isDir x = false
  tables : ∀ d, s.isDir d = true → ∃ map, (s.nodes d).children = some map
  below : ∀ x < s.count, (s.nodes x).parent = none → x ≤ 1

/-- A new node, entered in `e` under its own name. -/
def grown (s : Vfs) (e : ℕ) (new : Node) : Vfs :=
  { s.set s.count new with count := s.count + 1 }.setChild e new.name new.name.strlen s.count

lemma entered_eq_grown (s : Vfs) (e : ℕ) (c : CString) (mode : BitVec 32) :
    entered s e c mode = grown s e { blank with
      name := c
      parent := some e
      fs := some .tmpfs
      children := if sIsdir mode then some (hashmapCreate ℕ 128 (by decide)) else none
      mode := mode } := by
  rw [entered, grown, tmpfsCreate]
  simp [vfsCreateNode, Vfs.set]

variable {new : Node}

lemma grown_self (he : e ≠ s.count) : (grown s e new).nodes s.count = new :=
  (setChild_nodes_of_ne _ _ _ _ he.symm).trans (set_nodes_self ..)

lemma grown_nodes (hd : d ≠ s.count) (hde : d ≠ e) : (grown s e new).nodes d = s.nodes d :=
  (setChild_nodes_of_ne _ _ _ _ hde).trans (set_nodes_of_ne _ _ hd)

/-- Old nodes stay as they are, apart from the table of `e`. -/
lemma grown_old (e : ℕ) (new : Node) (hd : d ≠ s.count) : (grown s e new).nodes d =
    { s.nodes d with children := ((grown s e new).nodes d).children } := by
  by_cases hde : d = e
  · rw [grown, setChild_nodes]
    simp [set_nodes_of_ne _ _ hd]
  · rw [grown_nodes hd hde]

lemma grown_dir (he : e ≠ s.count) : ((grown s e new).nodes e).children =
    (s.nodes e).children.map fun map => hashmapSet map new.name new.name.strlen s.count := by
  rw [grown, Vfs.setChild, set_nodes_self]
  simp [set_nodes_of_ne _ _ he]

lemma grown_attributes (e : ℕ) (new : Node) (hd : d ≠ s.count) : ((grown s e new).nodes d).name = (s.nodes d).name ∧
    ((grown s e new).nodes d).parent = (s.nodes d).parent ∧ ((grown s e new).nodes d).fs = (s.nodes d).fs ∧
    ((grown s e new).nodes d).link = (s.nodes d).link ∧ ((grown s e new).nodes d).mountpoint = (s.nodes d).mountpoint ∧
    (grown s e new).isDir d = s.isDir d := by
  have hnode := grown_old e new hd
  rw [Vfs.isDir, hnode]
  exact ⟨rfl, rfl, rfl, rfl, rfl, rfl⟩

/-- The table of a directory of the new state. -/
lemma grown_children {map : HashMap ℕ} (he : e ≠ s.count) (hmap : ((grown s e new).nodes d).children = some map) :
    (d ≠ s.count ∧ (s.nodes d).children = some map) ∨ (d = s.count ∧ new.children = some map) ∨
      (d = e ∧ ∃ old, (s.nodes e).children = some old ∧ map = hashmapSet old new.name new.name.strlen s.count) := by
  by_cases hde : d = e
  · subst hde
    rw [grown_dir he] at hmap
    obtain ⟨old, hold, rfl⟩ := Option.map_eq_some_iff.mp hmap
    exact Or.inr (Or.inr ⟨rfl, old, hold, rfl⟩)
  · by_cases hd : d = s.count
    · subst hd
      rw [grown_self he] at hmap
      exact Or.inr (Or.inl ⟨rfl, hmap⟩)
    · rw [grown_nodes hd hde] at hmap
      exact Or.inl ⟨hd, hmap⟩

lemma lookup_eq_some : s.lookup d k = some x ↔ ∃ map, (s.nodes d).children = some map ∧ hashmapGet map k k.strlen = some x :=
  Option.bind_eq_some_iff

lemma Shaped.lookup_lt (h : Shaped s) (hx : s.lookup d k = some x) : x < s.count := by
  obtain ⟨map, hmap, hx⟩ := lookup_eq_some.mp hx
  exact (h.linked d map hmap x (mem_childrenOf_of_get hx)).1

/-- What has a parent has been allocated. -/
lemma Fresh.lt_of_parent (hs : Fresh s) (hx : (s.nodes x).parent = some y) : x < s.count := by
  by_contra hge
  rw [hs.clear x (not_lt.mp hge)] at hx
  simp [blank] at hx

lemma Shaped.grown (h : Shaped s) (hs : Fresh s) (he : e < s.count) (he0 : e ≠ 0) (helink : (s.nodes e).link = none)
    (hparent : new.parent = some e) (hfs : new.fs = (s.nodes e).fs) (hlink : new.link = none)
    (hmountpoint : new.mountpoint = none) (hname : FileName new.name)
    (hempty : ∀ map, new.children = some map → childrenOf map = []) (hdir : e = 1 → sIsdir new.mode = false)
    (htable : sIsdir new.mode = true → ∃ map, new.children = some map) : Shaped (grown s e new) := by
  have h2 : 2 ≠ s.count := (hs.lt_of_parent h.root.2.1).ne
  have h1 : 1 ≠ s.count := (h.devfsRoot ▸ hs.devfsRoot_lt).ne
  have hself : (VfsTree.grown s e new).nodes s.count = new := grown_self he.ne
  have hold : ∀ {d}, d ≠ s.count → _ := fun {d} hd => grown_attributes e new hd
  have hlinkless : ∀ x, (s.nodes x).link = none → ((VfsTree.grown s e new).nodes x).link = none := by
    intro x hx
    by_cases hxn : x = s.count
    · rw [hxn, hself, hlink]
    · rw [(hold hxn).2.2.2.1, hx]
  have hlookup : ∀ d k x, (VfsTree.grown s e new).lookup d k = some x → s.lookup d k = some x ∨ (d = e ∧ x = s.count) := by
    intro d k x hx
    obtain ⟨map, hmap, hx⟩ := lookup_eq_some.mp hx
    rcases grown_children he.ne hmap with ⟨-, hmap⟩ | ⟨-, hmap⟩ | ⟨rfl, old, hold, rfl⟩
    · exact Or.inl (lookup_eq_some.mpr ⟨map, hmap, hx⟩)
    · have hmem := mem_childrenOf_of_get hx
      rw [hempty map hmap] at hmem
      simp at hmem
    · rcases hashmapGet_hashmapSet_cases old new.name k k.strlen new.name.strlen s.count with hsame | hnew
      · exact Or.inl (lookup_eq_some.mpr ⟨old, hold, hsame.symm.trans hx⟩)
      · exact Or.inr ⟨rfl, Option.some.inj (hx.symm.trans hnew)⟩
  refine ⟨h.vfsRoot, h.devfsRoot, ?_, ?_, ?_, ?_, fun x hx => ?_, fun x y hxy => ?_, fun x p hxp => ?_, fun d map hmap => ?_,
    fun d map hmap x hx => ?_, fun d k x hk hx => ?_, fun k x hk hx => ?_, fun d hd => ?_, fun x hx hp => ?_⟩
  · obtain ⟨hn, hp, hf, -⟩ := hold h2
    rw [hn, hp, hf]
    exact h.root
  · obtain ⟨hn, hp, hf, -⟩ := hold h1
    rw [hn, hp, hf]
    exact h.dev
  · have h0 : 0 ≠ s.count := (h.vfsRoot ▸ hs.vfsRoot_lt).ne
    rw [(hold h0).2.2.2.2.1, (hold h0).2.2.2.1, (hold h2).2.2.2.1]
    exact h.covered
  · rw [(hold h1).2.2.2.1, (hold h1).2.2.2.2.2]
    exact h.unlinked
  · by_cases hxn : x = s.count
    · rw [hxn, hself, hparent]
      refine ⟨fun hslash => hname.slash (hslash ▸ by decide), fun h0 => he0 (Option.some.inj h0)⟩
    · rw [(hold hxn).1, (hold hxn).2.1]
      exact h.named x hx
  · by_cases hx : x = s.count
    · rw [hx, hself, hmountpoint] at hxy
      simp at hxy
    · obtain ⟨-, hp, -, -, hm, -⟩ := hold hx
      rw [hm] at hxy
      rw [hp]
      exact h.mounts x y hxy
  · by_cases hx : x = s.count
    · rw [hx, hself, hparent] at hxp
      obtain rfl := Option.some.inj hxp
      exact ⟨hx ▸ he, hlinkless e helink⟩
    · rw [(hold hx).2.1] at hxp
      obtain ⟨hlt, hplink⟩ := h.parents x p hxp
      exact ⟨hlt, hlinkless p hplink⟩
  · rcases grown_children he.ne hmap with ⟨-, hmap⟩ | ⟨-, hmap⟩ | ⟨-, old, hmap', rfl⟩
    · exact h.nodup d map hmap
    · rw [hempty map hmap]
      exact List.nodup_nil
    · refine nodup_childrenOf_hashmapSet (h.nodup e old hmap') fun hmem => ?_
      exact absurd (h.linked e old hmap' _ hmem).1 (lt_irrefl _)
  · have hkeep : ∀ d map, (s.nodes d).children = some map → x ∈ childrenOf map → x < s.count + 1 ∧
        (((VfsTree.grown s e new).nodes x).link = none ∨
          ∃ y < s.count + 1, ((VfsTree.grown s e new).nodes x).link = some y ∧ ((VfsTree.grown s e new).nodes y).link = none) := by
      intro d map hmap hx
      obtain ⟨hlt, hl⟩ := h.linked d map hmap x hx
      rw [(hold hlt.ne).2.2.2.1]
      exact ⟨Nat.lt_succ_of_lt hlt, hl.imp_right fun ⟨y, hlt, hy, hylink⟩ =>
        ⟨y, Nat.lt_succ_of_lt hlt, hy, hlinkless y hylink⟩⟩
    rcases grown_children he.ne hmap with ⟨-, hmap⟩ | ⟨-, hmap⟩ | ⟨-, old, hmap', rfl⟩
    · exact hkeep d map hmap hx
    · rw [hempty map hmap] at hx
      simp at hx
    · rcases mem_childrenOf_hashmapSet hx with rfl | hx
      · exact ⟨Nat.lt_succ_self _, Or.inl (by rw [hself, hlink])⟩
      · exact hkeep e old hmap' hx
  · rcases hlookup d k x hx with hxold | ⟨rfl, rfl⟩
    · have hxn : x ≠ s.count := (h.lookup_lt hxold).ne
      have hdn : d ≠ s.count := (hs.lt_of_lookup hxold).ne
      obtain ⟨hp, hf, hn, hl⟩ := h.own d k x hk hxold
      obtain ⟨hname', hparent', hfs', -⟩ := hold hxn
      rw [hname', hparent', hfs', (hold hdn).2.2.1]
      refine ⟨hp, hf, hn, ?_⟩
      obtain ⟨map, hmap, hxmap⟩ := lookup_eq_some.mp hx
      obtain ⟨old, hmapold, hlold⟩ := lookup_eq_some.mp hl
      rcases grown_children he.ne hmap with ⟨-, hmap'⟩ | ⟨hd, -⟩ | ⟨rfl, old', hmap', rfl⟩
      · obtain rfl : old = map := Option.some.inj (hmapold.symm.trans hmap')
        exact lookup_eq_some.mpr ⟨old, hmap, hlold⟩
      · exact absurd hd hdn
      · obtain rfl : old = old' := Option.some.inj (hmapold.symm.trans hmap')
        refine lookup_eq_some.mpr ⟨_, hmap, ?_⟩
        rcases hashmapGet_hashmapSet_cases old new.name (s.nodes x).name (s.nodes x).name.strlen new.name.strlen s.count
          with hsame | hnew
        · exact hsame.trans hlold
        · refine absurd (mem_childrenOf_of_get hxmap) ?_
          exact notMem_childrenOf_hashmapSet (h.nodup d old hmap') hlold hnew hxn
    · rw [hself, (hold he.ne).2.2.1]
      obtain ⟨map, hmap, -⟩ := lookup_eq_some.mp hx
      have hset := hmap
      rw [grown_dir he.ne] at hset
      obtain ⟨old, -, rfl⟩ := Option.map_eq_some_iff.mp hset
      exact ⟨hparent, hfs, hname, lookup_eq_some.mpr ⟨_, hmap, hashmapGet_hashmapSet_self ..⟩⟩
  · rcases hlookup 1 k x hx with hxold | ⟨he1, rfl⟩
    · rw [(hold (h.lookup_lt hxold).ne).2.2.2.2.2]
      exact h.devices k x hk hxold
    · rw [Vfs.isDir, hself]
      exact hdir he1.symm
  · by_cases hdn : d = s.count
    · rw [hdn, Vfs.isDir, hself] at hd
      rw [hdn, hself]
      exact htable hd
    · rw [(hold hdn).2.2.2.2.2] at hd
      obtain ⟨map, hmap⟩ := h.tables d hd
      by_cases hde : d = e
      · subst hde
        exact ⟨_, by rw [grown_dir hdn, hmap]; rfl⟩
      · exact ⟨map, by rw [grown_nodes hdn hde, hmap]⟩
  · by_cases hxn : x = s.count
    · rw [hxn, hself, hparent] at hp
      simp at hp
    · rw [(hold hxn).2.1] at hp
      exact h.below x (lt_of_le_of_ne (Nat.lt_succ_iff.mp hx) hxn) hp

variable {p : ℕ}

lemma createDotentries_old (s : Vfs) (p : ℕ) (hm : m < s.count) (h0 : x ≠ s.count) (h1 : x ≠ s.count + 1) :
    (createDotentries s p m).nodes x =
      { s.nodes x with children := ((createDotentries s p m).nodes x).children } := by
  by_cases hxm : x = m
  · subst hxm
    rw [createDotentries_node s p hm]
  · rw [createDotentries_nodes s p (by omega) hxm]

lemma createDotentries_table {map : HashMap ℕ} (hm : m < s.count)
    (hchildren : (s.nodes m).children = some (hashmapCreate ℕ 128 (by decide)))
    (hmap : ((createDotentries s p m).nodes d).children = some map) :
    (s.nodes d).children = some map ∨ map = dotMap s.count (s.count + 1) := by
  by_cases hdm : d = m
  · rw [hdm, createDotentries_children s p hm hchildren] at hmap
    exact Or.inr (Option.some.inj hmap).symm
  · by_cases h0 : d = s.count
    · rw [h0, createDotentries_dot s p hm] at hmap
      simp [blank] at hmap
    · by_cases h1 : d = s.count + 1
      · rw [h1, createDotentries_dotdot s p hm] at hmap
        simp [blank] at hmap
      · rw [createDotentries_nodes s p (by omega) hdm] at hmap
        exact Or.inl hmap

lemma mem_childrenOf_dotMap {a b : ℕ} (hx : x ∈ childrenOf (dotMap a b)) : x = b ∨ x = a := by
  refine (mem_childrenOf_hashmapSet hx).imp_right fun hx => ?_
  refine (mem_childrenOf_hashmapSet hx).resolve_right ?_
  rw [childrenOf_hashmapCreate]
  exact List.not_mem_nil

lemma nodup_childrenOf_dotMap (a : ℕ) : (childrenOf (dotMap a (a + 1))).Nodup := by
  have hempty : childrenOf (hashmapCreate ℕ 128 (by decide)) = [] := childrenOf_hashmapCreate _
  refine nodup_childrenOf_hashmapSet (nodup_childrenOf_hashmapSet ?_ ?_) fun hmem => ?_
  · rw [hempty]
    exact List.nodup_nil
  · rw [hempty]
    exact List.not_mem_nil
  · rcases mem_childrenOf_hashmapSet hmem with h | h
    · omega
    · rw [hempty] at h
      exact List.not_mem_nil h

/-- A directory gets its two entries. -/
lemma Shaped.createDotentries (h : Shaped s) (hs : Fresh s) (hp : p < s.count) (hplink : (s.nodes p).link = none)
    (hm : m < s.count) (hm0 : m ≠ 0) (hmlink : (s.nodes m).link = none)
    (hchildren : (s.nodes m).children = some (hashmapCreate ℕ 128 (by decide))) : Shaped (createDotentries s p m) := by
  have hdot := createDotentries_dot s p hm
  have hdotdot := createDotentries_dotdot s p hm
  have h2 : 2 < s.count := hs.lt_of_parent h.root.2.1
  have h1 : 1 < s.count := h.devfsRoot ▸ hs.devfsRoot_lt
  have hold : ∀ {x}, x < s.count ∨ s.count + 2 ≤ x → _ := fun {x} hx =>
    createDotentries_old s p hm (x := x) (by omega) (by omega)
  have hlinkless : ∀ x < s.count, (s.nodes x).link = none → ((VfsTree.createDotentries s p m).nodes x).link = none := by
    intro x hx hxlink
    rw [hold (Or.inl hx)]
    exact hxlink
  have hlookup : ∀ d k, Ordinary k → (VfsTree.createDotentries s p m).lookup d k = s.lookup d k :=
    fun d k hk => createDotentries_lookup hs p hm hchildren d hk
  have hcases : ∀ x, (x < s.count ∨ s.count + 2 ≤ x) ∨ x = s.count ∨ x = s.count + 1 := by omega
  refine ⟨h.vfsRoot, h.devfsRoot, ?_, ?_, ?_, ?_, fun x hx => ?_, fun x y hxy => ?_, fun x q hxq => ?_, fun d map hmap => ?_,
    fun d map hmap x hx => ?_, fun d k x hk hx => ?_, fun k x hk hx => ?_, fun d hd => ?_, fun x hx hp => ?_⟩
  · rw [hold (Or.inl h2)]
    exact h.root
  · rw [hold (Or.inl h1)]
    exact h.dev
  · rw [hold (Or.inl (h.vfsRoot ▸ hs.vfsRoot_lt)), hold (Or.inl h2)]
    exact h.covered
  · rw [createDotentries_isDir hs p hm, hold (Or.inl h1)]
    exact h.unlinked
  · have hparent : some m ≠ some 0 := fun h0 => hm0 (Option.some.inj h0)
    rcases hcases x with hx' | rfl | rfl
    · rw [hold hx']
      exact h.named x hx
    · rw [hdot]
      exact ⟨show dot ≠ slashPath by decide, hparent⟩
    · rw [hdotdot]
      exact ⟨show dotdot ≠ slashPath by decide, hparent⟩
  · rcases hcases x with hx | rfl | rfl
    · rw [hold hx] at hxy ⊢
      exact h.mounts x y hxy
    · rw [hdot] at hxy
      simp [blank] at hxy
    · rw [hdotdot] at hxy
      simp [blank] at hxy
  · have hnew : (s.count : ℕ) ≤ x → some m = some q → q < x ∧ ((VfsTree.createDotentries s p m).nodes q).link = none := by
      intro hx hq
      obtain rfl := Option.some.inj hq
      exact ⟨hm.trans_le hx, hlinkless m hm hmlink⟩
    rcases hcases x with hx | rfl | rfl
    · rw [hold hx] at hxq
      obtain ⟨hlt, hqlink⟩ := h.parents x q hxq
      exact ⟨hlt, hlinkless q (hlt.trans (hs.lt_of_parent hxq)) hqlink⟩
    · rw [hdot] at hxq
      exact hnew le_rfl hxq
    · rw [hdotdot] at hxq
      exact hnew (Nat.le_succ _) hxq
  · rcases createDotentries_table hm hchildren hmap with hmap | rfl
    · exact h.nodup d map hmap
    · exact nodup_childrenOf_dotMap s.count
  · rcases createDotentries_table hm hchildren hmap with hmap | rfl
    · obtain ⟨hlt, hl⟩ := h.linked d map hmap x hx
      rw [hold (Or.inl hlt)]
      refine ⟨Nat.lt_add_right 2 hlt, hl.imp_right ?_⟩
      rintro ⟨y, hylt, hy, hylink⟩
      exact ⟨y, Nat.lt_add_right 2 hylt, hy, hlinkless y hylt hylink⟩
    · rcases mem_childrenOf_dotMap hx with rfl | rfl
      · exact ⟨Nat.lt_succ_self _, Or.inr ⟨p, Nat.lt_add_right 2 hp, by rw [hdotdot], hlinkless p hp hplink⟩⟩
      · exact ⟨Nat.lt_add_of_pos_right two_pos, Or.inr ⟨m, Nat.lt_add_right 2 hm, by rw [hdot], hlinkless m hm hmlink⟩⟩
  · rw [hlookup d k hk] at hx
    have hxlt := h.lookup_lt hx
    obtain ⟨hp, hf, hn, hl⟩ := h.own d k x hk hx
    rw [hold (Or.inl hxlt), hold (Or.inl (hs.lt_of_lookup hx))]
    exact ⟨hp, hf, hn, (hlookup d _ hn.ordinary).trans hl⟩
  · rw [hlookup 1 k hk] at hx
    rw [Vfs.isDir, hold (Or.inl (h.lookup_lt hx))]
    exact h.devices k x hk hx
  · rw [createDotentries_isDir hs p hm] at hd
    by_cases hdm : d = m
    · exact ⟨_, by rw [hdm, createDotentries_children s p hm hchildren]⟩
    · obtain ⟨map, hmap⟩ := h.tables d hd
      exact ⟨map, by rw [createDotentries_nodes s p (Or.inl (hs.lt_of_isDir hd)) hdm, hmap]⟩
  · rcases hcases x with hx' | rfl | rfl
    · rw [hold hx'] at hp
      rw [createDotentries_count] at hx
      exact h.below x (by omega) hp
    · rw [hdot] at hp
      simp at hp
    · rw [hdotdot] at hp
      simp at hp

lemma setMountpoint_old (s : Vfs) (node m x : ℕ) : (s.setMountpoint node m).nodes x =
    { s.nodes x with mountpoint := ((s.setMountpoint node m).nodes x).mountpoint } := by
  by_cases hx : x = node
  · subst hx
    rw [Vfs.setMountpoint, set_nodes_self]
  · rw [Vfs.setMountpoint, set_nodes_of_ne s _ hx]

/-- `devfs` is mounted over a directory in the root. -/
lemma Shaped.setMountpoint (h : Shaped s) {node : ℕ} (hnode : (s.nodes node).parent = some 2) :
    Shaped (s.setMountpoint node 1) := by
  have hold := setMountpoint_old s node 1
  have hdir := fun x => (setMountpoint_attributes s node 1 x).2.2
  have hlookup := setMountpoint_lookup s node 1
  refine ⟨h.vfsRoot, h.devfsRoot, ?_, ?_, ?_, ?_, fun x hx => ?_, fun x y hxy => ?_, fun x p hxp => ?_, fun d map hmap => ?_,
    fun d map hmap x hx => ?_, fun d k x hk hx => ?_, fun k x hk hx => ?_, fun d hd => ?_, fun x hx hp => ?_⟩
  · rw [hold 2]
    exact h.root
  · rw [hold 1]
    exact h.dev
  · have h0 : 0 ≠ node := fun h0 => absurd (h.parents node 2 hnode).1 (by omega)
    rw [(setMountpoint_attributes s node 1 0).1, (setMountpoint_attributes s node 1 2).1, Vfs.setMountpoint, set_nodes_of_ne s _ h0]
    exact h.covered
  · rw [hdir, hold 1]
    exact h.unlinked
  · rw [hold x]
    exact h.named x hx
  · rw [hold x]
    by_cases hx : x = node
    · rw [hx, Vfs.setMountpoint, set_nodes_self] at hxy
      exact Or.inr ⟨(Option.some.inj hxy).symm, hx ▸ hnode⟩
    · rw [Vfs.setMountpoint, set_nodes_of_ne s _ hx] at hxy
      exact h.mounts x y hxy
  · rw [hold x] at hxp
    rw [hold p]
    exact h.parents x p hxp
  · rw [hold d] at hmap
    exact h.nodup d map hmap
  · rw [hold d] at hmap
    obtain ⟨hlt, hl⟩ := h.linked d map hmap x hx
    rw [hold x]
    refine ⟨hlt, hl.imp_right ?_⟩
    rintro ⟨y, hylt, hy, hylink⟩
    refine ⟨y, hylt, hy, ?_⟩
    rw [hold y]
    exact hylink
  · rw [hlookup] at hx
    obtain ⟨hp, hf, hn, hl⟩ := h.own d k x hk hx
    rw [hold x, hold d]
    exact ⟨hp, hf, hn, (hlookup d _).trans hl⟩
  · rw [hlookup] at hx
    rw [hdir]
    exact h.devices k x hk hx
  · rw [hdir] at hd
    rw [hold d]
    exact h.tables d hd
  · rw [hold x] at hp
    exact h.below x hx hp

/-- The root before it gets its entries. -/
def rootCovered : Vfs := (tmpfsCreate vfsInit 0 slashPath sIfdir).2.setMountpoint 0 2

lemma fresh_rootCovered : Fresh rootCovered := (fresh_vfsInit.tmpfsCreate 0 slashPath sIfdir).set _ (show 0 < 3 by decide)

lemma rootCovered_lookup (d : ℕ) (k : CString) : rootCovered.lookup d k = none :=
  (setMountpoint_lookup _ 0 2 d k).trans ((tmpfsCreate_lookup fresh_vfsInit d k).trans (vfsInit_lookup d k))

lemma rootCovered_cases (x : ℕ) : x = 0 ∨ x = 1 ∨ x = 2 ∨ rootCovered.nodes x = blank := by
  by_cases hx : x < 3
  · omega
  · exact Or.inr (Or.inr (Or.inr (fresh_rootCovered.clear x (not_lt.mp hx))))

lemma rootCovered_table {map : HashMap ℕ} (hmap : (rootCovered.nodes d).children = some map) : childrenOf map = [] := by
  rcases rootCovered_cases d with rfl | rfl | rfl | hd
  · exact absurd hmap.symm (Option.some_ne_none _)
  · exact Option.some.inj hmap ▸ childrenOf_hashmapCreate _
  · exact Option.some.inj hmap ▸ childrenOf_hashmapCreate _
  · rw [hd] at hmap
    exact absurd hmap.symm (Option.some_ne_none _)

lemma shaped_rootCovered : Shaped rootCovered := by
  refine ⟨rfl, rfl, ⟨rfl, rfl, rfl⟩, ⟨rfl, rfl, rfl⟩, ⟨rfl, rfl, rfl⟩, ⟨rfl, rfl⟩, fun x hx => ?_, fun x y hxy => ?_, fun x p hxp => ?_, fun d map hmap => ?_,
    fun d map hmap x hx => ?_, fun d k x hk hx => ?_, fun k x hk hx => ?_, fun d hd => ?_, fun x hx hp => ?_⟩
  · rcases rootCovered_cases x with rfl | rfl | rfl | hx'
    · exact ⟨by decide, by decide⟩
    · exact ⟨by decide, by decide⟩
    · exact absurd rfl hx
    · rw [hx']
      exact ⟨by decide, by decide⟩
  · rcases rootCovered_cases x with rfl | rfl | rfl | hx
    · exact Or.inl ⟨rfl, (Option.some.inj hxy).symm⟩
    · exact absurd hxy.symm (Option.some_ne_none _)
    · exact absurd hxy.symm (Option.some_ne_none _)
    · rw [hx] at hxy
      exact absurd hxy.symm (Option.some_ne_none _)
  · rcases rootCovered_cases x with rfl | rfl | rfl | hx
    · exact absurd hxp.symm (Option.some_ne_none _)
    · exact absurd hxp.symm (Option.some_ne_none _)
    · obtain rfl := Option.some.inj hxp
      exact ⟨by decide, rfl⟩
    · rw [hx] at hxp
      exact absurd hxp.symm (Option.some_ne_none _)
  · rw [rootCovered_table hmap]
    exact List.nodup_nil
  · rw [rootCovered_table hmap] at hx
    exact absurd hx List.not_mem_nil
  · rw [rootCovered_lookup] at hx
    exact absurd hx.symm (Option.some_ne_none _)
  · rw [rootCovered_lookup] at hx
    exact absurd hx.symm (Option.some_ne_none _)
  · rcases rootCovered_cases d with rfl | rfl | rfl | hx
    · exact absurd hd (by decide)
    · exact ⟨_, rfl⟩
    · exact ⟨_, rfl⟩
    · rw [Vfs.isDir, hx] at hd
      exact absurd hd (by decide)
  · by_contra hgt
    obtain rfl : x = 2 := by
      change x < 3 at hx
      omega
    exact absurd hp (Option.some_ne_none _)

lemma shaped_rootMounted : Shaped rootMounted :=
  shaped_rootCovered.createDotentries fresh_rootCovered (show 0 < 3 by decide) rfl (show 2 < 3 by decide) (by decide) rfl rfl

end Shape

section Events

def devPath : CString := ⟨[slash, 0x64, 0x65, 0x76], by decide⟩

/-- The driver sets the mode of the node that it gets. -/
def devfsCreateDevice (s : Vfs) (stale : ℕ → List (BitVec 8)) (name : CString) (fuel : ℕ) : Option (Vfs × Option ℕ) :=
  (vfsGetNode s stale s.devfsRoot name fuel).map fun node => match node with
    | some _ => (s, none)
    | none =>
        let (devNode, s) := vfsCreateNode s (some .devfs) (some s.devfsRoot) name false
        (s.setChild s.devfsRoot name name.strlen devNode, some devNode)

/-- `kernel_main` mounts `devfs` once, before it starts the drivers and the first process. -/
inductive Event
  | create (stale : ℕ → List (BitVec 8)) (parent : ℕ) (name : CString) (mode : BitVec 32)
  | mountDev (stale : ℕ → List (BitVec 8))
  | device (stale : ℕ → List (BitVec 8)) (name : CString) (mode : BitVec 32)
  | chdir (stale : ℕ → List (BitVec 8)) (parent : ℕ) (path : CString)

def Vfs.setMode (s : Vfs) (x : ℕ) (mode : BitVec 32) : Vfs := s.set x { s.nodes x with mode := mode }

/-- Once it is mounted, the root of `devfs` is one of the nodes from which lookups start. -/
def KernelStep (S : System) (a : Event) (S' : System) : Prop :=
  Fits S'.vfs ∧ match a with
    | .create stale parent name mode => SystemStep S (.create stale parent name mode) S'
    | .mountDev stale => S.devfsMounted = false ∧ ∃ fuel b,
        vfsMount S.vfs stale stale 0 none devPath .devfs fuel = some (S'.vfs, b) ∧ S'.devfsMounted = b ∧
        S'.cwds = if b then insert S.vfs.devfsRoot S.cwds else S.cwds
    | .device stale name mode => S.devfsMounted = true ∧ FileName name ∧ sIsdir mode = false ∧
        S'.cwds = S.cwds ∧ S'.devfsMounted = S.devfsMounted ∧ ∃ fuel vfs node,
        devfsCreateDevice S.vfs stale name fuel = some (vfs, node) ∧
        S'.vfs = node.elim vfs (vfs.setMode · mode)
    | .chdir stale parent path => SystemStep S (.chdir stale parent path) S'

structure KernelValid (S : System) : Prop where
  valid : S.Valid
  shaped : Shaped S.vfs
  root : 0 ∈ S.cwds
  dev : S.devfsMounted = true → 1 ∈ S.cwds

variable {cwds : Set ℕ} {flag : Bool} {reduce : ℕ → ℕ} {up : ℕ → Option ℕ} {stale : ℕ → List (BitVec 8)} {fuel : ℕ}

/-- Of a node the invariant of the directories only reads where it leads to, its table and whether it is
a directory. -/
lemma Inv.congr (h : Inv s cwds flag reduce up) (hfresh : Fresh s') (hcount : s'.count = s.count)
    (hroot : s'.vfsRoot = s.vfsRoot) (hdev : s'.devfsRoot = s.devfsRoot)
    (hnodes : ∀ x, (s'.nodes x).link = (s.nodes x).link ∧ (s'.nodes x).mountpoint = (s.nodes x).mountpoint ∧
      (s'.nodes x).children = (s.nodes x).children ∧ s'.isDir x = s.isDir x) : Inv s' cwds flag reduce up := by
  have hlink := fun x => (hnodes x).1
  have hchildren := fun x => (hnodes x).2.2.1
  have hdir := fun x => (hnodes x).2.2.2
  have hlookup : ∀ d k, s'.lookup d k = s.lookup d k := fun d k => by rw [Vfs.lookup, hchildren, Vfs.lookup]
  have hredirect : s'.redirect = s.redirect := funext fun x => by rw [Vfs.redirect, hlink, (hnodes x).2.1, Vfs.redirect]
  have htree : treeOf s' reduce up = treeOf s reduce up :=
    treeOf_ext rfl hroot.symm (fun x => by rw [hdir x]; rfl) (fun d c => (hlookup d c.1).symm) rfl
  refine ⟨⟨hfresh, fun x hx => ?_, fun x hx => ?_, fun d e hd => ?_, fun d c x hc hx => ?_, ?_⟩, ?_, fun x hx => ?_,
    fun hflag => ?_⟩
  · rw [hlink] at hx
    rw [Vfs.reduced, hredirect]
    exact h.reduced x hx
  · rw [hcount] at hx ⊢
    exact h.bounded x hx
  · obtain ⟨⟨map, a, b, hmap, hdot, hdotdot, ha, hb⟩, hdlink, helink, hddir, helt⟩ := h.dotted d e hd
    rw [hlink, hlink, hdir, hcount]
    refine ⟨⟨map, a, b, (hchildren d).trans hmap, hdot, hdotdot, ?_, ?_⟩, hdlink, helink, hddir, helt⟩
    · rw [hlink, ha]
    · rw [hlink, hb]
  · rw [hlookup] at hx
    rw [hlink, hcount]
    exact h.child d c x hc hx
  · rw [hroot, hlink]
    exact h.root_link
  · rw [htree]
    exact h.sound
  · rw [hlink]
    exact h.starts x hx
  · obtain ⟨hunused, hisDir, hdevLink, hdevChildren⟩ := h.devfs hflag
    rw [hdev]
    refine ⟨htree ▸ hunused, ?_, ?_, ?_⟩
    · rw [hdir, hisDir]
    · rw [hlink, hdevLink]
    · rw [hchildren, hdevChildren]

/-- A new node below `e`, before it gets entries of its own. -/
lemma Shaped.entered (h : Shaped s) (hinv : Inv s cwds flag reduce up) (he : (treeOf s reduce up).Place e)
    (hfs : (s.nodes e).fs = some .tmpfs) (hc : FileName c) (mode : BitVec 32) : Shaped (entered s e c mode) := by
  obtain ⟨helt, helink, -, heredirect⟩ := hinv.place he
  have he0 : e ≠ 0 := by
    rintro rfl
    rw [Vfs.redirect, helink, h.covered.1] at heredirect
    simp at heredirect
  rw [entered_eq_grown]
  refine h.grown hinv.fresh helt he0 helink rfl hfs.symm rfl rfl hc (fun map hmap => ?_) (fun he1 => ?_) fun hdir => ?_
  · dsimp only at hmap
    split_ifs at hmap
    exact Option.some.inj hmap ▸ childrenOf_hashmapCreate _
  · rw [he1, h.dev.2.2] at hfs
    simp at hfs
  · exact ⟨_, if_pos hdir⟩

lemma Shaped.create (h : Shaped s) (hinv : Inv s cwds flag reduce up) {parent : ℕ} (hp : parent ∈ cwds) {name : CString}
    {mode : BitVec 32} {node : Option ℕ} (hcreate : vfsCreate s stale parent name mode fuel = some (.returns (s', node))) :
    Shaped s' := by
  obtain ⟨r, hr, hreturn⟩ := vfsCreate_cases hcreate
  rcases createIn_cases hreturn with ⟨rfl, -⟩ | ⟨e, rfl, hfs, hcases⟩
  · exact h
  · obtain ⟨c, copy, hlead⟩ := leads_of_resolve hr
    have hplace := hinv.leads_place hp hlead
    obtain ⟨helt, helink, hedir, -⟩ := hinv.place hplace
    have hc : FileName c := by
      refine ⟨hinv.ordinary_of_missing hp hlead hr, ?_⟩
      obtain ⟨cs, d, hcs, -⟩ := hlead
      exact (mem_components (l := name.1) (by rw [hcs]; simp)).2.1
    have hentered := h.entered hinv hplace hfs hc mode
    rw [hlead.basename] at hcases
    rcases hcases with ⟨hnone, -⟩ | ⟨-, -, rfl⟩
    · obtain ⟨map, hmap⟩ := h.tables e hedir
      rw [tmpfsCreate_nodes s _ _ _ helt.ne, hmap] at hnone
      simp at hnone
    · rw [addEntry_eq, entered_isDir, if_pos rfl]
      cases hmode : sIsdir mode with
      | false => exact hentered
      | true =>
        have hfresh := (hinv.toWired.entered helt hc.ordinary mode).fresh
        have hself : (VfsTree.entered s e c mode).nodes s.count = (tmpfsCreate s e c mode).2.nodes s.count :=
          setChild_nodes_of_ne _ _ _ _ helt.ne'
        rw [tmpfsCreate_self, hmode] at hself
        refine hentered.createDotentries hfresh (Nat.lt_succ_of_lt helt) ?_ (Nat.lt_succ_self _) (Nat.ne_zero_of_lt helt) ?_ ?_
        · rw [entered_link hinv.fresh, helink]
        · rw [hself]
          rfl
        · rw [hself]
          rfl

/-- The node of a driver. -/
def deviceNode (s : Vfs) (name : CString) (mode : BitVec 32) : Node :=
  { blank with name := name, parent := some s.devfsRoot, fs := some .devfs, mode := mode }

lemma device_eq_grown (hs : Fresh s) (name : CString) (mode : BitVec 32) :
    (((vfsCreateNode s (some .devfs) (some s.devfsRoot) name false).2.setChild s.devfsRoot name name.strlen
      s.count).setMode s.count mode) = grown s s.devfsRoot (deviceNode s name mode) := by
  have hne : s.devfsRoot ≠ s.count := hs.devfsRoot_lt.ne
  refine congrArg (fun nodes => (⟨nodes, s.count + 1, s.vfsRoot, s.devfsRoot⟩ : Vfs)) (funext fun x => ?_)
  by_cases hx : x = s.count
  · subst hx
    simp [Vfs.set, Vfs.setChild, vfsCreateNode, deviceNode, blank, Function.update_of_ne hne.symm]
  · by_cases hxd : x = s.devfsRoot
    · subst hxd
      simp [Vfs.set, Vfs.setChild, vfsCreateNode, deviceNode, hx]
    · simp [Vfs.set, Vfs.setChild, vfsCreateNode, deviceNode, hx, hxd]

lemma devfsCreateDevice_cases {name : CString} (mode : BitVec 32) {vfs : Vfs} {node : Option ℕ} (hs : Fresh s)
    (h : devfsCreateDevice s stale name fuel = some (vfs, node)) :
    node.elim vfs (vfs.setMode · mode) = s ∨
      node.elim vfs (vfs.setMode · mode) = grown s s.devfsRoot (deviceNode s name mode) := by
  obtain ⟨r, -, h⟩ := Option.map_eq_some_iff.mp h
  cases r with
  | some y =>
    obtain ⟨rfl, rfl⟩ := Prod.mk.inj h
    exact Or.inl rfl
  | none =>
    obtain ⟨rfl, rfl⟩ := Prod.mk.inj h
    exact Or.inr (device_eq_grown hs name mode)

/-- A driver adds its node to `devfs`. -/
lemma Inv.device (hinv : Inv s cwds flag reduce up) (h : Shaped s) (hdev : (treeOf s reduce up).Place 1) (hc : FileName c)
    {mode : BitVec 32} (hmode : sIsdir mode = false) :
    Inv (grown s s.devfsRoot (deviceNode s c mode)) cwds flag reduce up ∧ Shaped (grown s s.devfsRoot (deviceNode s c mode)) := by
  obtain ⟨hlt, hlink, -, -⟩ := hinv.place hdev
  have hreg : sIsdir sIfreg = false := by decide
  have hfile := hinv.enterFile hdev hc.ordinary hreg
  rw [entered_eq_grown] at hfile
  have hshaped : Shaped (VfsTree.grown s s.devfsRoot (deviceNode s c mode)) := by
    rw [← h.devfsRoot] at hlt hlink
    refine h.grown hinv.fresh hlt (by rw [h.devfsRoot]; decide) hlink rfl ?_ rfl rfl hc (fun map hmap => ?_) (fun _ => hmode) fun hdir => ?_
    · rw [h.devfsRoot, h.dev.2.2]
      rfl
    · simp [deviceNode, blank] at hmap
    · exact absurd (hdir.symm.trans hmode) (by decide)
  refine ⟨?_, hshaped⟩
  rw [h.devfsRoot] at hshaped ⊢
  refine hfile.congr ?_ rfl rfl rfl fun x => ?_
  · refine ⟨fun x hx => ?_, hfile.fresh.vfsRoot_lt, hfile.fresh.devfsRoot_lt⟩
    have hx' : s.count + 1 ≤ x := hx
    rw [grown_nodes (by omega) (by omega), hinv.fresh.clear x (by omega)]
  · by_cases hx : x = s.count
    · subst hx
      rw [Vfs.isDir, Vfs.isDir, grown_self hlt.ne, grown_self hlt.ne]
      exact ⟨rfl, rfl, rfl, hmode.trans hreg.symm⟩
    · have hnew := grown_attributes 1 (deviceNode s c mode) hx
      have hold := grown_attributes 1 { blank with
        name := c
        parent := some 1
        fs := some .tmpfs
        children := if sIsdir sIfreg then some (hashmapCreate ℕ 128 (by decide)) else none
        mode := sIfreg } hx
      refine ⟨hnew.2.2.2.1.trans hold.2.2.2.1.symm, hnew.2.2.2.2.1.trans hold.2.2.2.2.1.symm, ?_,
        hnew.2.2.2.2.2.trans hold.2.2.2.2.2.symm⟩
      by_cases hx1 : x = 1
      · subst hx1
        rw [grown_dir hx, grown_dir hx]
        rfl
      · rw [grown_nodes hx hx1, grown_nodes hx hx1]

/-- A path with one component. -/
lemma components_devPath : components slash devPath.1 = [devName.1] := by decide

lemma ordinary_devName : Ordinary devName := ⟨by decide, by decide, by decide⟩

/-- The root of the file system stays where it is. -/
lemma Shaped.redirect_root (h : Shaped s) : s.redirect 2 = (s.nodes 2).link := by
  cases hm : (s.nodes 2).mountpoint with
  | none => rw [Vfs.redirect, hm, Option.or_none]
  | some y =>
    rcases h.mounts 2 y hm with ⟨h2, -⟩ | ⟨-, hp⟩
    · simp at h2
    · rw [h.root.2.1] at hp
      simp at hp

lemma Shaped.redirect_dev (h : Shaped s) : s.redirect 1 = (s.nodes 1).link := by
  cases hm : (s.nodes 1).mountpoint with
  | none => rw [Vfs.redirect, hm, Option.or_none]
  | some y =>
    rcases h.mounts 1 y hm with ⟨h1, -⟩ | ⟨-, hp⟩
    · simp at h1
    · rw [h.dev.2.1] at hp
      simp at hp

/-- What `"/dev"` leads to before `devfs` is mounted. -/
lemma Shaped.resolve_dev (h : Shaped s) (hinv : Inv s cwds false reduce up) {parent dir node : ℕ}
    (hr : resolve s stale parent devPath = some ⟨some dir, some node⟩) : dir = reduce 0 ∧ (s.nodes node).parent = some dir := by
  obtain ⟨d, ⟨start, -, hd⟩, hwalk⟩ := (resolve_eq_some (by decide)).mp hr
  rw [if_pos (by decide), h.vfsRoot, hinv.reduced 0 (h.vfsRoot ▸ hinv.root_link)] at hd
  obtain rfl := Option.some.inj hd
  rw [components_devPath] at hwalk
  rcases walkFrom_single hwalk with ⟨-, hnone⟩ | ⟨x, m, hx, hm, hres⟩
  · simp at hnone
  · have hord := ordinary_elemStr (stale 0) ordinary_devName
    rw [lastResult] at hres
    split_ifs at hres
    · simp at hres
    · simp only [Path2NodeRes.mk.injEq, Option.some.injEq] at hres
      obtain ⟨rfl, rfl⟩ := hres
      obtain ⟨hp, -⟩ := h.own _ _ x hord hx
      have hlink := (hinv.child _ _ x hord hx).1
      have hself : s.redirect x = none := by
        cases hmount : (s.nodes x).mountpoint with
        | none => rw [Vfs.redirect, hlink, hmount]; rfl
        | some y =>
          have hy : s.redirect x = some y := by rw [Vfs.redirect, hlink, hmount]; rfl
          have hred : s.reduced x = s.reduced y := ending_of_some hy
          rcases h.mounts x y hmount with ⟨rfl, -⟩ | ⟨rfl, -⟩
          · exact absurd (h.parents 0 _ hp).1 (Nat.not_lt_zero _)
          · have hdev := hinv.devfs rfl
            rw [h.devfsRoot] at hdev
            have h1 : s.reduced 1 = some 1 := ending_of_none (h.redirect_dev.trans hdev.link)
            rw [hinv.reduced x hlink, h1] at hred
            have hx1 := hdev.unused.unreached x (Option.some.inj hred)
            rw [hx1, h.dev.2.1] at hp
            simp at hp
      obtain rfl : x = node := Option.some.inj ((ending_of_none hself).symm.trans hm)
      exact ⟨rfl, hp⟩

lemma Shaped.reduced_root (h : Shaped s) : s.reduced 0 = some 2 := by
  obtain ⟨hmount, hlink, hlink2⟩ := h.covered
  have hredirect : s.redirect 0 = some 2 := by rw [Vfs.redirect, hlink, hmount]; rfl
  exact (ending_of_some hredirect).trans (ending_of_none (h.redirect_root.trans hlink2))

lemma Shaped.reduce_root (h : Shaped s) (hinv : Inv s cwds flag reduce up) : reduce 0 = 2 :=
  Option.some.inj ((hinv.reduced 0 h.covered.2.1).symm.trans h.reduced_root)

lemma Shaped.place_root (h : Shaped s) (hinv : Inv s cwds flag reduce up) : (treeOf s reduce up).Place 2 := by
  have hplace : (treeOf s reduce up).Place (reduce s.vfsRoot) := hinv.sound.place_root
  rwa [h.vfsRoot, h.reduce_root hinv] at hplace

/-- The mount of `devfs`. -/
lemma Inv.mountDev (hinv : Inv s cwds false reduce up) (h : Shaped s) (h0 : 0 ∈ cwds) {stale' : ℕ → List (BitVec 8)} {b : Bool}
    (hmount : vfsMount s stale stale' 0 none devPath .devfs fuel = some (s', b)) :
    (s' = s ∧ b = false) ∨ (b = true ∧ Shaped s' ∧ ∃ reduce' up', Inv s' (insert 1 cwds) true reduce' up') := by
  rcases vfsMount_cases hmount with hsame | ⟨dir, node, hr, hnode, hb, hs'⟩
  · exact Or.inl hsame
  · have hresolve := (settles_path2node s stale' 0 devPath).sound fuel _ hr
    obtain ⟨hdir, hparent⟩ := h.resolve_dev hinv hresolve
    rw [h.reduce_root hinv] at hdir
    subst hdir
    have hstate : s' = VfsTree.attach s 2 node 1 := by rw [hs', fsMount, h.devfsRoot]
    have htarget : MountTarget devPath := by
      intro cs c hcs
      rw [components_devPath] at hcs
      obtain ⟨-, hc⟩ := List.append_eq_singleton_iff.mp hcs.symm |>.resolve_right (by simp)
      rw [List.singleton_inj.mp hc]
      decide
    have hcover := hinv.coverAt h0 htarget hresolve hnode
    have hplace := (hinv.sound.coverAt hcover).1
    have hunused := hinv.devfs rfl
    rw [h.devfsRoot] at hunused
    have hattr := setMountpoint_attributes s node 1
    have hattach : Inv (VfsTree.attach s 2 node 1) cwds true _ _ := hinv.attach hunused hcover (by simp)
    rw [← hstate] at hattach
    refine Or.inr ⟨hb, ?_, _, _, hattach.toWired, hattach.sound, fun x hx => ?_, fun hflag => absurd hflag (by decide)⟩
    · rw [hstate]
      refine (h.setMountpoint hparent).createDotentries (hinv.fresh.set _ (hinv.place hplace).1)
        (hinv.fresh.lt_of_parent h.root.2.1) ?_ (h.devfsRoot ▸ hinv.fresh.devfsRoot_lt) one_ne_zero ?_ ?_
      · exact (hattr 2).1.trans h.covered.2.2
      · exact (hattr 1).1.trans hunused.link
      · exact (hattr 1).2.1.trans hunused.children
    · rcases hx with rfl | hx
      · have hself : reduce 1 = 1 := hunused.unused.reduce_self
        have hne : (1 : ℕ) ≠ node := (hplace.ne_unused hunused.unused).symm
        have hup : Function.update up 1 (some 2) 1 = some 2 := Function.update_self ..
        refine ⟨?_, ?_⟩
        · exact (hattach.dotted 1 2 hup).2.1
        · rw [hself, if_neg hne, hup]
          exact Option.some_ne_none 2
      · exact hattach.starts x hx

lemma Shaped.place_dev (h : Shaped s) (hinv : Inv s cwds flag reduce up) (h1 : 1 ∈ cwds) :
    (treeOf s reduce up).Place 1 := by
  obtain ⟨hlink, habove⟩ := hinv.starts 1 h1
  have hred : s.reduced 1 = some 1 := ending_of_none (h.redirect_dev.trans hlink)
  have hself : reduce 1 = 1 := Option.some.inj ((hinv.reduced 1 hlink).symm.trans hred)
  rw [hself] at habove
  exact ⟨hself, habove⟩

lemma KernelValid.step (S : System) (a : Event) (S' : System) (h : KernelValid S) (hstep : KernelStep S a S') :
    KernelValid S' := by
  obtain ⟨-, hstep⟩ := hstep
  cases a with
  | create stale parent name mode =>
    have hvalid := h.valid.step S _ S' hstep
    obtain ⟨reduce, up, hinv⟩ := h.valid
    obtain ⟨hp, hcwds, hflag, fuel, node, hcreate⟩ := hstep
    exact ⟨hvalid, h.shaped.create hinv hp hcreate, hcwds ▸ h.root, hcwds ▸ hflag ▸ h.dev⟩
  | chdir stale parent path =>
    have hvalid := h.valid.step S _ S' hstep
    obtain ⟨-, fuel, d, -, -, rfl⟩ := hstep
    exact ⟨hvalid, h.shaped, Set.mem_insert_of_mem d h.root, fun hdev => Set.mem_insert_of_mem d (h.dev hdev)⟩
  | mountDev stale =>
    obtain ⟨reduce, up, hinv⟩ := h.valid
    obtain ⟨hflag, fuel, b, hmount, hflag', hcwds⟩ := hstep
    rw [hflag] at hinv
    rcases hinv.mountDev h.shaped h.root hmount with ⟨hs, rfl⟩ | ⟨rfl, hshaped, hvalid⟩
    · rw [if_neg (by decide)] at hcwds
      refine ⟨⟨reduce, up, ?_⟩, hs ▸ h.shaped, hcwds ▸ h.root, fun hdev => absurd (hflag'.symm.trans hdev) (by decide)⟩
      rw [hs, hcwds, hflag']
      exact hinv
    · rw [if_pos rfl, h.shaped.devfsRoot] at hcwds
      refine ⟨?_, hshaped, hcwds ▸ Set.mem_insert_of_mem 1 h.root, fun _ => hcwds ▸ Set.mem_insert 1 _⟩
      rw [System.Valid, hcwds, hflag']
      exact hvalid
  | device stale name mode =>
    obtain ⟨reduce, up, hinv⟩ := h.valid
    obtain ⟨hflag, hname, hmode, hcwds, hflag', fuel, vfs, node, hcreate, hvfs⟩ := hstep
    have hcases := devfsCreateDevice_cases mode hinv.fresh hcreate
    rw [← hvfs] at hcases
    have hplace := h.shaped.place_dev hinv (h.dev hflag)
    have hnew : Inv S'.vfs S.cwds S.devfsMounted reduce up ∧ Shaped S'.vfs := by
      rcases hcases with hs | hs
      · rw [hs]
        exact ⟨hinv, h.shaped⟩
      · rw [hs]
        exact hinv.device h.shaped hplace hname hmode
    refine ⟨⟨reduce, up, ?_⟩, hnew.2, hcwds ▸ h.root, hcwds ▸ hflag' ▸ h.dev⟩
    rw [hcwds, hflag']
    exact hnew.1

lemma kernelValid_systemInit : KernelValid systemInit :=
  ⟨⟨_, _, inv_systemInit⟩, shaped_rootMounted, rfl, fun h => absurd h (by decide)⟩

lemma kernelValid_of_run {events : List Event} {S : System} (h : Run KernelStep systemInit events S) : KernelValid S :=
  h.invariant KernelValid.step kernelValid_systemInit

lemma fits_of_run {events : List Event} {S : System} (h : Run KernelStep systemInit events S) : Fits S.vfs := by
  have hkeep : ∀ S a S', Fits S.vfs → KernelStep S a S' → Fits S'.vfs := fun _ _ _ _ hstep => hstep.1
  exact h.invariant hkeep (by unfold Fits; decide)

end Events

section OneDirectory
variable (c : CString)

lemma withDir_eq : (withDir c).vfs = createDotentries (entered rootMounted 2 c sIfdir) 2 5 := by
  change addEntry (tmpfsCreate rootMounted 2 c sIfdir).2 2 c rootMounted.count = _
  rw [addEntry_eq, if_pos]
  · rfl
  · exact (entered_isDir rootMounted 2 c sIfdir 5).trans rfl

lemma withDir_name : ((withDir c).vfs.nodes 5).name = c := by
  rw [withDir_eq, createDotentries_node _ 2 (show 5 < 6 by decide), entered_eq_grown]
  exact congrArg Node.name (grown_self (show 2 ≠ 5 by decide))

lemma withDir_old {x : ℕ} (hx : x < 5) : ((withDir c).vfs.nodes x).name = (rootMounted.nodes x).name := by
  rw [withDir_eq, createDotentries_nodes _ 2 (Or.inl (show x < 6 by omega)) (by omega), entered_eq_grown]
  exact (grown_attributes 2 _ (show x ≠ 5 by omega)).1

lemma withDir_count : (withDir c).vfs.count = 8 := by
  rw [withDir_eq]
  rfl

lemma withDir_names : ((List.range (withDir c).vfs.count).map fun x => ((withDir c).vfs.nodes x).name.strlen + 1).sum =
    c.strlen + 18 := by
  have h6 : ((withDir c).vfs.nodes 6).name = dot := by
    rw [withDir_eq]
    exact congrArg Node.name (createDotentries_dot _ 2 (show 5 < 6 by decide))
  have h7 : ((withDir c).vfs.nodes 7).name = dotdot := by
    rw [withDir_eq]
    exact congrArg Node.name (createDotentries_dotdot _ 2 (show 5 < 6 by decide))
  have hrange : List.range 8 = [0, 1, 2, 3, 4, 5, 6, 7] := by decide
  have hnames : ((rootMounted.nodes 0).name.strlen + 1) + ((rootMounted.nodes 1).name.strlen + 1) +
      ((rootMounted.nodes 2).name.strlen + 1) + ((rootMounted.nodes 3).name.strlen + 1) +
      ((rootMounted.nodes 4).name.strlen + 1) + (dot.strlen + 1) + (dotdot.strlen + 1) = 17 := by decide
  rw [withDir_count, hrange]
  simp only [List.map_cons, List.map_nil, List.sum_cons, List.sum_nil]
  rw [withDir_old c (by decide), withDir_old c (by decide), withDir_old c (by decide), withDir_old c (by decide),
    withDir_old c (by decide), withDir_name, h6, h7]
  omega

lemma withDir_fits (hc : c.strlen ≤ 2 ^ 46) : Fits (withDir c).vfs := by
  rw [Fits, withDir_names]
  omega

lemma kernelRun_withDir (hslash : slash ∉ c.1) (hord : Ordinary c) (hc : c.strlen ≤ 2 ^ 46) :
    Run KernelStep systemInit [.create (fun _ => []) 0 (join emptyPath c) sIfdir] (withDir c) := by
  cases run_withDir hslash hord with
  | cons hstep hnil =>
    cases hnil
    exact .single ⟨withDir_fits c hc, hstep⟩

end OneDirectory

end PiggyOs.VfsTree
