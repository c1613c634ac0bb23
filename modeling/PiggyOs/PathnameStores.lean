import PiggyOs.Getcwd

/-! Where `vfs_get_pathname` writes to, counted from the start of the buffer. -/
namespace PiggyOs.VfsTree
open Hash CString Separated Fuel IntrusiveList Filter Transition CoveredTree ByteMemory

variable {s : Vfs} {d e m n x y : ℕ} {c k p q : CString} {len : BitVec 64}

/-- Bytes that are stored one after the other. -/
structure Store where
  start : ℕ
  size : BitVec 64
  content : ℕ → BitVec 8

def Store.apply (mem : Memory) (store : Store) : Option Memory :=
  if store.size.msb then none else some (blit mem store.start store.content store.size.toNat)

/-- All of it belongs to the first `len` bytes. -/
def Store.Within (store : Store) (len : BitVec 64) : Prop := ∀ k < store.size.toNat, store.start + k < len.toNat

def slashStore (offset : ℕ) : Store := ⟨offset, 1, fun _ => slash⟩

def nameStore (offset : ℕ) (name : CString) (len : BitVec 64) : Store := ⟨offset, len, fun k => name.1.getD k 0⟩

/-- The length that `vfs_get_pathname` returns, and its stores in their order. -/
def pathnameStores (s : Vfs) : ℕ → ℕ → BitVec 64 → Option (ℕ × List Store)
  | 0, _, _ => none
  | fuel + 1, node, len =>
      if node = s.vfsRoot then
        (vfsReduceNode s fuel node).map fun root => ((s.nodes root).name.strlen, [nameStore 0 (s.nodes root).name len])
      else
        let above := match (s.nodes node).parent with
          | none => some (0, [])
          | some parent =>
              if parent = s.vfsRoot then some (0, [])
              else (vfsReduceNode s fuel parent).bind fun parent =>
                if parent = s.vfsRoot then some (0, [])
                else (pathnameStores s fuel parent (len - 1)).map fun (offset, stores) =>
                  (offset + 1, stores ++ [slashStore offset])
        above.map fun (offset, stores) =>
          if (s.nodes node).name ≠ slashPath then
            ((s.nodes node).name.strlen + offset,
              stores ++ [nameStore offset (s.nodes node).name (len - BitVec.ofNat 64 offset)])
          else (offset, stores)

/-- No byte behind the buffer is written. -/
def StaysInside (s : Vfs) (n : ℕ) (len : BitVec 64) : Prop :=
  ∀ᶠ fuel in atTop, ∃ r stores, pathnameStores s fuel n len = some (r, stores) ∧ ∀ store ∈ stores, store.Within len

section Replay
variable {mem : Memory}

lemma strncpy_eq_apply (mem : Memory) (offset : ℕ) (name : CString) (len : BitVec 64) :
    strncpy mem offset name len = (nameStore offset name len).apply mem := rfl

lemma apply_slashStore (mem : Memory) (offset : ℕ) :
    (slashStore offset).apply mem = some (Function.update mem offset slash) := by
  have hmsb : (slashStore offset).size.msb = false := show (1#64).msb = false by decide
  rw [Store.apply, hmsb, if_neg (by decide), Option.some_inj]
  funext k
  by_cases hk : k = offset
  · subst hk
    rw [Function.update_self]
    exact blit_inside mem (fun _ => slash) Nat.one_pos
  · rw [Function.update_of_ne hk]
    exact blit_outside mem _ (by change k < offset ∨ offset + 1 ≤ k; omega)

/-- The name behind what is above it. -/
lemma nameStore_behind (mem : Memory) (name : CString) (len : BitVec 64) (above : Option (ℕ × List Store)) :
    ((above.bind fun (r, stores) => (stores.foldlM Store.apply mem).map fun mem => (r, mem)).bind fun (offset, mem) =>
      if name ≠ slashPath then
        (strncpy mem offset name (len - BitVec.ofNat 64 offset)).map fun mem => (name.strlen + offset, mem)
      else some (offset, mem)) =
    (above.map fun (offset, stores) => if name ≠ slashPath then
      (name.strlen + offset, stores ++ [nameStore offset name (len - BitVec.ofNat 64 offset)])
      else (offset, stores)).bind fun (r, stores) => (stores.foldlM Store.apply mem).map fun mem => (r, mem) := by
  cases above with
  | none => rfl
  | some above =>
    obtain ⟨offset, stores⟩ := above
    by_cases hname : name ≠ slashPath
    · simp only [Option.bind_some, Option.map_some, if_pos hname, List.foldlM_append, strncpy_eq_apply]
      cases stores.foldlM Store.apply mem <;> simp
    · simp only [Option.bind_some, Option.map_some, if_neg hname]
      cases stores.foldlM Store.apply mem <;> rfl

/-- The stores, made one after the other, are what the call does to the memory. -/
lemma vfsGetPathname_eq_stores (s : Vfs) (mem : Memory) (fuel n : ℕ) (len : BitVec 64) :
    vfsGetPathname s mem fuel n len = (pathnameStores s fuel n len).bind fun (r, stores) =>
      (stores.foldlM Store.apply mem).map fun mem => (r, mem) := by
  induction fuel generalizing n len with
  | zero => rfl
  | succ fuel ih =>
    rw [vfsGetPathname, pathnameStores]
    by_cases hroot : n = s.vfsRoot
    · rw [if_pos hroot, if_pos hroot]
      cases vfsReduceNode s fuel n with
      | none => rfl
      | some root => simp [strncpy_eq_apply]
    · rw [if_neg hroot, if_neg hroot, ← nameStore_behind]
      dsimp only
      congr 1
      cases (s.nodes n).parent with
      | none => rfl
      | some e =>
        by_cases he : e = s.vfsRoot
        · simp [he]
        · cases hm : vfsReduceNode s fuel e with
          | none => simp [he, hm]
          | some m =>
            by_cases hmroot : m = s.vfsRoot
            · simp [he, hm, hmroot]
            · simp only [he, hm, hmroot, if_false, Option.bind_some, ih]
              cases pathnameStores s fuel m (len - 1) with
              | none => rfl
              | some above =>
                simp only [Option.bind_some, Option.map_some, List.foldlM_append]
                cases above.2.foldlM Store.apply mem with
                | none => rfl
                | some mem => simp [apply_slashStore]

end Replay

section Extents

lemma Spelled.unique (h : Shaped s) (hp : Spelled s n p) (hq : Spelled s n q) : p = q := by
  induction hp generalizing q with
  | root =>
    cases hq with
    | root => rfl
    | child hparent he0 => exact absurd (Option.some.inj (h.root.2.1.symm.trans hparent)).symm he0
  | dev =>
    cases hq with
    | dev => rfl
    | child hparent => exact absurd (h.dev.2.1.symm.trans hparent) (by simp)
  | @child n e m p hparent he0 hm hm0 hp ih =>
    cases hq with
    | root => exact absurd (Option.some.inj (hparent.symm.trans h.root.2.1)) he0
    | dev => exact absurd (hparent.symm.trans h.dev.2.1) (by simp)
    | child hparent' _ hm' _ hq =>
      obtain rfl := Option.some.inj (hparent.symm.trans hparent')
      obtain rfl := Option.some.inj (hm.symm.trans hm')
      rw [ih hq]

/-- The name is filled up to the end of the buffer, unless it would start behind it. -/
lemma within_nameStore {offset : ℕ} (hoffset : offset ≤ len.toNat) (name : CString) :
    (nameStore offset name (len - BitVec.ofNat 64 offset)).Within len := by
  have hlt := len.isLt
  have hsize : (len - BitVec.ofNat 64 offset).toNat = len.toNat - offset := by
    rw [BitVec.toNat_sub, BitVec.toNat_ofNat]
    omega
  intro k hk
  change k < (len - BitVec.ofNat 64 offset).toNat at hk
  change offset + k < len.toNat
  omega

lemma within_nameStore_zero (name : CString) (len : BitVec 64) : (nameStore 0 name len).Within len := fun k hk => by
  change k < len.toNat at hk
  change 0 + k < len.toNat
  omega

lemma within_slashStore {offset : ℕ} : (slashStore offset).Within len ↔ offset < len.toNat := by
  constructor
  · exact fun h => h 0 Nat.one_pos
  · intro h k hk
    change k < 1 at hk
    change offset + k < len.toNat
    omega

/-- The stores of a call for a node, and the condition under which they stay in the buffer. -/
lemma Spelled.stores (h : Shaped s) (hn : Spelled s n p) (len : BitVec 64) :
    ∃ stores, Settles (fun fuel => pathnameStores s fuel n len) (some (p.strlen, stores)) ∧
      ((∀ store ∈ stores, store.Within len) ↔ p.1 = [] ∨ p.strlen ≤ len.toNat + (s.nodes n).name.strlen) := by
  induction hn generalizing len with
  | root =>
    refine ⟨[], Settles.of_succ rfl ?_, iff_of_true (by simp) (Or.inl rfl)⟩
    simp only [pathnameStores, h.vfsRoot, h.root.2.1, h.root.1]
    exact settles_const _
  | dev =>
    refine ⟨[nameStore 0 devName len], Settles.of_succ rfl ?_, iff_of_true ?_ (Or.inr ?_)⟩
    · have hne : devName ≠ slashPath := by decide
      simp only [pathnameStores, h.vfsRoot, h.dev.2.1, h.dev.1, one_ne_zero, if_false, hne, ne_eq, not_false_eq_true,
        if_true, Option.map_some, BitVec.sub_zero, List.nil_append, Nat.add_zero]
      exact settles_const _
    · intro store hstore
      rw [List.mem_singleton.mp hstore]
      exact within_nameStore_zero devName len
    · rw [h.dev.1]
      exact Nat.le_add_left _ _
  | @child n e m p hparent he0 hm hm0 hp ih =>
    obtain ⟨stores, hsettles, hwithin⟩ := ih (len - 1)
    have hn0 : n ≠ 0 := Nat.ne_zero_of_lt (h.parents n e hparent).1
    have hn2 : n ≠ 2 := by
      rintro rfl
      exact he0 (Option.some.inj (hparent.symm.trans h.root.2.1))
    have hname := (h.named n hn2).1
    refine ⟨(stores ++ [slashStore p.strlen]) ++
      [nameStore (p.strlen + 1) (s.nodes n).name (len - BitVec.ofNat 64 (p.strlen + 1))], Settles.of_succ rfl ?_, ?_⟩
    · have habove : Settles (fun fuel => (vfsReduceNode s fuel e).bind fun parent => if parent = 0 then some (0, [])
          else (pathnameStores s fuel parent (len - 1)).map fun (offset, stores) =>
            (offset + 1, stores ++ [slashStore offset])) (some (p.strlen + 1, stores ++ [slashStore p.strlen])) := by
        have hreduced := settles_reduced s e
        rw [hm] at hreduced
        refine hreduced.bind (w := fun _ => _) fun a ha => ?_
        obtain rfl := Option.some.inj ha
        simp only [if_neg hm0]
        exact hsettles.map _
      have hcall := habove.map fun (offset, stores) => ((s.nodes n).name.strlen + offset,
        stores ++ [nameStore offset (s.nodes n).name (len - BitVec.ofNat 64 offset)])
      simp only [pathnameStores, h.vfsRoot, hn0, if_false, hparent, he0, hname, ne_eq, not_false_eq_true, if_true]
      rw [strlen_join, Nat.add_comm (p.strlen + 1)]
      exact hcall
    · rw [or_iff_right (join_ne_nil _ _), strlen_join]
      constructor
      · intro hall
        have hslash := within_slashStore.mp (hall (slashStore p.strlen) (by simp))
        omega
      · intro hfits store hstore
        have hlt : p.strlen < len.toNat := by omega
        have hone : (len - 1).toNat = len.toNat - 1 := by
          rw [BitVec.toNat_sub_of_le (by rw [BitVec.le_def]; change 1 ≤ len.toNat; omega)]
          rfl
        rcases List.mem_append.mp hstore with hstore | hstore
        · rcases List.mem_append.mp hstore with hstore | hstore
          · have hbelow := hwithin.mpr (Or.inr (by omega)) store hstore
            intro k hk
            have hk' := hbelow k hk
            omega
          · rw [List.mem_singleton.mp hstore]
            exact within_slashStore.mpr hlt
        · rw [List.mem_singleton.mp hstore]
          exact within_nameStore hlt _

lemma staysInside_iff {r : ℕ} {stores : List Store}
    (h : Settles (fun fuel => pathnameStores s fuel n len) (some (r, stores))) :
    StaysInside s n len ↔ ∀ store ∈ stores, store.Within len := by
  constructor
  · intro hinside
    obtain ⟨fuel, ⟨r', stores', hfuel, hall⟩, hfuel'⟩ := (hinside.and h.eventually).exists
    obtain ⟨rfl, rfl⟩ := Prod.mk.inj (Option.some.inj (hfuel'.symm.trans hfuel))
    exact hall
  · intro hall
    filter_upwards [h.eventually] with fuel hfuel
    exact ⟨r, stores, hfuel, hall⟩

lemma Spelled.staysInside_iff (h : Shaped s) (hn : Spelled s n p) :
    StaysInside s n len ↔ p.1 = [] ∨ p.strlen ≤ len.toNat + (s.nodes n).name.strlen := by
  obtain ⟨stores, hsettles, hwithin⟩ := hn.stores h len
  rw [VfsTree.staysInside_iff hsettles, hwithin]

end Extents

section OneChild

/-- A file in the one directory. -/
def withChild (c k : CString) : System := ⟨entered (withDir c).vfs 5 k sIfreg, {0}, false⟩

lemma withDir_node (c : CString) : (withDir c).vfs.nodes 5 =
    ⟨c, sIfdir, some 2, none, none, some (dotMap 6 7), some .tmpfs⟩ := by
  rw [withDir_eq, createDotentries_node _ 2 (show 5 < 6 by decide), entered_eq_grown]
  have hself : ∀ new : Node, (grown rootMounted 2 new).nodes 5 = new := fun new => grown_self (show 2 ≠ 5 by decide)
  rw [hself]
  rfl

lemma withDir_descends (c : CString) : Descends (withDir c).vfs 2 [c] 5 := by
  obtain ⟨hnode, hdir⟩ := withDir_new c
  refine .cons ?_ (ending_of_none hnode) hdir (.nil 5)
  rw [Vfs.lookup, withDir_children, Option.bind_some, hashmapGet_hashmapSet_self]

lemma components_file (hslash : slash ∉ c.1) (hc : Ordinary c) (hkslash : slash ∉ k.1) (hk : Ordinary k) :
    components slash (join (join emptyPath c) k).1 = [c.1] ++ [k.1] := by
  change components slash ((join emptyPath c).1 ++ slash :: k.1) = _
  rw [components_append_of_notMem _ hkslash hk.1, components_root hslash hc]

lemma step_withChild (hslash : slash ∉ c.1) (hc : Ordinary c) (hkslash : slash ∉ k.1) (hk : Ordinary k) :
    SystemStep (withDir c) (.create (fun _ => []) 0 (join (join emptyPath c) k) sIfreg) (withChild c k) := by
  have hleads : Leads (withDir c).vfs (fun _ => []) 0 (join (join emptyPath c) k) 5 k k := by
    refine ⟨[c.1], 2, components_file hslash hc hkslash hk, (elemStr_nil k).symm, withDir_starts c _ rfl, ?_⟩
    simp only [copies, elemStr_nil]
    exact withDir_descends c
  have hmissing : (withDir c).vfs.lookup 5 k = none := by
    rw [Vfs.lookup, withDir_node]
    exact dotMap_ordinary 6 7 hk
  have hcreate := (settles_vfsCreate (withDir c).vfs (fun _ => []) 0 (join (join emptyPath c) k) sIfreg).eventually
  rw [hleads.resolve, walkFrom, hmissing, Option.map_some] at hcreate
  obtain ⟨fuel, hfuel⟩ := hcreate.exists
  have hchildren : ((tmpfsCreate (withDir c).vfs 5 (basename (join (join emptyPath c) k)) sIfreg).2.nodes 5).children ≠ none := by
    rw [tmpfsCreate_nodes _ _ _ _ (by rw [withDir_count]; decide), withDir_node]
    exact Option.some_ne_none _
  refine ⟨rfl, rfl, rfl, fuel, some 8, hfuel.trans ?_⟩
  rw [createIn_tmpfs (by rw [withDir_node]) sIfreg hchildren, hleads.basename, addEntry_eq, if_neg, withDir_count]
  · rfl
  · rw [entered_isDir, if_pos rfl]
    decide

lemma sum_names_grown {new : Node} (he : e ≠ s.count) :
    ((List.range (grown s e new).count).map fun x => ((grown s e new).nodes x).name.strlen + 1).sum =
      ((List.range s.count).map fun x => (s.nodes x).name.strlen + 1).sum + (new.name.strlen + 1) := by
  have hold : ((List.range s.count).map fun x => ((grown s e new).nodes x).name.strlen + 1) =
      (List.range s.count).map fun x => (s.nodes x).name.strlen + 1 :=
    List.map_congr_left fun x hx => by rw [(grown_attributes e new (List.mem_range.mp hx).ne).1]
  rw [show (grown s e new).count = s.count + 1 from rfl, List.range_succ, List.map_append, List.sum_append, hold,
    List.map_singleton, List.sum_singleton, grown_self he]

lemma withChild_spelled (c k : CString) (h : Shaped (withChild c k).vfs) :
    Spelled (withChild c k).vfs 8 (join (join emptyPath c) k) ∧ ((withChild c k).vfs.nodes 8).name = k := by
  have hcount := withDir_count c
  have hgrown : (withChild c k).vfs = _ := entered_eq_grown (withDir c).vfs 5 k sIfreg
  have hself : ((withChild c k).vfs.nodes 8).name = k ∧ ((withChild c k).vfs.nodes 8).parent = some 5 := by
    rw [hgrown, ← hcount, grown_self (by rw [hcount]; decide)]
    exact ⟨rfl, rfl⟩
  have hold := grown_attributes (s := (withDir c).vfs) (d := 5) 5 { blank with
    name := k
    parent := some 5
    fs := some .tmpfs
    children := if sIsdir sIfreg then some (hashmapCreate ℕ 128 (by decide)) else none
    mode := sIfreg } (by rw [hcount]; decide)
  rw [← hgrown, withDir_node] at hold
  obtain ⟨hname, hparent, -, hlink, hmount, -⟩ := hold
  have hredirect : (withChild c k).vfs.redirect 5 = none := by
    rw [Vfs.redirect, hlink, hmount]
    rfl
  have hroot : (withChild c k).vfs.reduced 2 = some 2 := ending_of_none (h.redirect_root.trans h.covered.2.2)
  have hdir : Spelled (withChild c k).vfs 5 (join emptyPath ((withChild c k).vfs.nodes 5).name) :=
    .child hparent (by decide) hroot (by decide) .root
  have hfile : Spelled (withChild c k).vfs 8 _ := .child hself.2 (by decide) (ending_of_none hredirect) (by decide) hdir
  rw [hself.1, hname] at hfile
  exact ⟨hfile, hself.1⟩

lemma kernelRun_withChild (hslash : slash ∉ c.1) (hc : Ordinary c) (hkslash : slash ∉ k.1) (hk : Ordinary k)
    (hlen : c.strlen + k.strlen ≤ 2 ^ 46) : ∃ events, Run KernelStep systemInit events (withChild c k) := by
  have hstep : KernelStep (withDir c) (.create (fun _ => []) 0 (join (join emptyPath c) k) sIfreg) (withChild c k) := by
    refine ⟨?_, step_withChild hslash hc hkslash hk⟩
    rw [Fits, withChild, entered_eq_grown, sum_names_grown (by rw [withDir_count]; decide), withDir_names]
    change c.strlen + 18 + (k.strlen + 1) ≤ 2 ^ 47
    omega
  exact ⟨_, (kernelRun_withDir c hslash hc (by omega)).append (.single hstep)⟩

end OneChild

section Runs
variable {S : System} {events : List Event}

/-- The call stays in a buffer that is not empty if and only if the pathname of the directory that the node
is in, if there is one, is shorter than the buffer. -/
theorem pathname_staysInside_iff (hrun : Run KernelStep systemInit events S) (hn : n < S.vfs.count) (hlen : len ≠ 0) :
    StaysInside S.vfs n len ↔ ∀ e m q, (S.vfs.nodes n).parent = some e → S.vfs.reduced e = some m →
      Spelled S.vfs m q → q.strlen < len.toNat := by
  obtain ⟨⟨reduce, up, hinv⟩, h, -⟩ := kernelValid_of_run hrun
  have hpos : 0 < len.toNat := Nat.pos_of_ne_zero fun h0 => hlen (BitVec.eq_of_toNat_eq h0)
  by_cases hn0 : n = 0
  · subst hn0
    have hsettles : Settles (fun fuel => pathnameStores S.vfs fuel 0 len) (some (slashPath.strlen, [nameStore 0 slashPath len])) := by
      have hreduced := settles_reduced S.vfs 0
      rw [h.reduced_root] at hreduced
      refine Settles.of_succ rfl ?_
      simp only [pathnameStores, h.vfsRoot, if_true]
      have hcall := hreduced.map fun root => ((S.vfs.nodes root).name.strlen, [nameStore 0 (S.vfs.nodes root).name len])
      rwa [Option.map_some, h.root.1] at hcall
    refine (staysInside_iff hsettles).trans (iff_of_true (fun store hstore => ?_) fun e m q hparent => ?_)
    · rw [List.mem_singleton.mp hstore]
      exact within_nameStore_zero slashPath len
    · exact absurd (h.parents 0 e hparent).1 (Nat.not_lt_zero e)
  · obtain ⟨p, hp⟩ := UserAccess.exists_spelled h hinv hn hn0
    rw [hp.staysInside_iff h]
    cases hp with
    | root =>
      refine iff_of_true (Or.inl rfl) fun e m q hparent hm hq => ?_
      obtain rfl := Option.some.inj (h.root.2.1.symm.trans hparent)
      obtain rfl := Option.some.inj (h.reduced_root.symm.trans hm)
      rwa [hq.unique h .root]
    | dev =>
      refine iff_of_true (Or.inr ?_) fun e m q hparent => ?_
      · rw [h.dev.1]
        exact Nat.le_add_left _ _
      · exact absurd (h.dev.2.1.symm.trans hparent) (by simp)
    | @child _ e m p hparent he0 hm hm0 hp =>
      rw [or_iff_right (join_ne_nil _ _), strlen_join]
      constructor
      · intro hfits e' m' q hparent' hm' hq
        obtain rfl := Option.some.inj (hparent.symm.trans hparent')
        obtain rfl := Option.some.inj (hm.symm.trans hm')
        rw [hq.unique h hp]
        omega
      · intro hall
        have hlt := hall e m p hparent hm hp
        omega

/-- The directory `/a`, in the name of a process. -/
theorem pathname_staysInside_dir : StaysInside (withDir dirName).vfs 5 255#64 := by
  have hord : Ordinary dirName := ⟨by decide, by decide, by decide⟩
  have hrun := kernelRun_withDir dirName (by decide) hord (by decide)
  obtain ⟨-, h, -⟩ := kernelValid_of_run hrun
  refine (pathname_staysInside_iff hrun (by rw [withDir_count]; decide) (by decide)).mpr fun e m q hparent hm hq => ?_
  rw [withDir_node] at hparent
  obtain rfl := Option.some.inj hparent
  have hred : (withDir dirName).vfs.reduced 2 = some 2 := ending_of_none (h.redirect_root.trans h.covered.2.2)
  obtain rfl := Option.some.inj (hred.symm.trans hm)
  rw [hq.unique h .root]
  decide

def deepName : CString := ⟨List.replicate 300 0x61, fun h => absurd (List.eq_of_mem_replicate h) (by decide)⟩

/-- The file `/aa…a/a`, below a directory whose name has 300 bytes, in the name of a process. -/
theorem pathname_leaves_name : ∃ events S n, Run KernelStep systemInit events S ∧ n < S.vfs.count ∧
    ¬StaysInside S.vfs n 255#64 := by
  have hlen : deepName.strlen = 300 := List.length_replicate
  have hslash : slash ∉ deepName.1 := fun h => absurd (List.eq_of_mem_replicate h) (by decide)
  have hne : ∀ k : CString, k.strlen ≠ 300 → deepName ≠ k := by
    rintro k hk rfl
    exact hk hlen
  have hord : Ordinary deepName := by
    refine ⟨fun h => ?_, hne dot (by decide), hne dotdot (by decide)⟩
    rw [CString.strlen, h] at hlen
    exact absurd hlen (by decide)
  have hdir : Ordinary dirName := ⟨by decide, by decide, by decide⟩
  obtain ⟨events, hrun⟩ := kernelRun_withChild hslash hord (k := dirName) (by decide) hdir
    (by rw [hlen]; decide)
  obtain ⟨-, h, -⟩ := kernelValid_of_run hrun
  have hcount : (withChild deepName dirName).vfs.count = 9 := congrArg Nat.succ (withDir_count deepName)
  refine ⟨events, _, 8, hrun, by rw [hcount]; decide, fun hinside => ?_⟩
  obtain ⟨hspelled, hname⟩ := withChild_spelled deepName dirName h
  rcases (hspelled.staysInside_iff h).mp hinside with hnil | hfits
  · exact join_ne_nil _ _ hnil
  · rw [hname, strlen_join, strlen_join, hlen] at hfits
    exact absurd hfits (by decide)

end Runs

end PiggyOs.VfsTree
