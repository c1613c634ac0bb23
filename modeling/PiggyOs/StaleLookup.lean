import PiggyOs.Getcwd

/-! What a lookup takes from the bytes that a block of pages held before. -/
namespace PiggyOs.VfsTree
open Hash CString Separated Fuel IntrusiveList Filter Transition CoveredTree

variable {s : Vfs} {d e m n x : ℕ} {c c' : CString} {S : System} {events : List Event} {stale : ℕ → List (BitVec 8)}
  {parent : ℕ} {path : CString} {cs cs' pre post : List CString} {askForDir : Bool}

/-- The node that is returned is the same whatever is behind the copies of the components. -/
def StaleIndependent (s : Vfs) (parent : ℕ) (path : CString) : Prop :=
  ∀ stale stale', ∀ᶠ fuel in atTop, vfsGetNode s stale parent path fuel = vfsGetNode s stale' parent path fuel

/-- The same component, or if it does not fit into a block of a cache, one that begins with it. -/
def Completes (c c' : CString) : Prop := c' = c ∨ (2047 < c.strlen ∧ c.1 <+: c'.1)

/-- A node has these components as its name and the names of the directories on the way to it. -/
def NamesNode (s : Vfs) (parent : ℕ) (path : CString) (cs : List CString) : Prop :=
  ∃ d pre c e x m, cs = pre ++ [c] ∧ s.Starts parent path d ∧ Descends s d pre e ∧ s.lookup e c = some x ∧
    s.reduced x = some m ∧ (asksForDir path = true → s.isDir m = true)

section Completions

lemma completes_elemStr (c : CString) (t : List (BitVec 8)) : Completes c (elemStr c.1 t) := by
  by_cases hlen : c.strlen ≤ 2047
  · exact Or.inl (Subtype.ext (elemStr_short t c.2 hlen))
  · exact Or.inr ⟨not_le.mp hlen, isPrefix_elemStr t c.2⟩

lemma completes_copies (stale : ℕ → List (BitVec 8)) (cs : List CString) :
    List.Forall₂ Completes cs (copies stale (cs.map Subtype.val)) := by
  induction cs generalizing stale with
  | nil => exact .nil
  | cons c cs ih => exact .cons (completes_elemStr c _) (ih _)

/-- The bytes behind the copies can complete the components in any way. -/
lemma exists_copies (h : List.Forall₂ Completes cs cs') : ∃ stale, copies stale (cs.map Subtype.val) = cs' := by
  induction h with
  | nil => exact ⟨fun _ => [], rfl⟩
  | @cons c c' cs cs' hc _ ih =>
    obtain ⟨stale, hstale⟩ := ih
    obtain ⟨t, ht⟩ : ∃ t, elemStr c.1 t = c' := by
      rcases hc with rfl | ⟨hlong, t, ht⟩
      · exact ⟨[], elemStr_nil c'⟩
      · have h0 : 0 ∉ t := fun hmem => c'.2 (ht ▸ List.mem_append_right _ hmem)
        exact ⟨t, Subtype.ext ((elemStr_long c.2 h0 hlong).trans ht)⟩
    refine ⟨fun i => i.casesOn t stale, ?_⟩
    rw [List.map_cons, copies]
    exact congrArg₂ List.cons ht hstale

end Completions

section Walks

lemma staleIndependent_iff : StaleIndependent s parent path ↔ ∀ stale stale',
    (resolve s stale parent path).map Path2NodeRes.node = (resolve s stale' parent path).map Path2NodeRes.node :=
  forall_congr' fun stale => forall_congr' fun stale' =>
    ((settles_path2node s stale parent path).map _).eventually_eq_iff ((settles_path2node s stale' parent path).map _)

/-- What is found in a table leads somewhere. -/
lemma Shaped.reduced_lookup {cwds : Set ℕ} {flag : Bool} {reduce : ℕ → ℕ} {up : ℕ → Option ℕ} (h : Shaped s)
    (hinv : Inv s cwds flag reduce up) (hx : s.lookup d c = some x) : ∃ m, s.reduced x = some m := by
  obtain ⟨map, hmap, hget⟩ := lookup_eq_some.mp hx
  rcases (h.linked d map hmap x (mem_childrenOf_of_get hget)).2 with hlink | ⟨y, -, hlink, hy⟩
  · exact ⟨_, hinv.reduced x hlink⟩
  · exact ⟨_, hinv.reduced_link hlink hy⟩

/-- A walk always ends. -/
lemma exists_walkFrom (hreduced : ∀ d c x, s.lookup d c = some x → ∃ m, s.reduced x = some m) (askForDir : Bool) (d : ℕ)
    (cs : List CString) : ∃ r, walkFrom s askForDir d cs = some r := by
  induction cs generalizing d with
  | nil => exact ⟨_, rfl⟩
  | cons c cs ih =>
    cases hx : s.lookup d c with
    | none =>
      obtain ⟨r, hr, -⟩ := walkFrom_missing askForDir cs hx
      exact ⟨r, hr⟩
    | some x =>
      obtain ⟨m, hm⟩ := hreduced d c x hx
      cases cs with
      | nil => exact ⟨lastResult s askForDir d m, by simp only [walkFrom, hx, hm, Option.map_some]⟩
      | cons c' cs =>
        obtain ⟨r, hr⟩ := ih m
        cases hdir : s.isDir m with
        | true => exact ⟨r, by simp only [walkFrom, hx, hm, Option.bind_some, hdir, if_true, hr]⟩
        | false => exact ⟨⟨none, none⟩, by simp only [walkFrom, hx, hm, Option.bind_some, hdir, Bool.false_eq_true, if_false]⟩

lemma walkFrom_node_iff : (∃ r, walkFrom s askForDir d (pre ++ [c]) = some r ∧ r.node ≠ none) ↔
    ∃ e x m, Descends s d pre e ∧ s.lookup e c = some x ∧ s.reduced x = some m ∧ (askForDir = true → s.isDir m = true) := by
  constructor
  · rintro ⟨r, hr, hnode⟩
    rcases walkFrom_concat hr with rfl | ⟨e, he, hr⟩
    · exact absurd rfl hnode
    rcases walkFrom_single hr with ⟨-, rfl⟩ | ⟨x, m, hx, hm, rfl⟩
    · exact absurd rfl hnode
    · refine ⟨e, x, m, he, hx, hm, fun hask => ?_⟩
      by_contra hdir
      rw [lastResult, if_pos ⟨hask, hdir⟩] at hnode
      exact hnode rfl
  · rintro ⟨e, x, m, he, hx, hm, hdir⟩
    refine ⟨⟨some e, some m⟩, ?_, Option.some_ne_none m⟩
    rw [he.walkFrom (List.cons_ne_nil c []), walkFrom]
    simp only [hx, hm, Option.map_some, lastResult, if_neg (show ¬(askForDir = true ∧ ¬s.isDir m = true) from fun h => h.2 (hdir h.1))]

/-- A path leads to a node if and only if the copies of its components are the names of one. -/
lemma resolve_node_iff (hpath : names path ≠ []) : (∃ r, resolve s stale parent path = some r ∧ r.node ≠ none) ↔
    NamesNode s parent path (copies stale ((names path).map Subtype.val)) := by
  have hne : path.1 ≠ [] := by
    intro hnil
    rw [names, hnil, components_nil] at hpath
    exact hpath rfl
  have hcopies : copies stale ((names path).map Subtype.val) ≠ [] := by
    obtain ⟨c, cs, hcs⟩ := copies_ne_nil stale (List.map_eq_nil_iff.not.mpr hpath)
    rw [hcs]
    exact List.cons_ne_nil c cs
  simp only [resolve_eq_some hne, ← val_names]
  rcases List.eq_nil_or_concat (copies stale ((names path).map Subtype.val)) with hnil | ⟨pre, c, hcs⟩
  · exact absurd hnil hcopies
  rw [List.concat_eq_append] at hcs
  rw [hcs]
  constructor
  · rintro ⟨r, ⟨d, hstart, hr⟩, hnode⟩
    obtain ⟨e, x, m, he, hx, hm, hdir⟩ := walkFrom_node_iff.mp ⟨r, hr, hnode⟩
    exact ⟨d, pre, c, e, x, m, rfl, hstart, he, hx, hm, hdir⟩
  · rintro ⟨d, pre', c', e, x, m, hcs', hstart, he, hx, hm, hdir⟩
    obtain ⟨rfl, hc⟩ := List.append_inj' hcs' rfl
    obtain rfl := List.singleton_injective hc
    obtain ⟨r, hr, hnode⟩ := walkFrom_node_iff.mpr ⟨e, x, m, he, hx, hm, hdir⟩
    exact ⟨r, ⟨d, hstart, hr⟩, hnode⟩

/-- The names of a node are found one below the other. -/
lemma NamesNode.exists_descends (h : NamesNode s parent path (pre ++ c :: post)) :
    ∃ d e, s.Starts parent path d ∧ Descends s d pre e := by
  obtain ⟨d, pre', c', e, x, m, hcs, hstart, he, -⟩ := h
  rcases List.eq_nil_or_concat post with rfl | ⟨post, k, rfl⟩
  · obtain ⟨rfl, -⟩ := List.append_inj' hcs rfl
    exact ⟨d, e, hstart, he⟩
  · rw [List.concat_eq_append, ← List.cons_append, ← List.append_assoc] at hcs
    obtain ⟨rfl, -⟩ := List.append_inj' hcs rfl
    obtain ⟨e, he, -⟩ := descends_append.mp he
    exact ⟨d, e, hstart, he⟩

/-- A path is always looked up to the end. -/
lemma exists_resolve (h : Shaped s) {cwds : Set ℕ} {flag : Bool} {reduce : ℕ → ℕ} {up : ℕ → Option ℕ}
    (hinv : Inv s cwds flag reduce up) (hparent : parent ∈ cwds) (stale : ℕ → List (BitVec 8)) (path : CString) :
    ∃ r, resolve s stale parent path = some r := by
  by_cases hpath : path.1 = []
  · exact ⟨_, if_pos hpath⟩
  have hstart : ∃ d, s.Starts parent path d := by
    have hreduced := hinv.reduced parent (hinv.starts parent hparent).1
    cases habs : absolute path with
    | false => exact ⟨_, _, hreduced, by rw [habs, if_neg Bool.false_ne_true]⟩
    | true => exact ⟨2, _, hreduced, by rw [habs, if_pos rfl, h.vfsRoot, h.reduced_root]⟩
  obtain ⟨d, hd⟩ := hstart
  obtain ⟨r, hr⟩ := exists_walkFrom (fun _ _ _ hx => h.reduced_lookup hinv hx) (asksForDir path) d
    (copies stale (components slash path.1))
  exact ⟨r, (resolve_eq_some hpath).mpr ⟨d, hd, hr⟩⟩

end Walks

section Independence

/-- The node that a lookup returns depends on no bytes that pages held before if and only if every component fits into
a block of a cache, or no node has a name for every component that begins with it. -/
theorem lookup_staleIndependent_iff (hrun : Run KernelStep systemInit events S) (hparent : parent ∈ S.cwds) :
    StaleIndependent S.vfs parent path ↔ (∀ c ∈ names path, c.strlen ≤ 2047) ∨
      ∀ cs, List.Forall₂ Completes (names path) cs → ¬NamesNode S.vfs parent path cs := by
  obtain ⟨⟨reduce, up, hinv⟩, h, -⟩ := kernelValid_of_run hrun
  rw [staleIndependent_iff]
  constructor
  · intro hsame
    by_contra hno
    obtain ⟨hlong, hnode⟩ := not_or.mp hno
    push Not at hnode
    obtain ⟨cs, hcs, hnamed⟩ := hnode
    obtain ⟨pre, c, post, hnames, hpre, hc⟩ := exists_first_long hlong
    have hpath : names path ≠ [] := by
      rw [hnames]
      exact List.append_ne_nil_of_right_ne_nil pre (List.cons_ne_nil c post)
    obtain ⟨stale, rfl⟩ := exists_copies hcs
    obtain ⟨r, hr, hfound⟩ := (resolve_node_iff hpath).mpr hnamed
    rw [hnames, List.map_append, copies_append_short _ hpre, List.map_cons, copies] at hnamed
    obtain ⟨d, e, hstart, hdesc⟩ := hnamed.exists_descends
    obtain ⟨stale', r', hr', hmissing⟩ := exists_walkFrom_missing hdesc (asksForDir path) hpre hc
    have hne : path.1 ≠ [] := by
      intro hnil
      rw [names, hnil, components_nil] at hpath
      exact hpath rfl
    have hres' : resolve S.vfs stale' parent path = some r' :=
      (resolve_eq_some hne).mpr ⟨d, hstart, by rw [← val_names, hnames, hr']⟩
    have heq := hsame stale stale'
    rw [hr, hres', Option.map_some, Option.map_some, hmissing] at heq
    exact hfound (Option.some.inj heq)
  · rintro (hshort | hnone) stale stale'
    · rw [resolve, resolve, copies_names stale hshort, copies_names stale' hshort]
    · by_cases hpath : names path = []
      · rw [resolve, resolve, ← val_names, hpath]
        rfl
      · have hmissing : ∀ stale, (resolve S.vfs stale parent path).map Path2NodeRes.node = some none := by
          intro stale
          obtain ⟨r, hr⟩ := exists_resolve h hinv hparent stale path
          rw [hr, Option.map_some, Option.some.injEq]
          by_contra hfound
          exact hnone _ (completes_copies stale (names path)) ((resolve_node_iff hpath).mp ⟨r, hr, hfound⟩)
        rw [hmissing, hmissing]

/-- The directory `/a`. -/
theorem lookup_staleIndependent_dir : StaleIndependent (withDir dirName).vfs 0 (join emptyPath dirName) := by
  have hrun := kernelRun_withDir dirName (by decide) ⟨by decide, by decide, by decide⟩ (by norm_num [CString.strlen, dirName])
  exact (lookup_staleIndependent_iff hrun rfl).mpr (Or.inl (by decide))

/-- A directory with a long name is found or not, as the bytes behind the copy of its name are. -/
theorem lookup_not_staleIndependent : ∃ S events parent path, Run KernelStep systemInit events S ∧ parent ∈ S.cwds ∧
    path.strlen < pathMax ∧ ¬StaleIndependent S.vfs parent path := by
  have hslash : slash ∉ longName.1 := fun h => absurd (List.eq_of_mem_replicate h) (by decide)
  have hlength : longName.strlen = 2048 := List.length_replicate
  have hord := ordinary_of_lt (c := longName) (by omega)
  have hnames : components slash (join emptyPath longName).1 = [longName.1] := components_root hslash hord
  have hstart := withDir_starts longName (join emptyPath longName) rfl
  refine ⟨withDir longName, _, 0, join emptyPath longName, kernelRun_withDir longName hslash hord (by rw [hlength]; norm_num),
    rfl, by rw [strlen_join, hlength]; decide, fun hsame => ?_⟩
  obtain ⟨stale, r, hr, hmissing⟩ : ∃ stale r, walkFrom (withDir longName).vfs (asksForDir (join emptyPath longName)) 2
      (copies stale (([] ++ longName :: []).map Subtype.val)) = some r ∧ r.node = none :=
    exists_walkFrom_missing (.nil 2) _ (by simp) (by rw [hlength]; norm_num)
  have hres : resolve (withDir longName).vfs stale 0 (join emptyPath longName) = some r :=
    (resolve_eq_some (join_ne_nil _ _)).mpr ⟨2, hstart, by rw [hnames]; exact hr⟩
  obtain ⟨r', hr', hfound⟩ := resolves_iff.mp (withDir_resolves hslash hord).1
  have heq := staleIndependent_iff.mp hsame (fun _ => []) stale
  rw [hr', hres, Option.map_some, Option.map_some, hmissing, hfound] at heq
  exact absurd (Option.some.inj heq) (Option.some_ne_none 5)

end Independence

end PiggyOs.VfsTree
