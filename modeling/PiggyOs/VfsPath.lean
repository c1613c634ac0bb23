import Mathlib.Data.List.GetD
import PiggyOs.Separated
import PiggyOs.Vfs

/-! What `path2node` returns, as a walk over the components of the path. -/
namespace PiggyOs.VfsTree
open Hash CString Separated Fuel IntrusiveList Filter

variable {s : Vfs} {path : List (BitVec 8)} {test : BitVec 8 → Bool} {i n x current : ℕ}

section Loops

lemma advance_eq (hn : n = path.length - i) :
    advance path test n i = i + ((path.drop i).takeWhile test).length := by
  induction n generalizing i with
  | zero => simp [advance, List.drop_eq_nil_of_le (by omega : path.length ≤ i)]
  | succ n ih =>
    have hi : i < path.length := by omega
    rw [advance, List.drop_eq_getElem_cons hi, List.getD_eq_getElem _ _ hi]
    by_cases ht : test path[i] = true
    · rw [if_pos ht, ih (by omega), List.takeWhile_cons_of_pos ht, List.length_cons]
      omega
    · rw [if_neg ht, List.takeWhile_cons_of_neg ht, List.length_nil, Nat.add_zero]

lemma drop_advance (hn : n = path.length - i) :
    path.drop (advance path test n i) = (path.drop i).dropWhile test := by
  rw [advance_eq hn, ← List.drop_drop]
  nth_rewrite 2 [← List.takeWhile_append_dropWhile (p := test) (l := path.drop i)]
  rw [List.drop_left]

lemma take_advance (hn : n = path.length - i) :
    (path.drop i).take (advance path test n i - i) = (path.drop i).takeWhile test := by
  rw [advance_eq hn, Nat.add_sub_cancel_left]
  exact (List.prefix_iff_eq_take.mp (List.takeWhile_prefix test)).symm

lemma advance_le (hi : i ≤ path.length) (hn : n = path.length - i) : advance path test n i ≤ path.length := by
  have hle := (List.takeWhile_prefix test (l := path.drop i)).length_le
  rw [List.length_drop] at hle
  rw [advance_eq hn]
  omega

/-- The first loop stops at the first component, if there is one. -/
lemma skipLeading_eq (hi : i < path.length) (hn : n = path.length - i) :
    skipLeading path n i =
      if (path.drop i).dropWhile (· = slash) = [] then none else some (advance path (· = slash) n i) := by
  induction n generalizing i with
  | zero => omega
  | succ n ih =>
    rw [skipLeading, advance, List.drop_eq_getElem_cons hi, List.getD_eq_getElem _ _ hi]
    by_cases ht : path[i] = slash
    · have ht' : decide (path[i] = slash) = true := decide_eq_true ht
      rw [if_pos ht, List.dropWhile_cons_of_pos (p := fun b => decide (b = slash)) ht', if_pos ht']
      by_cases hlast : i = path.length - 1
      · rw [if_pos hlast, List.drop_eq_nil_of_le (by omega), List.dropWhile_nil, if_pos rfl]
      · rw [if_neg hlast, ih (by omega) (by omega)]
    · have ht' : ¬decide (path[i] = slash) = true := by simpa using ht
      rw [if_neg ht, List.dropWhile_cons_of_neg (p := fun b => decide (b = slash)) ht', if_neg (List.cons_ne_nil _ _), if_neg ht']

lemma ne_slash_of_drop {l : List (BitVec 8)} (hi : i < path.length) (h : path.drop i = l.dropWhile (· = slash)) :
    path[i] ≠ slash := by
  have hhead := List.head?_dropWhile_not (fun b => decide (b = slash)) l
  rw [← h, List.drop_eq_getElem_cons hi, List.head?_cons] at hhead
  simpa using hhead

end Loops

section Reductions

def Vfs.redirect (s : Vfs) (x : ℕ) : Option ℕ := (s.nodes x).link.or (s.nodes x).mountpoint

lemma vfsReduceNode_eq (s : Vfs) (fuel x : ℕ) : vfsReduceNode s fuel x = lastFrom s.redirect fuel x := by
  induction fuel generalizing x with
  | zero => rfl
  | succ fuel ih =>
    rw [vfsReduceNode, lastFrom, Vfs.redirect]
    cases (s.nodes x).link with
    | some y => exact ih y
    | none =>
      cases (s.nodes x).mountpoint with
      | some y => exact ih y
      | none => rfl

/-- What `vfs_reduce_node` returns. -/
noncomputable def Vfs.reduced (s : Vfs) (x : ℕ) : Option ℕ := ending s.redirect x

lemma settles_reduced (s : Vfs) (x : ℕ) : Settles (fun fuel => vfsReduceNode s fuel x) (s.reduced x) := by
  simp only [vfsReduceNode_eq]
  exact settles_ending s.redirect x

lemma reduced_reduced {y : ℕ} (h : s.reduced x = some y) : s.reduced y = some y :=
  ending_of_none (next_of_ending h)

end Reductions

section Walks

/-- The strings that are looked up for the components. -/
def copies : (ℕ → List (BitVec 8)) → List (List (BitVec 8)) → List CString
  | _, [] => []
  | stale, elem :: elems => elemStr elem (stale 0) :: copies (fun i => stale (i + 1)) elems

/-- The result for the last component, where `x` is found in `current`. -/
def lastResult (s : Vfs) (askForDir : Bool) (current x : ℕ) : Path2NodeRes :=
  if askForDir ∧ ¬s.isDir x then ⟨some current, none⟩ else ⟨some current, some x⟩

/-- The walk from a reduced node, where nodes are reduced as far as that ends. -/
noncomputable def walkFrom (s : Vfs) (askForDir : Bool) : ℕ → List CString → Option Path2NodeRes
  | current, [] => some ⟨some current, some current⟩
  | current, [c] => match s.lookup current c with
      | none => some ⟨some current, none⟩
      | some x => (s.reduced x).map (lastResult s askForDir current)
  | current, c :: c' :: cs => match s.lookup current c with
      | none => some ⟨none, none⟩
      | some x => (s.reduced x).bind fun x =>
          if s.isDir x then walkFrom s askForDir x (c' :: cs) else some ⟨none, none⟩

lemma copies_ne_nil (stale : ℕ → List (BitVec 8)) {elems : List (List (BitVec 8))} (h : elems ≠ []) :
    ∃ c cs, copies stale elems = c :: cs := by
  cases elems with
  | nil => exact absurd rfl h
  | cons elem elems => exact ⟨_, _, rfl⟩

/-- Where the loop is after one component: the copy, and the rest of the path. -/
lemma elem_step (hi : i < path.length) (hslash : path[i] ≠ slash) {elemEnd index : ℕ}
    (helemEnd : elemEnd = advance path (· ≠ slash) (path.length - i) i)
    (hindex : index = advance path (· = slash) (path.length - elemEnd) elemEnd) :
    components slash (path.drop i) = (path.drop i).take (elemEnd - i) :: components slash (path.drop index) ∧
      i < index ∧ index ≤ path.length ∧ ∀ h : index < path.length, path[index] ≠ slash := by
  have hdrop := List.drop_eq_getElem_cons hi
  have hrest : path.drop index = (path.drop elemEnd).dropWhile (· = slash) := by rw [hindex, drop_advance rfl]
  have hcomps := components_cons (l := path.drop (i + 1)) hslash
  rw [← hdrop, ← drop_advance rfl, ← take_advance rfl, ← helemEnd] at hcomps
  refine ⟨by rw [hrest, components_dropWhile]; exact hcomps, ?_, ?_, fun h heq => ?_⟩
  · have hlt : i < elemEnd := by
      rw [helemEnd, advance_eq rfl, hdrop, List.takeWhile_cons_of_pos (by simpa using hslash), List.length_cons]
      omega
    rw [hindex, advance_eq rfl]
    omega
  · rw [hindex]
    refine advance_le ?_ rfl
    rw [helemEnd]
    exact advance_le hi.le rfl
  · exact ne_slash_of_drop h hrest heq

/-- The loop over the components is the walk. -/
lemma settles_walkElems (askForDir : Bool) (stale : ℕ → List (BitVec 8)) (hi : i < path.length)
    (hslash : path[i] ≠ slash) (hcurrent : s.reduced current = some current) :
    Settles (fun fuel => walkElems s path askForDir fuel stale i current)
      (walkFrom s askForDir current (copies stale (components slash (path.drop i)))) := by
  induction hn : path.length - i using Nat.strong_induction_on generalizing i stale current with
  | _ n ih =>
    obtain ⟨hcomps, hlt, hle, hnext⟩ := elem_step hi hslash rfl rfl
    rw [hcomps, copies]
    refine Settles.of_succ rfl ?_
    simp only [walkElems]
    generalize advance path (· = slash) _ _ = index at *
    generalize elemStr _ _ = c
    change Settles _ ((some current).bind fun current => walkFrom s askForDir current _)
    rw [← hcurrent]
    refine (settles_reduced s current).bind fun current' hcurrent' => ?_
    rcases hle.eq_or_lt with hlast | hlast
    · rw [List.drop_eq_nil_of_le hlast.ge, components_nil, copies, walkFrom]
      simp only [hlast, if_true]
      cases s.lookup current' c with
      | none => exact settles_const _
      | some x =>
        simp only [Option.map_eq_bind]
        exact (settles_reduced s x).bind fun y _ => settles_const _
    · have hne : components slash (path.drop index) ≠ [] := by
        rw [List.drop_eq_getElem_cons hlast, components_cons (hnext hlast)]
        exact List.cons_ne_nil _ _
      obtain ⟨c', cs, hcopies⟩ := copies_ne_nil (fun i => stale (i + 1)) hne
      rw [hcopies, walkFrom]
      simp only [hlast.ne, if_false]
      cases s.lookup current' c with
      | none => exact settles_const _
      | some x =>
        refine (settles_reduced s x).bind fun y hy => ?_
        split_ifs with hdir
        · rw [← hcopies]
          exact ih _ (by omega) _ hlast (hnext hlast) (reduced_reduced hy) rfl
        · exact settles_const _

def absolute (path : CString) : Bool := path.1.head? = some slash

def asksForDir (path : CString) : Bool := path.1.getLast? = some slash

/-- What `path2node` returns. The start is reduced for every path, also where the root is used instead. -/
noncomputable def resolve (s : Vfs) (stale : ℕ → List (BitVec 8)) (parent : ℕ) (path : CString) :
    Option Path2NodeRes :=
  if path.1 = [] then some ⟨none, none⟩
  else (s.reduced parent).bind fun start =>
    (if absolute path then s.reduced s.vfsRoot else some start).bind fun current =>
      walkFrom s (asksForDir path) current (copies stale (components slash path.1))

lemma last_byte {path : CString} (h : path.1 ≠ []) :
    decide (path.1.getD (path.strlen - 1) 0 = slash) = asksForDir path := by
  have hlt : path.1.length - 1 < path.1.length := Nat.sub_lt (List.length_pos_iff.mpr h) one_pos
  rw [asksForDir, strlen, List.getD_eq_getElem _ _ hlt, List.getLast?_eq_getElem?, List.getElem?_eq_getElem hlt,
    decide_eq_decide, Option.some.injEq]

lemma first_byte {path : CString} (h : path.1 ≠ []) : path.1.getD 0 0 = slash ↔ absolute path = true := by
  have hpos := List.length_pos_iff.mpr h
  rw [absolute, List.getD_eq_getElem _ _ hpos, List.head?_eq_getElem?, List.getElem?_eq_getElem hpos,
    decide_eq_true_iff, Option.some.injEq]

/-- The part behind the slashes in front. -/
lemma settles_skipLeading (askForDir : Bool) (stale : ℕ → List (BitVec 8)) (hpath : path ≠ [])
    (hcurrent : s.reduced current = some current) :
    Settles (fun fuel => match skipLeading path path.length 0 with
        | none => some ⟨some current, some current⟩
        | some index => walkElems s path askForDir fuel stale index current)
      (walkFrom s askForDir current (copies stale (components slash path))) := by
  have hpos := List.length_pos_iff.mpr hpath
  have hrest : path.drop (advance path (· = slash) path.length 0) = path.dropWhile (· = slash) := drop_advance rfl
  rw [skipLeading_eq hpos (Nat.sub_zero _).symm, List.drop_zero, ← components_dropWhile path]
  split_ifs with hall
  · rw [hall, components_nil]
    exact settles_const _
  · rw [← hrest] at hall ⊢
    have hlt : advance path (· = slash) path.length 0 < path.length := by
      by_contra hge
      exact hall (List.drop_eq_nil_of_le (not_lt.mp hge))
    exact settles_walkElems askForDir stale hlt (ne_slash_of_drop hlt hrest) hcurrent

/-- `path2node` returns what the walk over the copies returns, or goes on for ever where that does. -/
theorem settles_path2node (s : Vfs) (stale : ℕ → List (BitVec 8)) (parent : ℕ) (path : CString) :
    Settles (path2node s stale parent path) (resolve s stale parent path) := by
  unfold path2node resolve
  by_cases hpath : path.1 = []
  · simp only [if_pos hpath]
    exact settles_const _
  · simp only [if_neg hpath, last_byte hpath, first_byte hpath]
    refine (settles_reduced s parent).bind fun start hstart => ?_
    by_cases habs : absolute path = true
    · simp only [if_pos habs]
      exact (settles_reduced s s.vfsRoot).bind fun current hcurrent =>
        settles_skipLeading _ stale hpath (reduced_reduced hcurrent)
    · simp only [if_neg habs, Option.bind_some]
      have hpos := List.length_pos_iff.mpr hpath
      have hne : path.1[0] ≠ slash := by rwa [← first_byte hpath, List.getD_eq_getElem _ _ hpos] at habs
      have hwalk := settles_walkElems (asksForDir path) stale hpos hne (reduced_reduced hstart)
      rwa [List.drop_zero] at hwalk

/-- Whatever is found has been reduced. -/
lemma walkFrom_reduced {askForDir : Bool} {cs : List CString} {r : Path2NodeRes} {m : ℕ}
    (hcurrent : s.reduced current = some current) (h : walkFrom s askForDir current cs = some r) (hm : r.node = some m) :
    s.reduced m = some m := by
  induction cs generalizing current with
  | nil =>
    obtain rfl := Option.some.inj h
    obtain rfl := Option.some.inj hm
    exact hcurrent
  | cons c cs ih =>
    cases cs with
    | nil =>
      rw [walkFrom] at h
      cases hx : s.lookup current c with
      | none =>
        rw [hx] at h
        obtain rfl := Option.some.inj h
        simp at hm
      | some x =>
        rw [hx] at h
        obtain ⟨y, hy, rfl⟩ := Option.map_eq_some_iff.mp h
        have hnode : some y = some m := by
          rw [lastResult] at hm
          split_ifs at hm
          exact hm
        obtain rfl := Option.some.inj hnode
        exact reduced_reduced hy
    | cons c' cs =>
      rw [walkFrom] at h
      cases hx : s.lookup current c with
      | none =>
        rw [hx] at h
        obtain rfl := Option.some.inj h
        simp at hm
      | some x =>
        rw [hx] at h
        obtain ⟨y, hy, h⟩ := Option.bind_eq_some_iff.mp h
        split_ifs at h
        · exact ih (reduced_reduced hy) h
        · obtain rfl := Option.some.inj h
          simp at hm

lemma vfsGetNode_reduced {stale : ℕ → List (BitVec 8)} {parent fuel m : ℕ} {path : CString}
    (h : vfsGetNode s stale parent path fuel = some (some m)) : s.reduced m = some m := by
  obtain ⟨r, hr, hm⟩ := Option.map_eq_some_iff.mp h
  have hresolve := (settles_path2node s stale parent path).sound fuel r hr
  by_cases hpath : path.1 = []
  · rw [resolve, if_pos hpath] at hresolve
    obtain rfl := Option.some.inj hresolve
    simp at hm
  · rw [resolve, if_neg hpath] at hresolve
    obtain ⟨start, hstart, hresolve⟩ := Option.bind_eq_some_iff.mp hresolve
    obtain ⟨current, hcurrent, hwalk⟩ := Option.bind_eq_some_iff.mp hresolve
    refine walkFrom_reduced ?_ hwalk hm
    split_ifs at hcurrent
    · exact reduced_reduced hcurrent
    · obtain rfl := Option.some.inj hcurrent
      exact reduced_reduced hstart

end Walks

section Descents
variable {d e : ℕ} {c : CString} {cs cs' : List CString} {askForDir : Bool} {r : Path2NodeRes} {parent : ℕ}
  {stale : ℕ → List (BitVec 8)}

/-- The walk along `cs` from `d` meets only directories and arrives at `e`. -/
inductive Descends (s : Vfs) : ℕ → List CString → ℕ → Prop
  | nil (e : ℕ) : Descends s e [] e
  | cons {d x m e : ℕ} {c : CString} {cs : List CString} : s.lookup d c = some x → s.reduced x = some m →
      s.isDir m = true → Descends s m cs e → Descends s d (c :: cs) e

lemma Descends.walkFrom (h : Descends s d cs e) (hne : cs' ≠ []) :
    walkFrom s askForDir d (cs ++ cs') = walkFrom s askForDir e cs' := by
  induction h with
  | nil e => rfl
  | @cons d x m e c cs hx hm hdir _ ih =>
    obtain ⟨c', cs'', hcs⟩ := List.exists_cons_of_ne_nil (List.append_ne_nil_of_right_ne_nil cs hne)
    rw [List.cons_append, hcs, VfsTree.walkFrom, ← hcs]
    simp only [hx, hm, Option.bind_some, hdir, if_true, ih]

lemma descends_append : Descends s d (cs ++ cs') e ↔ ∃ m, Descends s d cs m ∧ Descends s m cs' e := by
  constructor
  · intro h
    induction cs generalizing d with
    | nil => exact ⟨d, .nil d, h⟩
    | cons c cs ih =>
      cases h with
      | cons hx hm hdir h =>
        obtain ⟨m', h₁, h₂⟩ := ih h
        exact ⟨m', .cons hx hm hdir h₁, h₂⟩
  · rintro ⟨m, h₁, h₂⟩
    induction h₁ with
    | nil e => exact h₂
    | cons hx hm hdir _ ih => exact .cons hx hm hdir (ih h₂)

/-- The walk fails on the way, or comes down to the last component. -/
lemma walkFrom_concat (h : walkFrom s askForDir d (cs ++ [c]) = some r) :
    r = ⟨none, none⟩ ∨ ∃ e, Descends s d cs e ∧ walkFrom s askForDir e [c] = some r := by
  induction cs generalizing d with
  | nil => exact Or.inr ⟨d, .nil d, h⟩
  | cons c₁ cs ih =>
    obtain ⟨c', cs', hcs⟩ := List.exists_cons_of_ne_nil (List.append_ne_nil_of_right_ne_nil cs (List.cons_ne_nil c []))
    rw [List.cons_append, hcs, walkFrom, ← hcs] at h
    cases hx : s.lookup d c₁ with
    | none =>
      simp only [hx, Option.some.injEq] at h
      exact Or.inl h.symm
    | some x =>
      simp only [hx] at h
      obtain ⟨m, hm, h⟩ := Option.bind_eq_some_iff.mp h
      split_ifs at h with hdir
      · exact (ih h).imp_right fun ⟨e, he, hr⟩ => ⟨e, .cons hx hm hdir he, hr⟩
      · exact Or.inl (Option.some.inj h).symm

lemma walkFrom_single (h : walkFrom s askForDir e [c] = some r) :
    (s.lookup e c = none ∧ r = ⟨some e, none⟩) ∨
      ∃ x m, s.lookup e c = some x ∧ s.reduced x = some m ∧ r = lastResult s askForDir e m := by
  rw [walkFrom] at h
  cases hx : s.lookup e c with
  | none =>
    rw [hx] at h
    exact Or.inl ⟨rfl, (Option.some.inj h).symm⟩
  | some x =>
    rw [hx] at h
    obtain ⟨m, hm, hr⟩ := Option.map_eq_some_iff.mp h
    exact Or.inr ⟨x, m, rfl, hm, hr.symm⟩

lemma lastResult_parent (s : Vfs) (askForDir : Bool) (e x : ℕ) : (lastResult s askForDir e x).parent = some e := by
  rw [lastResult]
  split_ifs <;> rfl

lemma walkFrom_single_parent (h : walkFrom s askForDir e [c] = some r) : r.parent = some e := by
  rcases walkFrom_single h with ⟨-, rfl⟩ | ⟨x, m, -, -, rfl⟩
  · rfl
  · exact lastResult_parent s askForDir e m

lemma copies_concat (stale : ℕ → List (BitVec 8)) (elems : List (List (BitVec 8))) (elem : List (BitVec 8)) :
    copies stale (elems ++ [elem]) = copies stale elems ++ [elemStr elem (stale elems.length)] := by
  induction elems generalizing stale with
  | nil => rfl
  | cons elem' elems ih => rw [List.cons_append, copies, ih, copies, List.cons_append, List.length_cons]

/-- Where the walk of a path starts. -/
def Vfs.Starts (s : Vfs) (parent : ℕ) (path : CString) (d : ℕ) : Prop :=
  ∃ start, s.reduced parent = some start ∧ (if absolute path then s.reduced s.vfsRoot else some start) = some d

lemma resolve_eq_some {path : CString} (hpath : path.1 ≠ []) : resolve s stale parent path = some r ↔
    ∃ d, s.Starts parent path d ∧
      walkFrom s (asksForDir path) d (copies stale (components slash path.1)) = some r := by
  rw [resolve, if_neg hpath]
  constructor
  · intro h
    obtain ⟨start, hstart, h⟩ := Option.bind_eq_some_iff.mp h
    obtain ⟨d, hd, h⟩ := Option.bind_eq_some_iff.mp h
    exact ⟨d, ⟨start, hstart, hd⟩, h⟩
  · rintro ⟨d, ⟨start, hstart, hd⟩, h⟩
    rw [hstart, Option.bind_some, hd, Option.bind_some, h]

/-- A path leads to a directory exactly if the walk along all of its components does. -/
lemma walkFrom_isDir (askForDir : Bool) (he : s.isDir e = true) :
    (∃ r, walkFrom s askForDir d cs = some r ∧ r.node = some e) ↔ Descends s d cs e := by
  rcases List.eq_nil_or_concat cs with rfl | ⟨cs, c, rfl⟩
  · constructor
    · rintro ⟨r, hr, hre⟩
      obtain rfl := Option.some.inj hr
      obtain rfl := Option.some.inj hre
      exact .nil d
    · rintro ⟨⟩
      exact ⟨_, rfl, rfl⟩
  · rw [List.concat_eq_append]
    constructor
    · rintro ⟨r, hr, hre⟩
      rcases walkFrom_concat hr with rfl | ⟨m, hm, hlast⟩
      · simp at hre
      · refine descends_append.mpr ⟨m, hm, ?_⟩
        rcases walkFrom_single hlast with ⟨-, rfl⟩ | ⟨x, y, hx, hy, rfl⟩
        · simp at hre
        · rw [lastResult] at hre
          split_ifs at hre
          obtain rfl : y = e := Option.some.inj hre
          exact .cons hx hy he (.nil y)
    · intro h
      obtain ⟨m, hm, hlast⟩ := descends_append.mp h
      rw [hm.walkFrom (List.cons_ne_nil c [])]
      cases hlast with
      | cons hx hy _ hnil =>
        cases hnil
        refine ⟨lastResult s askForDir m e, by rw [walkFrom, hx]; simp [hy], ?_⟩
        rw [lastResult, if_neg (by simp [he])]

/-- The call of `vfs_get_node` returns `d`. -/
def Resolves (s : Vfs) (stale : ℕ → List (BitVec 8)) (parent : ℕ) (path : CString) (d : ℕ) : Prop :=
  ∀ᶠ fuel in atTop, vfsGetNode s stale parent path fuel = some (some d)

lemma resolves_iff {path : CString} : Resolves s stale parent path d ↔
    ∃ r, resolve s stale parent path = some r ∧ r.node = some d := by
  have hsettles := (settles_path2node s stale parent path).map Path2NodeRes.node
  constructor
  · intro h
    obtain ⟨fuel, hfuel, hv⟩ := (h.and hsettles.eventually).exists
    exact Option.map_eq_some_iff.mp (hv.symm.trans hfuel)
  · intro h
    rw [← Option.map_eq_some_iff] at h
    have hev := hsettles.eventually
    rwa [h] at hev

end Descents

section Reference

/-- No chain of links and mounts goes on for ever. -/
def WellFoundedChains (s : Vfs) : Prop := WellFounded fun y x => s.redirect x = some y

noncomputable def reduce (h : WellFoundedChains s) : ℕ → ℕ :=
  h.fix fun x ih => match hx : s.redirect x with
    | none => x
    | some y => ih y hx

/-- The walk from a reduced node over the components that are left. -/
def walk (s : Vfs) (reduce : ℕ → ℕ) (askForDir : Bool) : ℕ → List CString → Path2NodeRes
  | current, [] => ⟨some current, some current⟩
  | current, [c] => match s.lookup current c with
      | none => ⟨some current, none⟩
      | some x =>
          if askForDir ∧ ¬s.isDir (reduce x) then ⟨some current, none⟩ else ⟨some current, some (reduce x)⟩
  | current, c :: c' :: cs => match s.lookup current c with
      | none => ⟨none, none⟩
      | some x => if s.isDir (reduce x) then walk s reduce askForDir (reduce x) (c' :: cs) else ⟨none, none⟩

/-- The non-empty parts between the slashes. -/
def names (path : CString) : List CString := (components slash path.1).map ofBytes

def referenceWalk (s : Vfs) (reduce : ℕ → ℕ) (parent : ℕ) (path : CString) : Path2NodeRes :=
  if path.1 = [] then ⟨none, none⟩
  else walk s reduce (asksForDir path) (reduce (if absolute path then s.vfsRoot else parent)) (names path)

lemma reduced_eq_reduce (h : WellFoundedChains s) (x : ℕ) : s.reduced x = some (reduce h x) := by
  induction x using h.induction with
  | _ x ih =>
    rw [reduce, h.fix_eq, Vfs.reduced]
    split
    · rename_i hx
      exact ending_of_none hx
    · rename_i y hx
      rw [ending_of_some hx]
      exact ih y hx

lemma walkFrom_eq_walk (h : WellFoundedChains s) (askForDir : Bool) (current : ℕ) (cs : List CString) :
    walkFrom s askForDir current cs = some (walk s (reduce h) askForDir current cs) := by
  induction cs generalizing current with
  | nil => rfl
  | cons c cs ih =>
    cases cs with
    | nil =>
      rw [walkFrom, walk]
      cases s.lookup current c with
      | none => rfl
      | some x => simp only [reduced_eq_reduce h, Option.map_some, lastResult]
    | cons c' cs =>
      rw [walkFrom, walk]
      cases s.lookup current c with
      | none => rfl
      | some x =>
        simp only [reduced_eq_reduce h, Option.bind_some, ih]
        split_ifs <;> rfl

lemma copies_short (stale : ℕ → List (BitVec 8)) {elems : List (List (BitVec 8))}
    (h : ∀ c ∈ elems, c.length ≤ 2047) : copies stale elems = elems.map ofBytes := by
  induction elems generalizing stale with
  | nil => rfl
  | cons c elems ih =>
    have hc : c.length + 1 ≤ 2048 := Nat.succ_le_succ (h c List.mem_cons_self)
    rw [copies, ih _ fun c' hc' => h c' (List.mem_cons_of_mem _ hc'), elemStr, if_pos hc, List.append_nil,
      List.map_cons]

lemma val_names (path : CString) : (names path).map Subtype.val = components slash path.1 := by
  rw [names, List.map_map]
  refine (List.map_congr_left fun c hc => ?_).trans (List.map_id _)
  exact ofBytes_val fun h0 => path.2 ((mem_components hc).2.2 h0)

lemma copies_names (stale : ℕ → List (BitVec 8)) {path : CString} (h : ∀ c ∈ names path, c.strlen ≤ 2047) :
    copies stale (components slash path.1) = names path := by
  refine copies_short stale fun c hc => ?_
  rw [← val_names, List.mem_map] at hc
  obtain ⟨c, hc, rfl⟩ := hc
  exact h c hc

lemma resolve_eq_referenceWalk (h : WellFoundedChains s) (stale : ℕ → List (BitVec 8)) (parent : ℕ) (path : CString)
    (hshort : ∀ c ∈ names path, c.strlen ≤ 2047) :
    resolve s stale parent path = some (referenceWalk s (reduce h) parent path) := by
  rw [resolve, referenceWalk]
  by_cases hpath : path.1 = []
  · rw [if_pos hpath, if_pos hpath]
  · rw [if_neg hpath, if_neg hpath, copies_names stale hshort, reduced_eq_reduce h, Option.bind_some]
    cases absolute path with
    | true => exact (congrArg (Option.bind · _) (reduced_eq_reduce h _)).trans (walkFrom_eq_walk h _ _ _)
    | false => exact walkFrom_eq_walk h _ _ _

/-- A path without a slash in front and without components is empty. -/
lemma eq_nil_of_names {path : CString} (hnames : names path = []) (habs : absolute path = false) : path.1 = [] := by
  rw [names, List.map_eq_nil_iff] at hnames
  cases hp : path.1 with
  | nil => rfl
  | cons b bytes =>
    have hb : b ≠ slash := by
      rintro rfl
      simp [absolute, hp] at habs
    rw [hp, components_cons hb] at hnames
    exact absurd hnames (List.cons_ne_nil _ _)

lemma referenceWalk_congr {reduce : ℕ → ℕ} {parent : ℕ} {path path' : CString} (hnames : names path' = names path)
    (habs : absolute path' = absolute path) (hask : asksForDir path' = asksForDir path) :
    referenceWalk s reduce parent path' = referenceWalk s reduce parent path := by
  have hempty : ∀ p q : CString, names q = names p → absolute q = absolute p → p.1 = [] → q.1 = [] := by
    intro p q hnames habs hp
    exact eq_nil_of_names (by rw [hnames, names, hp]; rfl) (by rw [habs, absolute, hp]; rfl)
  rw [referenceWalk, referenceWalk, hnames, habs, hask]
  by_cases hp : path.1 = []
  · rw [if_pos hp, if_pos (hempty path path' hnames habs hp)]
  · rw [if_neg hp, if_neg fun hp' => hp (hempty path' path hnames.symm habs.symm hp')]

/-- Where all chains end, `path2node` returns what the reference walk returns. It sees nothing of the
path but the components, a slash in front and a slash at the end. -/
theorem path2node_refines_walk (h : WellFoundedChains s) (stale : ℕ → List (BitVec 8)) (parent : ℕ) (path : CString)
    (hshort : ∀ c ∈ names path, c.strlen ≤ 2047) :
    (∀ᶠ fuel in atTop, path2node s stale parent path fuel = some (referenceWalk s (reduce h) parent path)) ∧
      ∀ path' : CString, names path' = names path → absolute path' = absolute path →
        asksForDir path' = asksForDir path →
        ∀ᶠ fuel in atTop, path2node s stale parent path' fuel = path2node s stale parent path fuel := by
  have hreturns : ∀ p : CString, (∀ c ∈ names p, c.strlen ≤ 2047) →
      ∀ᶠ fuel in atTop, path2node s stale parent p fuel = some (referenceWalk s (reduce h) parent p) := by
    intro p hp
    rw [← resolve_eq_referenceWalk h stale parent p hp]
    exact (settles_path2node s stale parent p).eventually
  refine ⟨hreturns path hshort, fun path' hnames habs hask => ?_⟩
  filter_upwards [hreturns path hshort, hreturns path' (hnames ▸ hshort)] with fuel hp hp'
  rw [hp, hp', referenceWalk_congr hnames habs hask]

lemma rootMounted_redirect (x : ℕ) : rootMounted.redirect x =
    if x = 0 then some 2 else if x = 3 then some 2 else if x = 4 then some 0 else none := by
  split_ifs with h0 h3 h4
  · rw [h0]; rfl
  · rw [h3]; rfl
  · rw [h4]; rfl
  · by_cases h2 : x = 2
    · rw [h2]; rfl
    · by_cases h1 : x = 1
      · rw [h1]; rfl
      · simp [Vfs.redirect, rootMounted, attach, createDotentries, tmpfsCreate, vfsCreateNode, Vfs.set, Vfs.setChild, vfsInit,
          blank, h0, h1, h2, h3, h4]

lemma rootMounted_wellFounded : WellFoundedChains rootMounted := by
  refine Subrelation.wf ?_ (InvImage.wf (fun x : ℕ => if x = 2 then 0 else x + 1) wellFounded_lt)
  intro y x h
  rw [rootMounted_redirect] at h
  grind [InvImage]

/-- `"/.."` after the first mount. -/
theorem path2node_refines_walk_root :
    path2node rootMounted (fun _ => []) 0 ⟨[slash, 0x2e, 0x2e], by decide⟩ 5 = some ⟨some 2, some 2⟩ ∧
    ∀ᶠ fuel in atTop, path2node rootMounted (fun _ => []) 0 ⟨[slash, 0x2e, 0x2e], by decide⟩ fuel =
      some (referenceWalk rootMounted (reduce rootMounted_wellFounded) 0 ⟨[slash, 0x2e, 0x2e], by decide⟩) :=
  ⟨by decide, (path2node_refines_walk rootMounted_wellFounded _ 0 _ (by decide)).1⟩

end Reference

end PiggyOs.VfsTree
