import PiggyOs.HashMap
import PiggyOs.IntrusiveList

/-! The tree of nodes of `vfs.c` and the lookup of paths in it. Allocations succeed. A `none` where
fuel is given is a loop or a recursion that did not end. -/
namespace PiggyOs.VfsTree
open Hash CString

abbrev slash : BitVec 8 := 0x2f
abbrev dot : CString := ⟨[0x2e], by decide⟩
abbrev dotdot : CString := ⟨[0x2e, 0x2e], by decide⟩

def pathMax : ℕ := 4096

def sIfmt : BitVec 32 := 0x0f000
def sIfreg : BitVec 32 := 0x03000
def sIfdir : BitVec 32 := 0x05000

def sIsdir (mode : BitVec 32) : Bool := mode &&& sIfmt = sIfdir

/-- `devfs` has no `create`. -/
inductive Filesystem
  | tmpfs | devfs
  deriving DecidableEq, Repr

/-- Nodes are numbered in the order of their allocation. -/
structure Node where
  name : CString
  mode : BitVec 32
  parent : Option ℕ
  mountpoint : Option ℕ
  link : Option ℕ
  children : Option (HashMap ℕ)
  fs : Option Filesystem

/-- A cleared object of `vfs_node_cache`. -/
def blank : Node := ⟨⟨[], by decide⟩, 0, none, none, none, none, none⟩

structure Vfs where
  nodes : ℕ → Node
  count : ℕ
  vfsRoot : ℕ
  devfsRoot : ℕ

def Vfs.isDir (s : Vfs) (x : ℕ) : Bool := sIsdir (s.nodes x).mode

def Vfs.set (s : Vfs) (x : ℕ) (node : Node) : Vfs := { s with nodes := Function.update s.nodes x node }

/-- `hashmap_get` on the children, as it is called for every component. -/
def Vfs.lookup (s : Vfs) (x : ℕ) (key : CString) : Option ℕ :=
  (s.nodes x).children.bind fun map => hashmapGet map key key.strlen

/-- Without a map `hashmap_set` does nothing. -/
def Vfs.setChild (s : Vfs) (x : ℕ) (key : CString) (keySize : ℕ) (value : ℕ) : Vfs :=
  s.set x { s.nodes x with children := (s.nodes x).children.map fun map => hashmapSet map key keySize value }

def vfsReduceNode (s : Vfs) : ℕ → ℕ → Option ℕ
  | 0, _ => none
  | fuel + 1, x => match (s.nodes x).link with
      | some y => vfsReduceNode s fuel y
      | none => match (s.nodes x).mountpoint with
          | some y => vfsReduceNode s fuel y
          | none => some x

/-- `elem_str`. The copy is not terminated: the byte behind it is zero in a block of a cache, and
whatever the pages held before in a larger one. -/
def elemStr (elem stale : List (BitVec 8)) : CString :=
  ofBytes (elem ++ if elem.length + 1 ≤ 2048 then [] else stale)

/-- `while (index < path_len && test(path[index])) index++`, with `n` bytes from `index` on. -/
def advance (path : List (BitVec 8)) (test : BitVec 8 → Bool) : ℕ → ℕ → ℕ
  | 0, index => index
  | n + 1, index => if test (path.getD index 0) then advance path test n (index + 1) else index

/-- The loop over the slashes in front. `none` is a path without anything else. -/
def skipLeading (path : List (BitVec 8)) : ℕ → ℕ → Option ℕ
  | 0, index => some index
  | n + 1, index =>
      if path.getD index 0 = slash then
        if index = path.length - 1 then none else skipLeading path n (index + 1)
      else some index

structure Path2NodeRes where
  parent : Option ℕ
  node : Option ℕ
  deriving DecidableEq, Repr

/-- The loop over the components. `stale i` is behind the `i`-th copy from here on. -/
def walkElems (s : Vfs) (path : List (BitVec 8)) (askForDir : Bool) :
    ℕ → (ℕ → List (BitVec 8)) → ℕ → ℕ → Option Path2NodeRes
  | 0, _, _, _ => none
  | fuel + 1, stale, elem, currentNode =>
      let elemEnd := advance path (· ≠ slash) (path.length - elem) elem
      let index := advance path (· = slash) (path.length - elemEnd) elemEnd
      let last := index = path.length
      (vfsReduceNode s fuel currentNode).bind fun currentNode =>
        match s.lookup currentNode (elemStr ((path.drop elem).take (elemEnd - elem)) (stale 0)) with
        | none => some (if last then ⟨some currentNode, none⟩ else ⟨none, none⟩)
        | some newNode => (vfsReduceNode s fuel newNode).bind fun newNode =>
            if last then
              some (if askForDir ∧ ¬s.isDir newNode then ⟨some currentNode, none⟩ else ⟨some currentNode, some newNode⟩)
            else if s.isDir newNode then walkElems s path askForDir fuel (fun i => stale (i + 1)) index newNode
            else some ⟨none, none⟩

def path2node (s : Vfs) (stale : ℕ → List (BitVec 8)) (parent : ℕ) (path : CString) (fuel : ℕ) :
    Option Path2NodeRes :=
  if path.1 = [] then some ⟨none, none⟩
  else
    let askForDir : Bool := path.1.getD (path.strlen - 1) 0 = slash
    (vfsReduceNode s fuel parent).bind fun currentNode =>
      if path.1.getD 0 0 = slash then
        (vfsReduceNode s fuel s.vfsRoot).bind fun currentNode =>
          match skipLeading path.1 path.strlen 0 with
          | none => some ⟨some currentNode, some currentNode⟩
          | some index => walkElems s path.1 askForDir fuel stale index currentNode
      else walkElems s path.1 askForDir fuel stale 0 currentNode

def vfsGetNode (s : Vfs) (stale : ℕ → List (BitVec 8)) (parent : ℕ) (path : CString) (fuel : ℕ) : Option (Option ℕ) :=
  (path2node s stale parent path fuel).map Path2NodeRes.node

/-- The first loop of `basename`. Every slash that is passed is overwritten with a terminator. -/
def stripSlashes (str : List (BitVec 8)) : ℕ → ℕ
  | 0 => 0
  | i + 1 => if str.getD (i + 1) 0 = slash then stripSlashes str i else i + 1

def backToSlash (str : List (BitVec 8)) : ℕ → ℕ
  | 0 => 0
  | i + 1 => if str.getD i 0 ≠ slash then backToSlash str i else i + 1

def basename (str : CString) : CString :=
  if str.1 = [] then dot
  else
    let i := stripSlashes str.1 (str.strlen - 1)
    ofBytes ((str.1.take (i + 1)).drop (backToSlash str.1 i))

def vfsCreateNode (s : Vfs) (fs : Option Filesystem) (parent : Option ℕ) (name : CString) (isDir : Bool) : ℕ × Vfs :=
  (s.count, { s.set s.count { blank with
      name := name
      parent := parent
      fs := fs
      children := if isDir then some (hashmapCreate ℕ 128 (by decide)) else none } with count := s.count + 1 })

def createDotentries (s : Vfs) (parent node : ℕ) : Vfs :=
  let (dotNode, s) := vfsCreateNode s (s.nodes node).fs (some node) dot false
  let (dotdotNode, s) := vfsCreateNode s (s.nodes node).fs (some node) dotdot false
  let s := s.set dotNode { s.nodes dotNode with link := some node }
  let s := s.set dotdotNode { s.nodes dotdotNode with link := some parent }
  (s.setChild node dot 1 dotNode).setChild node dotdot 2 dotdotNode

def tmpfsCreate (s : Vfs) (parent : ℕ) (name : CString) (mode : BitVec 32) : ℕ × Vfs :=
  let (newNode, s) := vfsCreateNode s (some .tmpfs) (some parent) name (sIsdir mode)
  (newNode, s.set newNode { s.nodes newNode with mode := mode })

def fsMount (s : Vfs) (fs : Filesystem) (parent : ℕ) (name : CString) : ℕ × Vfs :=
  match fs with
  | .tmpfs => tmpfsCreate s parent name sIfdir
  | .devfs => (s.devfsRoot, s)

/-- `fault` is a call through a null pointer. -/
inductive Outcome (α : Type)
  | fault
  | returns (result : α)

/-- The new node becomes a child, with entries of its own if it is a directory. -/
def addEntry (s : Vfs) (dir : ℕ) (name : CString) (newNode : ℕ) : Vfs :=
  let s := s.setChild dir name name.strlen newNode
  if s.isDir newNode then createDotentries s dir newNode else s

/-- `vfs_create` after the lookup of the path. -/
def createIn (s : Vfs) (name : CString) (mode : BitVec 32) (r : Path2NodeRes) : Outcome (Vfs × Option ℕ) :=
  match r.parent, r.node with
  | none, _ => .returns (s, none)
  | some _, some _ => .returns (s, none)
  | some dir, none =>
      match (s.nodes dir).fs with
      | none => .fault
      | some .devfs => .fault
      | some .tmpfs =>
          let new := tmpfsCreate s dir (basename name) mode
          if (new.2.nodes dir).children = none then .returns (new.2, none)
          else .returns (addEntry new.2 dir (basename name) new.1, some new.1)

def vfsCreate (s : Vfs) (stale : ℕ → List (BitVec 8)) (parent : ℕ) (name : CString) (mode : BitVec 32) (fuel : ℕ) :
    Option (Outcome (Vfs × Option ℕ)) :=
  (path2node s stale parent name fuel).map (createIn s name mode)

/-- The check of the source: a path that is given has to lead to something that is not a directory. -/
def mountSource (s : Vfs) (stale : ℕ → List (BitVec 8)) (parent : ℕ) (source : Option CString) (fuel : ℕ) :
    Option Bool :=
  match source with
  | none => some true
  | some source =>
      if source.1 = [] then some true
      else (vfsGetNode s stale parent source fuel).map fun node => match node with
        | none => false
        | some node => !s.isDir node

/-- The mounted directory stands in for `node`, and `dir` is above it. -/
def attach (s : Vfs) (dir node mountNode : ℕ) : Vfs :=
  createDotentries (s.set node { s.nodes node with mountpoint := some mountNode }) dir mountNode

/-- `vfs_mount` after the lookup of the target. -/
def mountOn (s : Vfs) (target : CString) (fs : Filesystem) (r : Path2NodeRes) : Vfs × Bool :=
  match r.parent, r.node with
  | some dir, some node =>
      if node ≠ s.vfsRoot ∧ ¬s.isDir node then (s, false)
      else
        let mount := fsMount s fs dir (basename target)
        (attach mount.2 dir node mount.1, true)
  | _, _ => (s, false)

/-- The file system is registered. The two lookups find `stale` and `stale'` behind their copies. -/
def vfsMount (s : Vfs) (stale stale' : ℕ → List (BitVec 8)) (parent : ℕ) (source : Option CString) (target : CString)
    (fs : Filesystem) (fuel : ℕ) : Option (Vfs × Bool) :=
  (mountSource s stale parent source fuel).bind fun accepted =>
    if accepted then (path2node s stale' parent target fuel).map (mountOn s target fs) else some (s, false)

/-- `vfs_init` and `devfs_init`. -/
def vfsInit : Vfs :=
  let s : Vfs := ⟨fun _ => blank, 0, 0, 1⟩
  let (_, s) := vfsCreateNode s none none ⟨[], by decide⟩ false
  let (devfsRoot, s) := vfsCreateNode s (some .devfs) none ⟨[0x64, 0x65, 0x76], by decide⟩ true
  s.set devfsRoot { s.nodes devfsRoot with mode := sIfdir }

section Frames
variable {d x : ℕ}

@[simp] lemma set_nodes_self (s : Vfs) (x : ℕ) (node : Node) : (s.set x node).nodes x = node :=
  Function.update_self ..

lemma set_nodes_of_ne (s : Vfs) (node : Node) (h : d ≠ x) : (s.set x node).nodes d = s.nodes d :=
  Function.update_of_ne h ..

@[simp] lemma set_count (s : Vfs) (x : ℕ) (node : Node) : (s.set x node).count = s.count := rfl

@[simp] lemma setChild_count (s : Vfs) (x : ℕ) (key : CString) (n v : ℕ) : (s.setChild x key n v).count = s.count := rfl

lemma setChild_nodes_of_ne (s : Vfs) (key : CString) (n v : ℕ) (h : d ≠ x) :
    (s.setChild x key n v).nodes d = s.nodes d := set_nodes_of_ne s _ h

/-- Only children change. -/
lemma setChild_nodes (s : Vfs) (x : ℕ) (key : CString) (n v d : ℕ) : (s.setChild x key n v).nodes d =
    { s.nodes d with children := ((s.setChild x key n v).nodes d).children } := by
  by_cases h : d = x
  · rw [h, Vfs.setChild, set_nodes_self]
  · rw [setChild_nodes_of_ne s key n v h]

@[simp] lemma createDotentries_count (s : Vfs) (parent node : ℕ) :
    (createDotentries s parent node).count = s.count + 2 := rfl

/-- Apart from the directory itself only two new nodes are touched. -/
lemma createDotentries_nodes (s : Vfs) (parent : ℕ) {node : ℕ} (hd : d < s.count ∨ s.count + 2 ≤ d) (hne : d ≠ node) :
    (createDotentries s parent node).nodes d = s.nodes d := by
  have h0 : d ≠ s.count := by omega
  have h1 : d ≠ s.count + 1 := by omega
  simp [createDotentries, setChild_nodes_of_ne _ _ _ _ hne, set_nodes_of_ne, vfsCreateNode, h0, h1]

/-- The directory itself, whose map gets the two entries. -/
lemma createDotentries_node (s : Vfs) (parent : ℕ) {node : ℕ} (hnode : node < s.count) :
    (createDotentries s parent node).nodes node = { s.nodes node with
      children := (s.nodes node).children.map fun map =>
        hashmapSet (hashmapSet map dot 1 s.count) dotdot 2 (s.count + 1) } := by
  have h0 : node ≠ s.count := by omega
  have h1 : node ≠ s.count + 1 := by omega
  simp [createDotentries, Vfs.setChild, set_nodes_of_ne, vfsCreateNode, h0, h1, Function.comp_def]

lemma createDotentries_dot (s : Vfs) (parent : ℕ) {node : ℕ} (hnode : node < s.count) :
    (createDotentries s parent node).nodes s.count =
      { blank with name := dot, parent := some node, fs := (s.nodes node).fs, link := some node } := by
  have h0 : s.count ≠ node := by omega
  simp [createDotentries, setChild_nodes_of_ne _ _ _ _ h0, set_nodes_of_ne, vfsCreateNode, blank]

lemma createDotentries_dotdot (s : Vfs) (parent : ℕ) {node : ℕ} (hnode : node < s.count) :
    (createDotentries s parent node).nodes (s.count + 1) =
      { blank with name := dotdot, parent := some node, fs := (s.nodes node).fs, link := some parent } := by
  have h0 : s.count + 1 ≠ node := by omega
  have h1 : node ≠ s.count := by omega
  simp [createDotentries, setChild_nodes_of_ne _ _ _ _ h0, set_nodes_of_ne, vfsCreateNode, h1, blank]

@[simp] lemma tmpfsCreate_fst (s : Vfs) (parent : ℕ) (name : CString) (mode : BitVec 32) :
    (tmpfsCreate s parent name mode).1 = s.count := rfl

@[simp] lemma tmpfsCreate_count (s : Vfs) (parent : ℕ) (name : CString) (mode : BitVec 32) :
    (tmpfsCreate s parent name mode).2.count = s.count + 1 := rfl

lemma tmpfsCreate_nodes (s : Vfs) (parent : ℕ) (name : CString) (mode : BitVec 32) (hd : d ≠ s.count) :
    (tmpfsCreate s parent name mode).2.nodes d = s.nodes d := by
  simp [tmpfsCreate, vfsCreateNode, set_nodes_of_ne, hd]

lemma tmpfsCreate_self (s : Vfs) (parent : ℕ) (name : CString) (mode : BitVec 32) :
    (tmpfsCreate s parent name mode).2.nodes s.count = { blank with
      name := name
      parent := some parent
      fs := some .tmpfs
      children := if sIsdir mode then some (hashmapCreate ℕ 128 (by decide)) else none
      mode := mode } := by
  simp [tmpfsCreate, vfsCreateNode]

lemma addEntry_nodes (s : Vfs) (name : CString) {dir newNode : ℕ} (hd : d < s.count ∨ s.count + 2 ≤ d)
    (hdir : d ≠ dir) (hnew : d ≠ newNode) : (addEntry s dir name newNode).nodes d = s.nodes d := by
  simp only [addEntry]
  split_ifs
  · rw [createDotentries_nodes _ _ (by simpa using hd) hnew, setChild_nodes_of_ne _ _ _ _ hdir]
  · rw [setChild_nodes_of_ne _ _ _ _ hdir]

lemma addEntry_vfsRoot (s : Vfs) (dir : ℕ) (name : CString) (newNode : ℕ) :
    (addEntry s dir name newNode).vfsRoot = s.vfsRoot := by
  simp only [addEntry]
  split_ifs <;> rfl

lemma le_addEntry_count (s : Vfs) (dir : ℕ) (name : CString) (newNode : ℕ) :
    s.count ≤ (addEntry s dir name newNode).count := by
  simp only [addEntry]
  split_ifs
  · exact Nat.le_add_right _ 2
  · exact le_rfl

/-- The directory only gets the new entry. -/
lemma addEntry_dir (s : Vfs) (name : CString) {dir newNode : ℕ} (hdir : dir < s.count) (hnew : dir ≠ newNode) :
    (addEntry s dir name newNode).nodes dir = (s.setChild dir name name.strlen newNode).nodes dir := by
  simp only [addEntry]
  split_ifs
  · rw [createDotentries_nodes _ _ (Or.inl (by simpa using hdir)) hnew]
  · rfl

lemma lookup_congr {s s' : Vfs} (h : s'.nodes d = s.nodes d) (k : CString) : s'.lookup d k = s.lookup d k := by
  rw [Vfs.lookup, Vfs.lookup, h]

lemma lookup_setChild (s : Vfs) (d : ℕ) (key k : CString) (n v : ℕ) : (s.setChild d key n v).lookup d k =
    (s.nodes d).children.bind fun map => hashmapGet (hashmapSet map key n v) k k.strlen := by
  rw [Vfs.lookup, Vfs.setChild, set_nodes_self, Option.bind_map]
  rfl

end Frames

def slashPath : CString := ⟨[slash], by decide⟩

/-- After the first mount of `kernel_main`. -/
def rootMounted : Vfs := attach (tmpfsCreate vfsInit 0 slashPath sIfdir).2 0 0 2

lemma vfsMount_root (stale stale' : ℕ → List (BitVec 8)) (fuel : ℕ) :
    vfsMount vfsInit stale stale' 0 none slashPath .tmpfs (fuel + 1) = some (rootMounted, true) := rfl

end PiggyOs.VfsTree
