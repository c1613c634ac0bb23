import PiggyOs.ByteMemory
import PiggyOs.Records
import PiggyOs.VfsPath

/-! The entries of a directory as `vfs_getdents` writes them into the memory of a process: records with
`d_ino` in 8 bytes, `d_reclen` in 2, `d_type` in one, and `d_name`. -/
namespace PiggyOs.VfsTree
open Hash CString ByteMemory Records Fuel Filter

/-- `sizeof(struct dirent)`, which is 5 bytes more than the offset of `d_name`. -/
def sizeofDirent : ℕ := 16

def sIfchr : BitVec 32 := 0x08000
def sIfblk : BitVec 32 := 0x01000

def dType (mode : BitVec 32) : BitVec 8 :=
  if mode &&& sIfmt = sIfreg then 1
  else if mode &&& sIfmt = sIfdir then 2
  else if mode &&& sIfmt = sIfchr then 3
  else if mode &&& sIfmt = sIfblk then 4
  else 0

def entLen (s : Vfs) (child : ℕ) : ℕ := sizeofDirent + ((s.nodes child).name.strlen + 1)

/-- What is stored at `ent`. `d_reclen` keeps 16 bits of the length. -/
def storeDirent (mem : Memory) (ent : ℕ) (ino : BitVec 64) (reclen : ℕ) (type : BitVec 8) (name : CString) : Memory :=
  let mem := write64 mem ent ino
  let mem := blit mem (ent + 8) (fun k => BitVec.ofNat 8 (reclen / 256 ^ k)) 2
  let mem := Function.update mem (ent + 10) type
  blit mem (ent + 11) (fun k => (name.1 ++ [0]).getD k 0) (name.strlen + 1)

/-- The first pass over a chain, with `iter_offset` and `total_length`. -/
def chainLength (s : Vfs) (offset : ℕ) : List (CString × ℕ) → ℕ × ℕ → ℕ × ℕ
  | [], acc => acc
  | entry :: rest, (iterOffset, totalLength) =>
      let iterOffset := iterOffset + entLen s entry.2
      chainLength s offset rest
        (iterOffset, if offset < iterOffset then totalLength + entLen s entry.2 else totalLength)

structure Filled where
  iterOffset : ℕ
  readSize : ℕ
  mem : Memory

section Getdents
variable (s : Vfs) (ino : ℕ → BitVec 64) (fuel buffer offset actualCount : ℕ)

/-- The second pass over a chain. The `break` leaves this chain only, after the record has been stored. -/
def fillChain : List (CString × ℕ) → Filled → Option Filled
  | [], st => some st
  | entry :: rest, st => (vfsReduceNode s fuel entry.2).bind fun reducedChild =>
      let iterOffset := st.iterOffset + entLen s entry.2
      if iterOffset ≤ offset then fillChain rest { st with iterOffset := iterOffset }
      else
        let mem := storeDirent st.mem (buffer + st.readSize) (ino reducedChild) (entLen s entry.2)
          (dType (s.nodes reducedChild).mode) (s.nodes entry.2).name
        if actualCount ≤ st.readSize then some ⟨iterOffset, st.readSize, mem⟩
        else fillChain rest ⟨iterOffset, st.readSize + entLen s entry.2, mem⟩

def fillBuckets (map : HashMap ℕ) : List ℕ → Filled → Option Filled
  | [], st => some st
  | i :: rest, st => (fillChain s ino fuel buffer offset actualCount (map.entries i) st).bind (fillBuckets map rest)

end Getdents

/-- The length that is returned and the memory afterwards, for a node that is a directory. `ino` is
`st_ino` of the nodes. -/
def vfsGetdents (s : Vfs) (ino : ℕ → BitVec 64) (fuel : ℕ) (map : HashMap ℕ) (mem : Memory)
    (buffer offset count : ℕ) : Option (ℕ × Memory) :=
  let totalLength := ((List.range map.size).foldl (fun acc i => chainLength s offset (map.entries i) acc) (0, 0)).2
  if totalLength = 0 then some (0, mem)
  else
    (fillBuckets s ino fuel buffer offset (min totalLength count) map (List.range map.size) ⟨0, 0, mem⟩).map fun st =>
      (st.readSize, st.mem)

/-- The children in the order of the table. -/
def childrenOf (map : HashMap ℕ) : List ℕ := (List.range map.size).flatMap fun i => (map.entries i).map Prod.snd

structure Dirent where
  dIno : BitVec 64
  dReclen : ℕ
  dType : BitVec 8
  dName : CString

/-- The record that `ent` points to. -/
structure HoldsDirent (mem : Memory) (ent : ℕ) (d : Dirent) : Prop where
  ino : read64 mem ent = d.dIno
  reclen : readNat mem (ent + 8) 2 = d.dReclen
  type : mem (ent + 10) = d.dType
  name : readBytes mem (ent + 11) (d.dName.strlen + 1) = d.dName.1 ++ [0]

/-- The records that a program finds from `ent` on when it goes from one to the next by `d_reclen`. -/
def Listing (mem : Memory) : ℕ → List Dirent → Prop
  | _, [] => True
  | ent, d :: ds => HoldsDirent mem ent d ∧ Listing mem (ent + d.dReclen) ds

/-- The record of a child, which names the child and describes what it leads to. -/
def direntOf (s : Vfs) (ino : ℕ → BitVec 64) (reduce : ℕ → ℕ) (child : ℕ) : Dirent :=
  ⟨ino (reduce child), entLen s child, VfsTree.dType (s.nodes (reduce child)).mode, (s.nodes child).name⟩

section Memory
variable {mem mem' : Memory} {ent ent' : ℕ} {d : Dirent} {ds : List Dirent} {ino : BitVec 64} {reclen : ℕ}
  {type : BitVec 8} {name : CString}

lemma storeDirent_below {b : ℕ} (h : b < ent) : storeDirent mem ent ino reclen type name b = mem b := by
  rw [storeDirent, blit_outside _ _ (by omega), Function.update_of_ne (by omega), blit_outside _ _ (by omega),
    write64_outside _ _ (by omega)]

/-- What is stored is found again, as long as the length fits into 16 bits. -/
lemma storeDirent_holds (h : reclen < 65536) :
    HoldsDirent (storeDirent mem ent ino reclen type name) ent ⟨ino, reclen, type, name⟩ where
  ino := by
    rw [← read64_write64 mem ent ino]
    refine read64_congr fun k hk => ?_
    rw [storeDirent, blit_outside _ _ (by omega), Function.update_of_ne (by omega), blit_outside _ _ (by omega)]
    simp
  reclen := by
    refine (readNat_bytes (v := reclen) fun k hk => ?_).trans (Nat.mod_eq_of_lt (by omega))
    rw [storeDirent, blit_outside _ _ (by omega), Function.update_of_ne (by omega), blit_inside _ _ hk]
  type := by
    rw [storeDirent, blit_outside _ _ (by omega), Function.update_self]
  name := by
    refine List.ext_getElem (by simp [CString.strlen]) fun k h1 h2 => ?_
    rw [length_readBytes] at h1
    rw [getElem_readBytes, storeDirent, blit_inside _ _ h1, List.getD_eq_getElem _ _ h2]

/-- Only the bytes of the record matter. -/
lemma HoldsDirent.congr (h : HoldsDirent mem ent d) (hmem : ∀ b < ent + 12 + d.dName.strlen, mem' b = mem b) :
    HoldsDirent mem' ent d where
  ino := (read64_congr fun k hk => hmem _ (by omega)).trans h.ino
  reclen := (readNat_congr fun k hk => hmem _ (by omega)).trans h.reclen
  type := (hmem _ (by omega)).trans h.type
  name := (readBytes_congr fun k hk => hmem _ (by omega)).trans h.name

lemma Listing.congr (hlen : ∀ d ∈ ds, d.dName.strlen + 12 ≤ d.dReclen) (h : Listing mem ent ds)
    (hmem : ∀ b < ent + total Dirent.dReclen ds, mem' b = mem b) : Listing mem' ent ds := by
  induction ds generalizing ent with
  | nil => trivial
  | cons d ds ih =>
    have hd := hlen d List.mem_cons_self
    rw [total_cons] at hmem
    refine ⟨h.1.congr fun b hb => hmem b (by omega), ?_⟩
    exact ih (fun d hd => hlen d (List.mem_cons_of_mem _ hd)) h.2 fun b hb => hmem b (by omega)

lemma Listing.concat (h : Listing mem ent ds) (hd : HoldsDirent mem (ent + total Dirent.dReclen ds) d) :
    Listing mem ent (ds ++ [d]) := by
  induction ds generalizing ent with
  | nil => exact ⟨hd, trivial⟩
  | cons d' ds ih =>
    rw [total_cons, ← Nat.add_assoc] at hd
    exact ⟨h.1, ih h.2 hd⟩

end Memory

section Passes
variable {s : Vfs} {map : HashMap ℕ} {offset : ℕ}

lemma entLen_pos (s : Vfs) (child : ℕ) : 0 < entLen s child := by
  rw [entLen]
  omega

lemma chainLength_eq (s : Vfs) (offset : ℕ) (chain : List (CString × ℕ)) (iter sum : ℕ) :
    chainLength s offset chain (iter, sum) = (iter + total (entLen s) (chain.map Prod.snd),
      sum + total (entLen s) (behind (entLen s) offset iter (chain.map Prod.snd))) := by
  induction chain generalizing iter sum with
  | nil => rfl
  | cons entry rest ih =>
    rw [chainLength, ih, List.map_cons, total_cons, behind, Nat.add_assoc]
    by_cases h : offset < iter + entLen s entry.2
    · rw [if_pos h, if_neg (Nat.not_le.mpr h), total_cons, Nat.add_assoc]
    · rw [if_neg h, if_pos (Nat.not_lt.mp h)]

/-- The first pass adds up the records behind the offset. -/
lemma totalLength_eq (s : Vfs) (map : HashMap ℕ) (offset : ℕ) :
    ((List.range map.size).foldl (fun acc i => chainLength s offset (map.entries i) acc) (0, 0)).2 =
      total (entLen s) (behind (entLen s) offset 0 (childrenOf map)) := by
  have hloop : ∀ (buckets : List ℕ) (iter sum : ℕ),
      buckets.foldl (fun acc i => chainLength s offset (map.entries i) acc) (iter, sum) =
        (iter + total (entLen s) (buckets.flatMap fun i => (map.entries i).map Prod.snd),
          sum + total (entLen s) (behind (entLen s) offset iter (buckets.flatMap fun i => (map.entries i).map Prod.snd))) := by
    intro buckets
    induction buckets with
    | nil => exact fun _ _ => rfl
    | cons i buckets ih =>
      intro iter sum
      rw [List.foldl_cons, chainLength_eq, ih, List.flatMap_cons, total_append, behind_append, total_append,
        Nat.add_assoc, Nat.add_assoc]
  rw [hloop]
  exact Nat.zero_add _

variable {ino : ℕ → BitVec 64} {fuel buffer actualCount : ℕ} {reduce : ℕ → ℕ} {pre : List ℕ} {st st' : Filled}

/-- The state of the second pass after the children `pre`, some of which may have been left out once
the piece was long enough. -/
structure Passed (s : Vfs) (ino : ℕ → BitVec 64) (reduce : ℕ → ℕ) (buffer offset actualCount : ℕ) (pre : List ℕ)
    (st : Filled) : Prop where
  size : st.readSize = total (entLen s) (piece (entLen s) actualCount (behind (entLen s) offset 0 pre))
  listing : Listing st.mem buffer
    ((piece (entLen s) actualCount (behind (entLen s) offset 0 pre)).map (direntOf s ino reduce))
  iter : st.readSize < actualCount → st.iterOffset = total (entLen s) pre

lemma total_direntOf (s : Vfs) (ino : ℕ → BitVec 64) (reduce : ℕ → ℕ) (children : List ℕ) :
    total Dirent.dReclen (children.map (direntOf s ino reduce)) = total (entLen s) children := by
  rw [total, total, List.map_map]
  rfl

/-- Bytes behind the piece may change. -/
lemma Passed.listing_congr {mem : Memory} (h : Passed s ino reduce buffer offset actualCount pre st)
    (hmem : ∀ b < buffer + st.readSize, mem b = st.mem b) : Listing mem buffer
      ((piece (entLen s) actualCount (behind (entLen s) offset 0 pre)).map (direntOf s ino reduce)) := by
  refine Listing.congr (fun d hd => ?_) h.listing fun b hb => hmem b ?_
  · obtain ⟨x, -, rfl⟩ := List.mem_map.mp hd
    change (s.nodes x).name.strlen + 12 ≤ entLen s x
    rw [entLen, sizeofDirent]
    omega
  · rwa [total_direntOf, ← h.size] at hb

/-- Once the piece is long enough, nothing more is added to it. -/
lemma Passed.closed {mem : Memory} {iter : ℕ} (h : Passed s ino reduce buffer offset actualCount pre st)
    (hfull : actualCount ≤ st.readSize) (hmem : ∀ b < buffer + st.readSize, mem b = st.mem b) (rest : List ℕ) :
    Passed s ino reduce buffer offset actualCount (pre ++ rest) ⟨iter, st.readSize, mem⟩ := by
  have hpiece : piece (entLen s) actualCount (behind (entLen s) offset 0 (pre ++ rest)) =
      piece (entLen s) actualCount (behind (entLen s) offset 0 pre) := by
    rw [behind_append]
    exact piece_append_of_le (h.size ▸ hfull)
  refine ⟨?_, ?_, fun hlt => absurd hfull (Nat.not_le.mpr hlt)⟩
  · rw [hpiece]
    exact h.size
  · rw [hpiece]
    exact h.listing_congr hmem

lemma behind_concat (x : ℕ) : behind (entLen s) offset 0 (pre ++ [x]) = behind (entLen s) offset 0 pre ++
    if total (entLen s) pre + entLen s x ≤ offset then [] else [x] := by
  rw [behind_append, Nat.zero_add, behind]
  rfl

/-- A record is left out because it ends at the offset or before. -/
lemma Passed.skip {x : ℕ} (h : Passed s ino reduce buffer offset actualCount pre st)
    (hskip : st.iterOffset + entLen s x ≤ offset) :
    Passed s ino reduce buffer offset actualCount (pre ++ [x]) { st with iterOffset := st.iterOffset + entLen s x } := by
  by_cases hfull : actualCount ≤ st.readSize
  · exact h.closed hfull (fun _ _ => rfl) [x]
  · have hiter := h.iter (Nat.not_le.mp hfull)
    have hbehind : behind (entLen s) offset 0 (pre ++ [x]) = behind (entLen s) offset 0 pre := by
      rw [behind_concat, if_pos (hiter ▸ hskip), List.append_nil]
    refine ⟨hbehind ▸ h.size, hbehind ▸ h.listing, fun _ => ?_⟩
    rw [total_append, ← hiter, total_cons, total_nil, Nat.add_zero]

/-- A record is added. -/
lemma Passed.add {x : ℕ} (h : Passed s ino reduce buffer offset actualCount pre st)
    (hshort : entLen s x < 65536) (hskip : ¬st.iterOffset + entLen s x ≤ offset) (hfull : ¬actualCount ≤ st.readSize) :
    Passed s ino reduce buffer offset actualCount (pre ++ [x]) ⟨st.iterOffset + entLen s x, st.readSize + entLen s x,
      storeDirent st.mem (buffer + st.readSize) (ino (reduce x)) (entLen s x) (dType (s.nodes (reduce x)).mode)
        (s.nodes x).name⟩ := by
  have hiter := h.iter (Nat.not_le.mp hfull)
  have hpiece : piece (entLen s) actualCount (behind (entLen s) offset 0 (pre ++ [x])) =
      piece (entLen s) actualCount (behind (entLen s) offset 0 pre) ++ [x] := by
    rw [behind_concat, if_neg (hiter ▸ hskip)]
    refine piece_append_of_lt ?_
    rw [← h.size]
    exact Nat.not_le.mp hfull
  refine ⟨?_, ?_, fun _ => ?_⟩
  · rw [hpiece, total_append, ← h.size, total_cons, total_nil, Nat.add_zero]
  · rw [hpiece, List.map_append]
    refine (h.listing_congr fun b hb => storeDirent_below hb).concat ?_
    rw [total_direntOf, ← h.size]
    exact storeDirent_holds hshort
  · rw [total_append, ← hiter, total_cons, total_nil, Nat.add_zero]

/-- One chain. -/
lemma Passed.chain {chain : List (CString × ℕ)} (h : Passed s ino reduce buffer offset actualCount pre st)
    (hshort : ∀ x ∈ chain.map Prod.snd, entLen s x < 65536)
    (hreduce : ∀ x ∈ chain.map Prod.snd, vfsReduceNode s fuel x = some (reduce x)) :
    ∃ st', fillChain s ino fuel buffer offset actualCount chain st = some st' ∧
      Passed s ino reduce buffer offset actualCount (pre ++ chain.map Prod.snd) st' := by
  induction chain generalizing pre st with
  | nil => exact ⟨st, rfl, by rwa [List.map_nil, List.append_nil]⟩
  | cons entry rest ih =>
    rw [List.map_cons] at hshort hreduce ⊢
    have ihrest : ∀ pre st, Passed s ino reduce buffer offset actualCount pre st →
        ∃ st', fillChain s ino fuel buffer offset actualCount rest st = some st' ∧
          Passed s ino reduce buffer offset actualCount (pre ++ rest.map Prod.snd) st' := fun pre st h =>
      ih h (fun x hx => hshort x (List.mem_cons_of_mem _ hx)) fun x hx => hreduce x (List.mem_cons_of_mem _ hx)
    rw [fillChain, hreduce _ List.mem_cons_self, Option.bind_some, List.append_cons]
    dsimp only
    by_cases hskip : st.iterOffset + entLen s entry.2 ≤ offset
    · rw [if_pos hskip]
      exact ihrest _ _ (h.skip hskip)
    · rw [if_neg hskip]
      by_cases hfull : actualCount ≤ st.readSize
      · rw [if_pos hfull, List.append_assoc]
        exact ⟨_, rfl, h.closed hfull (fun b hb => storeDirent_below hb) _⟩
      · rw [if_neg hfull]
        exact ihrest _ _ (h.add (hshort _ List.mem_cons_self) hskip hfull)

/-- All chains. -/
lemma Passed.buckets {buckets : List ℕ} (h : Passed s ino reduce buffer offset actualCount pre st)
    (hshort : ∀ i ∈ buckets, ∀ x ∈ (map.entries i).map Prod.snd, entLen s x < 65536)
    (hreduce : ∀ i ∈ buckets, ∀ x ∈ (map.entries i).map Prod.snd, vfsReduceNode s fuel x = some (reduce x)) :
    ∃ st', fillBuckets s ino fuel buffer offset actualCount map buckets st = some st' ∧
      Passed s ino reduce buffer offset actualCount (pre ++ buckets.flatMap fun i => (map.entries i).map Prod.snd) st' := by
  induction buckets generalizing pre st with
  | nil => exact ⟨st, rfl, by rwa [List.flatMap_nil, List.append_nil]⟩
  | cons i buckets ih =>
    obtain ⟨st1, hst1, h1⟩ := h.chain (hshort i List.mem_cons_self) (hreduce i List.mem_cons_self)
    rw [fillBuckets, hst1, Option.bind_some, List.flatMap_cons, ← List.append_assoc]
    exact ih h1 (fun j hj => hshort j (List.mem_cons_of_mem _ hj)) fun j hj => hreduce j (List.mem_cons_of_mem _ hj)

/-- What `vfs_getdents` does at an offset behind the children `done`: it returns nothing if there are no
others, and otherwise the records of some of them. -/
lemma vfsGetdents_spec {count : ℕ} (mem : Memory) (buffer : ℕ) (hcount : 1 ≤ count) {done rest : List ℕ}
    (hchildren : childrenOf map = done ++ rest) (hshort : ∀ x ∈ childrenOf map, entLen s x < 65536)
    (hreduce : ∀ x ∈ childrenOf map, vfsReduceNode s fuel x = some (reduce x)) :
    ∃ block mem', vfsGetdents s ino fuel map mem buffer (total (entLen s) done) count =
        some (total (entLen s) block, mem') ∧ block <+: rest ∧ (rest ≠ [] → block ≠ []) ∧
      Listing mem' buffer (block.map (direntOf s ino reduce)) := by
  have hbehind : behind (entLen s) (total (entLen s) done) 0 (childrenOf map) = rest := by
    rw [hchildren]
    exact behind_total fun x _ => entLen_pos s x
  rw [vfsGetdents, totalLength_eq, hbehind]
  by_cases hnil : rest = []
  · rw [hnil, total_nil, if_pos rfl]
    exact ⟨[], mem, rfl, List.nil_prefix, fun h => absurd rfl h, trivial⟩
  · have hpos := total_pos (fun x _ => entLen_pos s x) hnil
    rw [if_neg hpos.ne']
    have hstart : Passed s ino reduce buffer (total (entLen s) done) (min (total (entLen s) rest) count) [] ⟨0, 0, mem⟩ :=
      ⟨rfl, trivial, fun _ => rfl⟩
    have hmem : ∀ i ∈ List.range map.size, ∀ x ∈ (map.entries i).map Prod.snd, x ∈ childrenOf map :=
      fun i hi x hx => List.mem_flatMap.mpr ⟨i, hi, hx⟩
    obtain ⟨st, hst, h⟩ := hstart.buckets (fun i hi x hx => hshort x (hmem i hi x hx))
      fun i hi x hx => hreduce x (hmem i hi x hx)
    have hend : behind (entLen s) (total (entLen s) done) 0
        ([] ++ (List.range map.size).flatMap fun i => (map.entries i).map Prod.snd) = rest := hbehind
    have hsize := h.size
    have hlisting := h.listing
    rw [hend] at hsize hlisting
    refine ⟨_, st.mem, ?_, piece_isPrefix, fun _ => piece_ne_nil ?_ hnil, hlisting⟩
    · rw [hst, Option.map_some, hsize]
    · omega

end Passes

end PiggyOs.VfsTree
