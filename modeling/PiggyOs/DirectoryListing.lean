import PiggyOs.AccessMode
import PiggyOs.KernelTree

/-! A whole directory, read with one call of `getdents` after the other. -/
namespace PiggyOs.Descriptors
open ByteMemory Fork VfsTree Hash Records Fuel Filter Transition
open FileCalls (oPath oRdonly oRdwr)

/-- One call, with the memory of the process that makes it. -/
structure Piece where
  mem : Memory
  buf : ℕ
  count : ℕ

/-- What the calls return, with the memory after each of them. -/
def getdentsCalls (process : ℕ) (fdnum : ℤ) (fuel : ℕ) : List Piece → Sys → Option (List (ℤ × Memory))
  | [], _ => some []
  | c :: cs, s => (syscallGetdents s process fdnum true c.mem c.buf c.count fuel).bind fun ((ret, s), mem) =>
      (getdentsCalls process fdnum fuel cs s).map ((ret, mem) :: ·)

/-- What a node leads to. -/
noncomputable def target (vfs : Vfs) (x : ℕ) : ℕ := (vfs.reduced x).getD x

/-- The records of `blocks` are in the bytes that the calls return. -/
def Delivered (s : Sys) : List Piece → List (ℤ × Memory) → List (List ℕ) → Prop
  | [], [], [] => True
  | c :: calls, answer :: answers, block :: blocks =>
      (answer.1 = total (entLen s.vfs) block ∧
        Listing answer.2 c.buf (block.map (direntOf s.vfs s.ino (target s.vfs)))) ∧
      Delivered s calls answers blocks
  | _, _, _ => False

/-- The blocks are all children in the order of the table, or as many of them as the calls got to. None is
empty before the end, and after it all are. -/
structure Exhausts (children : List ℕ) (blocks : List (List ℕ)) : Prop where
  order : blocks.flatten <+: children
  progress : ∀ done rest, blocks = done ++ [] :: rest → done.flatten = children
  ended : ∀ done block rest, blocks = done ++ block :: rest → done.flatten = children → block = []
  complete : children.length ≤ blocks.length → blocks.flatten = children

/-- However the program chooses the buffers and the sizes, it gets every child once. -/
def Enumerates (s : Sys) (process : ℕ) (fdnum : ℤ) (map : HashMap ℕ) : Prop :=
  (childrenOf map).Nodup ∧ ∀ calls : List Piece, (∀ c ∈ calls, 1 ≤ c.count) → ∀ᶠ fuel in atTop, ∃ answers blocks,
    getdentsCalls process fdnum fuel calls s = some answers ∧ Delivered s calls answers blocks ∧
    Exhausts (childrenOf map) blocks

section Calls
variable {s s' : Sys} {process : ℕ} {fdnum : ℤ} {map : HashMap ℕ} {done rest : List ℕ} {fuel : ℕ} {children : List ℕ}
  {blocks : List (List ℕ)} {block : List ℕ}

lemma exhausts_nil : Exhausts [] blocks ↔ blocks.flatten = [] := by
  refine ⟨fun h => List.prefix_nil.mp h.order, fun h => ⟨by rw [h], ?_, ?_, fun _ => h⟩⟩
  · rintro done rest rfl
    rw [List.flatten_append] at h
    exact (List.append_eq_nil_iff.mp h).1
  · rintro done block rest rfl -
    exact List.flatten_eq_nil_iff.mp h block (by simp)

/-- A first block, and the others for what is left. -/
lemma Exhausts.cons (h : Exhausts rest blocks) (hblock : block ≠ []) : Exhausts (block ++ rest) (block :: blocks) where
  order := by
    rw [List.flatten_cons]
    exact (List.prefix_append_right_inj block).mpr h.order
  progress done more hdone := by
    cases done with
    | nil => exact absurd (List.cons.inj hdone).1 hblock
    | cons b done =>
      obtain ⟨rfl, hdone'⟩ := List.cons.inj hdone
      rw [List.flatten_cons, h.progress done more hdone']
  ended done b more hdone hend := by
    cases done with
    | nil =>
      rw [List.flatten_nil] at hend
      exact absurd (List.append_eq_nil_iff.mp hend.symm).1 hblock
    | cons b' done =>
      obtain ⟨rfl, hdone'⟩ := List.cons.inj hdone
      rw [List.flatten_cons] at hend
      exact h.ended done b more hdone' (List.append_cancel_left hend)
  complete hlen := by
    have hpos := List.length_pos_iff.mpr hblock
    rw [List.length_append, List.length_cons] at hlen
    rw [List.flatten_cons, h.complete (by omega)]

/-- The state of the descriptor after the children `done`. -/
structure Reading (s0 : Sys) (process : ℕ) (fdnum : ℤ) (map : HashMap ℕ) (done : List ℕ) (s : Sys) : Prop where
  vfs : s.vfs = s0.vfs
  ino : s.ino = s0.ino
  descriptor : ∃ p fd, s.object process fdnum = some p ∧ s.fds p = some fd ∧ permits fd.flags .read = true ∧
    s.vfs.isDir fd.node = true ∧ (s.vfs.nodes fd.node).children = some map ∧
    fd.offset.toNat = total (entLen s0.vfs) done

/-- A call on a directory that is open for reading. -/
lemma syscallGetdents_eq {p : ℕ} {fd : FileDescriptor} (hp : s.object process fdnum = some p) (hfd : s.fds p = some fd)
    (hread : permits fd.flags .read = true) (hdir : s.vfs.isDir fd.node = true)
    (hmap : (s.vfs.nodes fd.node).children = some map) (mem : Memory) (buf count : ℕ) :
    syscallGetdents s process fdnum true mem buf count fuel =
      (vfsGetdents s.vfs s.ino fuel map mem buf fd.offset.toNat count).map fun (read, mem) =>
        (advanced (s.addReference p) p { fd with refcount := fd.refcount + 1 } (BitVec.ofNat 64 read), mem) := by
  obtain ⟨hpath, hmode⟩ := permits_read_iff.mp hread
  have hpath' : ¬accMode { fd with refcount := fd.refcount + 1 } &&& oPath ≠ 0 := not_not.mpr hpath
  have hmode' : ¬(accMode { fd with refcount := fd.refcount + 1 } ≠ oRdwr ∧
      accMode { fd with refcount := fd.refcount + 1 } ≠ oRdonly) := hmode
  have hdir' : ¬¬(s.addReference p).vfs.isDir fd.node = true := not_not.mpr hdir
  have hmap' : ((s.addReference p).vfs.nodes fd.node).children = some map := hmap
  rw [syscallGetdents, if_neg (by decide), onFd_of_some hp hfd, if_neg hpath', if_neg hmode', if_neg hdir', hmap',
    Option.bind_some]
  rfl

/-- One call. -/
lemma Reading.call (h : Reading s process fdnum map done s') (hchildren : childrenOf map = done ++ rest)
    (htotal : total (entLen s.vfs) (childrenOf map) < 2 ^ 63) (hshort : ∀ x ∈ childrenOf map, entLen s.vfs x < 65536)
    (hreduce : ∀ x ∈ childrenOf map, vfsReduceNode s.vfs fuel x = some (target s.vfs x)) (c : Piece) (hc : 1 ≤ c.count) :
    ∃ block mem s'', syscallGetdents s' process fdnum true c.mem c.buf c.count fuel =
        some ((((total (entLen s.vfs) block : ℕ) : ℤ), s''), mem) ∧ block <+: rest ∧ (rest ≠ [] → block ≠ []) ∧
      Listing mem c.buf (block.map (direntOf s.vfs s.ino (target s.vfs))) ∧ Reading s process fdnum map (done ++ block) s'' := by
  obtain ⟨hvfs, hino, p, fd, hp, hfd, hread, hdir, hmap, hoffset⟩ := h
  obtain ⟨block, mem, hget, hblock, hne, hlisting⟩ : ∃ block mem, vfsGetdents s.vfs s.ino fuel map c.mem c.buf _ c.count = _ ∧ _ :=
    vfsGetdents_spec c.mem c.buf hc hchildren hshort hreduce
  have hle : total (entLen s.vfs) done + total (entLen s.vfs) block < 2 ^ 63 := by
    obtain ⟨more, rfl⟩ := hblock
    rw [hchildren, total_append, total_append] at htotal
    omega
  have hnat : (BitVec.ofNat 64 (total (entLen s.vfs) block)).toNat = total (entLen s.vfs) block := by
    rw [BitVec.toNat_ofNat]
    omega
  have hint : (BitVec.ofNat 64 (total (entLen s.vfs) block)).toInt = (total (entLen s.vfs) block : ℕ) := by
    rw [BitVec.toInt_eq_toNat_of_lt (by omega), hnat]
  refine ⟨block, mem, (advanced (s'.addReference p) p { fd with refcount := fd.refcount + 1 }
    (BitVec.ofNat 64 (total (entLen s.vfs) block))).2, ?_, hblock, hne, hlisting, ?_⟩
  · rw [syscallGetdents_eq hp hfd hread hdir hmap, hvfs, hino, hoffset, hget, Option.map_some, ← hint]
    rfl
  · rw [advanced, hint]
    by_cases hpos : 0 < ((total (entLen s.vfs) block : ℕ) : ℤ)
    · rw [if_pos hpos]
      refine ⟨hvfs, hino, p, _, hp, setFd_fds_self .., hread, hdir, hmap, ?_⟩
      dsimp only
      rw [BitVec.toNat_add, hnat, hoffset, total_append, Nat.mod_eq_of_lt (by omega)]
    · rw [if_neg hpos]
      refine ⟨hvfs, hino, p, _, hp, addReference_fds hfd, hread, hdir, hmap, ?_⟩
      dsimp only
      rw [hoffset, total_append]
      omega

/-- All calls. -/
lemma Reading.calls (h : Reading s process fdnum map done s') (hchildren : childrenOf map = done ++ rest)
    (htotal : total (entLen s.vfs) (childrenOf map) < 2 ^ 63) (hshort : ∀ x ∈ childrenOf map, entLen s.vfs x < 65536)
    (hreduce : ∀ x ∈ childrenOf map, vfsReduceNode s.vfs fuel x = some (target s.vfs x)) {calls : List Piece}
    (hcalls : ∀ c ∈ calls, 1 ≤ c.count) : ∃ answers blocks, getdentsCalls process fdnum fuel calls s' = some answers ∧
      Delivered s calls answers blocks ∧ Exhausts rest blocks := by
  induction calls generalizing done rest s' with
  | nil =>
    refine ⟨[], [], rfl, trivial, List.nil_prefix, fun done more hdone => ?_, fun done block more hdone => ?_, fun hlen => ?_⟩
    · simp at hdone
    · simp at hdone
    · exact (List.length_eq_zero_iff.mp (Nat.le_zero.mp hlen)).symm
  | cons c calls ih =>
    obtain ⟨block, mem, s'', hcall, ⟨more, rfl⟩, hne, hlisting, hreading⟩ :=
      h.call hchildren htotal hshort hreduce c (hcalls c List.mem_cons_self)
    rw [← List.append_assoc] at hchildren
    obtain ⟨answers, blocks, hanswers, hdelivered, hexhausts⟩ :=
      ih hreading hchildren fun c hc => hcalls c (List.mem_cons_of_mem _ hc)
    refine ⟨(_, mem) :: answers, block :: blocks, ?_, ⟨⟨rfl, hlisting⟩, hdelivered⟩, ?_⟩
    · rw [getdentsCalls, hcall, Option.bind_some]
      dsimp only
      rw [hanswers, Option.map_some]
    · by_cases hblock : block = []
      · have hmore : more = [] := by
          by_contra hmore
          exact hne (by simp [hmore]) hblock
        subst hblock hmore
        rw [List.nil_append, exhausts_nil, List.flatten_cons]
        exact exhausts_nil.mp hexhausts
      · exact hexhausts.cons hblock

/-- Every record of a listing is somewhere in memory. -/
lemma holdsDirent_of_mem {mem : Memory} {ent : ℕ} {ds : List Dirent} {dirent : Dirent} (h : Listing mem ent ds)
    (hmem : dirent ∈ ds) : ∃ ent, HoldsDirent mem ent dirent := by
  induction ds generalizing ent with
  | nil => simp at hmem
  | cons d ds ih =>
    rcases List.mem_cons.mp hmem with rfl | hmem
    · exact ⟨ent, h.1⟩
    · exact ih h.2 hmem

/-- A record that is found has a length of 16 bits. -/
lemma dReclen_lt {mem : Memory} {ent : ℕ} {dirent : Dirent} (h : HoldsDirent mem ent dirent) : dirent.dReclen < 65536 := by
  have h0 := (mem (ent + 8)).isLt
  have h1 := (mem (ent + 8 + 1)).isLt
  rw [← h.reclen, readNat, readNat, readNat]
  omega

lemma delivered_cons {calls : List Piece} {answers : List (ℤ × Memory)} (h : Delivered s calls answers (block :: blocks)) :
    ∃ c calls' mem answers', calls = c :: calls' ∧ Delivered s calls' answers' blocks ∧
      Listing mem c.buf (block.map (direntOf s.vfs s.ino (target s.vfs))) := by
  cases calls with
  | nil => cases answers <;> simp [Delivered] at h
  | cons c calls =>
    cases answers with
    | nil => simp [Delivered] at h
    | cons answer answers => exact ⟨c, calls, answer.2, answers, rfl, h.2, h.1.2⟩

lemma Delivered.short {calls : List Piece} {answers : List (ℤ × Memory)} {x : ℕ} (h : Delivered s calls answers blocks)
    (hx : x ∈ blocks.flatten) : entLen s.vfs x < 65536 := by
  induction blocks generalizing calls answers with
  | nil => simp at hx
  | cons block blocks ih =>
    obtain ⟨c, calls, mem, answers, -, h, hlisting⟩ := delivered_cons h
    rw [List.flatten_cons, List.mem_append] at hx
    rcases hx with hx | hx
    · obtain ⟨ent, hholds⟩ := holdsDirent_of_mem hlisting (List.mem_map_of_mem hx)
      exact dReclen_lt hholds
    · exact ih h hx

lemma Delivered.length {calls : List Piece} {answers : List (ℤ × Memory)} (h : Delivered s calls answers blocks) :
    blocks.length = calls.length := by
  induction blocks generalizing calls answers with
  | nil =>
    cases calls with
    | nil => rfl
    | cons c calls => cases answers <;> simp [Delivered] at h
  | cons block blocks ih =>
    obtain ⟨c, calls, mem, answers, rfl, h, -⟩ := delivered_cons h
    rw [List.length_cons, List.length_cons, ih h]

/-- The lengths have to fit into `d_reclen`. -/
lemma Enumerates.short (h : Enumerates s process fdnum map) : ∀ x ∈ childrenOf map, entLen s.vfs x < 65536 := by
  intro x hx
  obtain ⟨fuel, answers, blocks, -, hdelivered, hexhausts⟩ :=
    (h.2 (List.replicate (childrenOf map).length ⟨fun _ => 0, 0, 1⟩) fun c hc => by
      rw [List.eq_of_mem_replicate hc]).exists
  have hlength := hdelivered.length
  rw [List.length_replicate] at hlength
  rw [← hexhausts.complete hlength.ge] at hx
  exact hdelivered.short hx

end Calls

section Kernel
variable {S : System} {events : List Event} {s : Sys} {process p : ℕ} {fdnum : ℤ} {fd : FileDescriptor} {map : HashMap ℕ} {d : ℕ}

/-- All records of a directory together are shorter than the kernel's part of the address space allows. -/
lemma total_entLen_lt (hrun : Run KernelStep systemInit events S) (hmap : (S.vfs.nodes d).children = some map) :
    total (entLen S.vfs) (childrenOf map) < 2 ^ 63 := by
  have hshaped := (kernelValid_of_run hrun).shaped
  have hfits := fits_of_run hrun
  have hsub : (childrenOf map).toFinset ⊆ Finset.range S.vfs.count := fun x hx =>
    Finset.mem_range.mpr (hshaped.linked d map hmap x (List.mem_toFinset.mp hx)).1
  have hle : ∀ x, entLen S.vfs x ≤ 17 * ((S.vfs.nodes x).name.strlen + 1) := by
    intro x
    rw [entLen, sizeofDirent]
    omega
  calc total (entLen S.vfs) (childrenOf map)
      = ∑ x ∈ (childrenOf map).toFinset, entLen S.vfs x := (List.sum_toFinset _ (hshaped.nodup d map hmap)).symm
    _ ≤ ∑ x ∈ Finset.range S.vfs.count, entLen S.vfs x := Finset.sum_le_sum_of_subset hsub
    _ ≤ ∑ x ∈ Finset.range S.vfs.count, 17 * ((S.vfs.nodes x).name.strlen + 1) := Finset.sum_le_sum fun x _ => hle x
    _ = 17 * ∑ x ∈ Finset.range S.vfs.count, ((S.vfs.nodes x).name.strlen + 1) := (Finset.mul_sum ..).symm
    _ ≤ 17 * 2 ^ 47 := Nat.mul_le_mul_left 17 hfits
    _ < 2 ^ 63 := by norm_num

/-- Every child leads somewhere. -/
lemma eventually_reduce (hrun : Run KernelStep systemInit events S) (hmap : (S.vfs.nodes d).children = some map) :
    ∀ᶠ fuel in atTop, ∀ x ∈ childrenOf map, vfsReduceNode S.vfs fuel x = some (target S.vfs x) := by
  obtain ⟨⟨reduce, up, hinv⟩, hshaped, -⟩ := kernelValid_of_run hrun
  have hfound : ∀ x ∈ (childrenOf map).toFinset, ∀ᶠ fuel in atTop, vfsReduceNode S.vfs fuel x = some (target S.vfs x) := by
    intro x hx
    obtain ⟨m, hm⟩ : ∃ m, S.vfs.reduced x = some m := by
      rcases (hshaped.linked d map hmap x (List.mem_toFinset.mp hx)).2 with hlink | ⟨y, -, hlink, hy⟩
      · exact ⟨_, hinv.reduced x hlink⟩
      · exact ⟨_, hinv.reduced_link hlink hy⟩
    rw [target, hm, Option.getD_some, ← hm]
    exact (settles_reduced S.vfs x).eventually
  filter_upwards [(Filter.eventually_all_finset _).mpr hfound] with fuel hfuel x hx
  exact hfuel x (List.mem_toFinset.mpr hx)

/-- A program that reads a directory of a tree that the kernel has built gets every child once, in the order
of the table, and then nothing more, if and only if no name has more than 65518 bytes. -/
theorem getdents_enumerates (hrun : Run KernelStep systemInit events S) (hvfs : s.vfs = S.vfs)
    (hp : s.object process fdnum = some p) (hfd : s.fds p = some fd) (hread : permits fd.flags .read = true)
    (hdir : s.vfs.isDir fd.node = true) (hoffset : fd.offset = 0) :
    ∃ map, (s.vfs.nodes fd.node).children = some map ∧
      (Enumerates s process fdnum map ↔ ∀ x ∈ childrenOf map, (s.vfs.nodes x).name.strlen ≤ 65518) := by
  have hshaped := (kernelValid_of_run hrun).shaped
  obtain ⟨map, hmap⟩ := hshaped.tables fd.node (hvfs ▸ hdir)
  rw [← hvfs] at hmap
  have hlen : ∀ x, entLen s.vfs x < 65536 ↔ (s.vfs.nodes x).name.strlen ≤ 65518 := by
    intro x
    rw [entLen, sizeofDirent]
    omega
  refine ⟨map, hmap, ?_⟩
  simp only [← hlen]
  refine ⟨Enumerates.short, fun hshort => ?_⟩
  have hmapS : (S.vfs.nodes fd.node).children = some map := hvfs ▸ hmap
  have hstart : Reading s process fdnum map [] s := ⟨rfl, rfl, p, fd, hp, hfd, hread, hdir, hmap, by rw [hoffset]; rfl⟩
  have htotal : total (entLen s.vfs) (childrenOf map) < 2 ^ 63 := hvfs ▸ total_entLen_lt hrun hmapS
  refine ⟨hshaped.nodup _ map hmapS, fun calls hcalls => ?_⟩
  filter_upwards [eventually_reduce hrun hmapS] with fuel hreduce
  rw [← hvfs] at hreduce
  exact hstart.calls rfl htotal hshort hreduce hcalls

/-- Process 1 has opened the root. -/
def rootOpened (vfs : Vfs) : Sys := { unopened with
  vfs := vfs
  fds := fun p => if p = 0 then some ⟨2, 0, 1, 0⟩ else none
  tables := fun process i => if process = 1 ∧ i.val = 0 then some 0 else none }

/-- The root with nothing in it. -/
theorem getdents_enumerates_root : Enumerates (rootOpened rootMounted) 1 0 (dotMap 3 4) := by
  have hp : (rootOpened rootMounted).object 1 0 = some 0 := rfl
  have hfd : (rootOpened rootMounted).fds 0 = some ⟨2, 0, 1, 0⟩ := rfl
  obtain ⟨map, hmap, henum⟩ := getdents_enumerates (.nil systemInit) rfl hp hfd (by decide) rfl rfl
  obtain rfl : dotMap 3 4 = map := Option.some.inj hmap
  refine henum.mpr fun x hx => ?_
  rcases mem_childrenOf_dotMap hx with rfl | rfl
  · decide
  · decide

/-- A name of 65519 bytes. -/
def hugeName : CString := ⟨List.replicate 65519 0x61, fun h => absurd (List.eq_of_mem_replicate h) (by decide)⟩

lemma hugeName_strlen : hugeName.strlen = 65519 := List.length_replicate

/-- The archive that the kernel unpacks may have such a name. The length of its record is stored as 0. -/
theorem getdents_reclen_wraps : ∃ events S map, Run KernelStep systemInit events S ∧ S.vfs.isDir 2 = true ∧
    (S.vfs.nodes 2).children = some map ∧ ¬Enumerates (rootOpened S.vfs) 1 0 map := by
  have hslash : slash ∉ hugeName.1 := fun h => absurd (List.eq_of_mem_replicate h) (by decide)
  have hord : Ordinary hugeName := ordinary_of_lt (by rw [hugeName_strlen]; norm_num)
  have hrun := kernelRun_withDir hugeName hslash hord (by rw [hugeName_strlen]; norm_num)
  refine ⟨_, _, _, hrun, ?_, withDir_children hugeName, fun h => ?_⟩
  · obtain ⟨⟨reduce, up, hinv⟩, hshaped, -⟩ := kernelValid_of_run hrun
    exact (hinv.place (hshaped.place_root hinv)).2.2.1
  · have hshort := h.short 5 (mem_childrenOf_of_get (hashmapGet_hashmapSet_self ..))
    have hname : ((rootOpened (withDir hugeName).vfs).vfs.nodes 5).name = hugeName := withDir_name hugeName
    rw [entLen, hname, hugeName_strlen, sizeofDirent] at hshort
    omega

end Kernel

end PiggyOs.Descriptors
