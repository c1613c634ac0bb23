import PiggyOs.Elf
import PiggyOs.KernelHalf
import PiggyOs.Tmpfs
import Mathlib.Data.List.GetD

/-! When loading a program is confined to its own pages. Nothing in `elf_load` compares the sizes,
offsets and addresses of a program header with each other, so the file has to be consistent. -/
namespace PiggyOs.Elf
open ByteMemory Vmm Walk Tmpfs

/-- Requests of at least one page are served while `room` lasts. -/
def ServesBlocks {σ : Type} (pmmAlloc : σ → ℕ → Option (ℕ × σ)) (room : σ → ℕ) : Prop :=
  ∀ p n k, 1 ≤ n → k + n ≤ room p → ∃ a q, pmmAlloc p n = some (a, q) ∧ k ≤ room q

/-- A segment has pages, all in the user half, and its part of the file fits into them. -/
structure SegmentFits (five : Bool) (node : Node) (pheader : Memory) : Prop where
  pages : 1 ≤ (pageCount pheader).toNat
  user : ∀ j < (pageCount pheader).toNat,
    User (topIndex five (pVaddr pheader + BitVec.ofNat 64 (j * pageSize)))
  file : (misalign pheader).toNat + (tmpfsReadCount node (pOffset pheader) (pFilesz pheader)).toNat ≤
    pageSize * (pageCount pheader).toNat

/-- What `pheader` holds after program header `i` was read. -/
def headerAt (mem : Memory) (node : Node) (header pheader : Memory) (i : ℕ) : Memory :=
  readLocal mem node pheader (phOffset header i) sizeofProgramHeader

/-- The program headers lie in the file, and the segments they describe fit. -/
def HeadersFit (five : Bool) (mem : Memory) (node : Node) (header : Memory) : Memory → List ℕ → Prop
  | _, [] => True
  | pheader, i :: is => (phOffset header i).toNat ≤ node.size.toNat ∧
      (pType (headerAt mem node header pheader i) = ptLoad →
        SegmentFits five node (headerAt mem node header pheader i)) ∧
      HeadersFit five mem node header (headerAt mem node header pheader i) is

/-- Enough pages for the segments, with up to four tables for each page. -/
def pagesNeeded (mem : Memory) (node : Node) (header : Memory) : Memory → List ℕ → ℕ
  | _, [] => 0
  | pheader, i :: is =>
      (if pType (headerAt mem node header pheader i) = ptLoad then
        5 * (pageCount (headerAt mem node header pheader i)).toNat else 0) +
      pagesNeeded mem node header (headerAt mem node header pheader i) is

/-- The header that `elf_load` reads first. -/
def headerOf (mem : Memory) (node : Node) (stack : Memory) : Memory := readLocal mem node stack 0 sizeofHeader

/-- The bytes of the file are those of `content`. They are memory in use, in the lower half of the
address space. -/
structure InMemory {σ : Type} {highVma : ℕ} (src : PageSource σ highVma) (m : Machine σ) (node : Node)
    (content : Memory) : Prop where
  low : node.data + node.size.toNat + 64 < 2 ^ 63
  taken : ∀ b, node.data ≤ b → b < node.data + node.size.toNat → Taken src m.pmm (b / pageSize)
  bytes : ∀ b, node.data ≤ b → b < node.data + node.size.toNat → m.mem b = content b

section Counts
variable {node : Node} {offset count : BitVec 64}

/-- Inside the file `tmpfs_read` stops at its end. -/
lemma tmpfsReadCount_inside (hsize : node.size.toNat + count.toNat < 2 ^ 63)
    (hoff : offset.toNat ≤ node.size.toNat) :
    (tmpfsReadCount node offset count).toNat = min count.toNat (node.size.toNat - offset.toNat) :=
  actualCount_inside (by omega) (by omega) hoff

/-- A short read of a part of the file that begins inside it. -/
lemma readLocal_congr {mem mem' buf : Memory} (hlow : node.data + node.size.toNat < 2 ^ 63)
    (hsize : node.size.toNat + count.toNat < 2 ^ 63) (hoff : offset.toNat ≤ node.size.toNat)
    (h : ∀ b, node.data ≤ b → b < node.data + node.size.toNat → mem' b = mem b) :
    readLocal mem' node buf offset count = readLocal mem node buf offset count := by
  funext k
  unfold readLocal
  have hsource : node.source offset = node.data + offset.toNat := Nat.mod_eq_of_lt (by omega)
  split_ifs with hk
  · rw [tmpfsReadCount_inside hsize hoff] at hk
    rw [hsource]
    exact h _ (by omega) (by omega)
  · rfl

end Counts

lemma smallPage_vmmFlags (pheader : Memory) : SmallPage (vmmFlags pheader) := by
  unfold vmmFlags
  constructor
  · unfold FlagsOnly
    split_ifs <;> decide
  · split_ifs <;> decide
  · split_ifs <;> decide

section Segments
variable {σ : Type} {highVma : ℕ} {src : PageSource σ highVma} {pm : Pagemap} {room : σ → ℕ}
  {m m1 m2 : Machine σ}

lemma ServesBlocks.serves (hs : ServesBlocks src.alloc room) : Serves src.alloc room := by
  intro p k hk
  exact hs p 1 k le_rfl hk

lemma ServesBlocks.allocz (hs : ServesBlocks src.alloc room) {n k : ℕ} (hn : 1 ≤ n)
    (hk : k + n ≤ room m.pmm) : ∃ a m', pmmAllocz src.alloc m n = some (a, m') ∧ k ≤ room m'.pmm := by
  obtain ⟨a, q, ha, hq⟩ := hs m.pmm n k hn hk
  exact ⟨a, ⟨clear m.mem a (pageSize * n), q⟩, by simp [pmmAllocz, ha], hq⟩

/-- What a step of loading keeps: the tables of the user half are a tree, and frames that were in
use before and are no tables of it are not written. -/
structure Keeps (src : PageSource σ highVma) (pm : Pagemap) (m m' : Machine σ) : Prop where
  zero : Taken src m'.pmm 0
  tree : TreeInv src User m' pm.topLevel (depth pm.hasLevel5)
  spares : Spares src User pm.topLevel (depth pm.hasLevel5) m m'

lemma Keeps.trans (h : Keeps src pm m m1) (h' : Keeps src pm m1 m2) : Keeps src pm m m2 :=
  ⟨h'.zero, h'.tree, h.spares.trans h'.spares⟩

/-- The loop that maps the pages of a segment in the user half. -/
lemma mapPages_keeps (hv : 2 ^ 63 ≤ highVma) (hroom : ServesBlocks src.alloc room) (pheader : Memory)
    (physPages : ℕ) {k : ℕ} {js : List ℕ} (h0 : Taken src m.pmm 0)
    (htree : TreeInv src User m pm.topLevel (depth pm.hasLevel5))
    (huser : ∀ j ∈ js, User (topIndex pm.hasLevel5 (pVaddr pheader + BitVec.ofNat 64 (j * pageSize))))
    (hk : k + 4 * js.length ≤ room m.pmm) :
    ∃ m', mapPages src.alloc pm pheader physPages js m = some (true, m') ∧ Keeps src pm m m' ∧
      k ≤ room m'.pmm := by
  induction js generalizing m with
  | nil => exact ⟨m, rfl, ⟨h0, htree, .refl ..⟩, by simpa using hk⟩
  | cons j js ih =>
    rw [List.length_cons] at hk
    obtain ⟨b, m1, hmap, hk1⟩ := hroom.serves.mapPage
      (show k + 4 * js.length + 4 ≤ room m.pmm by omega) pm
      (pVaddr pheader + BitVec.ofNat 64 (j * pageSize)) (BitVec.ofNat 64 (physPages + j * pageSize))
      (vmmFlags pheader)
    obtain ⟨rfl, htree1, h01, -, hspare⟩ := vmmMapPage_updates hv htree h0 (huser j List.mem_cons_self)
      (smallPage_vmmFlags pheader) hmap
    obtain ⟨m', hrest, hkeep, hk'⟩ := ih h01 htree1 (fun i hi => huser i (List.mem_cons_of_mem _ hi)) hk1
    rw [mapPages, hmap]
    exact ⟨m', hrest, Keeps.trans ⟨h01, htree1, hspare⟩ hkeep, hk'⟩

/-- Writing to frames that came into use since `m` and are no tables. -/
lemma Keeps.write (h : Keeps src pm m m1) {mem : Memory} {F : Set ℕ} (hfresh : ∀ g ∈ F, ¬ Taken src m.pmm g)
    (hnot : ∀ g ∈ F, NotTable User pm.topLevel (depth pm.hasLevel5) m1 g)
    (hmem : ∀ b, b / pageSize ∉ F → mem b = m1.mem b) : Keeps src pm m { m1 with mem := mem } := by
  set m' : Machine σ := { m1 with mem := mem } with hm'
  have hkeep : ∀ g, Taken src m1.pmm g → Taken src m'.pmm g := fun g hg => hg
  obtain ⟨tree, -, hwalk⟩ := h.tree.congr_tables hkeep fun π hπ t hw b hb => by
    refine hmem b fun hF => hnot _ hF π hπ ?_
    rw [hw, ← hb]
  refine ⟨h.zero, tree, h.spares.taken, ?_, ?_, ?_⟩
  · intro g hg hn b hb
    have hb1 := hmem b fun hF => hfresh _ hF (hb ▸ hg)
    exact hb1.trans (h.spares.bytes g hg hn b hb)
  · intro g hg hn π hπ hw
    rw [hwalk π hπ] at hw
    exact h.spares.tables g hg hn π hπ hw
  · intro i hi
    rw [← h.spares.others i hi]
    refine entry_congr (fun b hb => hmem b fun hF => hnot _ hF [] (nil_mem_words ..) ?_) i
    rw [walk_nil, ← hb]

/-- What `loadSegment` leaves when its pages begin at `a` and `m2` is the machine after mapping
them. -/
def Load.filled (l : Load σ) (node : Node) (a : ℕ) (m2 : Machine σ) : Load σ where
  machine := { m2 with
    mem := movsb m2.mem (a + (misalign l.pheader).toNat) (node.source (pOffset l.pheader))
      (tmpfsReadCount node (pOffset l.pheader) (pFilesz l.pheader)).toNat }
  pheader := l.pheader
  writes := .toPages a (pageCount l.pheader).toNat (a + (misalign l.pheader).toNat)
    (tmpfsReadCount node (pOffset l.pheader) (pFilesz l.pheader)).toNat :: l.writes

lemma Load.filled_pmm (l : Load σ) (node : Node) (a : ℕ) (m2 : Machine σ) :
    (l.filled node a m2).machine.pmm = m2.pmm := by rw [Load.filled]

lemma Load.filled_pheader (l : Load σ) (node : Node) (a : ℕ) (m2 : Machine σ) :
    (l.filled node a m2).pheader = l.pheader := by rw [Load.filled]

/-- The steps that load a segment: `m1` after the allocation of its pages, `m2` after their
mapping. -/
structure SegmentRun (src : PageSource σ highVma) (pm : Pagemap) (node : Node) (l : Load σ) (a : ℕ)
    (m1 m2 : Machine σ) : Prop where
  aligned : a % pageSize = 0
  alloc : pmmAllocz src.alloc l.machine (pageCount l.pheader).toNat = some (a, m1)
  map : mapPages src.alloc pm l.pheader a (List.range (pageCount l.pheader).toNat) m1 = some (true, m2)
  keepsAlloc : Keeps src pm l.machine m1
  keepsMap : Keeps src pm m1 m2
  low : ∀ g, a / pageSize ≤ g → g < a / pageSize + (pageCount l.pheader).toNat → g * pageSize < 2 ^ 63
  fresh : ∀ g, a / pageSize ≤ g → g < a / pageSize + (pageCount l.pheader).toNat → ¬ Taken src l.machine.pmm g
  taken : ∀ g, a / pageSize ≤ g → g < a / pageSize + (pageCount l.pheader).toNat → Taken src m1.pmm g
  notTable : ∀ g, a / pageSize ≤ g → g < a / pageSize + (pageCount l.pheader).toNat →
    NotTable User pm.topLevel (depth pm.hasLevel5) m1 g
  result : loadSegment src.alloc pm node l =
    some (if (tmpfsReadCount node (pOffset l.pheader) (pFilesz l.pheader)).slt 0 then some (-eio) else none,
      l.filled node a m2)

lemma exists_segmentRun (node : Node) {l : Load σ} {k : ℕ} (hv : 2 ^ 63 ≤ highVma)
    (hroom : ServesBlocks src.alloc room) (h0 : Taken src l.machine.pmm 0)
    (htree : TreeInv src User l.machine pm.topLevel (depth pm.hasLevel5))
    (hpages : 1 ≤ (pageCount l.pheader).toNat)
    (huser : ∀ j < (pageCount l.pheader).toNat,
      User (topIndex pm.hasLevel5 (pVaddr l.pheader + BitVec.ofNat 64 (j * pageSize))))
    (hk : k + 5 * (pageCount l.pheader).toNat ≤ room l.machine.pmm) :
    ∃ a m1 m2, SegmentRun src pm node l a m1 m2 ∧ k ≤ room m2.pmm := by
  obtain ⟨a, m1, halloc, hk1⟩ := hroom.allocz (m := l.machine) hpages
    (show k + 4 * (pageCount l.pheader).toNat + _ ≤ _ by omega)
  obtain ⟨halign, hmono, hnew, hbytes⟩ := pmmAllocz_cases hv halloc
  obtain ⟨tree1, -, hspare1, hwalk1⟩ := htree.congr hmono hbytes
  have ha : a ≠ 0 := by
    rintro rfl
    exact (hnew 0 (by simp) (by rw [Nat.zero_div]; omega)).2.1 h0
  obtain ⟨m2, hmap, hkeep2, hk2⟩ := mapPages_keeps hv hroom l.pheader a (hmono 0 h0) tree1
    (fun j hj => huser j (List.mem_range.mp hj))
    (show k + 4 * (List.range (pageCount l.pheader).toNat).length ≤ room m1.pmm by rwa [List.length_range])
  refine ⟨a, m1, m2, ⟨halign, halloc, hmap, ⟨hmono 0 h0, tree1, hspare1⟩, hkeep2,
    fun g hlo hhi => (hnew g hlo hhi).1, fun g hlo hhi => (hnew g hlo hhi).2.1,
    fun g hlo hhi => (hnew g hlo hhi).2.2, fun g hlo hhi π hπ hw => ?_, ?_⟩, hk2⟩
  · rw [hwalk1 π hπ] at hw
    exact (hnew g hlo hhi).2.1 (htree.taken π hπ g hw)
  · unfold loadSegment
    rw [halloc]
    simp only [if_neg ha, hmap]
    split_ifs
    · rfl
    · rfl

/-- Copying a part of the file into the pages of a segment. -/
lemma SegmentRun.keeps {node : Node} {l : Load σ} {a : ℕ} (h : SegmentRun src pm node l a m1 m2)
    (hfile : (misalign l.pheader).toNat + (tmpfsReadCount node (pOffset l.pheader) (pFilesz l.pheader)).toNat ≤
      pageSize * (pageCount l.pheader).toNat) :
    Keeps src pm l.machine (l.filled node a m2).machine := by
  have halign := h.aligned
  refine (h.keepsAlloc.trans h.keepsMap).write
    (F := {g | a / pageSize ≤ g ∧ g < a / pageSize + (pageCount l.pheader).toNat}) ?_ ?_ ?_
  · rintro g ⟨hlo, hhi⟩
    exact h.fresh g hlo hhi
  · rintro g ⟨hlo, hhi⟩
    exact h.keepsMap.spares.tables g (h.taken g hlo hhi) (h.notTable g hlo hhi)
  · intro b hb
    refine movsb_outside _ ?_
    by_contra hin
    refine hb ⟨?_, ?_⟩
    · simp only [pageSize] at *
      omega
    · simp only [pageSize] at *
      omega

/-- A segment that fits is loaded, and its part of the file goes to its own pages. -/
lemma loadSegment_keeps {node : Node} {l : Load σ} {k : ℕ} (hv : 2 ^ 63 ≤ highVma)
    (hroom : ServesBlocks src.alloc room) (h0 : Taken src l.machine.pmm 0)
    (htree : TreeInv src User l.machine pm.topLevel (depth pm.hasLevel5))
    (hfit : SegmentFits pm.hasLevel5 node l.pheader)
    (hk : k + 5 * (pageCount l.pheader).toNat ≤ room l.machine.pmm) :
    ∃ r l' w, loadSegment src.alloc pm node l = some (r, l') ∧ (∀ e ∈ r, e < 0) ∧
      l'.pheader = l.pheader ∧ l'.writes = w :: l.writes ∧ w.Confined ∧
      Keeps src pm l.machine l'.machine ∧ k ≤ room l'.machine.pmm := by
  obtain ⟨a, m1, m2, hrun, hk2⟩ := exists_segmentRun node hv hroom h0 htree hfit.pages hfit.user hk
  have hfile := hfit.file
  obtain ⟨count, hcount⟩ : ∃ c, c = tmpfsReadCount node (pOffset l.pheader) (pFilesz l.pheader) := ⟨_, rfl⟩
  have hconf : (FileWrite.toPages a (pageCount l.pheader).toNat (a + (misalign l.pheader).toNat)
      count.toNat).Confined := by
    rw [← hcount] at hfile
    exact ⟨Nat.le_add_right _ _, by omega⟩
  have hwrites : (l.filled node a m2).writes = .toPages a (pageCount l.pheader).toNat
      (a + (misalign l.pheader).toNat) count.toNat :: l.writes := by rw [Load.filled, hcount]
  have hresult := hrun.result
  rw [← hcount] at hresult
  have hneg : ∀ e ∈ (if count.slt 0 then some (-eio) else none : Option ℤ), e < 0 := by
    split_ifs
    · simp [eio]
    · simp
  rw [← Load.filled_pmm l node a m2] at hk2
  exact ⟨_, _, _, hresult, hneg, Load.filled_pheader l node a m2, hwrites, hconf, hrun.keeps hfile, hk2⟩

/-- The bytes of the file are those of `mem`, in frames that loading does not write. -/
structure HoldsFile (src : PageSource σ highVma) (pm : Pagemap) (node : Node) (mem : Memory)
    (m : Machine σ) : Prop where
  low : node.data + node.size.toNat + 64 < 2 ^ 63
  taken : ∀ b, node.data ≤ b → b < node.data + node.size.toNat → Taken src m.pmm (b / pageSize)
  notTable : ∀ b, node.data ≤ b → b < node.data + node.size.toNat →
    NotTable User pm.topLevel (depth pm.hasLevel5) m (b / pageSize)
  bytes : ∀ b, node.data ≤ b → b < node.data + node.size.toNat → m.mem b = mem b

lemma HoldsFile.keeps {node : Node} {mem : Memory} (h : HoldsFile src pm node mem m)
    (hk : Keeps src pm m m1) : HoldsFile src pm node mem m1 where
  low := h.low
  taken b h1 h2 := hk.spares.taken _ (h.taken b h1 h2)
  notTable b h1 h2 := hk.spares.tables _ (h.taken b h1 h2) (h.notTable b h1 h2)
  bytes b h1 h2 := (hk.spares.bytes _ (h.taken b h1 h2) (h.notTable b h1 h2) b rfl).trans (h.bytes b h1 h2)

/-- The file in a machine with a new pagemap. -/
lemma InMemory.newTop {node : Node} {content : Memory} {kernelTop : ℕ} (h : InMemory src m node content)
    (hn : NewTop src m m1 kernelTop pm.topLevel) : HoldsFile src pm node content m1 where
  low := h.low
  taken b h1 h2 := (hn.taken _).mpr (Or.inl (h.taken b h1 h2))
  notTable b h1 h2 π hπ hw := by
    apply hn.fresh
    rw [← (hn.walk_eq hπ hw).2]
    exact h.taken b h1 h2
  bytes b h1 h2 := by
    rw [hn.bytes b fun hb => hn.fresh (hb ▸ h.taken b h1 h2)]
    exact h.bytes b h1 h2

/-- The first read of `elf_load`. -/
lemma HoldsFile.header {node : Node} {content : Memory} (h : HoldsFile src pm node content m) (stack : Memory) :
    headerOf m.mem node stack = headerOf content node stack ∧
      ¬ (tmpfsReadCount node 0 sizeofHeader).slt 0 = true ∧
      (FileWrite.toLocal sizeofHeader.toNat (tmpfsReadCount node 0 sizeofHeader).toNat).Confined := by
  have hlow := h.low
  have hsize : node.size.toNat + sizeofHeader.toNat < 2 ^ 63 := by
    have : sizeofHeader.toNat = 64 := rfl
    omega
  have hoff : (0 : BitVec 64).toNat ≤ node.size.toNat := Nat.zero_le _
  have hcount := tmpfsReadCount_inside hsize hoff
  refine ⟨readLocal_congr (by omega) hsize hoff h.bytes, ?_, ?_⟩
  · rw [slt_zero_iff]
    omega
  · rw [FileWrite.Confined, hcount]
    exact min_le_left _ _

lemma elfLoad_executable {node : Node} {stack : Memory × Memory}
    (hread : ¬ (tmpfsReadCount node 0 sizeofHeader).slt 0 = true)
    (h : Executable (headerOf m.mem node stack.1)) :
    elfLoad src.alloc pm node stack m =
      (loadSegments src.alloc pm node (headerOf m.mem node stack.1)
        (List.range (ePhnum (headerOf m.mem node stack.1)))
        ⟨m, stack.2, [.toLocal sizeofHeader.toNat (tmpfsReadCount node 0 sizeofHeader).toNat]⟩).map fun r =>
          (r.1, if r.1 = 0 then some (eEntry (headerOf m.mem node stack.1)) else none, r.2) := by
  rw [elfLoad]
  exact (if_neg hread).trans (if_neg (not_not.mpr h))

/-- After program header `i` was read. -/
def readHeader (node : Node) (header : Memory) (l : Load σ) (i : ℕ) : Load σ :=
  { l with
    pheader := headerAt l.machine.mem node header l.pheader i
    writes := .toLocal sizeofProgramHeader.toNat
      (tmpfsReadCount node (phOffset header i) sizeofProgramHeader).toNat :: l.writes }

lemma readHeader_machine (node : Node) (header : Memory) (l : Load σ) (i : ℕ) :
    (readHeader node header l i).machine = l.machine := by
  rw [readHeader]

variable {node : Node} {mem header : Memory} {is : List ℕ} {i : ℕ} {l : Load σ}

/-- Reading a program header that begins inside the file. -/
lemma HoldsFile.readHeader (hfile : HoldsFile src pm node mem l.machine)
    (hoff : (phOffset header i).toNat ≤ node.size.toNat) :
    (Elf.readHeader node header l i).pheader = headerAt mem node header l.pheader i ∧
      ¬ (tmpfsReadCount node (phOffset header i) sizeofProgramHeader).slt 0 = true ∧
      (FileWrite.toLocal sizeofProgramHeader.toNat
        (tmpfsReadCount node (phOffset header i) sizeofProgramHeader).toNat).Confined := by
  have hlow := hfile.low
  have hsize : node.size.toNat + sizeofProgramHeader.toNat < 2 ^ 63 := by
    have : sizeofProgramHeader.toNat = 56 := rfl
    omega
  have hcount := tmpfsReadCount_inside hsize hoff
  refine ⟨?_, ?_, ?_⟩
  · rw [Elf.readHeader, headerAt, headerAt]
    exact readLocal_congr (by omega) hsize hoff hfile.bytes
  · rw [slt_zero_iff]
    omega
  · rw [FileWrite.Confined, hcount]
    exact min_le_left _ _

lemma loadSegments_skip (hread : ¬ (tmpfsReadCount node (phOffset header i) sizeofProgramHeader).slt 0 = true)
    (h : pType (readHeader node header l i).pheader ≠ ptLoad) :
    loadSegments src.alloc pm node header (i :: is) l =
      loadSegments src.alloc pm node header is (readHeader node header l i) := by
  rw [loadSegments]
  exact (if_neg hread).trans (if_pos h)

lemma loadSegments_load {r : Option ℤ} {l2 : Load σ}
    (hread : ¬ (tmpfsReadCount node (phOffset header i) sizeofProgramHeader).slt 0 = true)
    (h : pType (readHeader node header l i).pheader = ptLoad)
    (h2 : loadSegment src.alloc pm node (readHeader node header l i) = some (r, l2)) :
    loadSegments src.alloc pm node header (i :: is) l =
      r.elim (loadSegments src.alloc pm node header is l2) fun e => some (e, l2) := by
  rw [loadSegments]
  refine (if_neg hread).trans ((if_neg (not_not.mpr h)).trans ?_)
  rw [readHeader] at h2
  cases r with
  | none => simp only [headerAt] at h2; rw [h2]; rfl
  | some e => simp only [headerAt] at h2; rw [h2]; rfl

/-- A request for no pages is a panic. -/
lemma loadSegments_panic (hread : ¬ (tmpfsReadCount node (phOffset header i) sizeofProgramHeader).slt 0 = true)
    (h : pType (readHeader node header l i).pheader = ptLoad)
    (hpages : (pageCount (readHeader node header l i).pheader).toNat = 0) :
    loadSegments src.alloc pm node header (i :: is) l = none := by
  have halloc : src.alloc l.machine.pmm 0 = none := by
    cases ha : src.alloc l.machine.pmm 0 with
    | none => rfl
    | some x => exact absurd (src.positive ha) (by decide)
  have h2 : loadSegment src.alloc pm node (readHeader node header l i) = none := by
    rw [loadSegment, hpages, pmmAllocz, readHeader_machine, halloc]
    rfl
  rw [loadSegments]
  refine (if_neg hread).trans ((if_neg (not_not.mpr h)).trans ?_)
  rw [readHeader] at h2
  simp only [headerAt] at h2
  rw [h2]

/-- The loop over program headers that fit. -/
lemma loadSegments_keeps (hv : 2 ^ 63 ≤ highVma) (hroom : ServesBlocks src.alloc room)
    (h0 : Taken src l.machine.pmm 0) (htree : TreeInv src User l.machine pm.topLevel (depth pm.hasLevel5))
    (hfile : HoldsFile src pm node mem l.machine)
    (hfit : HeadersFit pm.hasLevel5 mem node header l.pheader is)
    (hneed : pagesNeeded mem node header l.pheader is ≤ room l.machine.pmm)
    (hconf : ∀ w ∈ l.writes, w.Confined) :
    ∃ ret l', loadSegments src.alloc pm node header is l = some (ret, l') ∧ (ret = 0 ∨ ret < 0) ∧
      Keeps src pm l.machine l'.machine ∧ ∀ w ∈ l'.writes, w.Confined := by
  induction is generalizing l with
  | nil => exact ⟨0, l, rfl, Or.inl rfl, ⟨h0, htree, .refl ..⟩, hconf⟩
  | cons i is ih =>
    obtain ⟨hoff, hseg, hrest⟩ := hfit
    obtain ⟨hread, hneg, hlocal⟩ := hfile.readHeader hoff
    have hconf1 : ∀ w ∈ (readHeader node header l i).writes, w.Confined :=
      List.forall_mem_cons.mpr ⟨hlocal, hconf⟩
    rw [pagesNeeded] at hneed
    rw [← hread] at hseg hrest hneed
    rw [← readHeader_machine node header l i] at h0 htree hfile hneed ⊢
    by_cases hload : pType (readHeader node header l i).pheader = ptLoad
    · rw [if_pos hload, Nat.add_comm] at hneed
      obtain ⟨r, l2, w, h2, hr, hp2, hw2, hwc, hkeep, hk2⟩ := loadSegment_keeps
        hv hroom h0 htree (hseg hload) hneed
      have hconf2 : ∀ w ∈ l2.writes, w.Confined := by
        rw [hw2]
        exact List.forall_mem_cons.mpr ⟨hwc, hconf1⟩
      rw [loadSegments_load hneg hload h2]
      cases r with
      | some e => exact ⟨e, l2, rfl, Or.inr (hr e rfl), hkeep, hconf2⟩
      | none =>
        rw [← hp2] at hrest hk2
        obtain ⟨ret, l', h', hret, hkeep', hconf'⟩ := ih hkeep.zero hkeep.tree (hfile.keeps hkeep) hrest hk2 hconf2
        exact ⟨ret, l', h', hret, hkeep.trans hkeep', hconf'⟩
    · rw [if_neg hload, Nat.zero_add] at hneed
      rw [loadSegments_skip hneg hload]
      exact ih h0 htree hfile hrest hneed hconf1

end Segments

section Confined
variable {σ : Type} {highVma : ℕ} {src : PageSource σ highVma} {kernelTop : ℕ} {five : Bool}
  {m0 m m' : Machine σ} {created : List Pagemap} {pm : Pagemap}

/-- The entries that the top-level indices 256 to 511 lead to, down to the tables that map pages,
are the same. A present entry that maps a large page leads to no table. -/
structure KernelHalfKept (pm : Pagemap) (m m' : Machine σ) : Prop where
  top : ∀ i : Fin 512, 256 ≤ i.val → m'.entry pm.topLevel i = m.entry pm.topLevel i
  tables : ∀ i π, 256 ≤ i.val → (i :: π).length < depth pm.hasLevel5 →
    ∀ t, walk m.next pm.topLevel (i :: π) = some t → ∀ j, m'.entry t j = m.entry t j
  leaves : ∀ i π, 256 ≤ i.val → (i :: π).length + 1 = depth pm.hasLevel5 →
    ∀ t, walk m.next pm.topLevel (i :: π) = some t → ∀ k, Present (m.entry t k) → ¬ Large (m.entry t k) →
    ∀ j, m'.entry (frameOf (m.entry t k)) j = m.entry (frameOf (m.entry t k)) j

/-- Loading into a pagemap without user tables spares the tables of the kernel half. -/
lemma Keeps.kernelHalf {g : Typing} (ty : Typed src (depth pm.hasLevel5) kernelTop g m)
    (htop : g.level pm.topLevel = some 0)
    (hempty : ∀ π ∈ words User (depth pm.hasLevel5), ∀ t, walk m.next pm.topLevel π = some t → t = pm.topLevel)
    (hk : Keeps src pm m m') : KernelHalfKept pm m m' := by
  have hsame : ∀ t ℓ, g.level t = some (ℓ + 1) → ∀ j, m'.entry t j = m.entry t j := by
    intro t ℓ ht j
    have hne : t ≠ pm.topLevel := by
      rintro rfl
      rw [htop] at ht
      simp at ht
    refine entry_congr (fun b hb => ?_) j
    exact hk.spares.bytes t (ty.taken t _ ht) (fun π hπ hw => hne (hempty π hπ t hw)) b hb
  refine ⟨fun i hi => hk.spares.others i (Nat.not_lt.mpr hi), ?_, ?_⟩
  · intro i π _ hlen t hw
    have ht := ty.walk_level htop (by rwa [Nat.zero_add]) hw
    rw [Nat.zero_add, List.length_cons] at ht
    exact hsame t _ ht
  · intro i π _ hlen t hw k hp hsmall
    have ht := ty.walk_level htop (by rw [Nat.zero_add]; omega) hw
    have hlead := ty.leads t _ ht (by rw [Nat.zero_add]; omega) k hp fun _ => hsmall
    exact hsame _ _ hlead

/-- `vmm_init` fills the kernel's top level and writes no other frame in use. -/
lemma fillKernelHalf_bytes (hv : 2 ^ 63 ≤ highVma) (h : fillKernelHalf src.alloc kernelTop m = some m') :
    ∀ g, Taken src m.pmm g → Taken src m'.pmm g ∧
      (g ≠ kernelTop → ∀ b, b / pageSize = g → m'.mem b = m.mem b) := by
  unfold fillKernelHalf at h
  generalize kernelHalf = is at h
  induction is generalizing m with
  | nil =>
    obtain rfl : m = m' := by simpa using h
    exact fun g hg => ⟨hg, fun _ _ _ => rfl⟩
  | cons i is ih =>
    rw [List.foldlM_cons] at h
    obtain ⟨m1, h1, h⟩ := Option.bind_eq_some_iff.mp h
    obtain ⟨⟨a, m2⟩, ha, rfl⟩ := Option.map_eq_some_iff.mp h1
    obtain ⟨f, rfl, hl⟩ := linked_of_allocz hv ha
    have hlink := hl kernelTop i (BitVec.ofNat 64 (f * pageSize) ||| ptePresent ||| pteWritable)
    intro g hg
    obtain ⟨htaken, hbytes⟩ := ih h g ((hlink.taken g).mpr (Or.inl hg))
    refine ⟨htaken, fun hne b hb => ?_⟩
    rw [hbytes hne b hb]
    refine hlink.bytes b (fun hf => hlink.fresh ?_) (by rwa [hb])
    rwa [← hf, hb]

end Confined

lemma bump_servesBlocks (highVma : ℕ) : ServesBlocks (bumpSource highVma).alloc (Bump.left highVma) := by
  intro p n k hn hk
  have hroom : p.next + pageSize * n ≤ p.limit ∧ p.next + pageSize * n + highVma ≤ 2 ^ 64 := by
    simp only [Bump.left, pageSize] at *
    omega
  refine ⟨p.next, p.take n, if_pos ⟨hn, hroom⟩, ?_⟩
  simp only [Bump.left, Bump.take, pageSize] at *
  omega

/-- An executable with one program header: `PT_LOAD` at `0x400000`, with all of the file in it. -/
def elfBytes (memsz : BitVec 8) : List (BitVec 8) :=
  [0x7f, 0x45, 0x4c, 0x46, 2, 1, 1, 0, 0, 0, 0, 0, 0, 0, 0, 0, 2, 0, 62, 0, 1, 0, 0, 0,
    0, 0, 0x40, 0, 0, 0, 0, 0, 64, 0, 0, 0, 0, 0, 0, 0, 0, 0, 0, 0, 0, 0, 0, 0, 0, 0, 0, 0, 64, 0, 56, 0, 1, 0,
    0, 0, 0, 0, 0, 0, 1, 0, 0, 0, 5, 0, 0, 0, 0, 0, 0, 0, 0, 0, 0, 0, 0, 0, 0x40, 0, 0, 0, 0, 0,
    0, 0, 0x40, 0, 0, 0, 0, 0, 120, 0, 0, 0, 0, 0, 0, 0, memsz, 0, 0, 0, 0, 0, 0, 0, 0, 0x10, 0, 0, 0, 0, 0, 0]

def elfMemory (memsz : BitVec 8) : Memory := fun b => (elfBytes memsz).getD (b - 0x1000) 0

def elfNode : Node := ⟨0x1000, 120⟩

def noStack : Memory × Memory := (fun _ => 0, fun _ => 0)

def elfMachine (memsz : BitVec 8) : Machine Bump := ⟨elfMemory memsz, bootPages⟩

lemma elfMachine_mem (memsz : BitVec 8) : (elfMachine memsz).mem = elfMemory memsz := by rw [elfMachine]

lemma elfMachine_entry (memsz : BitVec 8) (i : Fin 512) : (elfMachine memsz).entry 0xfff i = 0 := by
  rw [← read64_zero (entryAddr 0xfff i)]
  apply read64_congr
  intro k hk
  have hlen : (elfBytes memsz).length = 120 := rfl
  have hout : (elfBytes memsz).length ≤ entryAddr 0xfff i + k - 0x1000 := by
    rw [hlen]
    simp only [entryAddr, pageSize]
    omega
  rw [elfMachine_mem, elfMemory, List.getD_eq_default _ 0 hout]

/-- A kernel that has booted, the file in its memory, and a new pagemap. -/
structure Started (memsz : BitVec 8) (m0 m : Machine Bump) (p : ℕ) : Prop where
  fill : fillKernelHalf bootSource.alloc 0xfff (elfMachine memsz) = some m0
  shared : Shared bootSource false 0xfff ⟨m0, []⟩
  new : vmmNewPagemap bootSource.alloc false 0xfff m0 = some (some ⟨p, false⟩, m)
  file : InMemory bootSource m0 elfNode (elfMemory memsz)
  holds : HoldsFile bootSource ⟨p, false⟩ elfNode (elfMemory memsz) m
  left : 5 ≤ Bump.left bootVma m.pmm

lemma exists_started (memsz : BitVec 8) : ∃ m0 m p, Started memsz m0 m p := by
  have hv : 2 ^ 63 ≤ bootVma := by norm_num [bootVma]
  have hs := bump_serves bootVma
  have hhalf : kernelHalf.length ≤ 512 := (List.length_filter_le _ _).trans_eq List.length_finRange
  have hleft : 5 + 1 + kernelHalf.length ≤ Bump.left bootVma (elfMachine memsz).pmm := by
    have : Bump.left bootVma (elfMachine memsz).pmm = 0xeff := by
      norm_num [Bump.left, bootVma, elfMachine, bootPages, pageSize]
    omega
  obtain ⟨m0, hfill, hk0⟩ := hs.fill 0xfff hleft
  have hzero : Taken bootSource (elfMachine memsz).pmm 0 := bootMachine_zero
  have htop : Taken bootSource (elfMachine memsz).pmm 0xfff := bootMachine_top
  have hF := fillKernelHalf_filled hv hzero htop (elfMachine_entry memsz) hfill
  obtain ⟨r, m, hnew, hk⟩ := hs.newPagemap hk0 false 0xfff
  have hone : Taken bootSource (elfMachine memsz).pmm 1 :=
    ⟨(0, 0x100000), List.mem_cons_self, by norm_num [pageSize]⟩
  have hframe : ∀ b, elfNode.data ≤ b → b < elfNode.data + elfNode.size.toNat → b / pageSize = 1 := by
    intro b h1 h2
    have hsize : elfNode.size.toNat = 120 := rfl
    simp only [elfNode, pageSize] at *
    omega
  have hbytes := fillKernelHalf_bytes hv hfill 1 hone
  rw [elfMachine_mem] at hbytes
  have hfile : InMemory bootSource m0 elfNode (elfMemory memsz) := by
    refine ⟨by decide, fun b h1 h2 => ?_, fun b h1 h2 => hbytes.2 (by norm_num) b (hframe b h1 h2)⟩
    rw [hframe b h1 h2]
    exact hbytes.1
  rcases vmmNewPagemap_cases hv hF.top hnew with ⟨-, hfree, -⟩ | ⟨p, rfl, -, hn⟩
  · exact absurd hF.zero hfree
  · exact ⟨m0, m, p, hfill, hF.shared, hnew, hfile, hfile.newTop hn, hk⟩

end PiggyOs.Elf
