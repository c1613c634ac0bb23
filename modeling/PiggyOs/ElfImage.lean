import PiggyOs.ElfConfined
import PiggyOs.Translation
import Mathlib.Order.CompletePartialOrder

/-! What a program finds in its memory. Here the file is a function of the offset; its segments are
sound when a linker could have made them, and loading is correct when the processor reads, at every
address of a segment, the byte that the file describes there. -/
namespace PiggyOs.Elf
open ByteMemory Vmm Walk Tmpfs

/-- The magic number, 64 bits, little-endian, x86-64. -/
structure X64File (file : Memory) : Prop where
  magic : file 0 = 0x7f ∧ file 1 = 0x45 ∧ file 2 = 0x4c ∧ file 3 = 0x46
  wide : file 4 = 2
  littleEndian : file 5 = 1
  machine : eMachine file = 62

def programHeader (file : Memory) (i : ℕ) : Memory := fun k =>
  file ((ePhoff file).toNat + i * ePhentsize file + k)

/-- The numbers of the pages that a segment touches. -/
def segmentPages (pheader : Memory) : Set ℕ :=
  {p | ∃ x < (pMemsz pheader).toNat, p = ((pVaddr pheader).toNat + x) / pageSize}

structure SegmentSound (five : Bool) (size : ℕ) (pheader : Memory) : Prop where
  nonempty : 0 < (pMemsz pheader).toNat
  filled : (pFilesz pheader).toNat ≤ (pMemsz pheader).toNat
  inFile : (pOffset pheader).toNat + (pFilesz pheader).toNat ≤ size
  lower : (pVaddr pheader).toNat + (pMemsz pheader).toNat ≤ lowerHalfEnd five

/-- All headers are in the file, and no two segments to load share a page. -/
structure FileSound (five : Bool) (size : ℕ) (file : Memory) : Prop where
  header : 64 ≤ size
  headers : ∀ i < ePhnum file, (ePhoff file).toNat + i * ePhentsize file + 56 ≤ size
  segments : ∀ i < ePhnum file, pType (programHeader file i) = ptLoad →
    SegmentSound five size (programHeader file i)
  apart : ∀ i < ePhnum file, ∀ j < ePhnum file, i ≠ j → pType (programHeader file i) = ptLoad →
    pType (programHeader file j) = ptLoad →
    Disjoint (segmentPages (programHeader file i)) (segmentPages (programHeader file j))

/-- Enough pages for the segments, with up to four tables for each page. -/
def pagesWanted (file : Memory) : List ℕ → ℕ
  | [] => 0
  | i :: is =>
      (if pType (programHeader file i) = ptLoad then 5 * (pageCount (programHeader file i)).toNat else 0) +
        pagesWanted file is

def segmentAddr (pheader : Memory) (x : ℕ) : BitVec 64 := pVaddr pheader + BitVec.ofNat 64 x

def segmentByte (file pheader : Memory) (x : ℕ) : BitVec 8 :=
  if x < (pFilesz pheader).toNat then file ((pOffset pheader).toNat + x) else 0

def segmentAccess (pheader : Memory) : Access where
  user := true
  writable := decide (pFlags pheader &&& pfW ≠ 0)
  executable := decide (pFlags pheader &&& pfX ≠ 0)

/-- The processor reads the bytes of a segment at its addresses, with the rights it asks for. -/
def SegmentMapped {σ : Type} (pm : Pagemap) (file pheader : Memory) (m : Machine σ) : Prop :=
  ∀ x < (pMemsz pheader).toNat, ∃ f,
    translate m pm.topLevel (pageIndices pm.hasLevel5 (segmentAddr pheader x)) =
      some (f, segmentAccess pheader) ∧
    m.mem (f * pageSize + (segmentAddr pheader x).toNat % pageSize) = segmentByte file pheader x

/-- The bytes of a file by their addresses. -/
def Node.contents (node : Node) (file : Memory) : Memory := fun b => file (b - node.data)

section Headers
variable {node : Node} {file header a b : Memory}

/-- Two program headers with the same fields. -/
structure SameFields (a b : Memory) : Prop where
  type : pType a = pType b
  flags : pFlags a = pFlags b
  offset : pOffset a = pOffset b
  vaddr : pVaddr a = pVaddr b
  filesz : pFilesz a = pFilesz b
  memsz : pMemsz a = pMemsz b

lemma sameFields_of_bytes (h : ∀ k < 56, a k = b k) : SameFields a b where
  type := readNat_congr fun k hk => h _ (by omega)
  flags := congrArg (BitVec.ofNat 32) (readNat_congr fun k hk => h _ (by omega))
  offset := read64_congr fun k hk => h _ (by omega)
  vaddr := read64_congr fun k hk => h _ (by omega)
  filesz := read64_congr fun k hk => h _ (by omega)
  memsz := read64_congr fun k hk => h _ (by omega)

lemma SameFields.pageCount (h : SameFields a b) : pageCount a = pageCount b := by
  rw [Elf.pageCount, Elf.pageCount, misalign, misalign, h.vaddr, h.memsz]

lemma SameFields.vmmFlags (h : SameFields a b) : vmmFlags a = vmmFlags b := by
  rw [Elf.vmmFlags, Elf.vmmFlags, h.flags]

lemma SameFields.segmentSound {five : Bool} {size : ℕ} (h : SameFields a b)
    (hs : SegmentSound five size b) : SegmentSound five size a := by
  obtain ⟨h1, h2, h3, h4⟩ := hs
  rw [← h.memsz] at h1 h2 h4
  rw [← h.filesz] at h2 h3
  rw [← h.offset] at h3
  rw [← h.vaddr] at h4
  exact ⟨h1, h2, h3, h4⟩

/-- Two ELF headers with the same fields. -/
structure SameHeader (a b : Memory) : Prop where
  entry : eEntry a = eEntry b
  phoff : ePhoff a = ePhoff b
  phentsize : ePhentsize a = ePhentsize b
  phnum : ePhnum a = ePhnum b
  machine : eMachine a = eMachine b
  ident : ∀ k < 16, a k = b k

lemma sameHeader_of_bytes (h : ∀ k < 64, a k = b k) : SameHeader a b where
  entry := read64_congr fun k hk => h _ (by omega)
  phoff := read64_congr fun k hk => h _ (by omega)
  phentsize := readNat_congr fun k hk => h _ (by omega)
  phnum := readNat_congr fun k hk => h _ (by omega)
  machine := readNat_congr fun k hk => h _ (by omega)
  ident k hk := h k (by omega)

lemma SameHeader.executable (h : SameHeader a b) (hx : X64File b) (habi : b 7 = 0) : Executable a := by
  have hid := h.ident
  obtain ⟨⟨h0, h1, h2, h3⟩, h4, h5, hm⟩ := hx
  refine ⟨?_, ?_, ?_, ?_, ?_, ?_, ?_, h.machine.trans hm⟩
  · rw [hid 0 (by decide), h0]
  · rw [hid 1 (by decide), h1]
  · rw [hid 2 (by decide), h2]
  · rw [hid 3 (by decide), h3]
  · rw [hid 4 (by decide), h4]
  · rw [hid 5 (by decide), h5]
  · rw [hid 7 (by decide), habi]

/-- A read that lies in the file. -/
lemma readLocal_contents {buf : Memory} {offset count : BitVec 64} (hlow : node.data + node.size.toNat + 64 < 2 ^ 63)
    (hcount : count.toNat ≤ 64) (hend : offset.toNat + count.toNat ≤ node.size.toNat) {k : ℕ} (hk : k < count.toNat) :
    readLocal (node.contents file) node buf offset count k = file (offset.toNat + k) := by
  have hsource : node.source offset = node.data + offset.toNat := Nat.mod_eq_of_lt (by omega)
  have hread : (tmpfsReadCount node offset count).toNat = count.toNat := by
    rw [tmpfsReadCount_inside (by omega) (by omega), Nat.min_eq_left (by omega)]
  rw [readLocal, hread, if_pos hk, hsource, Node.contents]
  exact congrArg file (by omega)

lemma sameHeader_headerOf {stack : Memory} (hlow : node.data + node.size.toNat + 64 < 2 ^ 63)
    (hsize : 64 ≤ node.size.toNat) : SameHeader (headerOf (node.contents file) node stack) file := by
  apply sameHeader_of_bytes
  intro k hk
  have hzero : (0 : BitVec 64).toNat + k = k := Nat.zero_add k
  rw [headerOf, readLocal_contents hlow (by decide) (by rw [sizeofHeader]; simpa using hsize) hk, hzero]

lemma SameHeader.phOffset (h : SameHeader header file) {i : ℕ}
    (hi : (ePhoff file).toNat + i * ePhentsize file < 2 ^ 63) :
    (phOffset header i).toNat = (ePhoff file).toNat + i * ePhentsize file := by
  rw [Elf.phOffset, h.phoff, h.phentsize, BitVec.toNat_add, BitVec.toNat_ofNat, Nat.add_mod_mod,
    Nat.mod_eq_of_lt (by omega)]

lemma SameHeader.sameFields (h : SameHeader header file) (hlow : node.data + node.size.toNat + 64 < 2 ^ 63)
    (pheader : Memory) {i : ℕ} (hi : (ePhoff file).toNat + i * ePhentsize file + 56 ≤ node.size.toNat) :
    SameFields (headerAt (node.contents file) node header pheader i) (programHeader file i) := by
  have hoff := h.phOffset (i := i) (by omega)
  apply sameFields_of_bytes
  intro k hk
  have hend : (Elf.phOffset header i).toNat + sizeofProgramHeader.toNat ≤ node.size.toNat := by
    rw [hoff]
    exact hi
  rw [headerAt, readLocal_contents hlow (by decide) hend hk, hoff, programHeader]

end Headers

lemma accessOf_vmmFlags (pheader : Memory) : accessOf (vmmFlags pheader) = segmentAccess pheader := by
  rw [vmmFlags, segmentAccess]
  by_cases hw : pFlags pheader &&& pfW ≠ 0
  · by_cases hx : pFlags pheader &&& pfX = 0
    · rw [if_pos hw, if_pos hx, decide_eq_true hw, decide_eq_false (not_not.mpr hx)]
      decide
    · rw [if_pos hw, if_neg hx, decide_eq_true hw, decide_eq_true hx]
      decide
  · by_cases hx : pFlags pheader &&& pfX = 0
    · rw [if_neg hw, if_pos hx, decide_eq_false hw, decide_eq_false (not_not.mpr hx)]
      decide
    · rw [if_neg hw, if_neg hx, decide_eq_false hw, decide_eq_true hx]
      decide

lemma user_vmmFlags (pheader : Memory) : vmmFlags pheader &&& pteUser ≠ 0 := by
  have h := congrArg Access.user (accessOf_vmmFlags pheader)
  exact of_decide_eq_true h

section Addresses
variable {five : Bool} {size x j : ℕ} {pheader : Memory}

lemma misalign_toNat (pheader : Memory) : (misalign pheader).toNat = (pVaddr pheader).toNat % pageSize := by
  have hmask : (0xfff : BitVec 64).toNat = 2 ^ 12 - 1 := by decide
  rw [misalign, BitVec.toNat_and, hmask, Nat.and_two_pow_sub_one_eq_mod]
  rfl

lemma SegmentSound.pageCount (h : SegmentSound five size pheader) : (pageCount pheader).toNat =
    ((pVaddr pheader).toNat % pageSize + (pMemsz pheader).toNat + 0xfff) / pageSize := by
  have hlow := h.lower
  have hend := lowerHalfEnd_le five
  have hmis := misalign_toNat pheader
  have hpage : (0x1000 : BitVec 64).toNat = pageSize := by decide
  have hround : (0xfff : BitVec 64).toNat = 0xfff := by decide
  have hlt : (pVaddr pheader).toNat % pageSize < pageSize := Nat.mod_lt _ (by decide)
  have hsmall : pageSize ≤ 2 ^ 12 := by decide
  have hsum : (misalign pheader + pMemsz pheader).toNat =
      (pVaddr pheader).toNat % pageSize + (pMemsz pheader).toNat := by
    rw [BitVec.toNat_add, hmis, Nat.mod_eq_of_lt (by omega)]
  rw [Elf.pageCount, BitVec.toNat_udiv, BitVec.toNat_add, hsum, hround, hpage, Nat.mod_eq_of_lt (by omega)]

lemma SegmentSound.addr (h : SegmentSound five size pheader) (hx : x < (pMemsz pheader).toNat) :
    (segmentAddr pheader x).toNat = (pVaddr pheader).toNat + x := by
  have hlow := h.lower
  have hend := lowerHalfEnd_le five
  rw [segmentAddr, BitVec.toNat_add, BitVec.toNat_ofNat, Nat.add_mod_mod, Nat.mod_eq_of_lt (by omega)]

/-- The address that page `j` of a segment is mapped at. -/
def pageAddr (pheader : Memory) (j : ℕ) : BitVec 64 := pVaddr pheader + BitVec.ofNat 64 (j * pageSize)

lemma SegmentSound.page (h : SegmentSound five size pheader) (hj : j < (Elf.pageCount pheader).toNat) :
    (pageAddr pheader j).toNat = (pVaddr pheader).toNat + j * pageSize ∧
      (pageAddr pheader j).toNat < lowerHalfEnd five := by
  have hlow := h.lower
  have hend := lowerHalfEnd_le five
  have halign := lowerHalfEnd_aligned five
  have hpos := h.nonempty
  rw [h.pageCount] at hj
  have hlt : (pVaddr pheader).toNat + j * pageSize < lowerHalfEnd five := by
    simp only [pageSize] at *
    omega
  rw [pageAddr, BitVec.toNat_add, BitVec.toNat_ofNat, Nat.add_mod_mod, Nat.mod_eq_of_lt (by omega)]
  exact ⟨rfl, hlt⟩

lemma SegmentSound.mem_segmentPages (h : SegmentSound five size pheader) (hj : j < (Elf.pageCount pheader).toNat) :
    (pageAddr pheader j).toNat / pageSize ∈ segmentPages pheader := by
  have hpos := h.nonempty
  rw [(h.page hj).1]
  rw [h.pageCount] at hj
  refine ⟨j * pageSize - (pVaddr pheader).toNat % pageSize, ?_, ?_⟩
  · simp only [pageSize] at *
    omega
  · simp only [pageSize] at *
    omega

/-- The page of the byte `x` of a segment. -/
lemma SegmentSound.pageOf (h : SegmentSound five size pheader) (hx : x < (pMemsz pheader).toNat) :
    ((misalign pheader).toNat + x) / pageSize < (Elf.pageCount pheader).toNat ∧
      pageIndices five (segmentAddr pheader x) =
        pageIndices five (pageAddr pheader (((misalign pheader).toNat + x) / pageSize)) := by
  have hcount : ((misalign pheader).toNat + x) / pageSize < (Elf.pageCount pheader).toNat := by
    rw [h.pageCount, misalign_toNat]
    simp only [pageSize]
    omega
  refine ⟨hcount, pageIndices_congr five ?_⟩
  rw [h.addr hx, (h.page hcount).1, misalign_toNat]
  simp only [pageSize]
  omega

lemma SegmentSound.fits (h : SegmentSound five size pheader) :
    (misalign pheader).toNat + (pMemsz pheader).toNat ≤ pageSize * (Elf.pageCount pheader).toNat := by
  rw [h.pageCount, misalign_toNat]
  simp only [pageSize]
  omega

lemma SegmentSound.page_inj (h : SegmentSound five size pheader) {i : ℕ} (hi : i < (Elf.pageCount pheader).toNat)
    (hj : j < (Elf.pageCount pheader).toNat)
    (heq : pageIndices five (pageAddr pheader i) = pageIndices five (pageAddr pheader j)) : i = j := by
  have hpage := page_of_pageIndices (h.page hi).2 (h.page hj).2 heq
  rw [(h.page hi).1, (h.page hj).1] at hpage
  simp only [pageSize] at hpage
  omega

end Addresses

section Images
variable {σ : Type} {highVma : ℕ} {src : PageSource σ highVma} {pm : Pagemap} {room : σ → ℕ}
  {node : Node} {file pheader : Memory} {m m1 m2 m' : Machine σ} {l : Load σ}

/-- Pages that were mapped in a loop, behind links that limit nothing. -/
lemma mapPages_leaf {a : ℕ} {js : List ℕ} (hv : 2 ^ 63 ≤ highVma) (h0 : Taken src m.pmm 0)
    (htree : TreeInv src User m pm.topLevel (depth pm.hasLevel5))
    (hopen : OpenTables User pm.topLevel (depth pm.hasLevel5) m)
    (huser : ∀ j ∈ js, User (topIndex pm.hasLevel5 (pageAddr pheader j)))
    (hnodup : js.Nodup) (hinj : ∀ i ∈ js, ∀ j ∈ js,
      pageIndices pm.hasLevel5 (pageAddr pheader i) = pageIndices pm.hasLevel5 (pageAddr pheader j) → i = j)
    (h : mapPages src.alloc pm pheader a js m = some (true, m')) :
    OpenTables User pm.topLevel (depth pm.hasLevel5) m' ∧
      (∀ j ∈ js, leaf m' pm (pageAddr pheader j) =
        some (BitVec.ofNat 64 (a + j * pageSize) ||| vmmFlags pheader)) ∧
      ∀ v, User (topIndex pm.hasLevel5 v) →
        (∀ j ∈ js, pageIndices pm.hasLevel5 v ≠ pageIndices pm.hasLevel5 (pageAddr pheader j)) →
        leaf m' pm v = leaf m pm v := by
  induction js generalizing m with
  | nil =>
    simp only [mapPages, Option.some.injEq, Prod.mk.injEq, true_and] at h
    rw [← h]
    exact ⟨hopen, by simp, fun _ _ _ => rfl⟩
  | cons j js ih =>
    obtain ⟨hnew, hnodup⟩ := List.nodup_cons.mp hnodup
    have hmap := h
    rw [mapPages] at hmap
    cases he : vmmMapPage src.alloc m pm (pVaddr pheader + BitVec.ofNat 64 (j * pageSize))
        (BitVec.ofNat 64 (a + j * pageSize)) (vmmFlags pheader) with
    | none => simp [he] at hmap
    | some x =>
      obtain ⟨b, m1⟩ := x
      have hu := huser j List.mem_cons_self
      obtain ⟨rfl, htree1, h01, hupd, -⟩ := vmmMapPage_updates hv htree h0 hu (smallPage_vmmFlags pheader) he
      have hopen1 := vmmMapPage_open hv hopen htree h0 hu (smallPage_vmmFlags pheader) (user_vmmFlags pheader) he
      simp only [he] at hmap
      obtain ⟨hopen', hleaf, hother⟩ := ih h01 htree1 hopen1 (fun i hi => huser i (List.mem_cons_of_mem _ hi))
        hnodup (fun i hi k hk => hinj i (List.mem_cons_of_mem _ hi) k (List.mem_cons_of_mem _ hk)) hmap
      refine ⟨hopen', fun i hi => ?_, fun v hv hne => ?_⟩
      · rcases List.mem_cons.mp hi with rfl | hi
        · have hapart : ∀ k ∈ js,
              pageIndices pm.hasLevel5 (pageAddr pheader i) ≠ pageIndices pm.hasLevel5 (pageAddr pheader k) := by
            intro k hk heq
            have hik := hinj i List.mem_cons_self k (List.mem_cons_of_mem _ hk) heq
            exact hnew (hik ▸ hk)
          rw [hother _ hu hapart, hupd.leaf hu]
          exact if_pos rfl
        · exact hleaf i hi
      · rw [hother v hv fun k hk => hne k (List.mem_cons_of_mem _ hk), hupd.leaf hv]
        exact if_neg (hne j List.mem_cons_self)

/-- A segment in memory, in frames that no later step of loading writes. -/
def SegmentHeld (src : PageSource σ highVma) (pm : Pagemap) (file pheader : Memory) (m : Machine σ) : Prop :=
  ∀ x < (pMemsz pheader).toNat, ∃ f, f * pageSize < 2 ^ 63 ∧ Taken src m.pmm f ∧
    NotTable User pm.topLevel (depth pm.hasLevel5) m f ∧
    leaf m pm (segmentAddr pheader x) = some (BitVec.ofNat 64 (f * pageSize) ||| vmmFlags pheader) ∧
    m.mem (f * pageSize + (segmentAddr pheader x).toNat % pageSize) = segmentByte file pheader x

lemma SegmentHeld.keeps (h : SegmentHeld src pm file pheader m) (hk : Keeps src pm m m')
    (hleaf : ∀ x < (pMemsz pheader).toNat,
      leaf m' pm (segmentAddr pheader x) = leaf m pm (segmentAddr pheader x)) :
    SegmentHeld src pm file pheader m' := by
  intro x hx
  obtain ⟨f, hlow, htaken, hnot, hpage, hbyte⟩ := h x hx
  have hframe : (f * pageSize + (segmentAddr pheader x).toNat % pageSize) / pageSize = f := by
    simp only [pageSize]
    omega
  refine ⟨f, hlow, hk.spares.taken f htaken, hk.spares.tables f htaken hnot, (hleaf x hx).trans hpage, ?_⟩
  exact (hk.spares.bytes f htaken hnot _ hframe).trans hbyte

lemma SegmentHeld.congr {a : Memory} (h : SegmentHeld src pm file a m) (hs : SameFields a pheader) :
    SegmentHeld src pm file pheader m := by
  have haddr : ∀ x, segmentAddr a x = segmentAddr pheader x := fun x => by rw [segmentAddr, segmentAddr, hs.vaddr]
  have hbyte : ∀ x, segmentByte file a x = segmentByte file pheader x := fun x => by
    rw [segmentByte, segmentByte, hs.filesz, hs.offset]
  intro x hx
  rw [← hs.memsz] at hx
  obtain ⟨f, hlow, htaken, hnot, hpage, hval⟩ := h x hx
  rw [haddr] at hpage hval
  rw [hs.vmmFlags] at hpage
  rw [hbyte] at hval
  exact ⟨f, hlow, htaken, hnot, hpage, hval⟩

/-- A segment that stays in memory is what the processor reads. -/
lemma SegmentHeld.mapped (h : SegmentHeld src pm file pheader m)
    (hopen : OpenTables User pm.topLevel (depth pm.hasLevel5) m) {size : ℕ}
    (hs : SegmentSound pm.hasLevel5 size pheader) : SegmentMapped pm file pheader m := by
  intro x hx
  obtain ⟨f, hlow, -, -, hpage, hbyte⟩ := h x hx
  have hend := hs.lower
  have haddr := hs.addr hx
  have huser : User (topIndex pm.hasLevel5 (segmentAddr pheader x)) := user_topIndex_of_lt (by omega)
  refine ⟨f, ?_, hbyte⟩
  rw [hopen.translate huser hpage, frameOf_or (smallPage_vmmFlags pheader).flagsOnly, frameOf_ofNat hlow,
    accessOf_or hlow, accessOf_vmmFlags]

lemma pmmAllocz_zero {n a : ℕ} (h : pmmAllocz src.alloc m n = some (a, m')) {b : ℕ} (h1 : a ≤ b)
    (h2 : b < a + pageSize * n) : m'.mem b = 0 := by
  obtain ⟨⟨a', q⟩, -, heq⟩ := Option.map_eq_some_iff.mp h
  obtain ⟨rfl, rfl⟩ := Prod.mk.inj heq
  exact clear_inside m.mem h1 h2

/-- A request that lies in the file is answered in full. -/
lemma tmpfsReadCount_whole {offset count : BitVec 64} (hsize : node.size.toNat < 2 ^ 63)
    (hend : offset.toNat + count.toNat ≤ node.size.toNat) : tmpfsReadCount node offset count = count := by
  have hadd : (offset + count).toNat = offset.toNat + count.toNat := toNat_add_of_lt (by omega)
  rw [tmpfsReadCount]
  split_ifs with hle
  · rw [sle_iff_of_lt hsize (by omega), hadd] at hle
    have heq : offset + count = node.size := BitVec.eq_of_toNat_eq (by omega)
    rw [heq, BitVec.sub_self, BitVec.sub_zero]
  · rfl

lemma SegmentSound.readCount (hs : SegmentSound pm.hasLevel5 node.size.toNat pheader)
    (hlow : node.data + node.size.toNat + 64 < 2 ^ 63) :
    tmpfsReadCount node (pOffset pheader) (pFilesz pheader) = pFilesz pheader :=
  tmpfsReadCount_whole (by omega) hs.inFile

lemma Load.filled_mem (hs : SegmentSound pm.hasLevel5 node.size.toNat l.pheader)
    (hlow : node.data + node.size.toNat + 64 < 2 ^ 63) (a : ℕ) (m2 : Machine σ) :
    (l.filled node a m2).machine.mem = movsb m2.mem (a + (misalign l.pheader).toNat)
      (node.source (pOffset l.pheader)) (pFilesz l.pheader).toNat := by
  rw [Load.filled, hs.readCount hlow]

section Runs
variable {a x : ℕ} (hrun : SegmentRun src pm node l a m1 m2)
  (hs : SegmentSound pm.hasLevel5 node.size.toNat l.pheader) (hfile : HoldsFile src pm node (node.contents file) l.machine)
include hrun hs hfile

/-- The pages are no part of the file. -/
lemma SegmentRun.apart :
    node.data + (pOffset l.pheader).toNat + (pFilesz l.pheader).toNat ≤ a + (misalign l.pheader).toNat ∨
      a + (misalign l.pheader).toNat + (pFilesz l.pheader).toNat ≤ node.data + (pOffset l.pheader).toNat := by
  by_contra hoverlap
  have hroom := hs.fits
  have halign := hrun.aligned
  have hin := hs.inFile
  have hfill := hs.filled
  obtain ⟨b, hb⟩ : ∃ b, b = max (node.data + (pOffset l.pheader).toNat) (a + (misalign l.pheader).toNat) := ⟨_, rfl⟩
  refine hrun.fresh (b / pageSize) ?_ ?_ (hfile.taken b (by omega) (by omega))
  · simp only [pageSize] at *
    omega
  · simp only [pageSize] at *
    omega

/-- What is at the bytes of the segment in the end. -/
lemma SegmentRun.byte (hx : x < (pMemsz l.pheader).toNat) :
    (l.filled node a m2).machine.mem (a + (misalign l.pheader).toNat + x) = segmentByte file l.pheader x := by
  have hroom := hs.fits
  have halign := hrun.aligned
  have hlow := hfile.low
  have hin := hs.inFile
  have hsource : node.source (pOffset l.pheader) = node.data + (pOffset l.pheader).toNat :=
    Nat.mod_eq_of_lt (by omega)
  rw [Load.filled_mem hs hlow, segmentByte, hsource]
  split_ifs with hfill
  · rw [movsb_inside _ (hrun.apart hs hfile) hfill,
      (hfile.keeps (hrun.keepsAlloc.trans hrun.keepsMap)).bytes _ (by omega) (by omega), Node.contents]
    exact congrArg file (by omega)
  · obtain ⟨b, hb⟩ : ∃ b, b = a + (misalign l.pheader).toNat + x := ⟨_, rfl⟩
    have hlo : a / pageSize ≤ b / pageSize := Nat.div_le_div_right (by omega)
    have hhi : b / pageSize < a / pageSize + (pageCount l.pheader).toNat := by
      simp only [pageSize] at *
      omega
    rw [← hb, movsb_outside _ (by omega), hrun.keepsMap.spares.bytes _ (hrun.taken _ hlo hhi)
      (hrun.notTable _ hlo hhi) b rfl]
    exact pmmAllocz_zero hrun.alloc (by omega) (by omega)

/-- The tables are not written when the file is copied. -/
lemma SegmentRun.tables : ∀ π ∈ words User (depth pm.hasLevel5), ∀ t, walk m2.next pm.topLevel π = some t →
    ∀ b, b / pageSize = t → (l.filled node a m2).machine.mem b = m2.mem b := by
  intro π hπ t hw b hb
  have hroom := hs.fits
  have halign := hrun.aligned
  have hfill := hs.filled
  rw [Load.filled_mem hs hfile.low]
  refine movsb_outside _ ?_
  by_contra hin
  have hlo : a / pageSize ≤ t := by
    rw [← hb]
    exact Nat.div_le_div_right (by omega)
  have hhi : t < a / pageSize + (pageCount l.pheader).toNat := by
    simp only [pageSize] at *
    omega
  exact hrun.keepsMap.spares.tables t (hrun.taken t hlo hhi) (hrun.notTable t hlo hhi) π hπ hw

end Runs

/-- What a segment that is loaded leaves behind. -/
structure Loaded (src : PageSource σ highVma) (pm : Pagemap) (file : Memory) (P : Memory → Prop) (m m' : Machine σ) :
    Prop where
  keeps : Keeps src pm m m'
  opened : OpenTables User pm.topLevel (depth pm.hasLevel5) m'
  others : ∀ v : BitVec 64, v.toNat < lowerHalfEnd pm.hasLevel5 →
    (∀ pheader, P pheader → v.toNat / pageSize ∉ segmentPages pheader) → leaf m' pm v = leaf m pm v
  held : ∀ pheader, P pheader → SegmentHeld src pm file pheader m'

lemma SegmentRun.loaded {a : ℕ} (hv : 2 ^ 63 ≤ highVma) (hrun : SegmentRun src pm node l a m1 m2)
    (hs : SegmentSound pm.hasLevel5 node.size.toNat l.pheader) (hfile : HoldsFile src pm node (node.contents file) l.machine)
    (htree : TreeInv src User l.machine pm.topLevel (depth pm.hasLevel5))
    (hopen : OpenTables User pm.topLevel (depth pm.hasLevel5) l.machine) :
    Loaded src pm file (· = l.pheader) l.machine (l.filled node a m2).machine := by
  have hroom := hs.fits
  have halign := hrun.aligned
  have hend := hs.lower
  have hfit : (misalign l.pheader).toNat + (tmpfsReadCount node (pOffset l.pheader) (pFilesz l.pheader)).toNat ≤
      pageSize * (pageCount l.pheader).toNat := by
    rw [hs.readCount hfile.low]
    exact (Nat.add_le_add_left hs.filled _).trans hroom
  obtain ⟨-, hmono, -, hbytes⟩ := pmmAllocz_cases hv hrun.alloc
  obtain ⟨-, hsame1, -, hwalk1⟩ := htree.congr hmono hbytes
  have hopen1 : OpenTables User pm.topLevel (depth pm.hasLevel5) m1 := by
    refine hopen.congr hwalk1 fun π hπ t hw b hb => hbytes b ?_
    rw [hb]
    exact htree.taken π hπ t hw
  obtain ⟨hopen2, hpages, hother⟩ := mapPages_leaf hv hrun.keepsAlloc.zero hrun.keepsAlloc.tree hopen1
    (fun j hj => user_topIndex_of_lt (hs.page (List.mem_range.mp hj)).2) List.nodup_range
    (fun i hi j hj heq => hs.page_inj (List.mem_range.mp hi) (List.mem_range.mp hj) heq) hrun.map
  have htables := hrun.tables hs hfile
  have htaken : ∀ g, Taken src m2.pmm g → Taken src (l.filled node a m2).machine.pmm g := by
    intro g hg
    rwa [Load.filled_pmm]
  obtain ⟨-, hsame3, hwalk3⟩ := hrun.keepsMap.tree.congr_tables htaken htables
  have hleaf3 : ∀ v : BitVec 64, v.toNat < lowerHalfEnd pm.hasLevel5 →
      leaf (l.filled node a m2).machine pm v = leaf m2 pm v := fun v hv =>
    hsame3 _ (tablePath_mem (user_topIndex_of_lt hv)) (tablePath_length _ _) _
  refine ⟨hrun.keeps hfit, hopen2.congr hwalk3 htables, fun v hv hnot => ?_, fun pheader hp x hx => ?_⟩
  · have hu : User (topIndex pm.hasLevel5 v) := user_topIndex_of_lt hv
    rw [hleaf3 v hv, hother v hu fun j hj heq => ?_]
    · exact hsame1 _ (tablePath_mem hu) (tablePath_length _ _) _
    · have hcount := List.mem_range.mp hj
      have hpage := page_of_pageIndices hv (hs.page hcount).2 heq
      refine hnot l.pheader rfl ?_
      rw [hpage]
      exact hs.mem_segmentPages hcount
  · subst hp
    obtain ⟨hcount, hindices⟩ := hs.pageOf hx
    obtain ⟨j, hj⟩ : ∃ j, j = ((misalign l.pheader).toNat + x) / pageSize := ⟨_, rfl⟩
    rw [← hj] at hcount hindices
    have hlo : a / pageSize ≤ a / pageSize + j := Nat.le_add_right _ _
    have hhi : a / pageSize + j < a / pageSize + (pageCount l.pheader).toNat := Nat.add_lt_add_left hcount _
    have hphys : (a / pageSize + j) * pageSize = a + j * pageSize := by
      simp only [pageSize] at *
      omega
    have haddr : (a / pageSize + j) * pageSize + (segmentAddr l.pheader x).toNat % pageSize =
        a + (misalign l.pheader).toNat + x := by
      rw [hphys, hs.addr hx, ← Nat.mod_add_mod, ← misalign_toNat, Nat.add_assoc, hj, Nat.div_add_mod',
        ← Nat.add_assoc]
    refine ⟨a / pageSize + j, hrun.low _ hlo hhi, ?_, ?_, ?_, ?_⟩
    · rw [Load.filled_pmm]
      exact hrun.keepsMap.spares.taken _ (hrun.taken _ hlo hhi)
    · intro π hπ hw
      rw [hwalk3 π hπ] at hw
      exact hrun.keepsMap.spares.tables _ (hrun.taken _ hlo hhi) (hrun.notTable _ hlo hhi) π hπ hw
    · rw [hleaf3 _ (by rw [hs.addr hx]; omega), leaf_congr hindices, hpages j (List.mem_range.mpr hcount), hphys]
    · rw [haddr]
      exact hrun.byte hs hfile hx

lemma Loaded.refl (h0 : Taken src m.pmm 0) (htree : TreeInv src User m pm.topLevel (depth pm.hasLevel5))
    (hopen : OpenTables User pm.topLevel (depth pm.hasLevel5) m) :
    Loaded src pm file (fun _ => False) m m where
  keeps := ⟨h0, htree, .refl ..⟩
  opened := hopen
  others _ _ _ := rfl
  held _ h := h.elim

/-- Later segments leave the earlier ones alone when they share no page. -/
lemma Loaded.trans {P Q : Memory → Prop} (size : ℕ) (h : Loaded src pm file P m m1) (h' : Loaded src pm file Q m1 m2)
    (hP : ∀ p, P p → SegmentSound pm.hasLevel5 size p)
    (hapart : ∀ p q, P p → Q q → Disjoint (segmentPages p) (segmentPages q)) :
    Loaded src pm file (fun p => P p ∨ Q p) m m2 where
  keeps := h.keeps.trans h'.keeps
  opened := h'.opened
  others v hv hnot := (h'.others v hv fun q hq => hnot q (Or.inr hq)).trans
    (h.others v hv fun p hp => hnot p (Or.inl hp))
  held p hp := by
    rcases hp with hp | hp
    · refine (h.held p hp).keeps h'.keeps fun x hx => ?_
      have haddr := (hP p hp).addr hx
      have hlower := (hP p hp).lower
      refine h'.others _ (by omega) fun q hq hmem => ?_
      refine Set.disjoint_left.mp (hapart p q hp hq) ?_ hmem
      exact ⟨x, hx, by rw [haddr]⟩
    · exact h'.held p hp

lemma Loaded.mono {P Q : Memory → Prop} (h : Loaded src pm file P m m') (hPQ : ∀ p, P p ↔ Q p) :
    Loaded src pm file Q m m' where
  keeps := h.keeps
  opened := h.opened
  others v hv hnot := h.others v hv fun p hp => hnot p ((hPQ p).mp hp)
  held p hp := h.held p ((hPQ p).mpr hp)

lemma Loaded.fields {a : Memory} (h : Loaded src pm file (· = a) m m') (hs : SameFields a pheader) :
    Loaded src pm file (· = pheader) m m' where
  keeps := h.keeps
  opened := h.opened
  others v hv hnot := h.others v hv fun p hp => by
    have hpages : segmentPages p = segmentPages pheader := by
      rw [hp, segmentPages, segmentPages, hs.memsz, hs.vaddr]
    rw [hpages]
    exact hnot pheader rfl
  held p hp := by
    rw [hp]
    exact (h.held a rfl).congr hs

/-- The headers of the segments to load, among those with numbers in `is`. -/
def ToLoad (file : Memory) (is : List ℕ) (pheader : Memory) : Prop :=
  ∃ i ∈ is, pType (programHeader file i) = ptLoad ∧ pheader = programHeader file i

/-- One sound segment. -/
lemma loadSegment_loaded {k : ℕ} (hv : 2 ^ 63 ≤ highVma) (hroom : ServesBlocks src.alloc room)
    (h0 : Taken src l.machine.pmm 0) (htree : TreeInv src User l.machine pm.topLevel (depth pm.hasLevel5))
    (hopen : OpenTables User pm.topLevel (depth pm.hasLevel5) l.machine)
    (hfile : HoldsFile src pm node (node.contents file) l.machine)
    (hs : SegmentSound pm.hasLevel5 node.size.toNat l.pheader)
    (hk : k + 5 * (pageCount l.pheader).toNat ≤ room l.machine.pmm) :
    ∃ l', loadSegment src.alloc pm node l = some (none, l') ∧
      Loaded src pm file (· = l.pheader) l.machine l'.machine ∧ k ≤ room l'.machine.pmm := by
  have hfit := hs.fits
  have hpos := hs.nonempty
  have hpages : 1 ≤ (pageCount l.pheader).toNat := by
    by_contra hno
    have hzero : (pageCount l.pheader).toNat = 0 := by omega
    rw [hzero] at hfit
    omega
  obtain ⟨a, m1, m2, hrun, hk2⟩ := exists_segmentRun node hv hroom h0 htree hpages
    (fun j hj => user_topIndex_of_lt (hs.page hj).2) hk
  have hneg : ¬ (pFilesz l.pheader).slt 0 = true := by
    have hlow := hs.lower
    have hend := lowerHalfEnd_le pm.hasLevel5
    have hfill := hs.filled
    rw [slt_zero_iff]
    omega
  have hresult := hrun.result
  rw [hs.readCount hfile.low, if_neg hneg] at hresult
  rw [← Load.filled_pmm l node a m2] at hk2
  exact ⟨_, hresult, hrun.loaded hv hs hfile htree hopen, hk2⟩

/-- The loop over the program headers of a sound file. -/
lemma loadSegments_loaded {header : Memory} {is : List ℕ} (hv : 2 ^ 63 ≤ highVma) (hroom : ServesBlocks src.alloc room)
    (h0 : Taken src l.machine.pmm 0) (htree : TreeInv src User l.machine pm.topLevel (depth pm.hasLevel5))
    (hopen : OpenTables User pm.topLevel (depth pm.hasLevel5) l.machine)
    (hfile : HoldsFile src pm node (node.contents file) l.machine) (hheader : SameHeader header file)
    (hs : FileSound pm.hasLevel5 node.size.toNat file) (his : ∀ i ∈ is, i < ePhnum file) (hnodup : is.Nodup)
    (hneed : pagesWanted file is ≤ room l.machine.pmm) :
    ∃ l', loadSegments src.alloc pm node header is l = some (0, l') ∧
      Loaded src pm file (ToLoad file is) l.machine l'.machine := by
  induction is generalizing l with
  | nil =>
    refine ⟨l, rfl, (Loaded.refl h0 htree hopen).mono fun p => ?_⟩
    simp [ToLoad]
  | cons i is ih =>
    have hi := his i List.mem_cons_self
    have hrest : ∀ k ∈ is, k < ePhnum file := fun k hk => his k (List.mem_cons_of_mem _ hk)
    obtain ⟨hnew, hnodup⟩ := List.nodup_cons.mp hnodup
    have hin := hs.headers i hi
    have hlow := hfile.low
    have hoff := hheader.phOffset (i := i) (by omega)
    have hbegin : (Elf.phOffset header i).toNat ≤ node.size.toNat := by omega
    obtain ⟨hread, hneg, -⟩ := hfile.readHeader hbegin
    have hsame := hheader.sameFields hlow l.pheader hin
    rw [← hread] at hsame
    rw [pagesWanted] at hneed
    rw [← readHeader_machine node header l i] at h0 htree hopen hfile hneed ⊢
    by_cases hload : pType (programHeader file i) = ptLoad
    · rw [if_pos hload, Nat.add_comm, ← hsame.pageCount] at hneed
      have hsound := hs.segments i hi hload
      obtain ⟨l2, h2, hloaded, hk2⟩ := loadSegment_loaded hv hroom h0 htree hopen hfile
        (hsame.segmentSound hsound) hneed
      rw [loadSegments_load hneg (hsame.type.trans hload) h2, Option.elim_none]
      obtain ⟨l', h', hloaded'⟩ := ih hloaded.keeps.zero hloaded.keeps.tree hloaded.opened
        (hfile.keeps hloaded.keeps) hrest hnodup hk2
      refine ⟨l', h', ((hloaded.fields hsame).trans node.size.toNat hloaded' ?_ ?_).mono fun p => ?_⟩
      · rintro p rfl
        exact hsound
      · rintro p q rfl ⟨j, hj, hjload, rfl⟩
        exact hs.apart i hi j (hrest j hj) (fun heq => hnew (heq ▸ hj)) hload hjload
      · simp [ToLoad, hload]
    · rw [if_neg hload, Nat.zero_add] at hneed
      rw [loadSegments_skip hneg fun h => hload (hsame.type.symm.trans h)]
      obtain ⟨l', h', hloaded'⟩ := ih (l := readHeader node header l i) h0 htree hopen hfile hrest hnodup hneed
      refine ⟨l', h', hloaded'.mono fun p => ?_⟩
      simp [ToLoad, hload]

end Images

section Programs
variable {σ : Type} {highVma : ℕ} {src : PageSource σ highVma} {kernelTop : ℕ} {five : Bool}
  {m0 m : Machine σ} {pm : Pagemap}

/-- A new pagemap has no links in its user half. -/
lemma openTables_newTop {f n : ℕ} (hn : NewTop src m0 m kernelTop f) : OpenTables User f n m := by
  intro π i hπi t hw hp
  obtain ⟨rfl, rfl⟩ := hn.walk_eq (words_prefixClosed User n π i hπi) hw
  have hi : User i := hπi.2 i (by simp)
  rw [hn.entry, if_pos rfl, if_neg (Nat.not_le.mpr hi)] at hp
  exact absurd hp (by decide)

/-- Sound programs are loaded right. -/
theorem elfLoad_image {node : Node} {file : Memory} {stack : Memory × Memory} {room : σ → ℕ}
    (hv : 2 ^ 63 ≤ highVma) (h0 : Taken src m0.pmm 0) (hk : Taken src m0.pmm kernelTop)
    (hnew : vmmNewPagemap src.alloc five kernelTop m0 = some (some pm, m))
    (hfile : InMemory src m0 node (node.contents file)) (hroom : ServesBlocks src.alloc room)
    (hx : X64File file) (habi : file 7 = 0) (hs : FileSound five node.size.toNat file)
    (hneed : pagesWanted file (List.range (ePhnum file)) ≤ room m.pmm) :
    ∃ l, elfLoad src.alloc pm node stack m = some (0, some (eEntry file), l) ∧
      ∀ i < ePhnum file, pType (programHeader file i) = ptLoad →
        SegmentMapped pm file (programHeader file i) l.machine := by
  rcases vmmNewPagemap_cases hv hk hnew with ⟨h, -⟩ | ⟨f, h, -, hn⟩
  · simp at h
  obtain rfl : pm = ⟨f, five⟩ := Option.some.inj h
  have hpos : 1 < depth five := by cases five <;> decide
  have hholds : HoldsFile src ⟨f, five⟩ node (node.contents file) m := hfile.newTop hn
  obtain ⟨hheader, hneg, -⟩ := hholds.header stack.1
  have hsame : SameHeader (headerOf m.mem node stack.1) file := by
    rw [hheader]
    exact sameHeader_headerOf hfile.low hs.header
  obtain ⟨l, hload, hloaded⟩ := loadSegments_loaded
    (l := ⟨m, stack.2, [.toLocal sizeofHeader.toNat (tmpfsReadCount node 0 sizeofHeader).toNat]⟩) hv hroom
    ((hn.taken 0).mpr (Or.inl h0)) (hn.tree hpos) (openTables_newTop hn) hholds hsame hs
    (fun i hi => List.mem_range.mp hi) List.nodup_range hneed
  refine ⟨l, ?_, fun i hi hi' => ?_⟩
  · rw [elfLoad_executable hneg (hsame.executable hx habi), hsame.phnum, hload, Option.map_some]
    rw [if_pos rfl, hsame.entry]
  · exact (hloaded.held _ ⟨i, List.mem_range.mpr hi, hi', rfl⟩).mapped hloaded.opened (hs.segments i hi hi')

end Programs

/-- A program for the ABI of Linux or System V: eight bytes for `0x400ffc`, in a segment of three
pages. -/
def imageBytes (linux : Bool) : List (BitVec 8) :=
  [0x7f, 0x45, 0x4c, 0x46, 2, 1, 1, if linux then 3 else 0, 0, 0, 0, 0, 0, 0, 0, 0, 2, 0, 62, 0, 1, 0, 0, 0,
    0xfc, 0x0f, 0x40, 0, 0, 0, 0, 0, 64, 0, 0, 0, 0, 0, 0, 0, 0, 0, 0, 0, 0, 0, 0, 0, 0, 0, 0, 0, 64, 0, 56, 0, 1, 0,
    0, 0, 0, 0, 0, 0, 1, 0, 0, 0, 6, 0, 0, 0, 120, 0, 0, 0, 0, 0, 0, 0, 0xfc, 0x0f, 0x40, 0, 0, 0, 0, 0,
    0xfc, 0x0f, 0x40, 0, 0, 0, 0, 0, 8, 0, 0, 0, 0, 0, 0, 0, 0x10, 0x10, 0, 0, 0, 0, 0, 0, 0, 0x10, 0, 0, 0, 0, 0, 0,
    1, 2, 3, 4, 5, 6, 7, 8]

def image (linux : Bool) : Memory := fun k => (imageBytes linux).getD k 0

def imageNode : Node := ⟨0x2000, 128⟩

/-- Three frames are in use, the last one by the program. -/
def threePages : Bump where
  next := 0x3000
  limit := 2 ^ 63
  given := [(0, 0x3000)]
  aligned := rfl
  outside := by simp

def imageMachine (linux : Bool) : Machine Bump :=
  ⟨fun b => if 0x2000 ≤ b then imageNode.contents (image linux) b else 0, threePages⟩

lemma image_sound (linux : Bool) : FileSound false imageNode.size.toNat (image linux) := by
  have hnum : ePhnum (image linux) = 1 := by cases linux <;> decide
  have hzero : ∀ i < ePhnum (image linux), i = 0 := by
    intro i hi
    omega
  refine ⟨by decide, fun i hi => ?_, fun i hi _ => ?_, fun i hi j hj hne => ?_⟩
  · rw [hzero i hi]
    have hoff : (ePhoff (image linux)).toNat + 0 * ePhentsize (image linux) + 56 = 120 := by cases linux <;> decide
    rw [hoff]
    decide
  · rw [hzero i hi]
    have hmem : pMemsz (programHeader (image linux) 0) = 0x1010 := by cases linux <;> decide
    have hfile : pFilesz (programHeader (image linux) 0) = 8 := by cases linux <;> decide
    have hoff : pOffset (programHeader (image linux) 0) = 120 := by cases linux <;> decide
    have haddr : pVaddr (programHeader (image linux) 0) = 0x400ffc := by cases linux <;> decide
    constructor
    · rw [hmem]
      decide
    · rw [hmem, hfile]
      decide
    · rw [hoff, hfile]
      decide
    · rw [haddr, hmem]
      decide
  · rw [hzero i hi, hzero j hj] at hne
    exact absurd rfl hne

lemma image_x64 (linux : Bool) : X64File (image linux) := by
  cases linux
  · exact ⟨by decide, by decide, by decide, by decide⟩
  · exact ⟨by decide, by decide, by decide, by decide⟩

/-- The program in memory, and a new pagemap. -/
structure Readied (linux : Bool) (pm : Pagemap) (m : Machine Bump) : Prop where
  zero : Taken (bumpSource (2 ^ 63)) (imageMachine linux).pmm 0
  kernel : Taken (bumpSource (2 ^ 63)) (imageMachine linux).pmm 1
  new : vmmNewPagemap (bumpSource (2 ^ 63)).alloc false 1 (imageMachine linux) = some (some pm, m)
  file : InMemory (bumpSource (2 ^ 63)) (imageMachine linux) imageNode (imageNode.contents (image linux))
  left : pagesWanted (image linux) (List.range (ePhnum (image linux))) ≤ Bump.left (2 ^ 63) m.pmm

lemma exists_readied (linux : Bool) : ∃ pm m, Readied linux pm m := by
  have htaken : ∀ g, g < 3 → Taken (bumpSource (2 ^ 63)) (imageMachine linux).pmm g := by
    intro g hg
    refine ⟨(0, 0x3000), List.mem_singleton.mpr rfl, Nat.zero_le _, ?_⟩
    simp only [pageSize]
    omega
  have hwant : pagesWanted (image linux) (List.range (ePhnum (image linux))) = 15 := by
    cases linux <;> decide
  have hleft : 15 + 1 ≤ Bump.left (2 ^ 63) (imageMachine linux).pmm := by
    norm_num [Bump.left, imageMachine, threePages, pageSize]
  obtain ⟨r, m, hnew, hk⟩ := (bump_serves (2 ^ 63)).newPagemap hleft false 1
  rcases vmmNewPagemap_cases le_rfl (htaken 1 (by decide)) hnew with ⟨-, hno, -⟩ | ⟨f, rfl, -, -⟩
  · exact absurd (htaken 0 (by decide)) hno
  · refine ⟨⟨f, false⟩, m, htaken 0 (by decide), htaken 1 (by decide), hnew, ⟨by decide, fun b h1 h2 => ?_,
      fun b h1 _ => if_pos h1⟩, hwant ▸ hk⟩
    have hsize : imageNode.size.toNat = 128 := rfl
    apply htaken
    simp only [imageNode, pageSize] at *
    omega

theorem elfLoad_image_threePages : ∃ pm m l,
    vmmNewPagemap (bumpSource (2 ^ 63)).alloc false 1 (imageMachine false) = some (some pm, m) ∧
    elfLoad (bumpSource (2 ^ 63)).alloc pm imageNode noStack m = some (0, some (eEntry (image false)), l) ∧
    SegmentMapped pm (image false) (programHeader (image false) 0) l.machine := by
  obtain ⟨pm, m, h⟩ := exists_readied false
  have hloaded : ∃ l, elfLoad (bumpSource (2 ^ 63)).alloc pm imageNode noStack m = _ ∧ _ :=
    elfLoad_image le_rfl h.zero h.kernel h.new h.file (bump_servesBlocks (2 ^ 63)) (image_x64 false) (by decide)
      (image_sound false) h.left
  obtain ⟨l, hload, hmapped⟩ := hloaded
  exact ⟨pm, m, l, h.new, hload, hmapped 0 (by decide) (by decide)⟩

/-- A sound program for the ABI of Linux is refused. -/
theorem elfLoad_refuses_linux : ∃ pm m l,
    vmmNewPagemap (bumpSource (2 ^ 63)).alloc false 1 (imageMachine true) = some (some pm, m) ∧
    InMemory (bumpSource (2 ^ 63)) (imageMachine true) imageNode (imageNode.contents (image true)) ∧
    X64File (image true) ∧ FileSound false imageNode.size.toNat (image true) ∧
    pagesWanted (image true) (List.range (ePhnum (image true))) ≤ Bump.left (2 ^ 63) m.pmm ∧
    elfLoad (bumpSource (2 ^ 63)).alloc pm imageNode noStack m = some (-enoexec, none, l) := by
  obtain ⟨pm, m, h⟩ := exists_readied true
  rcases vmmNewPagemap_cases le_rfl h.kernel h.new with ⟨hno, -⟩ | ⟨f, hpm, -, hn⟩
  · simp at hno
  obtain rfl : pm = ⟨f, false⟩ := Option.some.inj hpm
  have hholds : HoldsFile (bumpSource (2 ^ 63)) ⟨f, false⟩ imageNode (imageNode.contents (image true)) m :=
    h.file.newTop hn
  obtain ⟨hheader, hneg, -⟩ := hholds.header noStack.1
  have hsame : SameHeader (headerOf m.mem imageNode noStack.1) (image true) := by
    rw [hheader]
    exact sameHeader_headerOf h.file.low (by decide)
  have hexec : ¬ Executable (headerOf m.mem imageNode noStack.1) := by
    rintro ⟨-, -, -, -, -, -, habi, -⟩
    rw [hsame.ident 7 (by decide)] at habi
    exact absurd habi (by decide)
  refine ⟨⟨f, false⟩, m, ⟨m, noStack.2, [.toLocal 64 64]⟩, h.new, h.file, image_x64 true, image_sound true, h.left, ?_⟩
  rw [elfLoad]
  exact (if_neg hneg).trans (if_pos hexec)

end PiggyOs.Elf
