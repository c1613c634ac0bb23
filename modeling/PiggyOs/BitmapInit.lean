import PiggyOs.PmmRuns

/-! The bitmap that `pmm_init` leaves behind, and the bits of it that the allocator ever touches. The bytes
reserved for it are counted by a division that truncates. -/
namespace PiggyOs.Pmm
open Bitmap Transition

/-- The bits that the loop of `alloc_first_fit_from_last` tests. -/
def scanBits (bitmap : Bytes) (pages : ℕ) : ℕ → ℕ → ℕ → List ℕ
  | 0, _, _ => []
  | remaining + 1, lastUsedIndex, p =>
      (lastUsedIndex + 1) ::
        if test bitmap (lastUsedIndex + 1) then scanBits bitmap pages remaining (lastUsedIndex + 1) 0
        else if p + 1 = pages then []
        else scanBits bitmap pages remaining (lastUsedIndex + 1) (p + 1)

/-- The bits that it tests, and then those that it sets. -/
def firstFitBits (s : State) (pages lastLimit : ℕ) : List ℕ :=
  let remaining := lastLimit - s.lastUsedIndex
  scanBits s.bitmap pages remaining s.lastUsedIndex 0 ++
    match scan s.bitmap pages remaining s.lastUsedIndex 0 with
    | (none, _) => []
    | (some page, index) => List.range' page (index - page)

def pmmAllocBits (s : State) (pages : ℕ) : List ℕ :=
  let first := allocFirstFitFromLast s pages s.highestPageIndex
  firstFitBits s pages s.highestPageIndex ++
    match first.1 with
    | some _ => []
    | none => firstFitBits { first.2 with lastUsedIndex := 0 } pages s.lastUsedIndex

def pmmFreeBits (addr pages : ℕ) : List ℕ := List.range' (addr / pageSize) pages

def callBits (s : State) : Call → List ℕ
  | .alloc pages => pmmAllocBits s pages
  | .free addr pages => pmmFreeBits addr pages

def entryBits (e : MemmapEntry) : List ℕ :=
  if e.type = .usable then
    (List.range ((e.length + (pageSize - 1)) / pageSize)).map fun j => (e.base + j * pageSize) / pageSize
  else []

def highestPage (entries : List MemmapEntry) : ℕ := highestAddr entries / pageSize

def bitmapSize (entries : List MemmapEntry) : ℕ := alignUp (highestPage entries / 8) pageSize

def placed (entries : List MemmapEntry) : Option (ℕ × List MemmapEntry) :=
  placeBitmap (bitmapSize entries) entries

def pmmInitBits (entries : List MemmapEntry) : List ℕ :=
  match placed entries with
  | none => []
  | some r => r.2.flatMap entryBits

def MemmapEntry.Has (e : MemmapEntry) (addr : ℕ) : Prop := e.base ≤ addr ∧ addr < e.base + e.length

/-- What a boot loader promises of its memory map. -/
structure BootMap (entries : List MemmapEntry) : Prop where
  bounded : ∀ e ∈ entries, e.base + e.length < 2 ^ 64
  aligned : ∀ e ∈ entries, e.type = .usable → e.base % pageSize = 0 ∧ e.length % pageSize = 0
  disjoint : entries.Pairwise fun e f => e.type = .usable → f.type = .usable → ∀ a, e.Has a → ¬ f.Has a

def UsablePage (entries : List MemmapEntry) (i : ℕ) : Prop :=
  ∃ e ∈ entries, e.type = .usable ∧ e.Has (i * pageSize)

/-- Page `i` holds a piece of the bitmap. -/
def BitmapPage (entries : List MemmapEntry) (i : ℕ) : Prop :=
  ∃ r, placed entries = some r ∧ r.1 ≤ i * pageSize ∧ i * pageSize < r.1 + bitmapSize entries

/-- Only live ranges are released. -/
def Allowed (s : Session) : Call → Prop
  | .alloc _ => True
  | .free addr pages => (addr, pages) ∈ s.live

def Reserved (entries : List MemmapEntry) (i : ℕ) : Prop := i / 8 < bitmapSize entries

/-- The bitmap is right after boot, and nobody touches a bit outside the bytes reserved for it. -/
structure InitCorrect (entries : List MemmapEntry) (s : State) : Prop where
  marks : ∀ i < highestPage entries,
    test s.bitmap i = false ↔ UsablePage entries i ∧ ¬ BitmapPage entries i
  init : ∀ i ∈ pmmInitBits entries, Reserved entries i
  calls : ∀ cs t c, Run Served ⟨s, []⟩ cs t → Allowed t c → ∀ i ∈ callBits t.pmm c, Reserved entries i

variable {entries edited : List MemmapEntry} {e : MemmapEntry} {bitmap : Bytes} {ram : Bytes} {s : State}
  {t : Session} {pages r c p i size base : ℕ}

lemma test_foldl_clear (l : List ℕ) (b : Bytes) (i : ℕ) :
    test (l.foldl clear b) i = (!decide (i ∈ l) && test b i) := by
  induction l generalizing b with
  | nil => simp
  | cons j l ih =>
    rw [List.foldl_cons, ih, test_clear, ← Bool.and_assoc]
    congr 1
    rw [Bool.eq_iff_iff]
    simp only [Bool.and_eq_true, Bool.not_eq_true', decide_eq_false_iff_not, List.mem_cons, not_or]
    tauto

lemma clearEntry_eq (b : Bytes) (e : MemmapEntry) : clearEntry b e = (entryBits e).foldl clear b := by
  unfold clearEntry entryBits
  split_ifs
  · rw [List.foldl_map]
  · rfl

lemma foldl_clearEntry (l : List MemmapEntry) (b : Bytes) :
    l.foldl clearEntry b = (l.flatMap entryBits).foldl clear b := by
  induction l generalizing b with
  | nil => rfl
  | cons e l ih => rw [List.foldl_cons, ih, List.flatMap_cons, List.foldl_append, clearEntry_eq]

lemma mem_entryBits (hbase : e.base % pageSize = 0) (hlength : e.length % pageSize = 0) :
    i ∈ entryBits e ↔ e.type = .usable ∧ e.Has (i * pageSize) := by
  unfold entryBits MemmapEntry.Has
  split_ifs with htype
  · simp only [List.mem_map, List.mem_range, htype, true_and]
    simp only [pageSize] at hbase hlength ⊢
    constructor
    · rintro ⟨j, hj, rfl⟩
      omega
    · intro hi
      exact ⟨i - e.base / 4096, by omega, by omega⟩
  · simp [htype]

lemma foldl_max_le (l : List MemmapEntry) (h : ℕ) :
    h ≤ l.foldl (fun h e => if e.type = .usable then max h (e.base + e.length) else h) h := by
  induction l generalizing h with
  | nil => exact le_rfl
  | cons e l ih =>
    rw [List.foldl_cons]
    refine le_trans ?_ (ih _)
    split_ifs
    · exact le_max_left _ _
    · exact le_rfl

lemma le_foldl_max (l : List MemmapEntry) (h : ℕ) (he : e ∈ l) (htype : e.type = .usable) :
    e.base + e.length ≤ l.foldl (fun h e => if e.type = .usable then max h (e.base + e.length) else h) h := by
  induction l generalizing h with
  | nil => simp at he
  | cons f l ih =>
    rw [List.foldl_cons]
    rcases List.mem_cons.mp he with rfl | he
    · rw [if_pos htype]
      exact (le_max_right _ _).trans (foldl_max_le l _)
    · exact ih _ he

lemma foldl_max_lt {b : ℕ} (l : List MemmapEntry) (h : ℕ) (hb : ∀ e ∈ l, e.base + e.length < b) (hh : h < b) :
    l.foldl (fun h e => if e.type = .usable then max h (e.base + e.length) else h) h < b := by
  induction l generalizing h with
  | nil => exact hh
  | cons f l ih =>
    rw [List.foldl_cons]
    refine ih _ (fun e he => hb e (by simp [he])) ?_
    split_ifs
    · exact max_lt hh (hb f (by simp))
    · exact hh

lemma le_highestAddr (he : e ∈ entries) (htype : e.type = .usable) : e.base + e.length ≤ highestAddr entries :=
  le_foldl_max entries 0 he htype

lemma BootMap.highestAddr_lt (h : BootMap entries) : highestAddr entries < 2 ^ 64 :=
  foldl_max_lt entries 0 h.bounded (by decide)

lemma BootMap.bitmapSize_eq (h : BootMap entries) :
    bitmapSize entries = (highestPage entries / 8 + (pageSize - 1)) / pageSize * pageSize := by
  have hlt := h.highestAddr_lt
  rw [bitmapSize, alignUp, divCeil_eq] <;> simp only [highestPage, pageSize] at * <;> omega

/-- The bit of the page that ends the memory is reserved unless its byte would begin a page of the bitmap. -/
lemma BootMap.reserved_highestPage (h : BootMap entries) :
    Reserved entries (highestPage entries) ↔ highestPage entries / 8 % pageSize ≠ 0 := by
  rw [Reserved, h.bitmapSize_eq]
  simp only [pageSize]
  omega

lemma Reserved.mono {j : ℕ} (h : Reserved entries j) (hij : i ≤ j) : Reserved entries i :=
  (Nat.div_le_div_right hij).trans_lt h

lemma placeBitmap_split (h : placeBitmap size entries = some (base, edited)) :
    ∃ l e r, entries = l ++ e :: r ∧ e.type = .usable ∧ size ≤ e.length ∧ base = e.base ∧
      edited = l ++ { e with base := e.base + size, length := e.length - size } :: r := by
  induction entries generalizing edited with
  | nil => simp [placeBitmap] at h
  | cons f es ih =>
    rw [placeBitmap] at h
    split_ifs at h with hf
    · simp only [Option.some.injEq, Prod.mk.injEq] at h
      obtain ⟨rfl, rfl⟩ := h
      exact ⟨[], f, es, rfl, hf.1, hf.2, rfl, rfl⟩
    · obtain ⟨⟨b, es'⟩, hes, hr⟩ := Option.map_eq_some_iff.mp h
      simp only [Prod.mk.injEq] at hr
      obtain ⟨rfl, rfl⟩ := hr
      obtain ⟨l, e, r, rfl, htype, hsize, hbase, rfl⟩ := ih hes
      exact ⟨f :: l, e, r, rfl, htype, hsize, hbase, rfl⟩

/-- No other usable entry has an address of the one that hosts the bitmap. -/
lemma BootMap.apart {l r : List MemmapEntry} {f : MemmapEntry} {a : ℕ} (h : BootMap (l ++ e :: r))
    (he : e.type = .usable) (hf : f ∈ l ++ r) (hft : f.type = .usable) (ha : f.Has a) : ¬ e.Has a := by
  obtain ⟨-, htail, hcross⟩ := List.pairwise_append.mp h.disjoint
  rcases List.mem_append.mp hf with hf | hf
  · exact hcross f hf e (by simp) hft he a ha
  · exact fun hea => (List.pairwise_cons.mp htail).1 f hf he hft a hea ha

/-- The bits that are cleared are those of the usable pages that the bitmap does not take. -/
lemma BootMap.mem_pmmInitBits (h : BootMap entries) (hplaced : placed entries = some (base, edited)) :
    i ∈ pmmInitBits entries ↔ UsablePage entries i ∧ ¬ BitmapPage entries i := by
  have htaken : BitmapPage entries i ↔ base ≤ i * pageSize ∧ i * pageSize < base + bitmapSize entries := by
    simp [BitmapPage, hplaced]
  have hbits : i ∈ pmmInitBits entries ↔ ∃ f ∈ edited, i ∈ entryBits f := by
    simp [pmmInitBits, hplaced]
  have hround : bitmapSize entries % pageSize = 0 := by
    rw [h.bitmapSize_eq]
    exact Nat.mul_mod_left _ _
  rw [htaken, hbits]
  obtain ⟨l, e, r, rfl, htype, hsize, rfl, rfl⟩ := placeBitmap_split hplaced
  generalize bitmapSize (l ++ e :: r) = size at *
  have hother : ∀ f ∈ l ++ r, (i ∈ entryBits f ↔ f.type = .usable ∧ f.Has (i * pageSize)) := by
    intro f hf
    by_cases hft : f.type = .usable
    · have hmem : f ∈ l ++ e :: r := by
        rcases List.mem_append.mp hf with hf | hf <;> simp [hf]
      obtain ⟨hb, hl⟩ := h.aligned f hmem hft
      exact mem_entryBits hb hl
    · simp [entryBits, hft]
  have hhost : i ∈ entryBits { e with base := e.base + size, length := e.length - size } ↔
      e.base + size ≤ i * pageSize ∧ i * pageSize < e.base + e.length := by
    obtain ⟨hb, hl⟩ := h.aligned e (by simp) htype
    have hb' : (e.base + size) % pageSize = 0 := by simp [Nat.add_mod, hb, hround]
    have hl' : (e.length - size) % pageSize = 0 := by
      simp only [pageSize] at hl hround ⊢
      omega
    rw [mem_entryBits hb' hl']
    simp only [MemmapEntry.Has, htype, true_and]
    omega
  constructor
  · rintro ⟨f, hf, hi⟩
    rcases List.mem_append.mp hf with hf | hf
    · obtain ⟨hft, hfi⟩ := (hother f (by simp [hf])).mp hi
      have hne := h.apart htype (List.mem_append_left r hf) hft hfi
      refine ⟨⟨f, by simp [hf], hft, hfi⟩, fun htake => hne ⟨htake.1, by omega⟩⟩
    · rcases List.mem_cons.mp hf with rfl | hf
      · obtain ⟨h1, h2⟩ := hhost.mp hi
        exact ⟨⟨e, by simp, htype, by omega, h2⟩, by omega⟩
      · obtain ⟨hft, hfi⟩ := (hother f (by simp [hf])).mp hi
        have hne := h.apart htype (List.mem_append_right l hf) hft hfi
        refine ⟨⟨f, by simp [hf], hft, hfi⟩, fun htake => hne ⟨htake.1, by omega⟩⟩
  · rintro ⟨⟨f, hf, hft, hfi⟩, hfree⟩
    rcases List.mem_append.mp hf with hf | hf
    · exact ⟨f, by simp [hf], (hother f (by simp [hf])).mpr ⟨hft, hfi⟩⟩
    · rcases List.mem_cons.mp hf with rfl | hf
      · refine ⟨_, List.mem_append_right l List.mem_cons_self, hhost.mpr ?_⟩
        obtain ⟨h1, h2⟩ := hfi
        omega
      · exact ⟨f, by simp [hf], (hother f (by simp [hf])).mpr ⟨hft, hfi⟩⟩

lemma pmmInit_placed (h : pmmInit ram entries = some s) : ∃ base edited, placed entries = some (base, edited) ∧
    s.highestPageIndex = highestPage entries ∧ s.lastUsedIndex = 0 ∧
    s.bitmap = (pmmInitBits entries).foldl clear
      (fun i => if i < bitmapSize entries then 0xff#8 else ram (base + i)) := by
  obtain ⟨⟨base, edited⟩, hplaced, rfl⟩ := Option.map_eq_some_iff.mp h
  have hplaced' : placed entries = some (base, edited) := hplaced
  refine ⟨base, edited, hplaced', rfl, rfl, ?_⟩
  rw [pmmInitBits, hplaced', ← foldl_clearEntry]
  rfl

/-- As far as the reserved bytes reach, the bitmap is right. -/
lemma BootMap.test_reserved (h : BootMap entries) (hinit : pmmInit ram entries = some s)
    (hi : Reserved entries i) : test s.bitmap i = false ↔ UsablePage entries i ∧ ¬ BitmapPage entries i := by
  obtain ⟨base, edited, hplaced, -, -, hbitmap⟩ := pmmInit_placed hinit
  rw [← h.mem_pmmInitBits hplaced, hbitmap, test_foldl_clear]
  have hones : test (fun j => if j < bitmapSize entries then 0xff#8 else ram (base + j)) i = true := by
    have hlt : i % 8 < 8 := Nat.mod_lt _ (by decide)
    have hbyte : i / 8 < bitmapSize entries := hi
    rw [test_eq, if_pos hbyte]
    interval_cases i % 8 <;> rfl
  simp [hones]

/-- A usable page begins below the end of the memory. -/
lemma UsablePage.lt (h : BootMap entries) (hi : UsablePage entries i) : i < highestPage entries := by
  obtain ⟨e, he, htype, hlow, hhigh⟩ := hi
  have hend := le_highestAddr he htype
  obtain ⟨hb, hl⟩ := h.aligned e he htype
  simp only [highestPage, pageSize] at *
  omega

lemma scanBits_bounds (hi : i ∈ scanBits bitmap pages r c p) : c < i ∧ i ≤ c + r := by
  induction r generalizing c p with
  | zero => simp [scanBits] at hi
  | succ r ih =>
    rw [scanBits] at hi
    rcases List.mem_cons.mp hi with rfl | hi
    · omega
    · split_ifs at hi with ht he
      · have := ih hi
        omega
      · simp at hi
      · have := ih hi
        omega

/-- The scan depends on no other bit. -/
theorem scan_congr {other : Bytes} (h : ∀ i ∈ scanBits bitmap pages r c p, test other i = test bitmap i) :
    scan other pages r c p = scan bitmap pages r c p := by
  induction r generalizing c p with
  | zero => rfl
  | succ r ih =>
    rw [scanBits, List.forall_mem_cons] at h
    obtain ⟨hnext, hrest⟩ := h
    rw [scan, scan, hnext]
    split_ifs at hrest ⊢ with ht he
    · exact ih hrest
    · rfl
    · exact ih hrest

/-- A request that the rest of the memory is too small for is looked for up to the end. -/
lemma mem_scanBits (hlarge : p + r < pages) (hlow : c < i) (hhigh : i ≤ c + r) :
    i ∈ scanBits bitmap pages r c p := by
  induction r generalizing c p with
  | zero => omega
  | succ r ih =>
    rw [scanBits, List.mem_cons]
    by_cases hc : i = c + 1
    · exact Or.inl hc
    · right
      split_ifs with ht he
      · exact ih (by omega) (by omega) (by omega)
      · omega
      · exact ih (by omega) (by omega) (by omega)

lemma firstFitBits_bounds {limit : ℕ} (hi : i ∈ firstFitBits s pages limit) :
    i ≤ limit ∧ s.lastUsedIndex < limit := by
  unfold firstFitBits at hi
  rcases List.mem_append.mp hi with hi | hi
  · have := scanBits_bounds hi
    omega
  · split at hi
    · simp at hi
    · next page index hs =>
      have hpages : 0 < pages := by
        by_contra hzero
        obtain rfl : pages = 0 := by omega
        have hnone := scan_zero s.bitmap (limit - s.lastUsedIndex) s.lastUsedIndex 0
        simp [hs] at hnone
      obtain ⟨hend, hle, hlow, -⟩ := scan_some hpages (Nat.zero_le _) hs
      have := List.mem_range'_1.mp hi
      omega

lemma pmmAllocBits_bounds (hcursor : s.lastUsedIndex ≤ s.highestPageIndex) (hi : i ∈ pmmAllocBits s pages) :
    i ≤ s.highestPageIndex ∧ 0 < s.highestPageIndex := by
  unfold pmmAllocBits at hi
  rcases List.mem_append.mp hi with hi | hi
  · have := firstFitBits_bounds hi
    omega
  · split at hi
    · simp at hi
    · obtain ⟨hle, hlt⟩ := firstFitBits_bounds hi
      dsimp only at hlt
      omega

/-- What every call keeps: cursor and live ranges stay below the end of the memory. -/
structure Within (h : ℕ) (t : Session) : Prop where
  highest : t.pmm.highestPageIndex = h
  cursor : t.pmm.lastUsedIndex ≤ h
  live : ∀ x ∈ t.live, x.1 / pageSize + x.2 ≤ h

lemma Within.step {h : ℕ} (t : Session) (c : Call) (u : Session) (ht : Within h t) (hs : Served t c u) :
    Within h u := by
  cases c with
  | alloc pages =>
    obtain ⟨⟨addr, v⟩, hr, rfl⟩ := Option.map_eq_some_iff.mp hs
    obtain ⟨-, page, rfl, rfl, hhit⟩ := pmmAlloc_cases hr
    have hend : page + pages ≤ h := by
      rcases hhit with hhit | ⟨-, hhit⟩
      · exact hhit.below.trans ht.highest.le
      · exact hhit.below.trans ht.cursor
    refine ⟨ht.highest, hend, fun x hx => ?_⟩
    rcases List.mem_cons.mp hx with rfl | hx
    · rwa [Nat.mul_div_cancel _ (by decide)]
    · exact ht.live x hx
  | free addr pages =>
    simp only [Served, serve] at hs
    split_ifs at hs with hm
    obtain rfl := Option.some.inj hs
    exact ⟨ht.highest, ht.cursor, fun x hx => ht.live x (List.mem_of_mem_erase hx)⟩

lemma Within.bits {h : ℕ} (ht : Within h t) {c : Call} (hc : Allowed t c) (hi : i ∈ callBits t.pmm c) :
    i ≤ h ∧ 0 < h := by
  cases c with
  | alloc pages =>
    have := pmmAllocBits_bounds (ht.cursor.trans ht.highest.ge) hi
    rwa [ht.highest] at this
  | free addr pages =>
    have hend : addr / pageSize + pages ≤ h := ht.live _ hc
    have := List.mem_range'_1.mp hi
    omega

lemma Within.start (hinit : pmmInit ram entries = some s) : Within (highestPage entries) ⟨s, []⟩ := by
  obtain ⟨-, -, -, hhighest, hlast, -⟩ := pmmInit_placed hinit
  exact ⟨hhighest, by simp [hlast], by simp⟩

/-- A request for more pages than there are tests the bit behind the last page. -/
lemma InitCorrect.reserved_end (hinit : pmmInit ram entries = some s) (h : InitCorrect entries s)
    (hpos : 0 < highestPage entries) : Reserved entries (highestPage entries) := by
  obtain ⟨-, -, -, hhighest, hlast, -⟩ := pmmInit_placed hinit
  refine h.calls [] ⟨s, []⟩ (.alloc (highestPage entries + 1)) (.nil _) trivial _ ?_
  refine List.mem_append_left _ (List.mem_append_left _ (mem_scanBits ?_ ?_ ?_))
  all_goals simp only [hhighest, hlast]; omega

/-- The bitmap of every boot is right, and no bit beside it is touched by any later call, if and only if there
is no memory at all, or the bit of the page that ends it does not lie right behind the reserved bytes. -/
theorem pmmInit_correct_iff (hmap : BootMap entries) (hinit : pmmInit ram entries = some s) :
    InitCorrect entries s ↔ highestPage entries = 0 ∨ highestPage entries / 8 % pageSize ≠ 0 := by
  constructor
  · intro h
    by_contra hc
    obtain ⟨hpos, hend⟩ := not_or.mp hc
    exact hend (hmap.reserved_highestPage.mp (h.reserved_end hinit (Nat.pos_of_ne_zero hpos)))
  · intro hcond
    have hreserved : ∀ i, i ≤ highestPage entries → 0 < highestPage entries → Reserved entries i := by
      intro i hi hpos
      have hend := hmap.reserved_highestPage.mpr (hcond.resolve_left hpos.ne')
      exact hend.mono hi
    refine ⟨fun i hi => hmap.test_reserved hinit (hreserved i hi.le (by omega)), fun i hi => ?_,
      fun cs t c hrun hc i hi => ?_⟩
    · obtain ⟨base, edited, hplaced, -⟩ := pmmInit_placed hinit
      have hlt := ((hmap.mem_pmmInitBits hplaced).mp hi).1.lt hmap
      exact hreserved i hlt.le (by omega)
    · obtain ⟨hle, hpos⟩ := (hrun.invariant Within.step (Within.start hinit)).bits hc hi
      exact hreserved i hle hpos

lemma smallMap_bootMap : BootMap smallMap where
  bounded := by decide
  aligned := by decide
  disjoint := by simp [smallMap]

/-- A kernel page and eight usable ones: ten bits in one page. -/
theorem pmmInit_correct_smallMap : pmmInit (fun _ => 0) smallMap = some smallState ∧
    InitCorrect smallMap smallState := by
  have hinit : pmmInit (fun _ => 0) smallMap = some smallState := (Option.some_get _).symm
  exact ⟨hinit, (pmmInit_correct_iff smallMap_bootMap hinit).mpr (Or.inr (by decide))⟩

/-- A machine with 128 MiB: usable memory ends at page 32768, whose byte is the one behind the only page of
the bitmap. -/
def wholeMap : List MemmapEntry := [⟨0, 0x100000, .reserved⟩, ⟨0x100000, 0x7f00000, .usable⟩]

theorem pmmInit_incorrect_wholeMap : BootMap wholeMap ∧ (∀ ram, pmmInit ram wholeMap ≠ none) ∧
    ∀ ram s, pmmInit ram wholeMap = some s → ¬ InitCorrect wholeMap s := by
  have hmap : BootMap wholeMap := ⟨by decide, by decide, by simp [wholeMap]⟩
  refine ⟨hmap, fun ram hnone => ?_, fun ram s hinit h => ?_⟩
  · have hplaced : placed wholeMap ≠ none := by decide
    rw [pmmInit] at hnone
    exact hplaced (Option.map_eq_none_iff.mp hnone)
  · exact absurd (hmap.reserved_highestPage.mp (h.reserved_end hinit (by decide))) (by decide)

end PiggyOs.Pmm
