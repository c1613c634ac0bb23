import PiggyOs.VmmRefinement

/-! Address spaces of processes: a new pagemap, frames from the allocator, and pages of 4 KiB that
map these frames in the user half. -/
namespace PiggyOs.Vmm
open ByteMemory Walk Transition

section NewPagemap
variable {σ : Type} {highVma : ℕ} {src : PageSource σ highVma} {m m' : Machine σ}
  {f : ℕ}

/-- The loop that copies entries of one table to another. -/
lemma entry_copyEntries {source target : ℕ} (hne : source ≠ target) (is : List (Fin 512)) (m : Machine σ)
    (s : ℕ) (j : Fin 512) :
    (is.foldl (fun m i => m.setEntry target i (m.entry source i)) m).entry s j =
      if s = target ∧ j ∈ is then m.entry source j else m.entry s j := by
  induction is generalizing m with
  | nil => simp
  | cons i is ih =>
    rw [List.foldl_cons, ih]
    simp only [entry_setEntry, List.mem_cons]
    have hf : ¬ (source = target ∧ j = i) := fun h => hne h.1
    rw [if_neg hf]
    by_cases hs : s = target
    · by_cases hj : j = i
      · subst hj
        by_cases hmem : j ∈ is <;> simp [hs, hmem]
      · by_cases hmem : j ∈ is <;> simp [hs, hj, hmem]
    · simp [hs]

lemma copyEntries_frame (source target : ℕ) (is : List (Fin 512)) (m : Machine σ) :
    (is.foldl (fun m i => m.setEntry target i (m.entry source i)) m).pmm = m.pmm ∧
      ∀ b, b / pageSize ≠ target →
        (is.foldl (fun m i => m.setEntry target i (m.entry source i)) m).mem b = m.mem b := by
  induction is generalizing m with
  | nil => exact ⟨rfl, fun _ _ => rfl⟩
  | cons i is ih =>
    obtain ⟨hp, hb⟩ := ih (m.setEntry target i (m.entry source i))
    refine ⟨hp, fun b hne => ?_⟩
    rw [List.foldl_cons, hb b hne, setEntry_bytes _ _ _ _ hne]

/-- `m'` is `m` with a new top level in frame `f`: an empty user half and the kernel half of
`kernelTop`. -/
structure NewTop (src : PageSource σ highVma) (m m' : Machine σ) (kernelTop f : ℕ) : Prop where
  low : f * pageSize < 2 ^ 63
  fresh : ¬ Taken src m.pmm f
  taken : ∀ g, Taken src m'.pmm g ↔ Taken src m.pmm g ∨ g = f
  entry : ∀ s j, m'.entry s j =
    if s = f then (if 256 ≤ j.val then m.entry kernelTop j else 0) else m.entry s j
  bytes : ∀ b, b / pageSize ≠ f → m'.mem b = m.mem b

lemma mem_kernelHalf {i : Fin 512} : i ∈ kernelHalf ↔ 256 ≤ i.val := by
  simp [kernelHalf, List.mem_finRange]

lemma mem_userHalf {i : Fin 512} : i ∈ userHalf ↔ i.val < 256 := by
  simp [userHalf, List.mem_finRange]

/-- A new pagemap, unless the allocator answers with frame 0. -/
theorem vmmNewPagemap_cases {five : Bool} {kernelTop : ℕ} {r : Option Pagemap}
    (hv : 2 ^ 63 ≤ highVma) (hk : Taken src m.pmm kernelTop)
    (h : vmmNewPagemap src.alloc five kernelTop m = some (r, m')) :
    (r = none ∧ ¬ Taken src m.pmm 0 ∧ (∀ g, Taken src m'.pmm g ↔ Taken src m.pmm g ∨ g = 0) ∧
      ∀ b, b / pageSize ≠ 0 → m'.mem b = m.mem b) ∨
    ∃ f, r = some ⟨f, five⟩ ∧ f ≠ 0 ∧ NewTop src m m' kernelTop f := by
  unfold vmmNewPagemap at h
  cases ha : src.alloc m.pmm 1 with
  | none => simp [pmmAllocz, ha] at h
  | some x =>
    obtain ⟨a, q⟩ := x
    obtain ⟨f, rfl, hlow, hfresh, htaken⟩ := alloc_frame hv ha
    have hkf : kernelTop ≠ f := fun h => hfresh (h ▸ hk)
    have hclear : ∀ b, b / pageSize ≠ f → clear m.mem (f * pageSize) pageSize b = m.mem b := by
      intro b hb
      apply clear_outside
      simp only [pageSize] at *
      omega
    simp only [pmmAllocz, ha, Option.map_some, Nat.mul_one, Option.some.injEq,
      Nat.mul_div_cancel _ (show 0 < pageSize by decide)] at h
    split_ifs at h with h0
    · obtain ⟨rfl, rfl⟩ := Prod.mk.inj h
      obtain rfl : f = 0 := by
        simp only [pageSize] at h0
        omega
      exact Or.inl ⟨rfl, hfresh, htaken, hclear⟩
    · obtain ⟨rfl, rfl⟩ := Prod.mk.inj h
      obtain ⟨hpmm, hbytes⟩ := copyEntries_frame kernelTop f kernelHalf
        (⟨clear m.mem (f * pageSize) pageSize, q⟩ : Machine σ)
      refine Or.inr ⟨f, rfl, fun hf => h0 (by rw [hf, Nat.zero_mul]), hlow, hfresh, ?_, ?_, ?_⟩
      · intro g
        rw [hpmm]
        exact htaken g
      · intro s j
        rw [entry_copyEntries hkf, entry_clear, entry_clear, if_neg hkf]
        simp only [mem_kernelHalf]
        by_cases hs : s = f <;> simp [hs]
      · intro b hb
        rw [hbytes b hb]
        exact hclear b hb

def User (i : Fin 512) : Prop := i.val < 256

/-- The user half under the top level `top` holds pages of 4 KiB only. Neither its tables nor its
pages are available to the allocator. -/
structure UserPages (src : PageSource σ highVma) (m : Machine σ) (top : ℕ) : Prop where
  tables : ∀ π ∈ words User 3, ∀ t, walk m.next top π = some t → Taken src m.pmm t
  small : ∀ π ∈ words User 3, π.length = 2 → ∀ t, walk m.next top π = some t →
    ∀ i, ¬ Large (m.entry t i)
  pages : ∀ π ∈ words User 3, π.length = 3 → ∀ t, walk m.next top π = some t →
    ∀ l, Present (m.entry t l) → ¬ Large (m.entry t l) ∧ Taken src m.pmm (frameOf (m.entry t l))

/-- The part of it that four levels of tables show, however many there are. -/
structure UserFrames (src : PageSource σ highVma) (m : Machine σ) (top : ℕ) : Prop where
  tables : ∀ π ∈ words User 3, ∀ t, walk m.next top π = some t → Taken src m.pmm t
  pages : ∀ π ∈ words User 3, π.length = 3 → ∀ t, walk m.next top π = some t →
    ∀ l, Present (m.entry t l) → ¬ Large (m.entry t l) ∧ Taken src m.pmm (frameOf (m.entry t l))

lemma UserPages.frames {top : ℕ} (hold : UserPages src m top) : UserFrames src m top :=
  ⟨hold.tables, hold.pages⟩

/-- In a new pagemap no index of the user half leads anywhere. -/
lemma NewTop.walk_eq {kernelTop : ℕ} (hn : NewTop src m m' kernelTop f) {π : List (Fin 512)} {n t : ℕ}
    (hπ : π ∈ words User n) (hw : walk m'.next f π = some t) : π = [] ∧ t = f := by
  cases π with
  | nil => exact ⟨rfl, by simpa using hw.symm⟩
  | cons i π =>
    have hi : User i := hπ.2 i (by simp)
    have habs : ¬ Present (m'.entry f i) := by
      rw [hn.entry, if_pos rfl, if_neg (Nat.not_le.mpr hi)]
      decide
    simp [walk_cons, next_absent habs] at hw

lemma NewTop.tree {kernelTop n : ℕ} (hn : NewTop src m m' kernelTop f) (hpos : 1 < n) :
    TreeInv src User m' f n := by
  refine ⟨?_, ?_, ?_⟩
  · intro π hπ ρ hρ t h1 h2
    rw [(hn.walk_eq hπ h1).1, (hn.walk_eq hρ h2).1]
  · intro π hπ t hw
    rw [(hn.walk_eq hπ hw).2, hn.taken]
    exact Or.inr rfl
  · intro π hπ hlen t hw i
    rw [(hn.walk_eq hπ hw).1, List.length_nil] at hlen
    omega

lemma NewTop.entryAt_eq {kernelTop n : ℕ} (hn : NewTop src m m' kernelTop f) {π : List (Fin 512)}
    (hπ : π ∈ words User n) (hpos : 0 < π.length) (j : Fin 512) : entryAt m' f π j = none := by
  cases hw : walk m'.next f π with
  | none => exact entryAt_of_walk_none hw j
  | some t =>
    rw [(hn.walk_eq hπ hw).1] at hpos
    exact absurd hpos (Nat.lt_irrefl 0)

end NewPagemap

section Serving
variable {σ : Type} {pmmAlloc : σ → ℕ → Option (ℕ × σ)} {left : σ → ℕ}

/-- `left` pages can still be served, one at a time. -/
def Serves (pmmAlloc : σ → ℕ → Option (ℕ × σ)) (left : σ → ℕ) : Prop :=
  ∀ p k, k + 1 ≤ left p → ∃ a q, pmmAlloc p 1 = some (a, q) ∧ k ≤ left q

lemma Serves.allocz (hs : Serves pmmAlloc left) {m : Machine σ} {k : ℕ} (hk : k + 1 ≤ left m.pmm) :
    ∃ a m', pmmAllocz pmmAlloc m 1 = some (a, m') ∧ k ≤ left m'.pmm := by
  obtain ⟨a, q, ha, hq⟩ := hs m.pmm k hk
  exact ⟨a, ⟨clear m.mem a (pageSize * 1), q⟩, by simp [pmmAllocz, ha], hq⟩

lemma Serves.ensureTable (hs : Serves pmmAlloc left) {m : Machine σ} {k : ℕ} (hk : k + 1 ≤ left m.pmm)
    (flags : BitVec 64) (t : ℕ) (i : Fin 512) :
    ∃ r m', Vmm.ensureTable pmmAlloc m flags t i = some (r, m') ∧ k ≤ left m'.pmm := by
  unfold Vmm.ensureTable
  split_ifs with hp
  · exact ⟨_, m, rfl, by omega⟩
  · obtain ⟨a, m1, ha, hk1⟩ := hs.allocz hk
    rw [ha, Option.map_some]
    dsimp only
    split_ifs
    · exact ⟨_, _, rfl, hk1⟩
    · exact ⟨_, _, rfl, hk1⟩

lemma Serves.ensureTables (hs : Serves pmmAlloc left) {m : Machine σ} {k : ℕ} {is : List (Fin 512)}
    (hk : k + is.length ≤ left m.pmm) (flags : BitVec 64) (t : ℕ) :
    ∃ r m', Vmm.ensureTables pmmAlloc flags m t is = some (r, m') ∧ k ≤ left m'.pmm := by
  induction is generalizing m t with
  | nil => exact ⟨_, m, rfl, by simpa using hk⟩
  | cons i is ih =>
    rw [List.length_cons, ← Nat.add_assoc] at hk
    obtain ⟨r, m1, h1, hk1⟩ := hs.ensureTable hk flags t i
    rw [Vmm.ensureTables, h1]
    cases r with
    | none => exact ⟨none, m1, rfl, by omega⟩
    | some u => exact ih hk1 u

lemma Serves.mapPage (hs : Serves pmmAlloc left) {m : Machine σ} {k : ℕ} (hk : k + 4 ≤ left m.pmm)
    (pm : Pagemap) (vaddr paddr flags : BitVec 64) :
    ∃ b m', vmmMapPage pmmAlloc m pm vaddr paddr flags = some (b, m') ∧ k ≤ left m'.pmm := by
  have hlen : (upperIndices pm.hasLevel5 vaddr).length ≤ 3 := by cases pm.hasLevel5 <;> simp [upperIndices]
  obtain ⟨r, m1, h1, hk1⟩ := hs.ensureTables (k := k + 1)
    (show k + 1 + (upperIndices pm.hasLevel5 vaddr).length ≤ left m.pmm by omega) flags pm.topLevel
  unfold vmmMapPage
  rw [h1]
  cases r with
  | none => exact ⟨false, m1, rfl, by omega⟩
  | some pml2 =>
    dsimp only
    split_ifs
    · exact ⟨true, _, rfl, by rw [setEntry_pmm]; omega⟩
    · obtain ⟨r2, m2, h2, hk2⟩ := hs.ensureTable hk1 flags pml2 (pml2Index vaddr)
      rw [h2]
      cases r2 with
      | none => exact ⟨false, m2, rfl, hk2⟩
      | some pml1 => exact ⟨true, _, rfl, hk2⟩

lemma Serves.newPagemap (hs : Serves pmmAlloc left) {m : Machine σ} {k : ℕ} (hk : k + 1 ≤ left m.pmm)
    (five : Bool) (kernelTop : ℕ) :
    ∃ r m', vmmNewPagemap pmmAlloc five kernelTop m = some (r, m') ∧ k ≤ left m'.pmm := by
  obtain ⟨a, m1, ha, hk1⟩ := hs.allocz hk
  rw [vmmNewPagemap, ha, Option.map_some]
  split_ifs
  · exact ⟨none, m1, rfl, hk1⟩
  · refine ⟨_, _, rfl, ?_⟩
    rw [(copyEntries_frame _ _ _ _).1]
    exact hk1

end Serving

section Users
variable {σ : Type} {highVma : ℕ} {src : PageSource σ highVma} {m : Machine σ} {top : ℕ}
  {v : BitVec 64}

lemma present_of_lookup {ρ : List (Fin 512)} {j : Fin 512} (h : lookup m top ρ j ≠ noMapping) :
    ∃ t, walk m.next top ρ = some t ∧ Present (m.entry t j) := by
  cases he : entryAt m top ρ j with
  | none => exact absurd (by rw [lookup, he, Option.getD_none]) h
  | some e =>
    obtain ⟨t, hw, hp, -⟩ := entryAt_eq_some.mp he
    exact ⟨t, hw, hp⟩

/-- A mapped place of the user half: its entry is present. -/
lemma UserFrames.entry (hold : UserFrames src m top) {ρ : List (Fin 512)} (hρ : ρ ∈ words User 3)
    (hn : ρ.length = 3) {j : Fin 512} :
    lookup m top ρ j ≠ noMapping ↔ ∃ t, walk m.next top ρ = some t ∧ Present (m.entry t j) := by
  refine ⟨present_of_lookup, ?_⟩
  rintro ⟨t, hw, hp⟩ hno
  rw [lookup_present hw hp] at hno
  apply (hold.pages ρ hρ hn t hw j hp).1
  rw [hno]
  decide

/-- A mapped place of the user half holds a page of 4 KiB in a frame in use. -/
lemma UserFrames.page (hold : UserFrames src m top) {ρ : List (Fin 512)} (hρ : ρ ∈ words User 3)
    (hn : ρ.length = 3) {j : Fin 512} (hmap : lookup m top ρ j ≠ noMapping) :
    ¬ Large (lookup m top ρ j) ∧ Taken src m.pmm (frameOf (lookup m top ρ j)) := by
  obtain ⟨t, hw, hp⟩ := (hold.entry hρ hn).mp hmap
  rw [lookup_present hw hp]
  exact hold.pages ρ hρ hn t hw j hp

lemma UserPages.get (hold : UserPages src m top) (hu : User (topIndex false v)) :
    vmmGetPageMapping m ⟨top, false⟩ v = lookup m top (tablePath false v) (pml1Index v) := by
  have hup := words_prefixClosed User _ _ _ (tablePath_mem hu)
  exact vmmGetPageMapping_of_small fun t ht => hold.small _ hup rfl t ht _

end Users

/-- An address space in the making. `owned` are the frames it got from the allocator for its
pages. -/
structure Space (σ : Type) where
  machine : Machine σ
  owned : List ℕ

inductive SpaceCall
  | alloc (pages : ℕ)
  | map (vaddr : BitVec 64) (frame : ℕ) (flags : BitVec 64)
  | unmap (vaddr : BitVec 64)
  | store (addr : ℕ) (value : BitVec 8)
  deriving DecidableEq, Repr

section Spaces
variable {σ : Type} {highVma : ℕ} {src : PageSource σ highVma} {pm : Pagemap} {s s' : Space σ}

/-- Frames are allocated in blocks and mapped one by one, in the user half; the program writes to
its own frames. -/
inductive SpaceStep (src : PageSource σ highVma) (pm : Pagemap) :
    Space σ → SpaceCall → Space σ → Prop
  | alloc {s : Space σ} {pages addr : ℕ} {m' : Machine σ} :
      pmmAllocz src.alloc s.machine pages = some (addr, m') →
      SpaceStep src pm s (.alloc pages) ⟨m', List.range' (addr / pageSize) pages ++ s.owned⟩
  | map {s : Space σ} {vaddr flags : BitVec 64} {frame : ℕ} {m' : Machine σ} {b : Bool} :
      frame ∈ s.owned → User (topIndex pm.hasLevel5 vaddr) → SmallPage flags →
      vmmMapPage src.alloc s.machine pm vaddr (BitVec.ofNat 64 (frame * pageSize)) flags = some (b, m') →
      SpaceStep src pm s (.map vaddr frame flags) ⟨m', s.owned⟩
  | unmap {s : Space σ} {vaddr : BitVec 64} : User (topIndex pm.hasLevel5 vaddr) →
      SpaceStep src pm s (.unmap vaddr) ⟨(vmmUnmapPage s.machine pm vaddr).2, s.owned⟩
  | store {s : Space σ} {addr : ℕ} {value : BitVec 8} : addr / pageSize ∈ s.owned →
      SpaceStep src pm s (.store addr value)
        ⟨{ s.machine with mem := Function.update s.machine.mem addr value }, s.owned⟩

/-- Frame `f` belongs to the pages of the address space. -/
structure OwnedFrame (src : PageSource σ highVma) (pm : Pagemap) (m : Machine σ) (f : ℕ) : Prop where
  low : f * pageSize < 2 ^ 63
  taken : Taken src m.pmm f
  notTable : NotTable User pm.topLevel (depth pm.hasLevel5) m f

structure SpaceInv (src : PageSource σ highVma) (pm : Pagemap) (s : Space σ) : Prop where
  zero : Taken src s.machine.pmm 0
  tree : TreeInv src User s.machine pm.topLevel (depth pm.hasLevel5)
  owned : ∀ f ∈ s.owned, OwnedFrame src pm s.machine f
  pages : ∀ ρ ∈ words User (depth pm.hasLevel5), ρ.length = depth pm.hasLevel5 → ∀ j,
    ∀ e ∈ entryAt s.machine pm.topLevel ρ j, ∃ f ∈ s.owned, ∃ flags, SmallPage flags ∧
      e = BitVec.ofNat 64 (f * pageSize) ||| flags

/-- A block of pages: frames that were not in use, and no other frame in use is written. -/
lemma pmmAllocz_cases {m m' : Machine σ} {a n : ℕ} (hv : 2 ^ 63 ≤ highVma)
    (h : pmmAllocz src.alloc m n = some (a, m')) :
    a % pageSize = 0 ∧ (∀ g, Taken src m.pmm g → Taken src m'.pmm g) ∧
      (∀ g, a / pageSize ≤ g → g < a / pageSize + n →
        g * pageSize < 2 ^ 63 ∧ ¬ Taken src m.pmm g ∧ Taken src m'.pmm g) ∧
      ∀ b, Taken src m.pmm (b / pageSize) → m'.mem b = m.mem b := by
  obtain ⟨⟨a, q⟩, halloc, h⟩ := Option.map_eq_some_iff.mp h
  obtain ⟨rfl, rfl⟩ := Prod.mk.inj h
  have ha := src.aligned halloc
  have hm := src.mapped halloc
  have hfresh : ∀ g, a / pageSize ≤ g → g < a / pageSize + n → ¬ Taken src m.pmm g := by
    rintro g hlo hhi ⟨x, hx, h1, h2⟩
    have := src.apart halloc x hx
    simp only [Apart, pageSize] at *
    omega
  refine ⟨ha, ?_, ?_, ?_⟩
  · rintro g ⟨x, hx, h1, h2⟩
    exact ⟨x, by rw [src.record halloc]; exact List.mem_cons_of_mem _ hx, h1, h2⟩
  · intro g hlo hhi
    refine ⟨?_, hfresh g hlo hhi, (a, pageSize * n), by rw [src.record halloc]; exact List.mem_cons_self, ?_⟩
    · simp only [pageSize] at *
      omega
    · simp only [pageSize] at *
      omega
  · intro b hb
    apply clear_outside
    by_contra hin
    refine hfresh (b / pageSize) ?_ ?_ hb
    · simp only [pageSize] at *
      omega
    · simp only [pageSize] at *
      omega

lemma OwnedFrame.spared {m m' : Machine σ} {f : ℕ} (ho : OwnedFrame src pm m f)
    (hs : Spares src User pm.topLevel (depth pm.hasLevel5) m m') : OwnedFrame src pm m' f where
  low := ho.low
  taken := hs.taken f ho.taken
  notTable := hs.tables f ho.taken ho.notTable

lemma SpaceInv.alloc {pages addr : ℕ} {m' : Machine σ} (hv : 2 ^ 63 ≤ highVma) (inv : SpaceInv src pm s)
    (h : pmmAllocz src.alloc s.machine pages = some (addr, m')) :
    SpaceInv src pm ⟨m', List.range' (addr / pageSize) pages ++ s.owned⟩ := by
  obtain ⟨-, hmono, hnew, hbytes⟩ := pmmAllocz_cases hv h
  obtain ⟨tree, hlook, hspare, hwalk⟩ := inv.tree.congr hmono hbytes
  refine ⟨hmono 0 inv.zero, tree, fun f hf => ?_, fun ρ hρ hn j => ?_⟩
  · rcases List.mem_append.mp hf with hf | hf
    · obtain ⟨hlo, hhi⟩ := List.mem_range'_1.mp hf
      obtain ⟨hlow, hfresh, htaken⟩ := hnew f hlo hhi
      refine ⟨hlow, htaken, fun π hπ hw => hfresh (inv.tree.taken π hπ f ?_)⟩
      rwa [hwalk π hπ] at hw
    · exact (inv.owned f hf).spared hspare
  · intro e he
    rw [hlook ρ hρ hn j] at he
    obtain ⟨f, hf, hpage⟩ := inv.pages ρ hρ hn j e he
    exact ⟨f, List.mem_append_right _ hf, hpage⟩

lemma SpaceInv.map {vaddr flags : BitVec 64} {frame : ℕ} {m' : Machine σ} {b : Bool}
    (hv : 2 ^ 63 ≤ highVma) (inv : SpaceInv src pm s) (hf : frame ∈ s.owned)
    (hu : User (topIndex pm.hasLevel5 vaddr)) (hs : SmallPage flags)
    (h : vmmMapPage src.alloc s.machine pm vaddr (BitVec.ofNat 64 (frame * pageSize)) flags =
      some (b, m')) : SpaceInv src pm ⟨m', s.owned⟩ := by
  obtain ⟨-, tree, h0, hupd, hspare⟩ := vmmMapPage_updates hv inv.tree inv.zero hu hs h
  refine ⟨h0, tree, fun f hf => (inv.owned f hf).spared hspare, fun ρ hρ hn j => ?_⟩
  intro e he
  rw [hupd ρ hρ hn j] at he
  split_ifs at he with hj
  · exact ⟨frame, hf, flags, hs, (Option.some.inj he).symm⟩
  · exact inv.pages ρ hρ hn j e he

lemma SpaceInv.unmap {vaddr : BitVec 64} (inv : SpaceInv src pm s)
    (hu : User (topIndex pm.hasLevel5 vaddr)) :
    SpaceInv src pm ⟨(vmmUnmapPage s.machine pm vaddr).2, s.owned⟩ := by
  obtain ⟨tree, hpmm, hupd, hspare⟩ := vmmUnmapPage_updates inv.tree hu
  refine ⟨hspare.taken 0 inv.zero, tree, fun f hf => (inv.owned f hf).spared hspare, fun ρ hρ hn j => ?_⟩
  intro e he
  rw [hupd ρ hρ hn j] at he
  split_ifs at he with hj
  · simp at he
  · exact inv.pages ρ hρ hn j e he

lemma SpaceInv.store {addr : ℕ} {value : BitVec 8} (inv : SpaceInv src pm s)
    (ha : addr / pageSize ∈ s.owned) :
    SpaceInv src pm ⟨{ s.machine with mem := Function.update s.machine.mem addr value }, s.owned⟩ := by
  set m' : Machine σ := { s.machine with mem := Function.update s.machine.mem addr value } with hm'
  have hbytes : ∀ π ∈ words User (depth pm.hasLevel5), ∀ t,
      walk s.machine.next pm.topLevel π = some t → ∀ b, b / pageSize = t →
      m'.mem b = s.machine.mem b := by
    intro π hπ t hw b hb
    refine Function.update_of_ne (fun h => (inv.owned _ ha).notTable π hπ ?_) _ _
    rw [hw, ← hb, h]
  have hkeep : ∀ g, Taken src s.machine.pmm g → Taken src m'.pmm g := fun g hg => hg
  obtain ⟨tree, hlook, hwalk⟩ := inv.tree.congr_tables hkeep hbytes
  refine ⟨inv.zero, tree, fun f hf => ?_, fun ρ hρ hn j => ?_⟩
  · have ho := inv.owned f hf
    refine ⟨ho.low, ho.taken, fun π hπ hw => ho.notTable π hπ ?_⟩
    rwa [hwalk π hπ] at hw
  · rw [hlook ρ hρ hn j]
    exact inv.pages ρ hρ hn j

lemma SpaceInv.step {c : SpaceCall} (hv : 2 ^ 63 ≤ highVma) (inv : SpaceInv src pm s)
    (h : SpaceStep src pm s c s') : SpaceInv src pm s' := by
  cases h with
  | alloc h => exact inv.alloc hv h
  | map hf hu hs h => exact inv.map hv hf hu hs h
  | unmap hu => exact inv.unmap hu
  | store ha => exact inv.store ha

/-- A new pagemap is an address space without pages. -/
lemma NewTop.space {m m' : Machine σ} {kernelTop : ℕ} (hn : NewTop src m m' kernelTop pm.topLevel)
    (h0 : Taken src m.pmm 0) : SpaceInv src pm ⟨m', []⟩ := by
  have hpos : 1 < depth pm.hasLevel5 := by cases pm.hasLevel5 <;> decide
  refine ⟨(hn.taken 0).mpr (Or.inl h0), hn.tree hpos, by simp, fun ρ hρ hlen j e he => ?_⟩
  rw [hn.entryAt_eq hρ (by omega) j] at he
  simp at he

/-- What holds of every address space that is built from a new pagemap. -/
theorem space_of_run {m m1 : Machine σ} {kernelTop : ℕ} {five : Bool} {calls : List SpaceCall}
    (hv : 2 ^ 63 ≤ highVma) (h0 : Taken src m.pmm 0) (hk : Taken src m.pmm kernelTop)
    (hnew : vmmNewPagemap src.alloc five kernelTop m = some (some pm, m1))
    (hrun : Run (SpaceStep src pm) ⟨m1, []⟩ calls s) : SpaceInv src pm s := by
  refine hrun.invariant (fun _ _ _ inv h => inv.step hv h) ?_
  rcases vmmNewPagemap_cases hv hk hnew with ⟨h, -⟩ | ⟨f, h, -, hn⟩
  · simp at h
  · obtain rfl : pm = ⟨f, five⟩ := Option.some.inj h
    exact hn.space h0

lemma SmallPage.not_large_or {flags : BitVec 64} (hs : SmallPage flags) (f : ℕ) :
    ¬ Large (BitVec.ofNat 64 (f * pageSize) ||| flags) := by
  have := hs.small
  rw [large_iff, Bool.not_eq_true] at *
  rw [BitVec.getLsbD_or, ofNat_low_bit (by decide), this]
  rfl

/-- The pages of an address space are pages of 4 KiB in frames that it owns. -/
lemma SpaceInv.page (inv : SpaceInv src pm s) {ρ : List (Fin 512)}
    (hρ : ρ ∈ words User (depth pm.hasLevel5)) (hn : ρ.length = depth pm.hasLevel5) {j : Fin 512}
    {e : BitVec 64} (he : entryAt s.machine pm.topLevel ρ j = some e) : ¬ Large e ∧ frameOf e ∈ s.owned := by
  obtain ⟨f, hf, flags, hs, rfl⟩ := inv.pages ρ hρ hn j e he
  refine ⟨hs.not_large_or f, ?_⟩
  rwa [frameOf_or hs.flagsOnly, frameOf_ofNat (inv.owned f hf).low]

lemma SpaceInv.userPages (inv : SpaceInv src pm s) (hfour : pm.hasLevel5 = false) :
    UserPages src s.machine pm.topLevel := by
  obtain ⟨top, five⟩ := pm
  obtain rfl : five = false := hfour
  refine ⟨inv.tree.taken, fun π hπ hlen t hw i => inv.tree.small π hπ (by rw [hlen]; rfl) t hw i, ?_⟩
  intro π hπ hlen t hw l hp
  obtain ⟨hsmall, howned⟩ := inv.page hπ hlen (entryAt_eq_some.mpr ⟨t, hw, hp, rfl⟩)
  exact ⟨hsmall, (inv.owned _ howned).taken⟩

end Spaces

/-- The pages that the never-reusing supplier can still give out. -/
def Bump.left (highVma : ℕ) (s : Bump) : ℕ := (min s.limit (2 ^ 64 - highVma) - s.next) / pageSize

lemma bump_serves (highVma : ℕ) : Serves (bumpSource highVma).alloc (Bump.left highVma) := by
  intro p k hk
  have hroom : p.next + pageSize * 1 ≤ p.limit ∧ p.next + pageSize * 1 + highVma ≤ 2 ^ 64 := by
    simp only [Bump.left, pageSize] at *
    omega
  refine ⟨p.next, p.take 1, if_pos ⟨le_rfl, hroom⟩, ?_⟩
  simp only [Bump.left, Bump.take, pageSize] at *
  omega

lemma smallPage_user : SmallPage (ptePresent ||| pteUser) where
  flagsOnly := by
    unfold FlagsOnly
    decide
  present := by decide
  small := by decide

/-- An address space with one page at `0x400000`, whose first byte is 7. -/
structure OnePage (pm : Pagemap) (m1 : Machine Bump) (s : Space Bump) (f : ℕ) : Prop where
  four : pm.hasLevel5 = false
  new : vmmNewPagemap (bumpSource (2 ^ 63)).alloc false 1 bareMachine = some (some pm, m1)
  run : Run (SpaceStep (bumpSource (2 ^ 63)) pm) ⟨m1, []⟩
    [.alloc 1, .store (f * pageSize) 7, .map 0x400000 f (ptePresent ||| pteUser)] s
  zero : Taken (bumpSource (2 ^ 63)) s.machine.pmm 0
  kernel : Taken (bumpSource (2 ^ 63)) s.machine.pmm 1
  left : 2 ^ 50 ≤ Bump.left (2 ^ 63) s.machine.pmm
  low : f * pageSize < 2 ^ 63
  page : vmmGetPageMapping s.machine pm 0x400000 =
    BitVec.ofNat 64 (f * pageSize) ||| (ptePresent ||| pteUser)
  byte : s.machine.mem (f * pageSize) = 7

lemma exists_onePage : ∃ pm m1 s f, OnePage pm m1 s f := by
  have hv : 2 ^ 63 ≤ 2 ^ 63 := le_rfl
  have hs := bump_serves (2 ^ 63)
  have hbare := bareMachine_empty (2 ^ 63) false
  have hleft : 2 ^ 50 + 4 + 1 + 1 ≤ Bump.left (2 ^ 63) bareMachine.pmm := by
    norm_num [Bump.left, bareMachine, firstPages, pageSize]
  obtain ⟨r, m1, hnew, hk1⟩ := hs.newPagemap hleft false 1
  rcases vmmNewPagemap_cases hv hbare.top hnew with ⟨-, hno, -⟩ | ⟨t, rfl, -, htop⟩
  · exact absurd hbare.zero hno
  have inv1 : SpaceInv (bumpSource (2 ^ 63)) ⟨t, false⟩ ⟨m1, []⟩ := htop.space hbare.zero
  obtain ⟨a, m2, halloc, hk2⟩ := hs.allocz hk1
  have inv2 := inv1.alloc hv halloc
  have hown : a / pageSize ∈ List.range' (a / pageSize) 1 ++ [] := by simp
  have haddr : a / pageSize * pageSize / pageSize = a / pageSize := Nat.mul_div_cancel _ (by decide)
  have hown' : a / pageSize * pageSize / pageSize ∈ List.range' (a / pageSize) 1 ++ [] := by rwa [haddr]
  have inv3 : SpaceInv (bumpSource (2 ^ 63)) ⟨t, false⟩
      ⟨{ m2 with mem := Function.update m2.mem (a / pageSize * pageSize) 7 }, _⟩ := inv2.store hown'
  have ho := inv3.owned _ hown
  obtain ⟨b, m4, hmap, hk4⟩ := hs.mapPage (k := 2 ^ 50)
    (m := { m2 with mem := Function.update m2.mem (a / pageSize * pageSize) 7 }) hk2 ⟨t, false⟩ 0x400000
    (BitVec.ofNat 64 (a / pageSize * pageSize)) (ptePresent ||| pteUser)
  have hu : User (topIndex false 0x400000) := by
    unfold User
    decide
  obtain ⟨-, tree, h0, hupd, hspare⟩ := vmmMapPage_updates hv inv3.tree inv3.zero hu smallPage_user hmap
  have hk0 : Taken (bumpSource (2 ^ 63)) m2.pmm 1 :=
    (pmmAllocz_cases hv halloc).2.1 1 ((htop.taken 1).mpr (Or.inl hbare.top))
  refine ⟨⟨t, false⟩, m1, ⟨m4, _⟩, a / pageSize, rfl, hnew,
    .cons (.alloc halloc) (.cons (.store hown') (.single (.map hown hu smallPage_user hmap))), h0,
    hspare.taken 1 hk0, hk4, ho.low, ?_, ?_⟩
  · rw [vmmGetPageMapping_eq tree hu, lookup, hupd _ (tablePath_mem hu) (tablePath_length _ _),
      if_pos ⟨rfl, rfl⟩, Option.getD_some]
  · rw [hspare.bytes _ ho.taken ho.notTable _ haddr]
    exact Function.update_self ..

lemma OnePage.mapped {pm : Pagemap} {m1 : Machine Bump} {s : Space Bump} {f : ℕ}
    (h : OnePage pm m1 s f) : vmmGetPageMapping s.machine pm 0x400000 ≠ noMapping := by
  intro hno
  rw [h.page] at hno
  apply smallPage_user.not_large_or f
  rw [hno]
  decide

end PiggyOs.Vmm
