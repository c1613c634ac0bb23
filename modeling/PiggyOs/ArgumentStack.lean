import PiggyOs.ElfImage
import PiggyOs.ExecArguments

/-! What a program finds in its registers and on its stack: the arguments and the environment that it was
started with. -/
namespace PiggyOs.ArgumentStack
open ByteMemory Stores Vmm Walk Fork UserStacks CString ExecArguments
open Sbrk (heapFlags)

/-- The user half of an address space is a tree of tables whose links limit nothing, and frame 0 is not
available to the allocator. -/
structure Space {σ : Type} {highVma : ℕ} (src : PageSource σ highVma) (pm : Pagemap) (m : Machine σ) : Prop where
  tree : TreeInv src User m pm.topLevel (depth pm.hasLevel5)
  opened : OpenTables User pm.topLevel (depth pm.hasLevel5) m
  zero : Taken src m.pmm 0

section Tables
variable {σ : Type} {highVma : ℕ} {src : PageSource σ highVma} {pm : Pagemap} {m m' : Machine σ} {v start paddr : BitVec 64}

lemma le_lowerHalfEnd (five : Bool) : 2 ^ 47 ≤ lowerHalfEnd five := by cases five <;> decide

lemma user_of_lt (five : Bool) (h : v.toNat < 2 ^ 47) : User (topIndex five v) :=
  user_topIndex_of_lt (h.trans_le (le_lowerHalfEnd five))

/-- What writes no frame in use changes nothing of the address space. -/
lemma Space.congr (h : Space src pm m) (ht : ∀ g, Taken src m.pmm g → Taken src m'.pmm g)
    (hb : ∀ b, Taken src m.pmm (b / pageSize) → m'.mem b = m.mem b) :
    Space src pm m' ∧ (∀ v : BitVec 64, v.toNat < 2 ^ 47 → leaf m' pm v = leaf m pm v) ∧
      Spares src User pm.topLevel (depth pm.hasLevel5) m m' := by
  obtain ⟨htree, hsame, hspare, hwalk⟩ := h.tree.congr ht hb
  refine ⟨⟨htree, h.opened.congr hwalk fun π hπ t hw b hbt => hb b ?_, ht 0 h.zero⟩, fun v hv => ?_, hspare⟩
  · rw [hbt]
    exact h.tree.taken π hπ t hw
  · exact hsame _ (tablePath_mem (user_of_lt _ hv)) (tablePath_length _ _) _

/-- What writes no table changes nothing of the address space. -/
lemma Space.write (h : Space src pm m) {mem : Memory} {F : Set ℕ}
    (hnot : ∀ g ∈ F, NotTable User pm.topLevel (depth pm.hasLevel5) m g)
    (hmem : ∀ b, b / pageSize ∉ F → mem b = m.mem b) :
    Space src pm { m with mem := mem } ∧ ∀ v : BitVec 64, v.toNat < 2 ^ 47 → leaf { m with mem := mem } pm v = leaf m pm v := by
  have hbytes : ∀ π ∈ words User (depth pm.hasLevel5), ∀ t, walk m.next pm.topLevel π = some t →
      ∀ b, b / pageSize = t → mem b = m.mem b := by
    intro π hπ t hw b hb
    refine hmem b fun hF => hnot _ hF π hπ ?_
    rw [hw, ← hb]
  have hkeep : ∀ g, Taken src m.pmm g → Taken src ({ m with mem := mem } : Machine σ).pmm g := fun g hg => hg
  obtain ⟨htree, hsame, hwalk⟩ := h.tree.congr_tables hkeep hbytes
  refine ⟨⟨htree, h.opened.congr hwalk hbytes, h.zero⟩, fun v hv => ?_⟩
  exact hsame _ (tablePath_mem (user_of_lt _ hv)) (tablePath_length _ _) _

lemma smallPage_heapFlags : SmallPage heapFlags := ⟨by unfold FlagsOnly; decide, by decide, by decide⟩

lemma Space.map {b : Bool} (hv : 2 ^ 63 ≤ highVma) (h : Space src pm m) (hlow : v.toNat < 2 ^ 47)
    (hmap : vmmMapPage src.alloc m pm v paddr heapFlags = some (b, m')) :
    b = true ∧ Space src pm m' ∧ Spares src User pm.topLevel (depth pm.hasLevel5) m m' ∧
      ∀ w : BitVec 64, w.toNat < 2 ^ 47 →
        leaf m' pm w = if w.toNat / pageSize = v.toNat / pageSize then some (paddr ||| heapFlags) else leaf m pm w := by
  have huser := user_of_lt pm.hasLevel5 hlow
  obtain ⟨hb, htree, hzero, hupdates, hspare⟩ := vmmMapPage_updates hv h.tree h.zero huser smallPage_heapFlags hmap
  have hopen := vmmMapPage_open hv h.opened h.tree h.zero huser smallPage_heapFlags (by decide) hmap
  refine ⟨hb, ⟨htree, hopen, hzero⟩, hspare, fun w hw => ?_⟩
  have hsame : pageIndices pm.hasLevel5 w = pageIndices pm.hasLevel5 v ↔ w.toNat / pageSize = v.toNat / pageSize :=
    ⟨page_of_pageIndices (hw.trans_le (le_lowerHalfEnd _)) (hlow.trans_le (le_lowerHalfEnd _)), pageIndices_congr _⟩
  rw [hupdates.leaf (user_of_lt _ hw)]
  simp only [hsame]

lemma Space.alloc {a n : ℕ} {s : σ} (h : Space src pm m) (ha : src.alloc m.pmm n = some (a, s)) :
    Space src pm { m with pmm := s } ∧ (∀ v : BitVec 64, v.toNat < 2 ^ 47 → leaf { m with pmm := s } pm v = leaf m pm v) ∧
      Spares src User pm.topLevel (depth pm.hasLevel5) m { m with pmm := s } := by
  have hgrow : ∀ g, Taken src m.pmm g → Taken src ({ m with pmm := s } : Machine σ).pmm g := by
    rintro g ⟨x, hx, hg⟩
    exact ⟨x, by rw [src.record ha]; exact List.mem_cons_of_mem _ hx, hg⟩
  exact h.congr hgrow fun b _ => rfl

/-- The loop of `thread_create` maps one page after the other. -/
lemma Space.mapPages {count i : ℕ} {b : Bool} (hv : 2 ^ 63 ≤ highVma) (h : Space src pm m)
    (hstart : start.toNat % 0x1000 = 0) (hend : start.toNat + (i + count) * 0x1000 ≤ 2 ^ 47)
    (hmap : Sbrk.mapPages src.alloc pm start paddr count i m = some (b, m')) :
    b = true ∧ Space src pm m' ∧ Spares src User pm.topLevel (depth pm.hasLevel5) m m' ∧
      ∀ w : BitVec 64, w.toNat < 2 ^ 47 → ∀ j, w.toNat / 0x1000 = start.toNat / 0x1000 + j → leaf m' pm w =
        if i ≤ j ∧ j < i + count then some ((paddr + BitVec.ofNat 64 j * 0x1000) ||| heapFlags) else leaf m pm w := by
  induction count generalizing i m with
  | zero =>
    obtain ⟨rfl, rfl⟩ := Prod.mk.inj (Option.some.inj hmap)
    refine ⟨rfl, h, .refl .., fun w hw j hj => ?_⟩
    rw [if_neg (by omega)]
  | succ count ih =>
    have haddr : (start + BitVec.ofNat 64 i * 0x1000).toNat = start.toNat + i * 0x1000 := Sbrk.toNat_page (by omega)
    rw [Sbrk.mapPages] at hmap
    cases hone : vmmMapPage src.alloc m pm (start + BitVec.ofNat 64 i * 0x1000) (paddr + BitVec.ofNat 64 i * 0x1000)
        heapFlags with
    | none =>
      rw [hone] at hmap
      simp at hmap
    | some r =>
      obtain ⟨b1, m1⟩ := r
      obtain ⟨rfl, h1, hspare1, hleaf1⟩ := h.map hv (by omega) hone
      rw [hone] at hmap
      have hnext : start.toNat + (i + 1 + count) * 0x1000 ≤ 2 ^ 47 := by linarith
      obtain ⟨hb, h', hspare', hleaf'⟩ := ih h1 hnext hmap
      refine ⟨hb, h', hspare1.trans hspare', fun w hw j hj => ?_⟩
      have hpage : pageSize = 0x1000 := rfl
      rw [hleaf' w hw j hj, hleaf1 w hw, haddr, hpage]
      by_cases hij : j = i
      · subst hij
        rw [if_neg (by omega), if_pos (by omega), if_pos (by omega)]
      · rw [if_neg (show ¬w.toNat / 0x1000 = (start.toNat + i * 0x1000) / 0x1000 by omega)]
        exact if_congr (by omega) rfl rfl

end Tables

section Reading
variable {σ : Type} {highVma : ℕ} {src : PageSource σ highVma} {pm : Pagemap} {m : Machine σ} {v : BitVec 64} {f : ℕ}

/-- The program may read the byte at an address, and it is this one. -/
def ReadsByte (m : Machine σ) (pm : Pagemap) (v : BitVec 64) (b : BitVec 8) : Prop :=
  ∃ f access, translate m pm.topLevel (pageIndices pm.hasLevel5 v) = some (f, access) ∧ access.user = true ∧
    m.mem (f * pageSize + v.toNat % pageSize) = b

def ReadsBytes (m : Machine σ) (pm : Pagemap) (v : BitVec 64) (bytes : List (BitVec 8)) : Prop :=
  ∀ k < bytes.length, ReadsByte m pm (v + BitVec.ofNat 64 k) (bytes.getD k 0)

lemma Space.reads (h : Space src pm m) (hv : v.toNat < 2 ^ 47) (hf : f * pageSize < 2 ^ 63)
    (hleaf : leaf m pm v = some (BitVec.ofNat 64 (f * pageSize) ||| heapFlags)) :
    ReadsByte m pm v (m.mem (f * pageSize + v.toNat % pageSize)) := by
  refine ⟨f, accessOf heapFlags, ?_, by decide, rfl⟩
  rw [h.opened.translate (user_of_lt _ hv) hleaf, frameOf_or smallPage_heapFlags.flagsOnly, frameOf_ofNat hf, accessOf_or hf]

end Reading

section Windows
variable {σ : Type} {env : Environment σ} {src : PageSource σ env.highVma} {pm : Pagemap} {p : Owner σ} {m1 m2 : Machine σ}
  {kernelStack userStack fault d : ℕ} {s1 s2 : σ} {mem : Memory}

/-- The frames of the stack. -/
def stackFrames (userStack : ℕ) : Set ℕ := {g | userStack / pageSize ≤ g ∧ g < userStack / pageSize + stackPages}

lemma taken_of_alloc {s s' : σ} {n a g : ℕ} (h : src.alloc s n = some (a, s')) (hg : Taken src s g) : Taken src s' g := by
  obtain ⟨x, hx, hin⟩ := hg
  exact ⟨x, by rw [src.record h]; exact List.mem_cons_of_mem _ hx, hin⟩

lemma stackFrames_fresh (h : src.alloc s1 stackPages = some (userStack, s2)) {g : ℕ} (hg : g ∈ stackFrames userStack) :
    ¬Taken src s1 g ∧ Taken src s2 g := by
  have haligned := src.aligned h
  obtain ⟨hlow, hhigh⟩ := hg
  constructor
  · rintro ⟨x, hx, h1, h2⟩
    have hapart := src.apart h x hx
    simp only [Apart, pageSize, stackPages] at *
    omega
  · refine ⟨(userStack, pageSize * stackPages), by rw [src.record h]; exact List.mem_cons_self, ?_, ?_⟩
    · simp only [pageSize, stackPages] at *
      omega
    · simp only [pageSize, stackPages] at *
      omega

/-- What the program reads on its stack is what is in the pages of the stack, whatever is stored there. -/
lemma prepared_reads (hv : 2 ^ 63 ≤ env.highVma) (hpmm : env.pmmAlloc = src.alloc)
    (hcache : ∀ s b s', env.cacheAllocObject s = some (b, s') → ∀ g, Taken src s g → Taken src s' g)
    (h : Prepared env pm p kernelStack userStack fault s1 s2 m1 m2) (hs : Space src pm p.machine)
    (htop : p.threadStackTop.toNat % 0x1000 = 0) (hlow : stackSize.toNat ≤ p.threadStackTop.toNat)
    (hhigh : p.threadStackTop.toNat ≤ 2 ^ 47) (hmem : ∀ b, b / pageSize ∉ stackFrames userStack → mem b = m2.mem b)
    (hd : 0 < d) (hdepth : d ≤ stackSize.toNat) :
    ReadsByte { m2 with mem := mem } pm (beneath p.threadStackTop d) (mem (userStack + stackSize.toNat - d)) := by
  have hsize : stackSize.toNat = 0x40000 := rfl
  have hpages : stackPages = 64 := rfl
  have hpage : pageSize = 0x1000 := rfl
  obtain ⟨s0, hcached, hkernel⟩ := h.kernel
  obtain ⟨s3, fpuStorage, hfault, hfpu, -, -⟩ := h.rest
  have huser := h.user
  have hwindow := h.window
  rw [hpmm] at hkernel huser hwindow hfault hfpu
  have hpaddr := src.aligned huser
  have hmapped := src.mapped huser
  rw [hpage] at hpaddr hmapped
  rw [hpages] at hmapped
  have hnotAt1 : ∀ g ∈ stackFrames userStack, NotTable User pm.topLevel (depth pm.hasLevel5) p.machine g := by
    intro g hg π hπ hw
    exact (stackFrames_fresh huser hg).1 (taken_of_alloc hkernel (hcache _ _ _ hcached g (hs.tree.taken π hπ g hw)))
  have htaken2 : ∀ g, Taken src p.machine.pmm g → Taken src ({ p.machine with pmm := s2 } : Machine σ).pmm g := fun g hg =>
    taken_of_alloc huser (taken_of_alloc hkernel (hcache _ _ _ hcached g hg))
  obtain ⟨hs2, -, -⟩ := hs.congr htaken2 fun b _ => rfl
  have hstart : (p.threadStackTop - stackSize).toNat = p.threadStackTop.toNat - 0x40000 := by
    rw [BitVec.toNat_sub_of_le hlow, hsize]
  obtain ⟨-, hs3, hspare3, hleaf3⟩ := hs2.mapPages hv (by omega) (by rw [hpages]; omega) hwindow
  obtain ⟨hs4, hleaf4, hspare4⟩ := hs3.alloc hfault
  obtain ⟨-, hmono, -, hbytes⟩ := pmmAllocz_cases hv hfpu
  obtain ⟨hs5, hleaf5, hspare5⟩ := hs4.congr hmono hbytes
  have hspare := hspare3.trans (hspare4.trans hspare5)
  have hnot : ∀ g ∈ stackFrames userStack, NotTable User pm.topLevel (depth pm.hasLevel5) m2 g := fun g hg =>
    hspare.tables g (stackFrames_fresh huser hg).2 (hnotAt1 g hg)
  obtain ⟨hs6, hleaf6⟩ := hs5.write hnot hmem
  have haddr : (beneath p.threadStackTop d).toNat = p.threadStackTop.toNat - d := by
    rw [beneath, BitVec.toNat_sub, BitVec.toNat_ofNat]
    omega
  obtain ⟨j, hj⟩ : ∃ j, (beneath p.threadStackTop d).toNat / 0x1000 = (p.threadStackTop - stackSize).toNat / 0x1000 + j :=
    Nat.exists_eq_add_of_le (by omega)
  have hlt : (beneath p.threadStackTop d).toNat < 2 ^ 47 := by omega
  have hframe : (userStack / pageSize + j) * pageSize = userStack + j * 0x1000 := by
    rw [hpage]
    omega
  have hentry : BitVec.ofNat 64 userStack + BitVec.ofNat 64 j * 0x1000 =
      BitVec.ofNat 64 ((userStack / pageSize + j) * pageSize) := by
    rw [hframe, BitVec.ofNat_add, BitVec.ofNat_mul]
    rfl
  have hleaf : leaf { m2 with mem := mem } pm (beneath p.threadStackTop d) =
      some (BitVec.ofNat 64 ((userStack / pageSize + j) * pageSize) ||| heapFlags) := by
    rw [hleaf6 _ hlt, hleaf5 _ hlt, hleaf4 _ hlt, hleaf3 _ hlt j hj, if_pos (by omega), hentry]
  have hread := hs6.reads hlt (by omega) hleaf
  have hbyte : (userStack / pageSize + j) * pageSize + (beneath p.threadStackTop d).toNat % pageSize =
      userStack + stackSize.toNat - d := by
    rw [hframe, hpage]
    omega
  rwa [hbyte] at hread

end Windows

section Blocks
variable {σ : Type} {m : Machine σ} {pm : Pagemap} {v top : BitVec 64} {d e j : ℕ} {s : CString} {ss : List CString}
  {bytes bytes' : List (BitVec 8)} {ptrs : List (BitVec 64)}

/-- The copies of strings, each with its terminator. -/
def stringBlocks (ptrs : List (BitVec 64)) (ss : List CString) : List Store :=
  List.zipWith (fun ptr s => ⟨ptr.toNat, s.1 ++ [0]⟩) ptrs ss

/-- An array of pointers that ends with a null pointer. -/
def pointerBlock (array : BitVec 64) (ptrs : List (BitVec 64)) : Store := ⟨array.toNat, (ptrs ++ [0]).flatMap word⟩

/-- Where the strings below depth `d` are. -/
def pointersFrom (top : BitVec 64) : ℕ → List CString → List (BitVec 64)
  | _, [] => []
  | d, s :: ss => beneath top (d + (s.strlen + 1)) :: pointersFrom top (d + (s.strlen + 1)) ss

@[simp] lemma length_pointersFrom (top : BitVec 64) (d : ℕ) (ss : List CString) : (pointersFrom top d ss).length = ss.length := by
  induction ss generalizing d with
  | nil => rfl
  | cons s ss ih => simp [pointersFrom, ih]

lemma getD_pointersFrom (top : BitVec 64) (d : ℕ) (hj : j < ss.length) :
    (pointersFrom top d ss).getD j 0 = beneath top (d + stringsSize (ss.take (j + 1))) := by
  induction ss generalizing d j with
  | nil => simp at hj
  | cons s ss ih =>
    cases j with
    | zero => simp [pointersFrom]
    | succ j =>
      rw [pointersFrom, List.getD_cons_succ, ih _ (Nat.lt_of_succ_lt_succ hj), List.take_succ_cons, stringsSize_cons,
        Nat.add_assoc]

lemma toNat_beneath_top (hd : d ≤ top.toNat) : (beneath top d).toNat = top.toNat - d := by
  rw [beneath, BitVec.toNat_sub, BitVec.toNat_ofNat]
  omega

lemma stringBlocks_packed (h : d + stringsSize ss ≤ top.toNat) :
    Packed (top.toNat - (d + stringsSize ss)) (top.toNat - d) (stringBlocks (pointersFrom top d ss) ss) := by
  induction ss generalizing d with
  | nil => exact packed_nil _ _
  | cons s ss ih =>
    rw [stringsSize_cons] at h ⊢
    have hfirst : Packed (top.toNat - (d + (s.strlen + 1))) (top.toNat - d)
        [⟨(beneath top (d + (s.strlen + 1))).toNat, s.1 ++ [0]⟩] := by
      rw [toNat_beneath_top (by omega)]
      have hlen : s.1.length = s.strlen := rfl
      refine packed_singleton ⟨le_rfl, ?_⟩
      rw [Store.stop, List.length_append, List.length_singleton]
      dsimp only
      omega
    have hrest := ih (d := d + (s.strlen + 1)) (by omega)
    rw [Nat.add_assoc] at hrest
    exact hfirst.append_below hrest (by omega) (by omega)

lemma length_flatMap_word (ptrs : List (BitVec 64)) : (ptrs.flatMap word).length = 8 * ptrs.length := by
  induction ptrs with
  | nil => rfl
  | cons ptr ptrs ih =>
    rw [List.flatMap_cons, List.length_append, ih, length_word, List.length_cons]
    omega

lemma pointerBlock_packed (h : d + 8 * (ptrs.length + 1) ≤ top.toNat) :
    Packed (top.toNat - (d + 8 * (ptrs.length + 1))) (top.toNat - d)
      [pointerBlock (beneath top (d + 8 * (ptrs.length + 1))) ptrs] := by
  refine packed_singleton ⟨?_, ?_⟩
  · rw [pointerBlock, toNat_beneath_top h]
  · rw [pointerBlock, Store.stop, length_flatMap_word, List.length_append, List.length_singleton, toNat_beneath_top h]
    dsimp only
    omega

lemma ReadsBytes.append (h : ReadsBytes m pm v bytes) (h' : ReadsBytes m pm (v + BitVec.ofNat 64 bytes.length) bytes') :
    ReadsBytes m pm v (bytes ++ bytes') := by
  intro k hk
  rw [List.length_append] at hk
  by_cases hlt : k < bytes.length
  · rw [List.getD_append _ _ _ _ hlt]
    exact h k hlt
  · obtain ⟨c, rfl⟩ := Nat.exists_eq_add_of_le (not_lt.mp hlt)
    rw [List.getD_append_right _ _ _ _ (by omega), Nat.add_sub_cancel_left, BitVec.ofNat_add, ← BitVec.add_assoc]
    exact h' c (by omega)

lemma readsBytes_nil : ReadsBytes m pm v [] := fun k hk => absurd hk (Nat.not_lt_zero k)

/-- Words one above the other. -/
lemma readsBytes_words (h : ∀ i < ptrs.length, ReadsBytes m pm (v + BitVec.ofNat 64 (8 * i)) (word (ptrs.getD i 0))) :
    ReadsBytes m pm v (ptrs.flatMap word) := by
  induction ptrs generalizing v with
  | nil => exact readsBytes_nil
  | cons ptr ptrs ih =>
    rw [List.flatMap_cons]
    have hfirst := h 0 (Nat.succ_pos _)
    rw [Nat.mul_zero, BitVec.add_zero] at hfirst
    refine ReadsBytes.append hfirst (ih fun i hi => ?_)
    have hnext := h (i + 1) (Nat.succ_lt_succ hi)
    rwa [Nat.mul_add_one, Nat.add_comm (8 * i), BitVec.ofNat_add, ← BitVec.add_assoc, List.getD_cons_succ] at hnext

end Blocks

section Layouts
variable {σ : Type} {m : Machine σ} {pm : Pagemap} {top : BitVec 64} {highVma paddr d e : ℕ} {argv envp ss : List CString}
  {f : Memory} {st : Store}

/-- What a program reads below the end of its stack is what the stores of the layout have left there. -/
def ReadsLayout (m : Machine σ) (pm : Pagemap) (top : BitVec 64) (highVma paddr : ℕ) (f : Memory) (sts : List Store) : Prop :=
  ∀ d, 0 < d → d ≤ stackSize.toNat →
    ReadsByte m pm (beneath top d) (stored f sts (paddr + stackSize.toNat - d + highVma))

variable {sts : List Store}

lemma ReadsLayout.store (h : ReadsLayout m pm top highVma paddr f sts)
    (hpacked : Packed (paddr + highVma) (kernelEnd highVma paddr) sts) (hst : st ∈ sts)
    (haddr : st.addr = kernelEnd highVma paddr - d) (hd : d ≤ stackSize.toNat) :
    ReadsBytes m pm (beneath top d) st.bytes := by
  intro k hk
  obtain ⟨hlow, hhigh⟩ := hpacked.within st hst
  rw [Store.stop] at hhigh
  rw [kernelEnd] at haddr hhigh
  have hread := h (d - k) (by omega) (by omega)
  have hbyte : paddr + stackSize.toNat - (d - k) + highVma = st.addr + k := by omega
  rw [hbyte, stored_inside hpacked.apart hst hk] at hread
  rwa [beneath_add top (by omega)]

lemma ofNat_toNat_beneath (top : BitVec 64) (d : ℕ) : BitVec.ofNat 64 (beneath top d).toNat = beneath top d := by
  rw [BitVec.ofNat_toNat, BitVec.setWidth_eq]

/-- The copies of the strings are read where the second pass counts them. -/
lemma ReadsLayout.strings (h : ReadsLayout m pm top highVma paddr f sts)
    (hpacked : Packed (paddr + highVma) (kernelEnd highVma paddr) sts) (hk : kernelEnd highVma paddr ≤ 2 ^ 64)
    (hss : ∀ st ∈ (pushStrings (beneath (BitVec.ofNat 64 (kernelEnd highVma paddr)) d) ss).2, st ∈ sts)
    (hd : d + stringsSize ss ≤ stackSize.toNat) :
    ∀ st ∈ stringBlocks (pointersFrom top d ss) ss, ReadsBytes m pm (BitVec.ofNat 64 st.addr) st.bytes := by
  have hend : stackSize.toNat ≤ kernelEnd highVma paddr := by
    rw [kernelEnd]
    omega
  induction ss generalizing d with
  | nil => simp [stringBlocks]
  | cons s ss ih =>
    rw [stringsSize_cons] at hd
    rw [pushStrings_cons, toNat_beneath hk (by omega) (by omega), toNat_beneath hk (by omega) (by omega)] at hss
    obtain ⟨hcopy, hss⟩ := List.forall_mem_cons.mp hss
    obtain ⟨hnull, hss⟩ := List.forall_mem_cons.mp hss
    refine List.forall_mem_cons.mpr ⟨?_, ih hss (by omega)⟩
    have hlen : s.1.length = s.strlen := rfl
    have hbytes := h.store hpacked hcopy rfl (by omega)
    have hzero := h.store hpacked hnull rfl (by omega)
    rw [ofNat_toNat_beneath]
    refine hbytes.append ?_
    dsimp only
    rw [hlen, beneath_add top (by omega), show d + (s.strlen + 1) - s.strlen = d + 1 by omega]
    exact hzero

/-- So are the pointers, and the null pointer behind them. -/
lemma ReadsLayout.pointers (h : ReadsLayout m pm top highVma paddr f sts)
    (hpacked : Packed (paddr + highVma) (kernelEnd highVma paddr) sts) (hk : kernelEnd highVma paddr ≤ 2 ^ 64)
    (hss : ∀ st ∈ (⟨(beneath (BitVec.ofNat 64 (kernelEnd highVma paddr)) (e + 8)).toNat, word 0⟩ ::
      (storePointers (beneath (BitVec.ofNat 64 (kernelEnd highVma paddr)) (e + 8 * (ss.length + 1))) 0
        (beneath top d) ss).2 : List Store), st ∈ sts)
    (he : e + 8 * (ss.length + 1) ≤ stackSize.toNat) :
    ∀ st ∈ [pointerBlock (beneath top (e + 8 * (ss.length + 1))) (pointersFrom top d ss)],
      ReadsBytes m pm (BitVec.ofNat 64 st.addr) st.bytes := by
  have hend : stackSize.toNat ≤ kernelEnd highVma paddr := by
    rw [kernelEnd]
    omega
  obtain ⟨hnull, hptrs⟩ := List.forall_mem_cons.mp hss
  rw [toNat_beneath hk (by omega) (by omega)] at hnull
  intro st hst
  rw [List.mem_singleton.mp hst, pointerBlock, ofNat_toNat_beneath]
  refine readsBytes_words fun i hi => ?_
  rw [List.length_append, length_pointersFrom, List.length_singleton] at hi
  rw [beneath_add top (by omega)]
  by_cases hlast : i = ss.length
  · subst hlast
    rw [List.getD_append_right _ _ _ _ (by rw [length_pointersFrom]), length_pointersFrom, Nat.sub_self, List.getD_cons_zero,
      show e + 8 * (ss.length + 1) - 8 * ss.length = e + 8 by omega]
    exact h.store hpacked hnull rfl (by omega)
  · have hlt : i < ss.length := by omega
    have hmem := hptrs _ (mem_storePointers (i := 0) hk (by omega) (by omega) d hlt)
    rw [List.getD_append _ _ _ _ (by rwa [length_pointersFrom]), getD_pointersFrom top d hlt]
    refine h.store hpacked hmem ?_ (by omega)
    dsimp only
    omega

end Layouts

section Passing
variable {σ : Type} {env : Environment σ} {src : PageSource σ env.highVma} {pm : Pagemap} {p p' : Owner σ} {pid : ℕ}
  {entry arg : BitVec 64} {t : Thread} {argv envp : List CString}

/-- The strings and the two arrays that a program finds. -/
def blocks (rsi rdx : BitVec 64) (argPtrs envPtrs : List (BitVec 64)) (argv envp : List CString) : List Store :=
  stringBlocks envPtrs envp ++ (stringBlocks argPtrs argv ++ ([pointerBlock rdx envPtrs] ++ [pointerBlock rsi argPtrs]))

/-- The program reads its arguments and its environment behind its registers; nothing of that is below its
stack pointer, and no two parts of it overlap. -/
def Passed (m : Machine σ) (pm : Pagemap) (t : Thread) (top : BitVec 64) (argv envp : List CString) : Prop :=
  t.ctx.rdi.toNat = argv.length ∧ t.ctx.rsp = t.ctx.rsi ∧ top.toNat ≤ t.ctx.rsp.toNat + stackSize.toNat ∧
    ∃ argPtrs envPtrs : List (BitVec 64), argPtrs.length = argv.length ∧ envPtrs.length = envp.length ∧
      Packed t.ctx.rsp.toNat top.toNat (blocks t.ctx.rsi t.ctx.rdx argPtrs envPtrs argv envp) ∧
      ∀ st ∈ blocks t.ctx.rsi t.ctx.rdx argPtrs envPtrs argv envp, ReadsBytes m pm (BitVec.ofNat 64 st.addr) st.bytes

lemma blocks_packed {top : BitVec 64} (h : layoutSize argv envp ≤ top.toNat) :
    Packed (beneath top (layoutSize argv envp)).toNat top.toNat (blocks (beneath top (layoutSize argv envp))
      (beneath top (envSize argv envp)) (pointersFrom top (stringsSize envp) argv) (pointersFrom top 0 envp) argv envp) := by
  have henv : envSize argv envp = paddedSize argv envp + 8 * (envp.length + 1) := rfl
  have harg : layoutSize argv envp = envSize argv envp + 8 * (argv.length + 1) := rfl
  have hstrings := stringsSize_le_paddedSize argv envp
  have henvStrings : Packed (top.toNat - (0 + stringsSize envp)) (top.toNat - 0)
      (stringBlocks (pointersFrom top 0 envp) envp) := stringBlocks_packed (by omega)
  have hargStrings : Packed (top.toNat - (stringsSize envp + stringsSize argv)) (top.toNat - stringsSize envp)
      (stringBlocks (pointersFrom top (stringsSize envp) argv) argv) := stringBlocks_packed (by omega)
  have hpointers : ∀ (d e : ℕ) (ss : List CString), e + 8 * (ss.length + 1) ≤ top.toNat →
      Packed (top.toNat - (e + 8 * (ss.length + 1))) (top.toNat - e)
        [pointerBlock (beneath top (e + 8 * (ss.length + 1))) (pointersFrom top d ss)] := by
    intro d e ss he
    rw [← length_pointersFrom top d ss] at he ⊢
    exact pointerBlock_packed he
  have henvPointers := hpointers 0 (paddedSize argv envp) envp (by omega)
  have hargPointers := hpointers (stringsSize envp) (envSize argv envp) argv (by omega)
  rw [Nat.zero_add] at henvStrings
  rw [toNat_beneath_top h]
  have harrays := henvPointers.append_below hargPointers (by omega) (by omega)
  have hlower := hargStrings.append_below (harrays.mono le_rfl (by omega)) (by omega) (by omega)
  have hall := henvStrings.append_below hlower (by omega) (by omega)
  exact hall

lemma blocks_read {m : Machine σ} {top : BitVec 64} {highVma paddr : ℕ} {f : Memory} (hstack : StackAt highVma paddr)
    (hfits : layoutSize argv envp ≤ stackSize.toNat)
    (h : ReadsLayout m pm top highVma paddr f (layout highVma argv envp paddr top).stores) :
    ∀ st ∈ blocks (beneath top (layoutSize argv envp)) (beneath top (envSize argv envp))
      (pointersFrom top (stringsSize envp) argv) (pointersFrom top 0 envp) argv envp,
        ReadsBytes m pm (BitVec.ofNat 64 st.addr) st.bytes := by
  have henv : envSize argv envp = paddedSize argv envp + 8 * (envp.length + 1) := rfl
  have harg : layoutSize argv envp = envSize argv envp + 8 * (argv.length + 1) := rfl
  have hstrings := stringsSize_le_paddedSize argv envp
  have hk := hstack.mapped
  have hend : kernelEnd highVma paddr = paddr + stackSize.toNat + highVma := rfl
  have hpacked : Packed (paddr + highVma) (kernelEnd highVma paddr) (layout highVma argv envp paddr top).stores :=
    (layout_packed hstack top (by omega)).mono (by omega) le_rfl
  have hround : (stringsSize envp + stringsSize argv + 15) / 16 * 16 ≤ kernelEnd highVma paddr := by
    rw [paddedSize] at henv
    omega
  have hsts := congrArg Layout.stores (layout_eq hstack top hround)
  generalize (layout highVma argv envp paddr top).stores = sts at h hpacked hsts
  dsimp only at hsts
  have hstores : ∀ st ∈ sts, st ∈ sts := fun _ hst => hst
  nth_rewrite 1 [hsts] at hstores
  obtain ⟨henvStrings, hstores⟩ := List.forall_mem_append.mp hstores
  obtain ⟨hargStrings, hstores⟩ := List.forall_mem_append.mp hstores
  rw [← List.cons_append] at hstores
  obtain ⟨henvPointers, hargPointers⟩ := List.forall_mem_append.mp hstores
  refine List.forall_mem_append.mpr ⟨h.strings hpacked hk henvStrings (by omega), ?_⟩
  refine List.forall_mem_append.mpr ⟨h.strings hpacked hk hargStrings (by omega), ?_⟩
  exact List.forall_mem_append.mpr ⟨h.pointers hpacked hk henvPointers (by omega),
    h.pointers hpacked hk hargPointers (by omega)⟩

lemma count_lt (h : layoutSize argv envp ≤ stackSize.toNat) : argv.length < 2 ^ 64 := by
  have hsize : stackSize.toNat = 0x40000 := rfl
  rw [layoutSize] at h
  omega

end Passing

lemma bareMachine_space : Space (bumpSource Pmm.directMap) ⟨1, false⟩ bareMachine where
  tree := executed_tree.1
  zero := executed_tree.2
  opened := by
    intro π i _ t hw hp
    obtain ⟨-, rfl⟩ := (bareMachine_empty Pmm.directMap false).walk_eq hw
    rw [(bareMachine_empty Pmm.directMap false).entries i] at hp
    exact absurd hp (by decide)

def letterA : CString := ⟨[0x61], zero_notMem_a⟩

def letterEnvironment : Environment Bump := withArguments bumpEnvironment (oneArgument letterA)

end PiggyOs.ArgumentStack
