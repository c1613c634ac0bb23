import PiggyOs.PartitionScan

/-! Which partitions are found, and which bytes of the table of a GPT disk are read. -/
namespace PiggyOs.PartitionScan
open ByteMemory

section Enumeration
variable (dev : BlockDevice)

/-- The table of a GPT disk as it stands on the disk. -/
def gptTable (h : GptHeader) : Memory := fun k => dev.disk ((h.partitionLba * dev.blksize).toNat + k)

/-- The entries of the table that are to be mounted, with all their sectors. -/
def gptPartitions (h : GptHeader) : List PartitionNode :=
  tabulated h.entrySize.toNat (fun i p =>
    let e := gptEntry (gptTable dev h) p
    if e.Mounted then some (partitionNode dev i e.startLba (e.endLba - e.startLba + 1)) else none)
    h.entryCount.toNat 0 0

/-- The used entries of the first sector. -/
def mbrPartitions : List PartitionNode := tabulated mbrEntrySize (mbrRound dev dev.disk) 4 0 446

/-- The nodes that are created for a GPT disk are those of its partitions. -/
def GptExact (kmalloc : BitVec 64 → Option ℕ) (h : GptHeader) : Prop :=
  ∀ stale, (enumGpt kmalloc dev stale h).map GptRun.nodes = some (gptPartitions dev h)

def MbrExact (kmalloc : BitVec 64 → Option ℕ) : Prop := ∀ stale, enumMbr kmalloc dev stale = mbrPartitions dev

variable {dev} {kmalloc : BitVec 64 → Option ℕ} {stale : Memory} {offset count : BitVec 64}

lemma gptEntry_congr {m m' : Memory} {p q : ℕ} (h : ∀ k < 56, m' (q + k) = m (p + k)) :
    gptEntry m' q = gptEntry m p := by
  have hfield : ∀ d, d + 8 ≤ 56 → read64 m' (q + d) = read64 m (p + d) := by
    intro d hd
    apply read64_congr
    intro k hk
    rw [Nat.add_assoc, Nat.add_assoc]
    exact h (d + k) (by omega)
  simp only [gptEntry, hfield 16 (by decide), hfield 24 (by decide), hfield 32 (by decide), hfield 40 (by decide),
    hfield 48 (by decide)]

lemma filled_inside {block : Option ℕ} (hblock : block ≠ none) {k : ℕ} (hk : k < count.toNat) :
    filled block dev stale offset count k = dev.disk (offset.toNat + k) :=
  if_pos ⟨Option.isSome_iff_ne_none.mpr hblock, hk⟩

lemma filled_zero (block : Option ℕ) : filled block dev stale offset 0 = stale := by
  funext k
  exact if_neg fun h => absurd h.2 (Nat.not_lt_zero k)

/-- An entry of which nothing but the first byte of the GUID is set. -/
def usedStale : Memory := fun k => if k = 16 then 1 else 0

lemma usedStale_mounted : (gptEntry usedStale 0).Mounted := by decide

lemma zero_unmounted : ¬ (gptEntry (fun _ => 0) 0).Mounted := by decide

/-- A table whose first entry is not to be mounted yields nothing, any other one a node of that entry. -/
lemma gpt_created (m : Memory) (n : ℕ) : created gptEntrySize (gptRound dev m) (n + 1) 0 0 =
    if (gptEntry m 0).Mounted then
      partitionNode dev 0 (gptEntry m 0).startLba ((gptEntry m 0).endLba - (gptEntry m 0).startLba) ::
        created gptEntrySize (gptRound dev m) n 1 gptEntrySize
    else [] := by
  split_ifs with hmounted
  · rw [created_succ, if_pos ((gptRound_isSome dev m 0 0).mpr hmounted), gptRound_eq, if_pos hmounted]
    rfl
  · exact created_of_unused (fun i p => gptRound_isSome dev m i p) hmounted (n + 1) 0

lemma sectors_ne (startLba endLba : BitVec 64) : endLba - startLba ≠ endLba - startLba + 1 := by
  intro h
  have hone := congrArg (· - (endLba - startLba)) h
  simp only [BitVec.sub_self, BitVec.add_comm _ (1 : BitVec 64), BitVec.add_sub_cancel] at hone
  exact absurd hone (by decide)

/-- What `enum_gpt` creates where memory and device do what they are asked for. -/
lemma nodes_enumGpt (hdev : ∀ o n, dev.result o n = n) (hpos : dev.blksize ≠ 0) (h : GptHeader) :
    (enumGpt kmalloc dev stale h).map GptRun.nodes = some (created gptEntrySize (gptRound dev
      (filled (kmalloc (alignedSize h dev.blksize)) dev stale (h.partitionLba * dev.blksize)
        (alignedSize h dev.blksize)))
      h.entryCount.toNat 0 0) := by
  rw [enumGpt, if_neg hpos]
  dsimp only
  rw [if_neg (not_not.mpr (hdev _ _))]
  rfl

/-- The partitions of a GPT disk are found exactly if there are none, and there is a block for the table. -/
lemma gpt_exact_iff (hmalloc : ∀ n, kmalloc n = none ↔ n = 0) (hdev : ∀ o n, dev.result o n = n)
    (hblk : 512 ≤ dev.blksize.toNat ∧ dev.blksize.toNat < 2 ^ 32) (h : GptHeader) :
    GptExact dev kmalloc h ↔ (h.entryCount = 0 ∨ h.entryCount * h.entrySize ≠ 0) ∧
      ∀ i < h.entryCount.toNat, ¬ (gptEntry (gptTable dev h) (h.entrySize.toNat * i)).Mounted := by
  have hpos : 0 < dev.blksize.toNat := by omega
  have hne : dev.blksize ≠ 0 := fun heq => absurd hpos (by rw [heq]; decide)
  have hnone : gptPartitions dev h = [] ↔
      ∀ i < h.entryCount.toNat, ¬ (gptEntry (gptTable dev h) (h.entrySize.toNat * i)).Mounted := by
    rw [gptPartitions, tabulated_eq_nil_iff]
    simp only [Nat.zero_add, ite_eq_right_iff, reduceCtorEq, imp_false]
  simp only [GptExact, nodes_enumGpt hdev hne, Option.some.injEq, ← hnone]
  obtain hcount | hn := Nat.eq_zero_or_eq_succ_pred h.entryCount.toNat
  · have hzero : h.entryCount = 0 := BitVec.eq_of_toNat_eq hcount
    rw [hcount]
    refine iff_of_true (fun stale => ?_) ⟨Or.inl hzero, ?_⟩
    · rw [gptPartitions, hcount]
      rfl
    · rw [gptPartitions, hcount]
      rfl
  have hcount : h.entryCount ≠ 0 := fun heq => by
    rw [heq] at hn
    exact absurd hn (by simp)
  rw [hn]
  simp only [Nat.succ_eq_add_one, gpt_created, or_iff_right hcount]
  have hsize := toNat_alignedSize h hpos hblk.2
  by_cases hp : h.entryCount * h.entrySize = 0
  · have hzero : alignedSize h dev.blksize = 0 := BitVec.eq_of_toNat_eq (by
      rw [hsize, hp]
      exact roundUp_zero hpos)
    simp only [hzero, filled_zero]
    refine iff_of_false (fun hall => ?_) fun hboth => hboth.1 hp
    have hused := hall usedStale
    have hunused := hall fun _ => 0
    rw [if_pos usedStale_mounted] at hused
    rw [if_neg zero_unmounted] at hunused
    exact absurd (hused.trans hunused.symm) (List.cons_ne_nil _ _)
  · have hle : 512 ≤ (alignedSize h dev.blksize).toNat := by
      rw [hsize]
      exact hblk.1.trans (le_roundUp_of_pos (Nat.pos_of_ne_zero fun h0 => hp (BitVec.eq_of_toNat_eq h0)))
    have hblock : kmalloc (alignedSize h dev.blksize) ≠ none := fun hnull => by
      rw [(hmalloc _).mp hnull] at hle
      exact absurd hle (by decide)
    have hfirst : ∀ stale, gptEntry (filled (kmalloc (alignedSize h dev.blksize)) dev stale
        (h.partitionLba * dev.blksize) (alignedSize h dev.blksize)) 0 = gptEntry (gptTable dev h) 0 := by
      intro stale
      apply gptEntry_congr
      intro k hk
      exact filled_inside hblock (by omega)
    rw [and_iff_right hp]
    simp only [hfirst]
    constructor
    · intro hall
      have hnodes := hall fun _ => 0
      rw [gptPartitions, hn, Nat.succ_eq_add_one, tabulated_succ] at hnodes
      split_ifs at hnodes with hmounted
      · simp only [hmounted, if_true, Option.toList_some, List.cons_append, List.nil_append, List.cons.injEq] at hnodes
        exact absurd (congrArg PartitionNode.sectorCount hnodes.1) (sectors_ne _ _)
      · rw [gptPartitions, hn, Nat.succ_eq_add_one, tabulated_succ, ← hnodes]
    · intro hnil stale
      have hmounted := hnone.mp hnil 0 (by omega)
      rw [Nat.mul_zero] at hmounted
      rw [hnil, if_neg hmounted]

lemma mbrEntry_congr {m m' : Memory} {p : ℕ} (h : ∀ k, p + 4 ≤ k → k < p + 16 → m' k = m k) :
    mbrEntry m' p = mbrEntry m p := by
  have hread : ∀ a, p + 4 ≤ a → a + 4 ≤ p + 16 → read32 m' a = read32 m a := by
    intro a hlo hhi
    rw [read32, read32, readNat_congr fun k hk => h (a + k) (by omega) (by omega)]
  rw [mbrEntry, mbrEntry, h (p + 4) le_rfl (by omega), hread (p + 8) (by omega) (by omega),
    hread (p + 12) (by omega) le_rfl]

lemma mbrRound_isSome (m : Memory) (i p : ℕ) : (mbrRound dev m i p).isSome ↔ (mbrEntry m p).type ≠ 0 := by
  rw [mbrRound]
  split_ifs with h
  · exact iff_of_false Bool.false_ne_true (not_not.mpr h)
  · exact iff_of_true rfl h

lemma created_congr {α : Type} {stride : ℕ} (hstride : 0 < stride) {create create' : ℕ → ℕ → Option α} {n i p : ℕ}
    (h : ∀ i q, p ≤ q → q + stride ≤ p + stride * n → create' i q = create i q) :
    created stride create' n i p = created stride create n i p := by
  induction n generalizing i p with
  | zero => rfl
  | succ n ih =>
    rw [Nat.mul_succ] at h
    have hmono := Nat.le_mul_of_pos_right n hstride
    rw [created_succ, created_succ, h i p le_rfl (by omega)]
    split_ifs
    · rw [ih fun i q hlo hhi => h i q (by omega) (by omega)]
    · rw [ih fun i q hlo hhi => h i q hlo (by omega)]

/-- The partitions of an MBR disk are found exactly if none stands behind an unused entry, and the hint is one that the
code accepts. -/
lemma mbr_exact_iff (hmalloc : ∀ n, kmalloc n = none ↔ n = 0) (hdev : ∀ o n, dev.result o n = n)
    (hblk : 512 ≤ dev.blksize.toNat) : MbrExact dev kmalloc ↔
      ∀ k < 4, (mbrEntry dev.disk (446 + 16 * k)).type ≠ 0 → mbrHint dev.disk = true ∧
        ∀ j < k, (mbrEntry dev.disk (446 + 16 * j)).type ≠ 0 := by
  have hblock : kmalloc dev.blksize ≠ none := fun hnull => by
    rw [(hmalloc _).mp hnull] at hblk
    exact absurd hblk (by decide)
  have hfilled : ∀ stale, ∀ k < 512, filled (kmalloc dev.blksize) dev stale 0 dev.blksize k = dev.disk k := by
    intro stale k hk
    rw [filled_inside hblock (by omega)]
    exact congrArg dev.disk (Nat.zero_add k)
  have hrun : ∀ stale, enumMbr kmalloc dev stale =
      if mbrHint dev.disk = true then created mbrEntrySize (mbrRound dev dev.disk) 4 0 446 else [] := by
    intro stale
    have hhint : mbrHint (filled (kmalloc dev.blksize) dev stale 0 dev.blksize) = mbrHint dev.disk := by
      rw [mbrHint, mbrHint, read16, read16, readNat_congr fun k hk => hfilled stale (444 + k) (by omega)]
    have hcreated :
        created mbrEntrySize (mbrRound dev (filled (kmalloc dev.blksize) dev stale 0 dev.blksize)) 4 0 446 =
          created mbrEntrySize (mbrRound dev dev.disk) 4 0 446 := by
      refine created_congr (by decide) fun i q _ hq => ?_
      have hend : q + 16 ≤ 510 := hq
      rw [mbrRound, mbrRound, mbrEntry_congr fun k _ hk => hfilled stale k (by omega)]
    rw [enumMbr, if_neg (not_not.mpr (hdev _ _)), hhint, hcreated]
    by_cases hok : mbrHint dev.disk = true <;> simp [hok]
  simp only [MbrExact, hrun, forall_const]
  have hused : ∀ i p, (mbrRound dev dev.disk i p).isSome ↔ (mbrEntry dev.disk p).type ≠ 0 := mbrRound_isSome dev.disk
  by_cases hok : mbrHint dev.disk = true
  · rw [if_pos hok, mbrPartitions, created_eq_tabulated_iff hused]
    simp only [hok, true_and]
    rfl
  · rw [if_neg hok, mbrPartitions, eq_comm, tabulated_eq_nil_iff]
    refine forall₂_congr fun k hk => ?_
    rw [← Option.not_isSome_iff_eq_none, hused]
    simp only [hok, false_and, imp_false, Bool.false_eq_true]
    rfl

/-- GPT: the partitions are found exactly if there are none, and the byte count of a table with entries is not 0 modulo
2 ^ 32. MBR: exactly if no used entry stands behind an unused one, and with a hint the code does not accept if there are
none. -/
theorem partitions_exact_iff (hmalloc : ∀ n, kmalloc n = none ↔ n = 0) (hdev : ∀ o n, dev.result o n = n)
    (hblk : 512 ≤ dev.blksize.toNat ∧ dev.blksize.toNat < 2 ^ 32) :
    (∀ h, GptExact dev kmalloc h ↔ (h.entryCount = 0 ∨ h.entryCount * h.entrySize ≠ 0) ∧
      ∀ i < h.entryCount.toNat, ¬ (gptEntry (gptTable dev h) (h.entrySize.toNat * i)).Mounted) ∧
    (MbrExact dev kmalloc ↔ ∀ k < 4, (mbrEntry dev.disk (446 + 16 * k)).type ≠ 0 → mbrHint dev.disk = true ∧
      ∀ j < k, (mbrEntry dev.disk (446 + 16 * j)).type ≠ 0) :=
  ⟨gpt_exact_iff hmalloc hdev hblk, mbr_exact_iff hmalloc hdev hblk.1⟩

end Enumeration

/-- A disk with these bytes that are not zero. -/
def diskOf (bytes : List (ℕ × BitVec 8)) : BlockDevice where
  name := ['a', 't', 'a', '0']
  blksize := 512
  disk := fun a => (bytes.lookup a).getD 0
  result := fun _ n => n

def nonzero (n : BitVec 64) : Option ℕ := if n = 0 then none else some 0x100000

/-- The second entry of the first sector is used, the first one is not. -/
def gapDisk : BlockDevice := diskOf [(466, 0x83), (470, 63), (474, 100)]

/-- A table at the third sector with one entry, for sector 34. -/
def oneSectorHeader : GptHeader := ⟨efiPart, 92, 1, 34, 34, 2, 1, 128⟩

def oneSectorDisk : BlockDevice := diskOf [(1040, 1), (1056, 34), (1064, 34)]

lemma nonzero_none (n : BitVec 64) : nonzero n = none ↔ n = 0 := by
  rw [nonzero]
  split_ifs with h
  · exact iff_of_true rfl h
  · exact iff_of_false nofun h

/-- Nothing is lost where the used entries stand in front. -/
theorem partitions_exact_front : MbrExact (diskOf [(450, 0x83), (454, 63), (458, 100)]) nonzero := by
  refine (partitions_exact_iff nonzero_none (fun _ _ => rfl) ⟨by decide, by decide⟩).2.mpr ?_
  decide +kernel

/-- The partition of one sector gets a node of size 0, and the entry behind the gap gets none. -/
theorem partitions_not_exact : (oneSectorHeader.accepted = true ∧ ¬ GptExact oneSectorDisk nonzero oneSectorHeader ∧
      (enumGpt nonzero oneSectorDisk (fun _ => 0) oneSectorHeader).map GptRun.nodes =
        some [⟨['a', 't', 'a', '0', 'p', '0'], 34, 0, 0, 512⟩]) ∧
    ¬ MbrExact gapDisk nonzero ∧ enumMbr nonzero gapDisk (fun _ => 0) = [] ∧
      mbrPartitions gapDisk = [⟨['a', 't', 'a', '0', 'p', '1'], 63, 100, 51200, 512⟩] := by
  have hgpt : (enumGpt nonzero oneSectorDisk (fun _ => 0) oneSectorHeader).map GptRun.nodes =
      some [⟨['a', 't', 'a', '0', 'p', '0'], 34, 0, 0, 512⟩] := by decide +kernel
  have hpartitions : gptPartitions oneSectorDisk oneSectorHeader =
      [⟨['a', 't', 'a', '0', 'p', '0'], 34, 1, 512, 512⟩] := by decide +kernel
  have hmbr : enumMbr nonzero gapDisk (fun _ => 0) = [] := by decide +kernel
  have hused : mbrPartitions gapDisk = [⟨['a', 't', 'a', '0', 'p', '1'], 63, 100, 51200, 512⟩] := by decide +kernel
  refine ⟨⟨by decide, fun h => ?_, hgpt⟩, fun h => ?_, hmbr, hused⟩
  · have heq := h fun _ => 0
    rw [hgpt, hpartitions] at heq
    exact absurd heq (by decide)
  · have heq := h fun _ => 0
    rw [hmbr, hused] at heq
    exact absurd heq (by decide)

section Bounds

/-- The bytes of the table that are read are in the block that the device has filled, and what the device has been asked
for are all entries, in whole blocks. -/
structure InBounds (run : GptRun) (h : GptHeader) (blksize : BitVec 64) : Prop where
  reads : ∀ r ∈ run.reads, run.block ≠ none ∧ r.1 + r.2 ≤ run.requested.toNat
  requested : run.requested.toNat = roundUp (h.entryCount.toNat * h.entrySize.toNat) blksize.toNat

lemma le_of_mem_gptRoundReads (m : Memory) (p : ℕ) : ∀ r ∈ gptRoundReads m p, r.1 + r.2 ≤ p + 56 := by
  have hone : ∀ a, a + 8 ≤ p + 56 → ∀ r ∈ [(a, 8)], r.1 + r.2 ≤ p + 56 := by
    intro a ha r hr
    rwa [List.mem_singleton.mp hr]
  rw [gptRoundReads]
  refine List.forall_mem_append.mpr ⟨List.forall_mem_append.mpr ⟨hone _ (by omega), ?_⟩, ?_⟩
  · split_ifs
    · exact hone _ (by omega)
    · exact fun r hr => absurd hr List.not_mem_nil
  · split_ifs
    · exact fun r hr => absurd hr List.not_mem_nil
    · exact List.forall_mem_append.mpr ⟨hone _ le_rfl, fun r hr => absurd hr List.not_mem_nil⟩
    · exact List.forall_mem_append.mpr
        ⟨hone _ le_rfl, List.forall_mem_cons.mpr ⟨by dsimp only; omega, hone _ (by omega)⟩⟩

/-- Memory in which every entry is to be mounted. -/
lemma ones_mounted (p : ℕ) : (gptEntry (fun _ => 1) p).Mounted := by
  rw [gptEntry_congr (p := 0) (m := fun _ => 1) fun _ _ => rfl]
  decide

lemma ones_reads (p : ℕ) : (p + 48, 8) ∈ gptRoundReads (fun _ => 1) p := by
  have hempty : ¬ (gptEntry (fun _ => 1) p).empty = true := fun hempty =>
    (gptEntry_unmounted_iff _).mp (Or.inl hempty) (ones_mounted p)
  rw [gptRoundReads, if_neg hempty]
  simp

variable (kmalloc : BitVec 64 → Option ℕ) (h : GptHeader) {blksize : BitVec 64}

lemma enumGpt_run (dev : BlockDevice) (stale : Memory) (hne : dev.blksize ≠ 0) :
    ∃ run, enumGpt kmalloc dev stale h = some run ∧ run.requested = alignedSize h dev.blksize ∧
      run.block = kmalloc (alignedSize h dev.blksize) ∧
      ∀ r ∈ run.reads, h.entryCount.toNat ≠ 0 ∧ r.1 + r.2 ≤ gptEntrySize * (h.entryCount.toNat - 1) + 56 := by
  rw [enumGpt, if_neg hne]
  dsimp only
  split_ifs
  · exact ⟨_, rfl, rfl, rfl, fun r hr => absurd hr List.not_mem_nil⟩
  · refine ⟨_, rfl, rfl, rfl, fun r hr => ?_⟩
    obtain ⟨x, hx, hr⟩ := List.mem_flatMap.mp hr
    have hplace := le_of_mem_visit hx
    have hend := le_of_mem_gptRoundReads _ _ r hr
    refine ⟨fun hzero => ?_, by omega⟩
    rw [hzero] at hx
    exact absurd hx List.not_mem_nil

/-- The bytes of the last slot are read if all entries before it are to be mounted. -/
lemma enumGpt_last (hblk : blksize ≠ 0) (hcount : h.entryCount.toNat ≠ 0) :
    ∃ run, enumGpt kmalloc ⟨[], blksize, fun _ => 1, fun _ n => n⟩ (fun _ => 1) h = some run ∧
      (gptEntrySize * (h.entryCount.toNat - 1) + 48, 8) ∈ run.reads := by
  have hfilled : ∀ block dev offset count, dev.disk = (fun _ => 1) →
      filled block dev (fun _ => 1) offset count = fun _ => 1 := by
    intro block dev offset count hdisk
    funext k
    rw [filled, hdisk, ite_self]
  obtain ⟨n, hn⟩ := Nat.exists_eq_add_one_of_ne_zero hcount
  have hlast : _ ∈ visit gptEntrySize (gptRound ⟨[], blksize, fun _ => 1, fun _ n => n⟩ fun _ => 1) _ _ _ :=
    mem_visit_last (fun i p => (gptRound_isSome _ _ i p).mpr (ones_mounted p)) n 0 0
  rw [Nat.zero_add, Nat.zero_add] at hlast
  rw [enumGpt, if_neg hblk]
  dsimp only
  rw [if_neg (not_not.mpr rfl), hfilled _ _ _ _ rfl, hn, Nat.add_sub_cancel]
  exact ⟨_, rfl, List.mem_flatMap.mpr ⟨_, hlast, ones_reads _⟩⟩

/-- A table is read within its block, whatever it holds, exactly if the product of the two header fields does not wrap,
and, where there are entries, there is a block and it holds the 128-byte slots up to the last one. -/
theorem enumGpt_inBounds_iff (hblk : 92 ≤ blksize.toNat ∧ blksize.toNat < 2 ^ 32) :
    (∀ dev stale, dev.blksize = blksize → ∃ run, enumGpt kmalloc dev stale h = some run ∧ InBounds run h blksize) ↔
      h.entryCount.toNat * h.entrySize.toNat < 2 ^ 32 ∧ (h.entryCount.toNat = 0 ∨
        kmalloc (BitVec.ofNat 64 (roundUp (h.entryCount.toNat * h.entrySize.toNat) blksize.toNat)) ≠ none ∧
        gptEntrySize * (h.entryCount.toNat - 1) + 56 ≤
          roundUp (h.entryCount.toNat * h.entrySize.toNat) blksize.toNat) := by
  have hpos : 0 < blksize.toNat := by omega
  have hne : blksize ≠ 0 := fun heq => absurd hpos (by rw [heq]; decide)
  have hsize := toNat_alignedSize h hpos hblk.2
  constructor
  · intro hall
    obtain ⟨run, hrun, hbounds⟩ := hall ⟨[], blksize, fun _ => 1, fun _ n => n⟩ (fun _ => 1) rfl
    obtain ⟨run', hrun', hrequested, hkmalloc, -⟩ := enumGpt_run kmalloc h
      ⟨[], blksize, fun _ => 1, fun _ n => n⟩ (fun _ => 1) hne
    obtain rfl := Option.some.inj (hrun.symm.trans hrun')
    have hround := hrequested ▸ hbounds.requested
    rw [hsize, BitVec.toNat_mul] at hround
    have hfits : h.entryCount.toNat * h.entrySize.toNat < 2 ^ 32 := by
      by_contra hwraps
      have hlt := roundUp_lt hpos (h.entryCount.toNat * h.entrySize.toNat % 2 ^ 32)
      have hle := le_roundUp hpos (h.entryCount.toNat * h.entrySize.toNat)
      have hdiv := Nat.div_add_mod (h.entryCount.toNat * h.entrySize.toNat) (2 ^ 32)
      have hone : 1 ≤ h.entryCount.toNat * h.entrySize.toNat / 2 ^ 32 := Nat.div_pos (not_lt.mp hwraps) (by decide)
      omega
    refine ⟨hfits, or_iff_not_imp_left.mpr fun hcount => ?_⟩
    obtain ⟨run', hrun', hlast⟩ := enumGpt_last kmalloc h hne hcount
    obtain rfl := Option.some.inj (hrun.symm.trans hrun')
    have hread := hbounds.reads _ hlast
    rw [hkmalloc, hrequested] at hread
    rw [← hbounds.requested, hrequested, BitVec.ofNat_toNat, BitVec.setWidth_eq]
    exact hread
  · rintro ⟨hfits, hblock⟩ dev stale rfl
    rw [BitVec.toNat_mul, Nat.mod_eq_of_lt hfits] at hsize
    rw [← hsize, BitVec.ofNat_toNat, BitVec.setWidth_eq] at hblock
    obtain ⟨run, hrun, hrequested, hkmalloc, hreads⟩ := enumGpt_run kmalloc h dev stale hne
    refine ⟨run, hrun, fun r hr => ?_, by rw [hrequested, hsize]⟩
    obtain ⟨hcount, hend⟩ := hreads r hr
    obtain ⟨hnull, hlast⟩ := hblock.resolve_left hcount
    rw [hkmalloc, hrequested]
    exact ⟨hnull, hend.trans hlast⟩

/-- 128 entries of 128 bytes on a disk with sectors of 512 bytes. -/
def standardHeader : GptHeader := ⟨efiPart, 92, 1, 34, 34, 2, 128, 128⟩

theorem enumGpt_inBounds_standard : ∃ run, enumGpt nonzero oneSectorDisk (fun _ => 0) standardHeader = some run ∧
    InBounds run standardHeader 512 :=
  (enumGpt_inBounds_iff nonzero standardHeader ⟨by decide, by decide⟩).mpr ⟨by decide, Or.inr ⟨by decide, by decide⟩⟩
    oneSectorDisk (fun _ => 0) rfl

/-- 65536 entries of 65536 bytes. -/
def wrappingHeader : GptHeader := ⟨efiPart, 92, 1, 34, 34, 2, 0x10000, 0x10000⟩

/-- The product is 0, so there is no block, and entries are read through the null pointer. -/
theorem enumGpt_wraps : wrappingHeader.accepted = true ∧
    ∃ run, enumGpt nonzero ⟨[], 512, fun _ => 1, fun _ n => n⟩ (fun _ => 1) wrappingHeader = some run ∧
      run.requested = 0 ∧ run.block = none ∧ (gptEntrySize * 65535 + 48, 8) ∈ run.reads ∧
      ¬ InBounds run wrappingHeader 512 := by
  obtain ⟨run, hrun, hlast⟩ := enumGpt_last nonzero wrappingHeader (show (512 : BitVec 64) ≠ 0 by decide)
    (by decide)
  obtain ⟨run', hrun', hrequested, hblock, -⟩ := enumGpt_run nonzero wrappingHeader
    ⟨[], 512, fun _ => 1, fun _ n => n⟩ (fun _ => 1) (by decide)
  obtain rfl := Option.some.inj (hrun.symm.trans hrun')
  have hzero : alignedSize wrappingHeader 512 = 0 := by decide
  rw [hzero] at hrequested hblock
  exact ⟨by decide, run, hrun, hrequested, hblock, hlast, fun h => (h.reads _ hlast).1 hblock⟩

end Bounds

end PiggyOs.PartitionScan
