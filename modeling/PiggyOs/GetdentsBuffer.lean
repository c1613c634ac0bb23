import PiggyOs.DirectoryListing
import PiggyOs.UserAccess

/-! How much of the buffer `vfs_getdents` fills. The size is compared with what is there before a record, and
after the record has been written. -/
namespace PiggyOs.UserAccess
open ByteMemory Fork VfsTree Hash Records Fuel Filter Transition Descriptors

/-- The offset from which on records are wanted. A negative one is before them all. -/
def wantedFrom (offset : BitVec 64) : ℕ := offset.toInt.toNat

/-- The records that are still to be listed. -/
def remaining (s : Vfs) (map : HashMap ℕ) (offset : BitVec 64) : List ℕ :=
  behind (entLen s) (wantedFrom offset) 0 (childrenOf map)

/-- Whatever the buffer is and holds, no byte outside its `count` bytes changes, and no more are returned. -/
def Respects (s : Vfs) (ino : ℕ → BitVec 64) (map : HashMap ℕ) (offset count : BitVec 64) : Prop :=
  ∀ (mem : Memory) (buffer : ℕ), ∀ᶠ fuel in atTop, ∃ n mem',
    vfsGetdents s ino fuel map mem buffer (wantedFrom offset) count.toNat = some (n, mem') ∧ n ≤ count.toNat ∧
    ∀ b, b < buffer ∨ buffer + count.toNat ≤ b → mem' b = mem b

section Reach
variable {s : Vfs} {ino : ℕ → BitVec 64} {map : HashMap ℕ} {fuel buffer offset actualCount limit : ℕ}
  {mem : Memory} {st : Filled} {pre : List ℕ} {acc : ℕ × ℕ × ℕ}

/-- The second pass comes to an end. -/
lemma fillChain_ends {chain : List (CString × ℕ)} (h : ∀ x ∈ chain.map Prod.snd, vfsReduceNode s fuel x ≠ none)
    (st : Filled) : ∃ st', fillChain s ino fuel buffer offset actualCount chain st = some st' := by
  induction chain generalizing st with
  | nil => exact ⟨st, rfl⟩
  | cons entry rest ih =>
    rw [List.map_cons, List.forall_mem_cons] at h
    obtain ⟨reducedChild, hreduced⟩ := Option.ne_none_iff_exists'.mp h.1
    rw [fillChain, hreduced, Option.bind_some]
    dsimp only
    split_ifs
    · exact ih h.2 _
    · exact ⟨_, rfl⟩
    · exact ih h.2 _

lemma fillBuckets_ends {buckets : List ℕ}
    (h : ∀ x ∈ buckets.flatMap fun i => (map.entries i).map Prod.snd, vfsReduceNode s fuel x ≠ none) (st : Filled) :
    ∃ st', fillBuckets s ino fuel buffer offset actualCount map buckets st = some st' := by
  induction buckets generalizing st with
  | nil => exact ⟨st, rfl⟩
  | cons i buckets ih =>
    rw [List.flatMap_cons, List.forall_mem_append] at h
    obtain ⟨st1, hst1⟩ := fillChain_ends h.1 st
    rw [fillBuckets, hst1, Option.bind_some]
    exact ih h.2 st1

/-- After the children `pre` every record behind the offset is there, and nothing behind the records. -/
structure Whole (s : Vfs) (offset : ℕ) (pre : List ℕ) (acc : ℕ × ℕ × ℕ) : Prop where
  iter : acc.1 = total (entLen s) pre
  size : acc.2.1 = total (entLen s) (behind (entLen s) offset 0 pre)
  reach : acc.2.2 ≤ acc.2.1

/-- More than `limit` bytes are returned or written to. -/
def Exceeds (limit : ℕ) (acc : ℕ × ℕ × ℕ) : Prop := limit < acc.2.1 ∨ limit < acc.2.2

lemma Whole.skip {x : ℕ} (h : Whole s offset pre acc) (hskip : acc.1 + entLen s x ≤ offset) :
    Whole s offset (pre ++ [x]) (acc.1 + entLen s x, acc.2.1, acc.2.2) := by
  refine ⟨?_, ?_, h.reach⟩
  · rw [total_append, ← h.iter, total_cons, total_nil, Nat.add_zero]
  · rw [behind_concat, ← h.iter, if_pos hskip, List.append_nil]
    exact h.size

lemma Whole.add {x : ℕ} (h : Whole s offset pre acc) (hskip : ¬acc.1 + entLen s x ≤ offset) :
    Whole s offset (pre ++ [x]) (acc.1 + entLen s x, acc.2.1 + entLen s x,
      max acc.2.2 (acc.2.1 + (12 + (s.nodes x).name.strlen))) := by
  refine ⟨?_, ?_, ?_⟩
  · rw [total_append, ← h.iter, total_cons, total_nil, Nat.add_zero]
  · rw [behind_concat, ← h.iter, if_neg hskip, total_append, ← h.size, total_cons, total_nil, Nat.add_zero]
  · have := h.reach
    dsimp only
    rw [entLen, sizeofDirent]
    omega

lemma Exceeds.chain {chain : List (CString × ℕ)} (h : Exceeds limit acc) :
    Exceeds limit (chainReach s offset actualCount chain acc) := by
  induction chain generalizing acc with
  | nil => exact h
  | cons entry rest ih =>
    obtain ⟨iter, size, reach⟩ := acc
    rw [chainReach]
    dsimp only [Exceeds] at h ⊢
    split_ifs
    · exact ih h
    · dsimp only
      omega
    · refine ih ?_
      dsimp only [Exceeds]
      omega

lemma Exceeds.buckets {buckets : List ℕ} (h : Exceeds limit acc) :
    Exceeds limit (bucketsReach s offset actualCount map buckets acc) := by
  induction buckets generalizing acc with
  | nil => exact h
  | cons i buckets ih => exact ih h.chain

/-- As long as the records fit, all of them are there. The first one that does not fit is written or counted
nevertheless. -/
lemma Whole.chain {chain : List (CString × ℕ)} (h : Whole s offset pre acc) (hsize : acc.2.1 ≤ actualCount) :
    let acc' := chainReach s offset actualCount chain acc
    Whole s offset (pre ++ chain.map Prod.snd) acc' ∧ acc'.2.1 ≤ actualCount ∨
      Exceeds actualCount acc' ∧ actualCount < total (entLen s) (behind (entLen s) offset 0 (pre ++ chain.map Prod.snd)) := by
  induction chain generalizing pre acc with
  | nil =>
    left
    rw [List.map_nil, List.append_nil]
    exact ⟨h, hsize⟩
  | cons entry rest ih =>
    obtain ⟨iter, size, reach⟩ := acc
    rw [chainReach, List.map_cons, List.append_cons]
    dsimp only at hsize ⊢
    by_cases hskip : iter + entLen s entry.2 ≤ offset
    · rw [if_pos hskip]
      exact ih (h.skip hskip) hsize
    · rw [if_neg hskip]
      have hadd := h.add hskip
      have hmore : total (entLen s) (behind (entLen s) offset 0 (pre ++ [entry.2])) ≤
          total (entLen s) (behind (entLen s) offset 0 (pre ++ [entry.2] ++ rest.map Prod.snd)) :=
        total_behind_le _ _
      rw [← hadd.size] at hmore
      have hpos := entLen_pos s entry.2
      dsimp only at hmore
      by_cases hfull : actualCount ≤ size
      · rw [if_pos hfull]
        refine Or.inr ⟨Or.inr ?_, by omega⟩
        dsimp only
        omega
      · rw [if_neg hfull]
        by_cases hlarge : size + entLen s entry.2 ≤ actualCount
        · exact ih hadd hlarge
        · refine Or.inr ⟨Exceeds.chain (Or.inl ?_), by omega⟩
          dsimp only
          omega

lemma Whole.buckets {buckets : List ℕ} (h : Whole s offset pre acc) (hsize : acc.2.1 ≤ actualCount) :
    let acc' := bucketsReach s offset actualCount map buckets acc
    let children := pre ++ buckets.flatMap fun i => (map.entries i).map Prod.snd
    Whole s offset children acc' ∧ acc'.2.1 ≤ actualCount ∨
      Exceeds actualCount acc' ∧ actualCount < total (entLen s) (behind (entLen s) offset 0 children) := by
  induction buckets generalizing pre acc with
  | nil =>
    left
    rw [List.flatMap_nil, List.append_nil]
    exact ⟨h, hsize⟩
  | cons i buckets ih =>
    dsimp only
    rw [List.flatMap_cons, ← List.append_assoc]
    rcases h.chain hsize with ⟨hwhole, hle⟩ | ⟨hexceeds, hlt⟩
    · exact ih hwhole hle
    · exact Or.inr ⟨hexceeds.buckets, hlt.trans_le (total_behind_le _ _)⟩

/-- What a call returns and how far it gets, for records that fit and for records that do not. -/
lemma vfsGetdents_room {count n : ℕ} {mem' : Memory}
    (h : vfsGetdents s ino fuel map mem buffer offset count = some (n, mem')) :
    if total (entLen s) (behind (entLen s) offset 0 (childrenOf map)) ≤ count then
      n ≤ count ∧ ∀ b, b < buffer ∨ buffer + count ≤ b → mem' b = mem b
    else count < n ∨ ∃ k, count ≤ k ∧ mem' (buffer + k) = 0 := by
  rw [vfsGetdents, totalLength_eq] at h
  generalize hlength : total (entLen s) (behind (entLen s) offset 0 (childrenOf map)) = length at h ⊢
  by_cases hzero : length = 0
  · rw [if_pos hzero] at h
    obtain ⟨rfl, rfl⟩ := Prod.mk.inj (Option.some.inj h)
    rw [if_pos (by omega)]
    exact ⟨Nat.zero_le _, fun _ _ => rfl⟩
  · rw [if_neg hzero] at h
    obtain ⟨st, hfill, hst⟩ := Option.map_eq_some_iff.mp h
    obtain ⟨rfl, rfl⟩ := Prod.mk.inj hst
    have hstored : Stored buffer mem ⟨0, 0, mem⟩ (0, 0, 0) :=
      ⟨rfl, rfl, fun _ _ => rfl, fun k hk => absurd hk (by simp)⟩
    have hwhole : Whole s offset [] (0, 0, 0) := ⟨rfl, rfl, le_rfl⟩
    have hend := hstored.buckets hfill
    have hread := hend.readSize
    rcases hwhole.buckets (Nat.zero_le (min length count)) with ⟨hall, hle⟩ | ⟨hexceeds, hlt⟩
    · have hsize := hall.size.trans hlength
      have hreach := hall.reach
      rw [if_pos (by omega)]
      exact ⟨by omega, fun b hb => hend.frame b (by omega)⟩
    · have hshort : min length count < length := hlt.trans_eq hlength
      rw [if_neg (by omega)]
      rcases hexceeds with hsize | hreach
      · left
        omega
      · right
        obtain ⟨k, hk⟩ := Nat.exists_eq_succ_of_ne_zero (Nat.ne_zero_of_lt hreach)
        exact ⟨k, by omega, hend.last k hk⟩

end Reach

section Theorem
variable {S : System} {events : List Event} {d : ℕ} {map : HashMap ℕ} {ino : ℕ → BitVec 64} {offset count : BitVec 64}

/-- A call that keeps to every buffer has room for all records. -/
lemma Respects.room {s : Vfs} (h : Respects s ino map offset count) :
    total (entLen s) (remaining s map offset) ≤ count.toNat := by
  obtain ⟨fuel, n, mem', hcall, hle, hframe⟩ := (h (fun _ => 1) 0).exists
  by_contra hlarge
  rw [remaining] at hlarge
  have hroom := vfsGetdents_room hcall
  rw [if_neg hlarge] at hroom
  rcases hroom with hlt | ⟨k, hk, hzero⟩
  · omega
  · rw [hframe _ (Or.inr (Nat.add_le_add_left hk 0))] at hzero
    exact absurd hzero (by decide)

/-- Every call comes to an end. -/
lemma getdents_ends (hrun : Run KernelStep systemInit events S) (hmap : (S.vfs.nodes d).children = some map)
    (mem : Memory) (buffer offset count : ℕ) : ∀ᶠ fuel in atTop, ∃ n mem',
      vfsGetdents S.vfs ino fuel map mem buffer offset count = some (n, mem') := by
  filter_upwards [eventually_reduce hrun hmap] with fuel hreduce
  have hchildren : ∀ x ∈ childrenOf map, vfsReduceNode S.vfs fuel x ≠ none := by
    intro x hx
    rw [hreduce x hx]
    exact Option.some_ne_none _
  rw [vfsGetdents]
  split_ifs
  · exact ⟨0, mem, rfl⟩
  · obtain ⟨st, hst⟩ := fillBuckets_ends hchildren ⟨0, 0, mem⟩
    exact ⟨st.readSize, st.mem, by rw [hst, Option.map_some]⟩

/-- On every directory of a tree that the kernel has built, a call keeps to its buffer if and only if all the
records that are left fit into it. -/
theorem getdents_respects_iff (hrun : Run KernelStep systemInit events S)
    (hmap : (S.vfs.nodes d).children = some map) (ino : ℕ → BitVec 64) (offset count : BitVec 64) :
    Respects S.vfs ino map offset count ↔ total (entLen S.vfs) (remaining S.vfs map offset) ≤ count.toNat := by
  refine ⟨Respects.room, fun hfits mem buffer => ?_⟩
  rw [remaining] at hfits
  filter_upwards [getdents_ends hrun hmap mem buffer (wantedFrom offset) count.toNat] with fuel hcall
  obtain ⟨n, mem', hcall⟩ := hcall
  have hroom := vfsGetdents_room hcall
  rw [if_pos hfits] at hroom
  exact ⟨n, mem', hcall, hroom⟩

lemma total_remaining_root : total (entLen rootMounted) (remaining rootMounted (dotMap 3 4) 0) = 37 := by
  decide

theorem getdents_respects_root : Respects rootMounted (fun _ => 1) (dotMap 3 4) 0 37 := by
  refine (getdents_respects_iff (.nil systemInit) (show (systemInit.vfs.nodes 2).children = _ from rfl) _ 0 37).mpr ?_
  exact total_remaining_root.le

/-- A buffer for the first record of the root, but not for the second. -/
theorem getdents_overruns : Run KernelStep systemInit [] systemInit ∧
    (systemInit.vfs.nodes 2).children = some (dotMap 3 4) ∧
    ¬Respects systemInit.vfs (fun _ => 1) (dotMap 3 4) 0 20 := by
  refine ⟨.nil systemInit, rfl, fun h => ?_⟩
  have hroom : total (entLen rootMounted) (remaining rootMounted (dotMap 3 4) 0) ≤ 20 := h.room
  rw [total_remaining_root] at hroom
  exact absurd hroom (by decide)

end Theorem

end PiggyOs.UserAccess
