import PiggyOs.ElfConfined
import PiggyOs.Sbrk

/-! The stacks of the threads of a process. `thread_create` maps a window below a cursor that is kept in
the process, and moves the cursor down by less than the size of the window. -/
namespace PiggyOs.UserStacks
open ByteMemory Vmm Transition Fork
open Sbrk (heapFlags userEnd UserTree)
open Elf (ServesBlocks)

def stackSize : BitVec 64 := 0x40000

/-- What `thread_create` reads and writes of a process: the cursor, the length of the vector of threads,
and the memory behind the tables. -/
structure Owner (σ : Type) where
  threadStackTop : BitVec 64
  threads : ℕ
  machine : Machine σ

/-- `false` from `cacheAllocObject` is its null pointer, and `none` a panic. `layArguments` is the block that
copies `argv` and `envp` to the top of the first stack, given the physical address of that stack, and `fpuState`
is what `fpu_save` leaves in memory. -/
structure Environment (σ : Type) where
  cacheAllocObject : σ → Option (Bool × σ)
  cacheFreeObject : σ → σ
  pmmAlloc : σ → ℕ → Option (ℕ × σ)
  pmmFree : σ → ℕ → ℕ → σ
  highVma : ℕ
  fpuStorageSize : ℕ
  fpuState : ℕ → BitVec 8
  fsBaseMsr : BitVec 64
  gsBaseMsr : BitVec 64
  layArguments : ℕ → Thread → Memory → Thread × Memory

section Create
variable {σ : Type} (env : Environment σ) (pagemap : Pagemap) (pid : ℕ)

/-- What follows the label `error`, with the physical addresses of what was allocated. -/
def abandon (p : Owner σ) (kernelStack pageFaultStack userStackPaddr : ℕ) : Owner σ :=
  let s := p.machine.pmm
  let s := if kernelStack ≠ 0 then env.pmmFree s kernelStack stackPages else s
  let s := if pageFaultStack ≠ 0 then env.pmmFree s pageFaultStack stackPages else s
  let s := if userStackPaddr ≠ 0 then
    env.pmmFree s (BitVec.ofNat 64 userStackPaddr - stackSize).toNat stackPages else s
  { p with machine := { p.machine with pmm := env.cacheFreeObject s } }

/-- The end of a stack as the kernel addresses it. -/
def kernelTop (paddr : ℕ) : ℕ := paddr + stackSize.toNat + env.highVma

/-- The end of `thread_create`. -/
def pushThread (p : Owner σ) (t : Thread) (entry : BitVec 64) : Thread × Owner σ :=
  ({ t with tid := p.threads, ctx := { t.ctx with rflags := 0x202, rip := entry } },
    { p with threads := p.threads + 1 })

/-- The thread once its stacks and the memory for its FPU state are there. -/
def userThread (top : BitVec 64) (kernelStack pageFaultStack : ℕ) : Thread :=
  { Thread.zeroed with
    state := .readyToRun
    process := pid
    isUser := true
    timeslice := 20000
    kernelStack := kernelTop env kernelStack
    pageFaultStack := kernelTop env pageFaultStack
    ctx := { Registers.zeroed with cs := 0x23, ss := 0x1b, rsp := top }
    fpuStorage := env.fpuState }

def kernelThread (kernelStack : ℕ) (arg : BitVec 64) : Thread :=
  { Thread.zeroed with
    state := .readyToRun
    process := pid
    timeslice := 5000
    kernelStack := kernelTop env kernelStack
    pageFaultStack := kernelTop env kernelStack
    ctx := { Registers.zeroed with
      rdi := arg
      cs := 0x08
      ss := 0x10
      rsp := BitVec.ofNat 64 (kernelTop env kernelStack) }
    fsBase := env.fsBaseMsr
    gsBase := env.gsBaseMsr }

/-- The part for user threads behind the loop: the cursor moves before the last allocations. -/
def finishUser (p : Owner σ) (kernelStack userStackPaddr : ℕ) (entry : BitVec 64) (arguments : Bool) :
    Option (Option Thread × Owner σ) :=
  let top := p.threadStackTop
  let p := { p with threadStackTop := top - (stackSize - 0x1000) }
  match env.pmmAlloc p.machine.pmm stackPages with
  | none => none
  | some (pageFaultStack, s) =>
      let p := { p with machine := { p.machine with pmm := s } }
      if pageFaultStack = 0 then some (none, abandon env p kernelStack 0 userStackPaddr)
      else match pmmAllocz env.pmmAlloc p.machine ((env.fpuStorageSize + 4095) / 4096) with
      | none => none
      | some (fpuStorage, m) =>
          let p := { p with machine := m }
          if fpuStorage = 0 then some (none, abandon env p kernelStack pageFaultStack userStackPaddr)
          else
            let t := userThread env pid top kernelStack pageFaultStack
            let r := if p.threads = 0 ∧ arguments then env.layArguments userStackPaddr t p.machine.mem
              else (t, p.machine.mem)
            let r := pushThread { p with machine := { p.machine with mem := r.2 } } r.1 entry
            some (some r.1, r.2)

/-- `arguments` tells that neither `argv` nor `envp` is a null pointer; `none` is a panic. -/
def threadCreate (p : Owner σ) (entry arg : BitVec 64) (arguments isUser : Bool) :
    Option (Option Thread × Owner σ) :=
  match env.cacheAllocObject p.machine.pmm with
  | none => none
  | some (false, s) => some (none, { p with machine := { p.machine with pmm := s } })
  | some (true, s) =>
      match env.pmmAlloc s stackPages with
      | none => none
      | some (kernelStack, s) =>
          let p := { p with machine := { p.machine with pmm := s } }
          if kernelStack = 0 then some (none, abandon env p 0 0 0)
          else if isUser then
            match env.pmmAlloc p.machine.pmm stackPages with
            | none => none
            | some (userStackPaddr, s) =>
                let p := { p with machine := { p.machine with pmm := s } }
                if userStackPaddr = 0 then some (none, abandon env p kernelStack 0 0)
                else match Sbrk.mapPages env.pmmAlloc pagemap (p.threadStackTop - stackSize)
                  (BitVec.ofNat 64 userStackPaddr) stackPages 0 p.machine with
                | none => none
                | some (false, m) => some (none, abandon env { p with machine := m } kernelStack 0 userStackPaddr)
                | some (true, m) => finishUser env pid { p with machine := m } kernelStack userStackPaddr entry arguments
          else
            let r := pushThread p (kernelThread env pid kernelStack arg) entry
            some (some r.1, r.2)

/-- The pages that the loop of `thread_create` maps below the cursor. -/
def stackWindow (top : BitVec 64) : List (BitVec 64) :=
  (List.range stackPages).map fun i => top - stackSize + BitVec.ofNat 64 i * 0x1000

/-- A call for a user thread that succeeds with the cursor at `top`, one that fails and may have moved the
cursor, and anything else that goes on in the process or elsewhere. -/
inductive Event
  | created (top : BitVec 64) (t : Thread)
  | failed (moved : Bool)
  | other

inductive Step : Owner σ → Event → Owner σ → Prop
  | created {p p' : Owner σ} {t : Thread} {entry arg : BitVec 64} {arguments : Bool}
      (h : threadCreate env pagemap pid p entry arg arguments true = some (some t, p')) :
      Step p (.created p.threadStackTop t) p'
  | failed {p p' : Owner σ} {entry arg : BitVec 64} {arguments : Bool}
      (h : threadCreate env pagemap pid p entry arg arguments true = some (none, p')) :
      Step p (.failed (p'.threadStackTop != p.threadStackTop)) p'
  | other {p p' : Owner σ} (h : p'.threadStackTop = p.threadStackTop) : Step p .other p'

end Create

def Event.stack : Event → Option (List (BitVec 64))
  | .created top _ => some (stackWindow top)
  | _ => none

def handedOut (es : List Event) : List (List (BitVec 64)) := es.filterMap Event.stack

/-- No page belongs to two of the stacks that were handed out. -/
def StacksApart (es : List Event) : Prop := (handedOut es).Pairwise List.Disjoint

/-- How often the cursor has moved before each successful call, if it had moved `n` times at first. -/
def moves : ℕ → List Event → List ℕ
  | _, [] => []
  | n, .created _ _ :: es => n :: moves (n + 1) es
  | n, .failed true :: es => moves (n + 1) es
  | n, _ :: es => moves n es

/-- The cursor moves by 63 pages at a time, and a stack has 64; the addresses repeat after `2 ^ 52` pages. -/
def Spaced (k : ℕ) : Prop := 64 ≤ 63 * k % 2 ^ 52 ∧ 63 * k % 2 ^ 52 ≤ 2 ^ 52 - 64

/-- Between any two successful calls a call that failed has moved the cursor too. -/
def FailureBetween (es : List Event) : Prop := (moves 0 es).Pairwise fun i j => Spaced (j - i)

section Windows
variable {top : BitVec 64} {i j k : ℕ}

lemma mem_stackWindow {v : BitVec 64} : v ∈ stackWindow top ↔ ∃ i < 64, v = top - stackSize + BitVec.ofNat 64 i * 0x1000 := by
  simp only [stackWindow, List.mem_map, List.mem_range, stackPages, eq_comm]

/-- Where the cursor is after `n` moves. -/
def cursorAt (top : BitVec 64) (n : ℕ) : BitVec 64 := top - BitVec.ofNat 64 n * (stackSize - 0x1000)

lemma cursorAt_zero (top : BitVec 64) : cursorAt top 0 = top := by
  simp [cursorAt]

lemma cursorAt_add (top : BitVec 64) (n k : ℕ) :
    cursorAt top (n + k) = cursorAt top n - BitVec.ofNat 64 k * (stackSize - 0x1000) := by
  rw [cursorAt, cursorAt, BitVec.ofNat_add, BitVec.add_mul]
  grind

lemma cursorAt_succ (top : BitVec 64) (n : ℕ) : cursorAt top (n + 1) = cursorAt top n - (stackSize - 0x1000) := by
  rw [cursorAt_add, BitVec.one_mul]

/-- Two pages counted from two positions of the cursor are one page. -/
lemma window_eq_iff (x : BitVec 64) (k : ℕ) {a b : ℕ} (hb : b < 64) :
    x - stackSize + BitVec.ofNat 64 a * 0x1000 =
        x - BitVec.ofNat 64 k * (stackSize - 0x1000) - stackSize + BitVec.ofNat 64 b * 0x1000 ↔
      (a + 63 * k) % 2 ^ 52 = b := by
  have hmove : x - stackSize + BitVec.ofNat 64 a * 0x1000 =
        x - BitVec.ofNat 64 k * (stackSize - 0x1000) - stackSize + BitVec.ofNat 64 b * 0x1000 ↔
      BitVec.ofNat 64 a * 0x1000 + BitVec.ofNat 64 k * (stackSize - 0x1000) = BitVec.ofNat 64 b * 0x1000 := by
    generalize BitVec.ofNat 64 a * 0x1000 = u, BitVec.ofNat 64 k * (stackSize - 0x1000) = v,
      BitVec.ofNat 64 b * 0x1000 = w, stackSize = z
    constructor
    · intro h
      grind
    · intro h
      grind
  have hpage : (0x1000 : BitVec 64).toNat = 0x1000 := rfl
  have hstep : (stackSize - 0x1000).toNat = 0x3f000 := rfl
  rw [hmove, ← BitVec.toNat_inj, BitVec.toNat_add, BitVec.toNat_mul, BitVec.toNat_mul, BitVec.toNat_mul,
    BitVec.toNat_ofNat, BitVec.toNat_ofNat, BitVec.toNat_ofNat, hpage, hstep]
  clear hmove
  omega

lemma windows_disjoint_iff (x : BitVec 64) (k : ℕ) :
    (stackWindow x).Disjoint (stackWindow (x - BitVec.ofNat 64 k * (stackSize - 0x1000))) ↔ Spaced k := by
  constructor
  · intro h
    by_contra hk
    rw [Spaced] at hk
    have hshared : ∃ a b, a < 64 ∧ b < 64 ∧ (a + 63 * k) % 2 ^ 52 = b := by
      by_cases hlow : 63 * k % 2 ^ 52 < 64
      · exact ⟨0, 63 * k % 2 ^ 52, by omega, hlow, by rw [Nat.zero_add]⟩
      · exact ⟨2 ^ 52 - 63 * k % 2 ^ 52, 0, by omega, by omega, by omega⟩
    obtain ⟨a, b, ha, hb, hab⟩ := hshared
    exact h (mem_stackWindow.mpr ⟨a, ha, rfl⟩) (mem_stackWindow.mpr ⟨b, hb, (window_eq_iff x k hb).mpr hab⟩)
  · intro hk v hv hw
    obtain ⟨a, ha, rfl⟩ := mem_stackWindow.mp hv
    obtain ⟨b, hb, hab⟩ := mem_stackWindow.mp hw
    have hpage := (window_eq_iff x k hb).mp hab
    rw [Spaced] at hk
    have hsum : a + 63 * k % 2 ^ 52 < 2 ^ 52 := by omega
    rw [← Nat.add_mod_mod, Nat.mod_eq_of_lt hsum] at hpage
    omega

end Windows

section Runs
variable {σ : Type} {env : Environment σ} {pagemap : Pagemap} {pid : ℕ} {p p' : Owner σ} {r : Option Thread}
  {es : List Event}

lemma finishUser_top {kernelStack userStackPaddr : ℕ} {entry : BitVec 64} {arguments : Bool}
    (h : finishUser env pid p kernelStack userStackPaddr entry arguments = some (r, p')) :
    p'.threadStackTop = p.threadStackTop - (stackSize - 0x1000) := by
  unfold finishUser at h
  dsimp only at h
  cases hfault : env.pmmAlloc p.machine.pmm stackPages with
  | none => simp [hfault] at h
  | some x =>
    rw [hfault] at h
    dsimp only at h
    split at h
    · obtain ⟨-, rfl⟩ := Prod.mk.inj (Option.some.inj h)
      rfl
    · cases hfpu : pmmAllocz env.pmmAlloc { p.machine with pmm := x.2 } ((env.fpuStorageSize + 4095) / 4096) with
      | none => simp [hfpu] at h
      | some y =>
        rw [hfpu] at h
        dsimp only at h
        split at h
        · obtain ⟨-, rfl⟩ := Prod.mk.inj (Option.some.inj h)
          rfl
        · obtain ⟨-, rfl⟩ := Prod.mk.inj (Option.some.inj h)
          rfl

/-- What is needed for success. -/
lemma finishUser_succeeds {kernelStack userStackPaddr pageFaultStack fpuStorage : ℕ} {entry : BitVec 64} {s : σ}
    {m : Machine σ} (hfault : env.pmmAlloc p.machine.pmm stackPages = some (pageFaultStack, s))
    (hfaultZero : pageFaultStack ≠ 0)
    (hfpu : pmmAllocz env.pmmAlloc { p.machine with pmm := s } ((env.fpuStorageSize + 4095) / 4096) =
      some (fpuStorage, m)) (hfpuZero : fpuStorage ≠ 0) :
    ∃ t, finishUser env pid p kernelStack userStackPaddr entry false =
      some (some t, ⟨p.threadStackTop - (stackSize - 0x1000), p.threads + 1, m⟩) := by
  have hnone : ¬ (p.threads = 0 ∧ false = true) := fun h => Bool.false_ne_true h.2
  rw [finishUser, hfault]
  dsimp only
  rw [if_neg hfaultZero, hfpu]
  dsimp only
  rw [if_neg hfpuZero, if_neg hnone]
  exact ⟨_, rfl⟩

/-- Success moves the cursor; a failure may have moved it as well. -/
lemma threadCreate_top {entry arg : BitVec 64} {arguments : Bool}
    (h : threadCreate env pagemap pid p entry arg arguments true = some (r, p')) :
    p'.threadStackTop = p.threadStackTop - (stackSize - 0x1000) ∨
      r = none ∧ p'.threadStackTop = p.threadStackTop := by
  unfold threadCreate at h
  dsimp only at h
  cases hcache : env.cacheAllocObject p.machine.pmm with
  | none => simp [hcache] at h
  | some x =>
    obtain ⟨got, s⟩ := x
    rw [hcache] at h
    cases got with
    | false =>
      obtain ⟨rfl, rfl⟩ := Prod.mk.inj (Option.some.inj h)
      exact Or.inr ⟨rfl, rfl⟩
    | true =>
      cases hkernel : env.pmmAlloc s stackPages with
      | none => simp [hkernel] at h
      | some y =>
        dsimp only at h
        rw [hkernel] at h
        dsimp only at h
        split at h
        · obtain ⟨rfl, rfl⟩ := Prod.mk.inj (Option.some.inj h)
          exact Or.inr ⟨rfl, rfl⟩
        · rw [if_pos rfl] at h
          cases huser : env.pmmAlloc y.2 stackPages with
          | none => simp [huser] at h
          | some z =>
            rw [huser] at h
            dsimp only at h
            split at h
            · obtain ⟨rfl, rfl⟩ := Prod.mk.inj (Option.some.inj h)
              exact Or.inr ⟨rfl, rfl⟩
            · split at h
              · simp at h
              · obtain ⟨rfl, rfl⟩ := Prod.mk.inj (Option.some.inj h)
                exact Or.inr ⟨rfl, rfl⟩
              · next m hmap =>
                exact Or.inl (finishUser_top (p := { p with machine := m }) h)

lemma threadCreate_created {entry arg : BitVec 64} {arguments : Bool} {t : Thread}
    (h : threadCreate env pagemap pid p entry arg arguments true = some (some t, p')) :
    p'.threadStackTop = p.threadStackTop - (stackSize - 0x1000) := by
  rcases threadCreate_top h with htop | ⟨hnone, -⟩
  · exact htop
  · simp at hnone

/-- The stacks of a run, from the number of moves before each of them. -/
lemma handedOut_of_run {top : BitVec 64} {n : ℕ} (hrun : Run (Step env pagemap pid) p es p')
    (hp : p.threadStackTop = cursorAt top n) :
    handedOut es = (moves n es).map fun i => stackWindow (cursorAt top i) := by
  induction hrun generalizing n with
  | nil => rfl
  | cons hstep _ ih =>
    cases hstep with
    | created h =>
      have htop := threadCreate_created h
      rw [hp, ← cursorAt_succ] at htop
      rw [moves, List.map_cons, ← ih htop, hp]
      rfl
    | failed h =>
      rcases threadCreate_top h with htop | ⟨-, htop⟩
      · have hmoved : ∀ c : BitVec 64, (c - (stackSize - 0x1000) != c) = true := by
          intro c
          rw [bne_iff_ne, stackSize]
          bv_omega
        rw [htop, hmoved]
        rw [hp, ← cursorAt_succ] at htop
        exact ih htop
      · rw [htop, bne_self_eq_false]
        exact ih (htop.trans hp)
    | other h => exact ih (h.trans hp)

lemma le_of_mem_moves {n i : ℕ} (h : i ∈ moves n es) : n ≤ i := by
  induction n, es using moves.induct with
  | case1 n => simp [moves] at h
  | case2 n top t es ih =>
    rw [moves, List.mem_cons] at h
    rcases h with rfl | h
    · exact le_rfl
    · exact (Nat.le_succ n).trans (ih h)
  | case3 n es ih => exact (Nat.le_succ n).trans (ih h)
  | case4 n e es h1 h2 ih =>
    rw [moves] at h
    · exact ih h
    · exact h1
    · exact h2

lemma moves_sorted (n : ℕ) (es : List Event) : (moves n es).Pairwise (· ≤ ·) := by
  induction n, es using moves.induct with
  | case1 n => exact List.Pairwise.nil
  | case2 n top t es ih => exact List.Pairwise.cons (fun i hi => (Nat.le_succ n).trans (le_of_mem_moves hi)) ih
  | case3 n es ih => exact ih
  | case4 n e es h1 h2 ih =>
    rw [moves]
    · exact ih
    · exact h1
    · exact h2

/-- Without failures the cursor moves once for each stack. -/
lemma moves_of_success {n : ℕ} (h : ∀ moved, Event.failed moved ∉ es) :
    moves n es = List.range' n (handedOut es).length := by
  induction es generalizing n with
  | nil => rfl
  | cons e es ih =>
    have hlater : ∀ moved, Event.failed moved ∉ es := fun moved hm => h moved (List.mem_cons_of_mem _ hm)
    cases e with
    | created top t =>
      rw [moves, ih hlater]
      rfl
    | failed moved => exact absurd List.mem_cons_self (h moved)
    | other => exact ih hlater

lemma not_spaced_one : ¬ Spaced 1 := by
  rw [Spaced]
  omega

/-- The stacks are apart if and only if a failure moved the cursor between any two successful calls; if no
call fails, at most one thread can be created. -/
theorem stacksApart_iff (hrun : Run (Step env pagemap pid) p es p') :
    (StacksApart es ↔ FailureBetween es) ∧
      ((∀ moved, Event.failed moved ∉ es) → (StacksApart es ↔ (handedOut es).length ≤ 1)) := by
  have hiff : StacksApart es ↔ FailureBetween es := by
    rw [StacksApart, handedOut_of_run hrun (cursorAt_zero _).symm, List.pairwise_map, FailureBetween]
    have hpair : ∀ i j, i ≤ j → ((stackWindow (cursorAt p.threadStackTop i)).Disjoint
        (stackWindow (cursorAt p.threadStackTop j)) ↔ Spaced (j - i)) := by
      intro i j hij
      rw [← windows_disjoint_iff, ← cursorAt_add, Nat.add_sub_cancel' hij]
    constructor
    · exact fun h => List.Pairwise.imp₂ (fun i j hij hd => (hpair i j hij).mp hd) (moves_sorted 0 es) h
    · exact fun h => List.Pairwise.imp₂ (fun i j hij hd => (hpair i j hij).mpr hd) (moves_sorted 0 es) h
  refine ⟨hiff, fun hsuccess => hiff.trans ?_⟩
  rw [FailureBetween, moves_of_success hsuccess]
  constructor
  · intro h
    by_contra hlen
    obtain ⟨n, hn⟩ := Nat.exists_eq_add_of_lt (not_le.mp hlen)
    rw [hn, show 1 + n + 1 = n + 2 by omega, List.range'_succ, List.range'_succ] at h
    exact not_spaced_one ((List.pairwise_cons.mp h).1 1 List.mem_cons_self)
  · intro hlen
    generalize (handedOut es).length = n at hlen
    interval_cases n
    · exact List.Pairwise.nil
    · exact List.pairwise_singleton _ _

end Runs

section Serving
variable {σ : Type} {highVma : ℕ} {src : PageSource σ highVma} {room : σ → ℕ} {pm : Pagemap} {m m' : Machine σ}

/-- What the supplier gives out is not frame 0. -/
lemma alloc_ne_zero {a n : ℕ} {s q : σ} (h0 : Taken src s 0) (h : src.alloc s n = some (a, q)) : a ≠ 0 := by
  obtain ⟨x, hx, hlow, hhigh⟩ := h0
  have hapart := src.apart h x hx
  have hn := src.positive h
  simp only [Apart, pageSize] at *
  omega

lemma allocz_keeps {a n : ℕ} (hv : 2 ^ 63 ≤ highVma) (ht : UserTree src pm m)
    (h : pmmAllocz src.alloc m n = some (a, m')) : a ≠ 0 ∧ UserTree src pm m' := by
  obtain ⟨-, hmono, -, hbytes⟩ := pmmAllocz_cases hv h
  obtain ⟨⟨a, q⟩, halloc, hr⟩ := Option.map_eq_some_iff.mp h
  obtain ⟨rfl, rfl⟩ := Prod.mk.inj hr
  exact ⟨alloc_ne_zero ht.2 halloc, (ht.1.congr hmono hbytes).1, hmono 0 ht.2⟩

lemma mapPages_served {start paddr : BitVec 64} {count i k : ℕ} (hv : 2 ^ 63 ≤ highVma)
    (hroom : ServesBlocks src.alloc room) (ht : UserTree src pm m)
    (hend : start.toNat + i * 0x1000 + count * 0x1000 ≤ userEnd) (hk : k + 4 * count ≤ room m.pmm) :
    ∃ m', Sbrk.mapPages src.alloc pm start paddr count i m = some (true, m') ∧ UserTree src pm m' ∧
      k ≤ room m'.pmm := by
  induction count generalizing i m with
  | zero => exact ⟨m, rfl, ht, by omega⟩
  | succ count ih =>
    rw [Nat.add_one_mul] at hend
    have haddr : (start + BitVec.ofNat 64 i * 0x1000).toNat = start.toNat + i * 0x1000 := by
      apply Sbrk.toNat_page
      rw [userEnd] at hend
      omega
    obtain ⟨b, m1, hmap, hk1⟩ := hroom.serves.mapPage (show k + 4 * count + 4 ≤ room m.pmm by omega) pm
      (start + BitVec.ofNat 64 i * 0x1000) (paddr + BitVec.ofNat 64 i * 0x1000) heapFlags
    obtain ⟨rfl, ht1, -⟩ := ht.map hv (by omega) hmap
    obtain ⟨m', hrest, ht', hk'⟩ := ih (i := i + 1) ht1 (by linarith) hk1
    rw [Sbrk.mapPages, hmap]
    exact ⟨m', hrest, ht', hk'⟩

/-- The loop maps every page of the window, whatever was there before. -/
lemma stackWindow_mapped {top paddr : BitVec 64} {b : Bool} (hv : 2 ^ 63 ≤ highVma) (ht : UserTree src pm m)
    (htop : top.toNat % 0x1000 = 0) (hpaddr : paddr.toNat % 0x1000 = 0) (hlow : stackSize.toNat ≤ top.toNat)
    (hhigh : top.toNat ≤ userEnd)
    (h : Sbrk.mapPages src.alloc pm (top - stackSize) paddr stackPages 0 m = some (b, m')) :
    b = true ∧ ∀ v ∈ stackWindow top, Sbrk.UserWritable (vmmGetPageMapping m' pm v) := by
  have hsize : stackSize.toNat = 0x40000 := rfl
  have hpages : stackPages = 64 := rfl
  have hstart : (top - stackSize).toNat = top.toNat - 0x40000 := BitVec.toNat_sub_of_le hlow
  rw [hpages] at h
  obtain ⟨hb, -, hmapped⟩ := Sbrk.mapPages_some hv ht (by omega) hpaddr (by omega) h
  refine ⟨hb, fun v hw => ?_⟩
  obtain ⟨i, hi, rfl⟩ := mem_stackWindow.mp hw
  have hlt := top.isLt
  have haddr : (top - stackSize + BitVec.ofNat 64 i * 0x1000).toNat = top.toNat - 0x40000 + i * 0x1000 := by
    rw [Sbrk.toNat_page (by omega), hstart]
  have hend : (top - stackSize + BitVec.ofNat 64 i * 0x1000).toNat < userEnd := by omega
  exact (hmapped _ hend).1 (by omega) (by omega)

/-- With pages left every call succeeds. -/
lemma threadCreate_served {env : Environment σ} {p : Owner σ} {pid k : ℕ} (hv : 2 ^ 63 ≤ highVma)
    (hpmm : env.pmmAlloc = src.alloc) (hcache : ∀ s, env.cacheAllocObject s = some (true, s))
    (hroom : ServesBlocks src.alloc room) (ht : UserTree src pm p.machine)
    (hlow : stackSize.toNat ≤ p.threadStackTop.toNat) (hhigh : p.threadStackTop.toNat ≤ userEnd)
    (hfpu : 1 ≤ (env.fpuStorageSize + 4095) / 4096)
    (hk : k + (env.fpuStorageSize + 4095) / 4096 + 7 * stackPages ≤ room p.machine.pmm) :
    ∃ t p', threadCreate env pm pid p 0 0 false true = some (some t, p') ∧ UserTree src pm p'.machine ∧
      k ≤ room p'.machine.pmm := by
  have hpages : 1 ≤ stackPages := by decide
  have hstart : (p.threadStackTop - stackSize).toNat = p.threadStackTop.toNat - stackSize.toNat :=
    BitVec.toNat_sub_of_le hlow
  have hsize : stackSize.toNat = stackPages * 0x1000 := rfl
  have hend : (p.threadStackTop - stackSize).toNat + 0 * 0x1000 + stackPages * 0x1000 ≤ userEnd := by
    rw [hstart, ← hsize, Nat.zero_mul, Nat.add_zero, Nat.sub_add_cancel hlow]
    exact hhigh
  generalize hn : (env.fpuStorageSize + 4095) / 4096 = n at *
  obtain ⟨kernelStack, s1, h1, hk1⟩ := hroom p.machine.pmm stackPages (k + n + 6 * stackPages) hpages (by linarith)
  have ht1 := (ht.alloc h1).1
  obtain ⟨userStack, s2, h2, hk2⟩ := hroom s1 stackPages (k + n + 5 * stackPages) hpages (by linarith)
  have ht2 := (ht1.alloc h2).1
  obtain ⟨m3, h3, ht3, hk3⟩ : ∃ m3, Sbrk.mapPages src.alloc pm (p.threadStackTop - stackSize)
      (BitVec.ofNat 64 userStack) stackPages 0 { p.machine with pmm := s2 } = some (true, m3) ∧
      UserTree src pm m3 ∧ k + n + stackPages ≤ room m3.pmm :=
    mapPages_served hv hroom ht2 hend (le_of_eq_of_le (by ring) hk2)
  obtain ⟨pageFaultStack, s4, h4, hk4⟩ := hroom m3.pmm stackPages (k + n) hpages hk3
  have ht4 := (ht3.alloc h4).1
  obtain ⟨fpuStorage, m5, h5, hk5⟩ := hroom.allocz (m := { m3 with pmm := s4 }) hfpu hk4
  obtain ⟨hn5, ht5⟩ := allocz_keeps hv ht4 h5
  obtain ⟨t, hfinish⟩ : ∃ t, finishUser env pid { p with machine := m3 } kernelStack userStack 0 false =
      some (some t, ⟨p.threadStackTop - (stackSize - 0x1000), p.threads + 1, m5⟩) := by
    rw [← hpmm] at h4 h5
    rw [← hn] at h5
    exact finishUser_succeeds h4 (alloc_ne_zero ht3.2 (hpmm ▸ h4)) h5 hn5
  refine ⟨t, ⟨p.threadStackTop - (stackSize - 0x1000), p.threads + 1, m5⟩, ?_, ht5, hk5⟩
  rw [threadCreate, hcache, hpmm]
  dsimp only
  rw [h1]
  dsimp only
  rw [if_neg (alloc_ne_zero ht.2 h1), if_pos rfl, h2]
  dsimp only
  rw [if_neg (alloc_ne_zero ht1.2 h2), h3]
  exact hfinish

end Serving

/-- Memory that is never reused; objects and frames that are given back stay unused. -/
def bumpEnvironment : Environment Bump where
  cacheAllocObject s := some (true, s)
  cacheFreeObject s := s
  pmmAlloc := (bumpSource Pmm.directMap).alloc
  pmmFree s _ _ := s
  highVma := Pmm.directMap
  fpuStorageSize := 512
  fpuState _ := 0
  fsBaseMsr := 0
  gsBaseMsr := 0
  layArguments _ t mem := (t, mem)

/-- A process as `exec` leaves it before its first thread. -/
def executed : Owner Bump := ⟨processThreadStackTop, 0, bareMachine⟩

lemma executed_tree : UserTree (bumpSource Pmm.directMap) ⟨1, false⟩ executed.machine :=
  ⟨(bareMachine_empty _ false).treeInv _, (bareMachine_empty _ false).zero⟩

/-- The thread that `exec` starts, and a second one. -/
lemma executed_threads : ∃ t1 t2 p1 p2,
    Step bumpEnvironment ⟨1, false⟩ 0 executed (.created processThreadStackTop t1) p1 ∧
    Step bumpEnvironment ⟨1, false⟩ 0 p1 (.created p1.threadStackTop t2) p2 := by
  have hv : 2 ^ 63 ≤ Pmm.directMap := by norm_num [Pmm.directMap]
  have hroom := Elf.bump_servesBlocks Pmm.directMap
  have hcache : ∀ s, bumpEnvironment.cacheAllocObject s = some (true, s) := fun _ => rfl
  have hpmm : bumpEnvironment.pmmAlloc = (bumpSource Pmm.directMap).alloc := rfl
  have hfpu : 1 ≤ (bumpEnvironment.fpuStorageSize + 4095) / 4096 := by decide
  have hleft : 0 + (bumpEnvironment.fpuStorageSize + 4095) / 4096 + 7 * stackPages +
      (bumpEnvironment.fpuStorageSize + 4095) / 4096 + 7 * stackPages ≤ Bump.left Pmm.directMap executed.machine.pmm := by
    norm_num [Bump.left, executed, bareMachine, firstPages, pageSize, Pmm.directMap, bumpEnvironment, stackPages]
  have hhigh : executed.threadStackTop.toNat ≤ userEnd := by
    rw [userEnd]
    decide
  obtain ⟨t1, p1, h1, ht1, hk1⟩ := threadCreate_served hv hpmm hcache hroom executed_tree (by decide) hhigh
    hfpu hleft
  have htop : p1.threadStackTop = processThreadStackTop - (stackSize - 0x1000) := threadCreate_created h1
  have hlow1 : stackSize.toNat ≤ p1.threadStackTop.toNat := by
    rw [htop]
    decide
  have hhigh1 : p1.threadStackTop.toNat ≤ userEnd := by
    rw [htop, userEnd]
    decide
  obtain ⟨t2, p2, h2, -⟩ := threadCreate_served hv hpmm hcache hroom ht1 hlow1 hhigh1 hfpu hk1
  exact ⟨t1, t2, p1, p2, .created h1, .created h2⟩

theorem stacksApart_iff_executed : ∃ t p, Run (Step bumpEnvironment ⟨1, false⟩ 0) executed
      [.created processThreadStackTop t] p ∧ StacksApart [.created processThreadStackTop t] := by
  obtain ⟨t, -, p, -, h, -⟩ := executed_threads
  refine ⟨t, p, .single h, ((stacksApart_iff (.single h)).2 fun moved hm => ?_).mpr le_rfl⟩
  simp at hm

/-- The stack of the second thread takes a page from the stack of the first. -/
theorem second_stack_overlaps : ∃ es p, Run (Step bumpEnvironment ⟨1, false⟩ 0) executed es p ∧
    (∀ moved, Event.failed moved ∉ es) ∧ ¬ StacksApart es := by
  obtain ⟨t1, t2, p1, p2, h1, h2⟩ := executed_threads
  refine ⟨_, p2, .cons h1 (.single h2), fun moved hm => by simp at hm, fun hapart => ?_⟩
  have htop : p1.threadStackTop = processThreadStackTop - (stackSize - 0x1000) := by
    cases h1 with
    | created h => exact threadCreate_created h
  have hdisjoint := (List.pairwise_cons.mp hapart).1 _ List.mem_cons_self
  rw [htop] at hdisjoint
  exact hdisjoint (List.mem_map.mpr ⟨0, by decide, rfl⟩) (List.mem_map.mpr ⟨63, by decide, by decide⟩)

end PiggyOs.UserStacks
