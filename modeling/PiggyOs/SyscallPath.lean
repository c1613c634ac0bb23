import PiggyOs.Setjmp
import PiggyOs.ThreadRuns

/-! A system call from the C function that makes it to its return: the arguments arrive in the frame of the handler, and
the result or the error comes back. -/
namespace PiggyOs.SyscallPath
open ByteMemory X86 Core InterruptFrame ContextSwitch Setjmp

/-- From where the C function takes the number and the arguments, and where the kernel looks for them. -/
def argumentMoves : List (Reg × Reg) := [(.rdi, .rax), (.rsi, .rdi), (.rdx, .rsi), (.rcx, .rdx), (.r8, .r10)]

/-- Up to the instruction `syscall`. -/
def syscallMoves (n : ℕ) : List Instr := (argumentMoves.take (n + 1)).map fun p => .mov p.1 p.2

/-- `neg`, and two instructions that are skipped for results that are not negative. The store has eight bytes. -/
def setErrnoIfNegative (errno : ℕ) (c : Core) : Core :=
  (if 0 ≤ (c.reg .rdi).toInt then c
    else
      let c := c.setReg .rdi (-c.reg .rdi)
      { c with mem := write64 c.mem errno (c.reg .rdi) }.setReg .rax (-1)).ret

/-- From `syscall` to the call of the handler, with `n` arguments. -/
def enterSyscall (n : ℕ) (lstar : BitVec 64) (c : Core) : Core :=
  ((c.run (syscallMoves n)).syscall lstar 0x700 kernelCode 0x10).run syscallEntry

/-- From the return of the handler to that of the C function. -/
def finishSyscall (errno : ℕ) (target : BitVec 64) (c : Core) : Core :=
  let c := (c.run syscallExit).sysretq userCode 0x1b
  let c := c.run [.mov .rax .rdi]
  (setErrnoIfNegative errno (c.call target)).ret

/-- The block of the processor, and a stack for the frame. -/
structure Kernel (c : Core) (top : BitVec 64) : Prop where
  block : c.kernelGsBase.toNat + 32 < 2 ^ 64
  stack : read64 c.mem (c.kernelGsBase.toNat + 16) = top
  room : registersSize ≤ top.toNat
  apart : c.kernelGsBase.toNat + 32 ≤ top.toNat - registersSize ∨ top.toNat ≤ c.kernelGsBase.toNat

/-- What the handler of a system call does: it leaves a result in the frame. The thread may have gone to another
processor meanwhile. -/
structure Handled (c k h : Core) (result : BitVec 64) : Prop where
  rsp : h.rsp = k.rsp
  room : h.rsp.toNat + registersSize < 2 ^ 64
  frame : (registersAt h.mem h.rsp.toNat).reg = Function.update (registersAt k.mem k.rsp.toNat).reg .rax result
  gsBase : h.kernelGsBase = k.kernelGsBase
  userStack : read64 h.mem (h.gsBase + 24).toNat = c.rsp
  back : read64 h.mem c.rsp.toNat = read64 c.mem c.rsp.toNat

section Entry
variable {c k h : Core} {top lstar : BitVec 64} {n : ℕ}

/-- The moves do not get in each other's way. -/
lemma run_syscallMoves (c : Core) (n : ℕ) : ∃ reg, c.run (syscallMoves n) = { c with reg := reg } ∧
    (∀ p ∈ argumentMoves.take (n + 1), reg p.2 = c.reg p.1) ∧ ∀ r ∈ calleeSaved, reg r = c.reg r := by
  obtain ⟨m, hm, htake⟩ : ∃ m ≤ 4, argumentMoves.take (n + 1) = argumentMoves.take (m + 1) := by
    obtain hn | hn := Nat.le_total n 4
    · exact ⟨n, hn, rfl⟩
    · exact ⟨4, le_rfl, List.take_of_length_le (Nat.succ_le_succ hn)⟩
  rw [syscallMoves, htake]
  interval_cases m <;> refine ⟨_, rfl, ?_, ?_⟩ <;> simp [argumentMoves, calleeSaved, exec, setReg]

/-- The fields of the frame at the top of the stack. -/
lemma registersAt_callStack (p : Private) (m : Memory) (hroom : registersSize ≤ top.toNat) :
    (registersAt (p.callStack top m) (top - 176#64).toNat).reg = p.called := by
  have hlow : (top - 176#64).toNat = top.toNat - 176 := toNat_sub_of_le hroom
  have hsub : (top - 56#64).toNat = top.toNat - 56 := toNat_sub_of_le (by rw [registersSize] at hroom; omega)
  rw [registersSize] at hroom
  funext r
  have hr := idxOf_lt r
  have hlen : (fieldOrder.reverse.map p.called).length = 15 := by rw [List.length_map]; rfl
  have hindex : 14 - fieldOrder.idxOf r < (fieldOrder.reverse.map p.called).length := by omega
  have hword : (fieldOrder.reverse.map p.called)[14 - fieldOrder.idxOf r] = p.called r := by
    cases r <;> rfl
  rw [← hword, ← stacked_word (p := top - 56#64) (by omega)]
  dsimp only [registersAt]
  refine congrArg (read64 _) ?_
  omega

/-- What the handler finds. -/
lemma enterSyscall_spec (hk : Kernel c top) (n : ℕ) (lstar : BitVec 64) :
    (enterSyscall n lstar c).rsp = top - 176#64 ∧ (enterSyscall n lstar c).kernelGsBase = c.gsBase ∧
      (∀ p ∈ argumentMoves.take (n + 1),
        (registersAt (enterSyscall n lstar c).mem (top - 176#64).toNat).reg p.2 = c.reg p.1) ∧
      ∀ r ∈ calleeSaved, (registersAt (enterSyscall n lstar c).mem (top - 176#64).toNat).reg r = c.reg r := by
  obtain ⟨reg, hrun, harguments, hsaved⟩ := run_syscallMoves c n
  obtain ⟨hblock, hstack, hroom, hapart⟩ := hk
  have hsize : registersSize = 176 := rfl
  have h16 : (c.kernelGsBase + 16).toNat = c.kernelGsBase.toNat + 16 := toNat_add_of_lt (n := 16) (by omega)
  have h24 : (c.kernelGsBase + 24).toNat = c.kernelGsBase.toNat + 24 := toNat_add_of_lt (n := 24) (by omega)
  have htop : read64 (write64 c.mem (c.kernelGsBase + 24).toNat c.rsp) (c.kernelGsBase + 16).toNat = top := by
    rw [h16, h24, read64_write64_of_apart _ _ (Or.inr (le_refl _)), hstack]
  have huser : read64 (stacked top (write64 c.mem (c.kernelGsBase + 24).toNat c.rsp) [0x1b])
      (c.kernelGsBase + 24).toNat = c.rsp := by
    have hkept : read64 (stacked top (write64 c.mem (c.kernelGsBase + 24).toNat c.rsp) [0x1b])
        (c.kernelGsBase + 24).toNat =
          read64 (write64 c.mem (c.kernelGsBase + 24).toNat c.rsp) (c.kernelGsBase + 24).toNat := by
      rw [h24]
      refine read64_congr fun k hk => stacked_outside ?_ ?_ <;> simp only [List.length_cons, List.length_nil] <;> omega
    rw [hkept, read64_write64]
  have hentry := run_syscallEntry (d := { c with reg := reg }) lstar rfl htop huser
  -- the frame of a thread with these registers
  have hframe := registersAt_callStack ⟨reg, c.rsp, c.rip, c.rflags, 0, 0, 0, 0, 0, c.mem⟩
    (write64 c.mem (c.kernelGsBase + 24).toNat c.rsp) hroom
  have hmoves : ∀ p ∈ argumentMoves, p.2 ≠ .r11 ∧ p.2 ≠ .rcx := by decide
  have hkept : ∀ r ∈ calleeSaved, r ≠ .r11 ∧ r ≠ .rcx := by decide
  rw [Private.callStack, Private.called] at hframe
  rw [enterSyscall, hrun, hentry]
  dsimp only at hframe ⊢
  rw [hframe]
  refine ⟨rfl, rfl, fun p hp => ?_, fun r hr => ?_⟩
  · obtain ⟨h11, hcx⟩ := hmoves p (List.mem_of_mem_take hp)
    rw [Function.update_of_ne h11, Function.update_of_ne hcx]
    exact harguments p hp
  · obtain ⟨h11, hcx⟩ := hkept r hr
    rw [Function.update_of_ne h11, Function.update_of_ne hcx]
    exact hsaved r hr

end Entry

section Return
variable {c k h : Core} {top lstar target result : BitVec 64} {n errno : ℕ}

/-- The result, or minus one for an error. -/
def returned (result : BitVec 64) : BitVec 64 := if 0 ≤ result.toInt then result else -1

/-- What the C function leaves behind. -/
structure Finished (c h f : Core) (errno : ℕ) (result : BitVec 64) : Prop where
  rax : f.reg .rax = returned result
  rip : f.rip = read64 c.mem c.rsp.toNat
  rsp : f.rsp = c.rsp + 8#64
  cs : f.cs = userCode
  gsBase : f.gsBase = c.gsBase
  saved : ∀ r ∈ calleeSaved, f.reg r = c.reg r
  error : result.toInt < 0 → read64 f.mem errno = -result
  mem : ∀ a, a < c.rsp.toNat - 8 ∨ c.rsp.toNat ≤ a → a < errno ∨ errno + 8 ≤ a ∨ 0 ≤ result.toInt →
    f.mem a = h.mem a

/-- What follows the handler. The address to return to and `errno` are apart. -/
lemma finishSyscall_spec (hk : Kernel c top) (hh : Handled c (enterSyscall n lstar c) h result)
    (hroom : 8 ≤ c.rsp.toNat)
    (hapart : errno + 8 ≤ c.rsp.toNat - 8 ∨ c.rsp.toNat + 8 ≤ errno) (target : BitVec 64) :
    Finished c h (finishSyscall errno target h) errno result := by
  obtain ⟨hrsp, hgs, harguments, hsaved⟩ := enterSyscall_spec hk n lstar
  have hexit := run_sysret hh.room hh.userStack
  have hframe := hh.frame
  rw [hh.rsp, hrsp] at hframe hexit
  rw [hframe, hh.gsBase, hgs] at hexit
  have hslot : (c.rsp - 8#64).toNat = c.rsp.toNat - 8 := toNat_sub_of_le hroom
  have hback : c.rsp - 8#64 + 8#64 = c.rsp := BitVec.sub_add_cancel c.rsp 8#64
  have hword := hh.back
  generalize (registersAt (enterSyscall n lstar c).mem (top - 176#64).toNat).reg = frame at hexit hsaved
  have hrax : Function.update frame .rax result .rax = result := Function.update_self ..
  have hrdi : Function.update (Function.update frame .rax result) .rdi result .rdi = result := Function.update_self ..
  have hother : ∀ r ∈ calleeSaved, r ≠ .rax ∧ r ≠ .rdi := by decide
  rw [finishSyscall, hexit]
  simp only [run_cons, run_nil, exec, setReg, call, push, setErrnoIfNegative, hrax, hrdi]
  split_ifs with hsign
  · simp only [ret, hslot, hback, read64_write64]
    constructor
    case rax =>
      dsimp only
      rw [Function.update_of_ne (by decide), hrax, returned, if_pos hsign]
    case saved =>
      intro r hr
      dsimp only
      rw [Function.update_of_ne (hother r hr).2, Function.update_of_ne (hother r hr).1, hsaved r hr]
    case rip =>
      dsimp only
      rw [read64_write64_of_apart _ _ (Or.inl (by omega)), hword]
    case error => exact fun hneg => absurd hsign (not_le.mpr hneg)
    case mem =>
      intro a ha _
      dsimp only
      exact write64_outside _ _ (by omega)
    all_goals rfl
  · have hneg : Function.update (Function.update (Function.update frame .rax result) .rdi result) .rdi (-result) .rdi =
        -result := Function.update_self ..
    simp only [ret, hslot, hback, hneg, read64_write64,
      read64_write64_of_apart _ _ (show errno + 8 ≤ c.rsp.toNat - 8 ∨ c.rsp.toNat - 8 + 8 ≤ errno by omega)]
    constructor
    case rax =>
      dsimp only
      rw [Function.update_self, returned, if_neg hsign]
    case saved =>
      intro r hr
      dsimp only
      rw [Function.update_of_ne (hother r hr).1, Function.update_of_ne (hother r hr).2,
        Function.update_of_ne (hother r hr).2, Function.update_of_ne (hother r hr).1, hsaved r hr]
    case rip =>
      dsimp only
      rw [read64_write64_of_apart _ _ (by omega), read64_write64_of_apart _ _ (Or.inl (by omega)), hword]
    case error =>
      intro _
      dsimp only
      rw [read64_write64]
    case mem =>
      intro a ha ha'
      dsimp only
      rw [write64_outside _ _ (by omega), write64_outside _ _ (by omega)]
    all_goals rfl

end Return

/-- A call with two arguments; the block of the processor is at 0x1000. -/
def callingCore : Core :=
  { reg := fun r => if r = .rdi then 11 else 3, rsp := 0x8000, rip := 0x400100, rflags := 0x202, cs := 0x23,
    ss := 0x1b, fsBase := 0, gsBase := 0, kernelGsBase := 0x1000,
    mem := write64 (write64 (fun _ => 0) 0x1010 0x20000) 0x8000 0x400200 }

/-- The handler fails with the number two. -/
def failedCore : Core :=
  let k := enterSyscall 2 0x5000 callingCore
  { k with mem := write64 k.mem 0x1ffc0 (-2) }

end PiggyOs.SyscallPath
