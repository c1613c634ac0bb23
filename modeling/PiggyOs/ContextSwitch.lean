import PiggyOs.InterruptFrame
import PiggyOs.Transition

/-! Threads that share processors. Each thread has registers and a kernel stack of its own; the processors hold them
by turns, and between the turns they lie in `struct thread`. -/
namespace PiggyOs.ContextSwitch
open ByteMemory X86 Core InterruptFrame Transition

inductive Place (C T : Type)
  | percpu (c : C)
  | ist (c : C)
  | ctx (t : T)
  | stack (t : T)

/-- Of `struct percpu` only the first four words are used. -/
def Place.size {C T : Type} : Place C T → ℕ
  | .percpu _ => 32
  | .ist _ => 0x8000
  | .ctx _ => registersSize
  | .stack _ => 0x40000

/-- Where these lie. The stack of the gate is the memory below `tss.ist1`, and `lstar` is where `syscall` jumps to. -/
structure Layout (C T : Type) where
  base : Place C T → ℕ
  lstar : BitVec 64
  apart : ∀ p q, p ≠ q → base p + p.size ≤ base q ∨ base q + q.size ≤ base p
  bound : ∀ p, base p + p.size < 2 ^ 64
  istAligned : ∀ c, 16 ∣ base (.ist c)
  stackAligned : ∀ t, 16 ∣ base (.stack t)

def Layout.start {C T : Type} (L : Layout C T) (p : Place C T) : BitVec 64 := BitVec.ofNat 64 (L.base p)

def Layout.top {C T : Type} (L : Layout C T) (p : Place C T) : BitVec 64 := BitVec.ofNat 64 (L.base p + p.size)

/-- The two memories have the same bytes in a place. -/
def Agree {C T : Type} (L : Layout C T) (m m' : Memory) (p : Place C T) : Prop :=
  ∀ a, L.base p ≤ a → a < L.base p + p.size → m' a = m a

/-- The last three are the fields of `struct thread`. -/
structure Machine (C T : Type) where
  regs : C → Regs
  mem : Memory
  running : C → Option T
  rsp0 : C → BitVec 64
  fsBase : T → BitVec 64
  gsBase : T → BitVec 64
  userStack : T → BitVec 64

def syscallEntry : List Instr :=
  [.swapgs, .storeRspGs 24, .loadRspGs 16, .pushImm 0x1b, .pushGs 24, .push .r11, .pushImm 0x23, .push .rcx,
    .subRsp 16] ++ pushRegisters ++ [.sti, .movRsp .rdi, .movImm 0 .rbp]

def syscallExit : List Instr := [.cli] ++ popRegisters ++ [.addRsp 16, .loadRspGs 24, .swapgs]

section Machine
variable {C T : Type} [DecidableEq C] [DecidableEq T] (L : Layout C T) (isUser : T → Bool)

def Machine.core (s : Machine C T) (c : C) : Core := ⟨s.regs c, s.mem⟩

def Machine.put (s : Machine C T) (c : C) (k : Core) : Machine C T :=
  { s with regs := Function.update s.regs c k.toRegs, mem := k.mem }

/-- What `schedule` does with the thread that it leaves; the frame of the interrupt is its first argument. -/
def saveThread (s : Machine C T) (k : Core) (t : T) : Machine C T :=
  let mem := copy s.mem (L.base (.ctx t)) (k.reg .rdi).toNat registersSize
  { s with
    mem := mem
    userStack := if isUser t then Function.update s.userStack t (read64 mem (k.gsBase + 24#64).toNat) else s.userStack
    gsBase := if isUser t then Function.update s.gsBase t k.kernelGsBase else s.gsBase
    fsBase := Function.update s.fsBase t k.fsBase }

/-- What it does with the thread that it goes to, up to `iretq`. -/
def resumeThread (s : Machine C T) (k : Core) (c : C) (n : T) : Machine C T :=
  let mem := write64 s.mem (k.gsBase + 16#64).toNat (L.top (.stack n))
  let mem := if isUser n then write64 mem (k.gsBase + 24#64).toNat (s.userStack n) else mem
  let k := { k with
    mem := mem
    kernelGsBase := if isUser n then s.gsBase n else k.kernelGsBase
    fsBase := s.fsBase n
    rsp := L.start (.ctx n) }
  let k := k.run interruptExit
  let k := if read64 k.mem (k.rsp + 8#64).toNat = userCode then k.exec .swapgs else k
  { s.put c k.iretq with
    running := Function.update s.running c (some n)
    rsp0 := Function.update s.rsp0 c (L.top (.stack n)) }

/-- A whole pass of `schedule`, from interrupt 48 on. Without a next thread the processor waits on the stack of the
gate. -/
def contextSwitch (s : Machine C T) (c : C) (next : Option T) : Machine C T :=
  let k := enterInterrupt (s.core c) (s.rsp0 c) (some (L.top (.ist c))) 48 0
  let s := { s with mem := k.mem }
  let s := match s.running c with
    | none => s
    | some t => saveThread L isUser s k t
  match next with
  | none => { s with regs := Function.update s.regs c k.toRegs, running := Function.update s.running c none }
  | some n => resumeThread L isUser s k c n

/-- The registers and the memory that user code leaves behind. -/
structure UserMove where
  reg : Reg → BitVec 64
  rsp : BitVec 64
  rip : BitVec 64
  rflags : BitVec 64
  fsBase : BitVec 64
  gsBase : BitVec 64
  mem : Memory

/-- The registers and the memory that kernel code leaves behind. -/
structure KernelMove where
  reg : Reg → BitVec 64
  rsp : BitVec 64
  rip : BitVec 64
  rflags : BitVec 64
  mem : Memory

/-- The registers and the memory with which the handler of an interrupt returns. -/
structure Handler where
  reg : Reg → BitVec 64
  rip : BitVec 64
  rflags : BitVec 64
  mem : Memory

/-- What a thread does; `gap` is what lies in the sixteen bytes of the frame that the entry of a system call skips. -/
inductive Action
  | user (u : UserMove)
  | syscall (gap : Memory)
  | kernel (k : KernelMove)
  | sysret

/-- What happens on a processor: an action of the thread that runs there, an interrupt of a device, or interrupt 48. -/
inductive Event (C T : Type)
  | act (c : C) (t : T) (a : Action)
  | interrupt (c : C) (t : T) (num : ℕ) (h : Handler)
  | switch (c : C) (next : Option T)

def Machine.act (s : Machine C T) (c : C) : Action → Machine C T
  | .user u => s.put c { s.core c with
      reg := u.reg, rsp := u.rsp, rip := u.rip, rflags := u.rflags, fsBase := u.fsBase, gsBase := u.gsBase,
      mem := u.mem }
  | .syscall _ => s.put c (((s.core c).syscall L.lstar 0x700 kernelCode 0x10).run syscallEntry)
  | .kernel k => s.put c { s.core c with reg := k.reg, rsp := k.rsp, rip := k.rip, rflags := k.rflags, mem := k.mem }
  | .sysret => s.put c (((s.core c).run syscallExit).sysretq userCode 0x1b)

/-- The gates of devices have no stack of their own. -/
def Machine.enter (s : Machine C T) (c : C) (num : ℕ) : Core := enterInterrupt (s.core c) (s.rsp0 c) none num 0

def Machine.interrupt (s : Machine C T) (c : C) (num : ℕ) (h : Handler) : Machine C T :=
  s.put c (leaveInterrupt { s.enter c num with reg := h.reg, rip := h.rip, rflags := h.rflags, mem := h.mem })

def Machine.apply (s : Machine C T) : Event C T → Machine C T
  | .act c _ a => s.act L c a
  | .interrupt c _ num h => s.interrupt c num h
  | .switch c next => contextSwitch L isUser s c next

/-- When an action is possible. User code cannot write to the kernel's memory. Kernel code stays on its stack and does
not write to those of others, and a system call ends where it began. -/
def Machine.Ready (s : Machine C T) (c : C) (t : T) : Action → Prop
  | .user u => (s.regs c).cs = userCode ∧ ∀ q, Agree L s.mem u.mem q
  | .syscall gap => (s.regs c).cs = userCode ∧
      ∀ i < 16, s.mem ((L.top (.stack t)).toNat - 56 + i) = gap ((L.top (.stack t)).toNat - 56 + i)
  | .kernel k => (s.regs c).cs = kernelCode ∧ L.base (.stack t) ≤ k.rsp.toNat ∧
      k.rsp.toNat ≤ (L.top (.stack t)).toNat ∧ ∀ q, q ≠ .stack t → q ≠ .ctx t → Agree L s.mem k.mem q
  | .sysret => (s.regs c).cs = kernelCode ∧ (s.regs c).rsp.toNat + registersSize = (L.top (.stack t)).toNat ∧ isUser t

/-- When an event is possible. There is room for the frame of an interrupt, and its handler writes below it. A thread
that is taken up does not run already. -/
def Machine.Admits (s : Machine C T) : Event C T → Prop
  | .act c t a => s.running c = some t ∧ s.Ready L isUser c t a
  | .interrupt c t num h => s.running c = some t ∧ 32 ≤ num ∧ num < 255 ∧ num ≠ 48 ∧
      ((s.regs c).cs = kernelCode → L.base (.stack t) + 192 ≤ (s.regs c).rsp.toNat) ∧
      (∀ q, q ≠ .stack t → q ≠ .ctx t → Agree L (s.enter c num).mem h.mem q) ∧
      ∀ a, (s.enter c num).rsp.toNat ≤ a → a < (L.top (.stack t)).toNat → h.mem a = (s.enter c num).mem a
  | .switch _ next => ∀ n ∈ next, ∀ c, s.running c ≠ some n

inductive Step : Machine C T → Event C T → Machine C T → Prop
  | mk {s : Machine C T} {e : Event C T} : s.Admits L isUser e → Step s e (s.apply L isUser e)

end Machine

/-- A thread by itself, as if it had a processor of its own. -/
structure Private where
  reg : Reg → BitVec 64
  rsp : BitVec 64
  rip : BitVec 64
  rflags : BitVec 64
  cs : BitVec 64
  ss : BitVec 64
  fsBase : BitVec 64
  gsBase : BitVec 64
  userStack : BitVec 64
  stack : Memory

/-- `syscall` itself keeps the address to return to and the flags in these two. -/
def Private.called (p : Private) : Reg → BitVec 64 := Function.update (Function.update p.reg .rcx p.rip) .r11 p.rflags

/-- What a system call leaves on the stack. -/
def Private.callStack (p : Private) (top : BitVec 64) (m : Memory) : Memory :=
  stacked (top - 56#64) (stacked top m [0x1b, p.rsp, p.rflags, 0x23, p.rip]) (fieldOrder.reverse.map p.called)

def Private.act (p : Private) (lstar top : BitVec 64) : Action → Private
  | .user u => { p with
      reg := u.reg, rsp := u.rsp, rip := u.rip, rflags := u.rflags, fsBase := u.fsBase, gsBase := u.gsBase }
  | .syscall gap => { p with
      reg := Function.update (Function.update p.called .rdi (top - 176#64)) .rbp 0
      rsp := top - 176#64
      rip := lstar
      rflags := p.rflags &&& ~~~0x700 ||| 0x200
      cs := kernelCode
      ss := 0x10
      userStack := p.rsp
      stack := p.callStack top gap }
  | .kernel k => { p with reg := k.reg, rsp := k.rsp, rip := k.rip, rflags := k.rflags, stack := k.mem }
  | .sysret =>
      let reg := (registersAt p.stack p.rsp.toNat).reg
      { p with
        reg := reg, rsp := p.userStack, rip := reg .rcx, rflags := reg .r11, cs := userCode, ss := 0x1b }

end PiggyOs.ContextSwitch
