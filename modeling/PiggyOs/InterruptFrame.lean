import PiggyOs.X86

/-! The frame of registers that the entry of an interrupt leaves on the stack, and the way back from it. -/
namespace PiggyOs.InterruptFrame
open ByteMemory X86 Core

/-- The fields of `struct registers`, from the lowest address on; the seven words that follow are not general
registers. -/
def fieldOrder : List Reg :=
  [.r15, .r14, .r13, .r12, .r11, .r10, .r9, .r8, .rsi, .rdi, .rbp, .rdx, .rcx, .rbx, .rax]

@[ext] structure Registers where
  reg : Reg → BitVec 64
  intNumber : BitVec 64
  errorCode : BitVec 64
  rip : BitVec 64
  cs : BitVec 64
  rflags : BitVec 64
  rsp : BitVec 64
  ss : BitVec 64

def registersSize : ℕ := 176

/-- What a `struct registers*` points to. -/
def registersAt (m : Memory) (a : ℕ) : Registers where
  reg r := read64 m (a + 8 * fieldOrder.idxOf r)
  intNumber := read64 m (a + 120)
  errorCode := read64 m (a + 128)
  rip := read64 m (a + 136)
  cs := read64 m (a + 144)
  rflags := read64 m (a + 152)
  rsp := read64 m (a + 160)
  ss := read64 m (a + 168)

/-- The processor has pushed an error code already. -/
def hasErrorCode (num : ℕ) : Bool := num = 8 ∨ 10 ≤ num ∧ num ≤ 14 ∨ num = 17 ∨ num = 21 ∨ num = 29 ∨ num = 30

def interruptStub (num : ℕ) : List Instr :=
  (if hasErrorCode num then [] else [.pushImm 0]) ++ [.pushImm (BitVec.ofNat 64 num)]

def pushRegisters : List Instr :=
  [.push .rax, .push .rbx, .push .rcx, .push .rdx, .push .rbp, .push .rdi, .push .rsi, .push .r8, .push .r9, .push .r10,
    .push .r11, .push .r12, .push .r13, .push .r14, .push .r15]

def popRegisters : List Instr :=
  [.pop .r15, .pop .r14, .pop .r13, .pop .r12, .pop .r11, .pop .r10, .pop .r9, .pop .r8, .pop .rsi, .pop .rdi,
    .pop .rbp, .pop .rdx, .pop .rcx, .pop .rbx, .pop .rax]

/-- For all interrupts but the one with number 255, which stops the processor. -/
def interruptEntry : List Instr := pushRegisters ++ [.cld, .movRsp .rdi, .movImm 0 .rbp]

def interruptExit : List Instr := popRegisters ++ [.addRsp 16]

def kernelCode : BitVec 64 := 0x08
def userCode : BitVec 64 := 0x23

/-- `idt_set_gate` is called with these. -/
def gateIst (num : ℕ) : ℕ := if num = 1 ∨ num = 2 ∨ num = 8 ∨ num = 18 ∨ num = 48 then 1 else if num = 14 then 2 else 0

/-- The first lines of `isr_handler`, and the last. -/
def swapIfUser (c : Core) (frame : ℕ) : Core :=
  if (registersAt c.mem frame).cs &&& 3 ≠ 0 then c.exec .swapgs else c

/-- From the interrupt to the call of the handler. `error` is the code of the processor, for the exceptions that
have one. -/
def enterInterrupt (c : Core) (rsp0 : BitVec 64) (ist : Option (BitVec 64)) (num : ℕ) (error : BitVec 64) : Core :=
  let c := c.deliver rsp0 ist kernelCode
  let c := if hasErrorCode num then c.push error else c
  let c := c.run (interruptStub num ++ interruptEntry)
  swapIfUser c c.rsp.toNat

/-- From the return of the handler on. -/
def leaveInterrupt (c : Core) : Core := ((swapIfUser c c.rsp.toNat).run interruptExit).iretq

/-- What the entry saves. -/
def saved (c : Core) (num : ℕ) (error : BitVec 64) : Registers where
  reg := c.reg
  intNumber := BitVec.ofNat 64 num
  errorCode := if hasErrorCode num then error else 0
  rip := c.rip
  cs := c.cs
  rflags := c.rflags
  rsp := c.rsp
  ss := c.ss

/-- Loading the registers from a frame, as the code after the call does and as `schedule` does. -/
def loadRegisters (c : Core) (r : Registers) : Core :=
  { c with reg := r.reg, rip := r.rip, cs := r.cs, rflags := r.rflags, rsp := r.rsp, ss := r.ss }

section Frames
variable {c : Core} {m m' : Memory} {sp : BitVec 64} {a b : ℕ}

lemma idxOf_lt (r : Reg) : fieldOrder.idxOf r < 15 := by cases r <;> decide

lemma registersAt_congr (h : ∀ k < registersSize, m' (b + k) = m (a + k)) : registersAt m' b = registersAt m a := by
  have hword : ∀ o, o + 8 ≤ registersSize → read64 m' (b + o) = read64 m (a + o) := by
    intro o ho
    refine read64_congr fun k hk => ?_
    rw [Nat.add_assoc, Nat.add_assoc]
    exact h (o + k) (by omega)
  have hreg : ∀ r, read64 m' (b + 8 * fieldOrder.idxOf r) = read64 m (a + 8 * fieldOrder.idxOf r) := by
    intro r
    have := idxOf_lt r
    exact hword _ (by rw [registersSize]; omega)
  simp only [registersAt, hreg, hword 120 (by decide), hword 128 (by decide), hword 136 (by decide),
    hword 144 (by decide), hword 152 (by decide), hword 160 (by decide), hword 168 (by decide)]

/-- The words of a frame in the order in which they are pushed. -/
def Registers.words (r : Registers) : List (BitVec 64) :=
  [r.ss, r.rsp, r.rflags, r.cs, r.rip, r.errorCode, r.intNumber] ++ fieldOrder.reverse.map r.reg

lemma length_words (r : Registers) : r.words.length = 22 := by simp [Registers.words, fieldOrder]

lemma words_reg (r : Registers) (x : Reg) (h : 21 - fieldOrder.idxOf x < r.words.length) :
    r.words[21 - fieldOrder.idxOf x] = r.reg x := by
  cases x <;> rfl

/-- Twenty-two words pushed in their order make a frame. -/
lemma registersAt_stacked (r : Registers) (hroom : registersSize ≤ sp.toNat) :
    registersAt (stacked sp m r.words) (sp.toNat - registersSize) = r := by
  rw [registersSize] at hroom ⊢
  have hlen := length_words r
  have hword : ∀ i (hi : i < r.words.length),
      read64 (stacked sp m r.words) (sp.toNat - 176 + (168 - 8 * i)) = r.words[i] := by
    intro i hi
    rw [← Core.stacked_word (p := sp) (m := m) (by omega) hi]
    refine congrArg (read64 _) ?_
    omega
  refine Registers.ext (funext fun x => ?_) ?_ ?_ ?_ ?_ ?_ ?_ ?_
  · have hx := idxOf_lt x
    rw [← words_reg r x (by omega), ← hword _ (by omega)]
    refine congrArg (read64 _) ?_
    omega
  · exact hword 6 (by omega)
  · exact hword 5 (by omega)
  · exact hword 4 (by omega)
  · exact hword 3 (by omega)
  · exact hword 2 (by omega)
  · exact hword 1 (by omega)
  · exact hword 0 (by omega)

/-- The general registers are the lowest words of a frame. -/
lemma run_popRegisters (hroom : c.rsp.toNat + registersSize < 2 ^ 64) :
    c.run popRegisters = { c with rsp := c.rsp + 120#64, reg := (registersAt c.mem c.rsp.toNat).reg } := by
  have hpop : c.run popRegisters = c.pops fieldOrder := Core.run_popRegs c fieldOrder
  have hreg : (c.pops fieldOrder).reg = (registersAt c.mem c.rsp.toNat).reg := by
    funext x
    refine Core.pops_reg ?_ (by decide) (by cases x <;> decide)
    simp only [fieldOrder, List.length_cons, List.length_nil, registersSize] at hroom ⊢
    omega
  rw [hpop, Core.pops_eq, hreg]
  rfl

/-- The instructions after the call take a frame off the stack. -/
lemma run_interruptExit (hroom : c.rsp.toNat + registersSize < 2 ^ 64) :
    (c.run interruptExit).iretq = loadRegisters c (registersAt c.mem c.rsp.toNat) := by
  have hpop := run_popRegisters hroom
  rw [registersSize] at hroom
  have hrsp : c.rsp + 120#64 + 16 = c.rsp + 136#64 := by
    rw [BitVec.add_assoc]
    rfl
  have hoff : ∀ n < 2 ^ 64, 136 + n < registersSize →
      (c.rsp + 136#64 + BitVec.ofNat 64 n).toNat = c.rsp.toNat + (136 + n) := by
    intro n hn hlt
    rw [registersSize] at hlt
    rw [BitVec.add_assoc, ← BitVec.ofNat_add]
    exact Core.toNat_add_of_lt (by omega)
  have h0 : (c.rsp + 136#64).toNat = c.rsp.toNat + 136 := Core.toNat_add_of_lt (by omega)
  rw [interruptExit, Core.run_append, hpop, Core.run_cons, Core.run_nil, Core.exec, Core.iretq]
  simp only [hrsp, h0, hoff 8 (by decide) (by decide), hoff 16 (by decide) (by decide),
    hoff 24 (by decide) (by decide), hoff 32 (by decide) (by decide)]
  rfl

/-- The code segment is seen on the stack before it is loaded. -/
lemma run_interruptExit_cs (hroom : c.rsp.toNat + registersSize < 2 ^ 64) :
    read64 (c.run interruptExit).mem ((c.run interruptExit).rsp + 8#64).toNat = (registersAt c.mem c.rsp.toNat).cs := by
  have hload := run_interruptExit hroom
  generalize c.run interruptExit = e at hload ⊢
  have hcs : e.iretq.cs = (registersAt c.mem c.rsp.toNat).cs := by
    rw [hload]
    rfl
  exact hcs

/-- What the handler finds: the frame at the end of the stack, and the address of it in its first argument. -/
lemma enterInterrupt_eq (c : Core) {rsp0 sp : BitVec 64} {ist : Option (BitVec 64)} (num : ℕ) (error : BitVec 64)
    (hsp : c.interruptStack rsp0 ist = sp) :
    enterInterrupt c rsp0 ist num error = swapIfUser { c with
      reg := Function.update (Function.update c.reg .rdi (sp - 176#64)) .rbp 0
      rsp := sp - 176#64
      mem := stacked sp c.mem (saved c num error).words
      rflags := c.rflags &&& ~~~0x300 &&& ~~~0x400
      cs := kernelCode
      ss := if c.cs &&& 3 ≠ 0 then 0 else c.ss } (sp - 176#64).toNat := by
  have hstub : (if hasErrorCode num then (c.deliver rsp0 ist kernelCode).push error
      else c.deliver rsp0 ist kernelCode).run (interruptStub num) =
        (c.deliver rsp0 ist kernelCode).pushes [(saved c num error).errorCode, BitVec.ofNat 64 num] := by
    rw [interruptStub, saved]
    cases hasErrorCode num <;> rfl
  have hregs : ∀ d : Core, d.run pushRegisters = d.pushes (fieldOrder.reverse.map d.reg) :=
    fun d => run_pushRegs d fieldOrder.reverse
  have hend : sp - 40#64 - 16#64 - 120#64 = sp - 176#64 := by
    rw [BitVec.sub_sub, BitVec.sub_sub]
    rfl
  have hmem : stacked (sp - 40#64 - 16#64) (stacked (sp - 40#64) (stacked sp c.mem [c.ss, c.rsp, c.rflags, c.cs, c.rip])
      [(saved c num error).errorCode, BitVec.ofNat 64 num]) (fieldOrder.reverse.map c.reg) =
        stacked sp c.mem (saved c num error).words := by
    rw [show (saved c num error).words = [c.ss, c.rsp, c.rflags, c.cs, c.rip] ++
      ([(saved c num error).errorCode, BitVec.ofNat 64 num] ++ fieldOrder.reverse.map c.reg) from rfl,
      stacked_append, stacked_append]
    rfl
  have hlen : BitVec.ofNat 64 (8 * fieldOrder.length) = 120#64 := rfl
  rw [enterInterrupt, run_append, hstub, interruptEntry, run_append, hregs, deliver, hsp, pushes_eq, pushes_eq,
    pushes_eq]
  simp only [run_cons, run_nil, exec, setReg, List.length_cons, List.length_nil, List.length_map, List.length_reverse,
    Nat.reduceAdd, Nat.reduceMul]
  rw [hlen, hend, hmem]

lemma swapIfUser_eq {c : Core} {a : ℕ} {v : BitVec 64} (h : (registersAt c.mem a).cs = v) : swapIfUser c a = { c with
    gsBase := if v &&& 3 ≠ 0 then c.kernelGsBase else c.gsBase
    kernelGsBase := if v &&& 3 ≠ 0 then c.gsBase else c.kernelGsBase } := by
  rw [swapIfUser, h]
  split_ifs <;> rfl

/-- What the handler needs to know of what it finds. -/
structure Entered (c k : Core) (sp : BitVec 64) (num : ℕ) (error : BitVec 64) : Prop where
  rsp : k.rsp.toNat = sp.toNat - registersSize
  rdi : k.reg .rdi = k.rsp
  frame : registersAt k.mem k.rsp.toNat = saved c num error
  outside : ∀ a, a < sp.toNat - registersSize ∨ sp.toNat ≤ a → k.mem a = c.mem a
  cs : k.cs = kernelCode
  fsBase : k.fsBase = c.fsBase
  gsBase : k.gsBase = if c.cs &&& 3 ≠ 0 then c.kernelGsBase else c.gsBase
  kernelGsBase : k.kernelGsBase = if c.cs &&& 3 ≠ 0 then c.gsBase else c.kernelGsBase

lemma enterInterrupt_entered (c : Core) {rsp0 : BitVec 64} {ist : Option (BitVec 64)} (num : ℕ) (error : BitVec 64)
    (hsp : c.interruptStack rsp0 ist = sp) (hroom : registersSize ≤ sp.toNat) :
    Entered c (enterInterrupt c rsp0 ist num error) sp num error := by
  have hlow : (sp - 176#64).toNat = sp.toNat - registersSize := toNat_sub_of_le hroom
  have hframe : registersAt (stacked sp c.mem (saved c num error).words) (sp - 176#64).toNat = saved c num error :=
    (congrArg (registersAt _) hlow).trans (registersAt_stacked (saved c num error) hroom)
  have hlen : 8 * (saved c num error).words.length = registersSize := by rw [length_words, registersSize]
  rw [enterInterrupt_eq c num error hsp, swapIfUser_eq (v := c.cs)]
  · dsimp only
    constructor
    case rsp => exact hlow
    case rdi =>
      dsimp only
      rw [Function.update_of_ne (by decide), Function.update_self]
    case frame =>
      dsimp only
      exact hframe
    case outside =>
      intro a ha
      dsimp only
      exact stacked_outside (by rwa [hlen]) (by rwa [hlen])
    all_goals rfl
  · dsimp only
    rewrite [hframe]
    rfl

/-- A handler returns with the stack and the segment bases as it got them, and has left the frame alone. -/
structure Returned (k h : Core) : Prop where
  rsp : h.rsp = k.rsp
  fsBase : h.fsBase = k.fsBase
  gsBase : h.gsBase = k.gsBase
  kernelGsBase : h.kernelGsBase = k.kernelGsBase
  frame : ∀ i < registersSize, h.mem (k.rsp.toNat + i) = k.mem (k.rsp.toNat + i)

end Frames

/-- User code that is about to take a page fault. -/
def faultingCore : Core :=
  { reg := fun _ => 5, rsp := 0x7000, rip := 0x400000, rflags := 0x246, cs := userCode, ss := 0x1b, fsBase := 0x600000,
    gsBase := 0, kernelGsBase := 0x1000, mem := fun _ => 0 }

end PiggyOs.InterruptFrame
