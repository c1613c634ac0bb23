import PiggyOs.ByteMemory

/-! A few instructions of an x86-64 processor, and what the gates of interrupts and system calls do to its
registers and its stack. The arithmetic flags are not kept. -/
namespace PiggyOs.X86
open ByteMemory

inductive Reg
  | rax | rbx | rcx | rdx | rbp | rdi | rsi | r8 | r9 | r10 | r11 | r12 | r13 | r14 | r15
  deriving DecidableEq, Repr

/-- The registers of a processor; `gsBase` is in use, and `kernelGsBase` is what `swapgs` exchanges it with. -/
structure Regs where
  reg : Reg → BitVec 64
  rsp : BitVec 64
  rip : BitVec 64
  rflags : BitVec 64
  cs : BitVec 64
  ss : BitVec 64
  fsBase : BitVec 64
  gsBase : BitVec 64
  kernelGsBase : BitVec 64

structure Core extends Regs where
  mem : Memory

inductive Instr
  | push (r : Reg)
  | pushImm (v : BitVec 64)
  | pushGs (o : BitVec 64)
  | pop (r : Reg)
  | addRsp (n : BitVec 64)
  | subRsp (n : BitVec 64)
  | load (o : BitVec 64) (r s : Reg)
  | store (r : Reg) (o : BitVec 64) (s : Reg)
  | storeRsp (o : BitVec 64) (s : Reg)
  | loadRsp (o : BitVec 64) (s : Reg)
  | loadTop (r : Reg)
  | storeTop (r : Reg)
  | mov (r s : Reg)
  | movImm (v : BitVec 64) (r : Reg)
  | movRsp (r : Reg)
  | storeRspGs (o : BitVec 64)
  | loadRspGs (o : BitVec 64)
  | swapgs
  | cld
  | sti
  | cli
  deriving DecidableEq, Repr

namespace Core

def setReg (c : Core) (r : Reg) (v : BitVec 64) : Core := { c with reg := Function.update c.reg r v }

def push (c : Core) (v : BitVec 64) : Core :=
  { c with rsp := c.rsp - 8#64, mem := write64 c.mem (c.rsp - 8#64).toNat v }

def pop (c : Core) (r : Reg) : Core :=
  { c with reg := Function.update c.reg r (read64 c.mem c.rsp.toNat), rsp := c.rsp + 8#64 }

def exec (c : Core) : Instr → Core
  | .push r => c.push (c.reg r)
  | .pushImm v => c.push v
  | .pushGs o => c.push (read64 c.mem (c.gsBase + o).toNat)
  | .pop r => c.pop r
  | .addRsp n => { c with rsp := c.rsp + n }
  | .subRsp n => { c with rsp := c.rsp - n }
  | .load o r s => c.setReg s (read64 c.mem (c.reg r + o).toNat)
  | .store r o s => { c with mem := write64 c.mem (c.reg s + o).toNat (c.reg r) }
  | .storeRsp o s => { c with mem := write64 c.mem (c.reg s + o).toNat c.rsp }
  | .loadRsp o s => { c with rsp := read64 c.mem (c.reg s + o).toNat }
  | .loadTop r => c.setReg r (read64 c.mem c.rsp.toNat)
  | .storeTop r => { c with mem := write64 c.mem c.rsp.toNat (c.reg r) }
  | .mov r s => c.setReg s (c.reg r)
  | .movImm v r => c.setReg r v
  | .movRsp r => c.setReg r c.rsp
  | .storeRspGs o => { c with mem := write64 c.mem (c.gsBase + o).toNat c.rsp }
  | .loadRspGs o => { c with rsp := read64 c.mem (c.gsBase + o).toNat }
  | .swapgs => { c with gsBase := c.kernelGsBase, kernelGsBase := c.gsBase }
  | .cld => { c with rflags := c.rflags &&& ~~~0x400 }
  | .sti => { c with rflags := c.rflags ||| 0x200 }
  | .cli => { c with rflags := c.rflags &&& ~~~0x200 }

def run (c : Core) (is : List Instr) : Core := is.foldl exec c

def pushes (c : Core) (vs : List (BitVec 64)) : Core := vs.foldl push c

/-- The memory after words were pushed on the stack. -/
def stacked (sp : BitVec 64) (m : Memory) : List (BitVec 64) → Memory
  | [] => m
  | v :: vs => stacked (sp - 8#64) (write64 m (sp - 8#64).toNat v) vs

/-- Words at increasing addresses. -/
def stored (a : ℕ) (m : Memory) : List (BitVec 64) → Memory
  | [] => m
  | v :: vs => stored (a + 8) (write64 m a v) vs

def pops (c : Core) (rs : List Reg) : Core := rs.foldl pop c

/-- The stack on which an interrupt is taken: that of the gate, if it has one, or else that of the kernel if user
code was running. -/
def interruptStack (c : Core) (rsp0 : BitVec 64) (ist : Option (BitVec 64)) : BitVec 64 :=
  let top := ist.getD (if c.cs &&& 3 ≠ 0 then rsp0 else c.rsp)
  top - top % 16

/-- The processor takes an interrupt and pushes five words. -/
def deliver (c : Core) (rsp0 : BitVec 64) (ist : Option (BitVec 64)) (kernelCs : BitVec 64) : Core :=
  { { c with rsp := c.interruptStack rsp0 ist }.pushes [c.ss, c.rsp, c.rflags, c.cs, c.rip] with
    rflags := c.rflags &&& ~~~0x300
    cs := kernelCs
    ss := if c.cs &&& 3 ≠ 0 then 0 else c.ss }

def iretq (c : Core) : Core :=
  { c with
    rip := read64 c.mem c.rsp.toNat
    cs := read64 c.mem (c.rsp + 8#64).toNat
    rflags := read64 c.mem (c.rsp + 16#64).toNat
    rsp := read64 c.mem (c.rsp + 24#64).toNat
    ss := read64 c.mem (c.rsp + 32#64).toNat }

def syscall (c : Core) (entry mask kernelCs kernelSs : BitVec 64) : Core :=
  { c.setReg .rcx c.rip |>.setReg .r11 c.rflags with
    rip := entry
    rflags := c.rflags &&& ~~~mask
    cs := kernelCs
    ss := kernelSs }

def sysretq (c : Core) (userCs userSs : BitVec 64) : Core :=
  { c with rip := c.reg .rcx, rflags := c.reg .r11, cs := userCs, ss := userSs }

def call (c : Core) (target : BitVec 64) : Core := { c.push c.rip with rip := target }

def ret (c : Core) : Core := { c with rip := read64 c.mem c.rsp.toNat, rsp := c.rsp + 8#64 }

section Stack
variable {c : Core} {p : BitVec 64} {m m' : Memory} {l : List (BitVec 64)} {r : Reg} {rs : List Reg} {a b i : ℕ}

lemma toNat_sub_of_le {x : BitVec 64} {n : ℕ} (h : n ≤ x.toNat) : (x - BitVec.ofNat 64 n).toNat = x.toNat - n := by
  have hx := x.isLt
  rw [BitVec.toNat_sub, BitVec.toNat_ofNat, Nat.mod_eq_of_lt (show n < 2 ^ 64 by omega)]
  omega

lemma toNat_add_of_lt {x : BitVec 64} {n : ℕ} (h : x.toNat + n < 2 ^ 64) :
    (x + BitVec.ofNat 64 n).toNat = x.toNat + n := by
  rw [BitVec.toNat_add, BitVec.toNat_ofNat, Nat.mod_eq_of_lt (show n < 2 ^ 64 by omega), Nat.mod_eq_of_lt h]

@[simp] lemma run_nil (c : Core) : c.run [] = c := rfl

@[simp] lemma run_cons (c : Core) (i : Instr) (is : List Instr) : c.run (i :: is) = (c.exec i).run is := rfl

lemma run_append (c : Core) (is js : List Instr) : c.run (is ++ js) = (c.run is).run js := List.foldl_append

/-- Pushing changes the stack pointer and the memory. -/
lemma pushes_eq (c : Core) (l : List (BitVec 64)) :
    c.pushes l = { c with rsp := c.rsp - BitVec.ofNat 64 (8 * l.length), mem := stacked c.rsp c.mem l } := by
  induction l generalizing c with
  | nil => simp [pushes, stacked]
  | cons v l ih =>
    have hrsp : c.rsp - 8#64 - BitVec.ofNat 64 (8 * l.length) = c.rsp - BitVec.ofNat 64 (8 * (v :: l).length) := by
      rw [List.length_cons, Nat.mul_succ, Nat.add_comm, BitVec.ofNat_add, BitVec.sub_sub]
    rw [← hrsp]
    exact ih (c.push v)

/-- One register after the other. -/
lemma run_pushRegs (c : Core) (rs : List Reg) : c.run (rs.map .push) = c.pushes (rs.map c.reg) := by
  induction rs generalizing c with
  | nil => rfl
  | cons r rs ih => exact ih (c.push (c.reg r))

lemma stacked_append (p : BitVec 64) (m : Memory) (l ws : List (BitVec 64)) :
    stacked p m (l ++ ws) = stacked (p - BitVec.ofNat 64 (8 * l.length)) (stacked p m l) ws := by
  induction l generalizing p m with
  | nil => simp [stacked]
  | cons v l ih =>
    have hsp : p - 8#64 - BitVec.ofNat 64 (8 * l.length) = p - BitVec.ofNat 64 (8 * (v :: l).length) := by
      rw [List.length_cons, Nat.mul_succ, Nat.add_comm, BitVec.ofNat_add, BitVec.sub_sub]
    rw [← hsp]
    exact ih (p - 8#64) (write64 m (p - 8#64).toNat v)

lemma stacked_outside (hroom : 8 * l.length ≤ p.toNat) (hb : b < p.toNat - 8 * l.length ∨ p.toNat ≤ b) :
    stacked p m l b = m b := by
  induction l generalizing p m with
  | nil => rfl
  | cons v l ih =>
    have hlen : (v :: l).length = l.length + 1 := rfl
    have hsp : (p - 8#64).toNat = p.toNat - 8 := toNat_sub_of_le (by omega)
    refine (ih (by omega) (by omega)).trans (write64_outside _ _ ?_)
    omega

/-- What was pushed is there, the first word at the highest address. -/
lemma stacked_word (hroom : 8 * l.length ≤ p.toNat) (hi : i < l.length) :
    read64 (stacked p m l) (p.toNat - 8 * (i + 1)) = l[i] := by
  induction l generalizing p m i with
  | nil => simp at hi
  | cons v l ih =>
    have hlen : (v :: l).length = l.length + 1 := rfl
    have hsp : (p - 8#64).toNat = p.toNat - 8 := toNat_sub_of_le (by omega)
    cases i with
    | zero =>
      have hkept : read64 (stacked p m (v :: l)) (p.toNat - 8) = read64 (write64 m (p - 8#64).toNat v) (p.toNat - 8) :=
        read64_congr fun k hk => stacked_outside (p := p - 8#64) (l := l) (by omega) (by omega)
      rw [List.getElem_cons_zero, Nat.zero_add, Nat.mul_one, hkept, hsp, read64_write64]
    | succ i =>
      rw [List.getElem_cons_succ, ← ih (p := p - 8#64) (m := write64 m (p - 8#64).toNat v) (by omega) (by omega)]
      refine congrArg (read64 _) ?_
      omega

/-- The bytes that were pushed do not depend on what was there. -/
lemma stacked_congr (hroom : 8 * l.length ≤ p.toNat)
    (hb : p.toNat - 8 * l.length ≤ b ∧ b < p.toNat ∨ m b = m' b) : stacked p m l b = stacked p m' l b := by
  induction l generalizing p m m' with
  | nil =>
    rw [List.length_nil] at hb
    exact hb.resolve_left (by omega)
  | cons v l ih =>
    have hlen : (v :: l).length = l.length + 1 := rfl
    have hsp : (p - 8#64).toNat = p.toNat - 8 := toNat_sub_of_le (by omega)
    refine ih (by omega) ?_
    by_cases hlow : p.toNat - 8 ≤ b ∧ b < p.toNat
    · right
      rw [write64, write64, if_pos (by omega), if_pos (by omega)]
    · rcases hb with hb | hb
      · left
        omega
      · right
        rw [write64, write64, if_neg (by omega), if_neg (by omega), hb]

lemma stored_outside (hb : b < a ∨ a + 8 * l.length ≤ b) : stored a m l b = m b := by
  induction l generalizing a m with
  | nil => rfl
  | cons v l ih =>
    rw [List.length_cons] at hb
    exact (ih (by omega)).trans (write64_outside m v (by omega))

lemma stored_word (hi : i < l.length) : read64 (stored a m l) (a + 8 * i) = l[i] := by
  induction l generalizing a m i with
  | nil => simp at hi
  | cons v l ih =>
    cases i with
    | zero =>
      have hkept : read64 (stored a m (v :: l)) a = read64 (write64 m a v) a :=
        read64_congr fun k hk => stored_outside (l := l) (by omega)
      rw [Nat.mul_zero, Nat.add_zero, hkept, read64_write64, List.getElem_cons_zero]
    | succ i =>
      rw [List.getElem_cons_succ, ← ih (a := a + 8) (m := write64 m a v) (Nat.lt_of_succ_lt_succ hi)]
      refine congrArg (read64 _) ?_
      omega

lemma run_popRegs (c : Core) (rs : List Reg) : c.run (rs.map .pop) = c.pops rs := by
  induction rs generalizing c with
  | nil => rfl
  | cons r rs ih => exact ih (c.pop r)

/-- Popping changes the stack pointer and the registers that are popped. -/
lemma pops_eq (c : Core) (rs : List Reg) :
    c.pops rs = { c with rsp := c.rsp + BitVec.ofNat 64 (8 * rs.length), reg := (c.pops rs).reg } := by
  induction rs generalizing c with
  | nil => simp [pops]
  | cons r rs ih =>
    have hrsp : c.rsp + 8#64 + BitVec.ofNat 64 (8 * rs.length) = c.rsp + BitVec.ofNat 64 (8 * (r :: rs).length) := by
      rw [List.length_cons, Nat.mul_succ, Nat.add_comm (8 * rs.length), BitVec.ofNat_add, BitVec.add_assoc]
    change (c.pop r).pops rs = { c with rsp := _, reg := ((c.pop r).pops rs).reg }
    rw [← hrsp]
    exact ih (c.pop r)

lemma pops_other (c : Core) (hr : r ∉ rs) : (c.pops rs).reg r = c.reg r := by
  induction rs generalizing c with
  | nil => rfl
  | cons s rs ih =>
    rw [List.mem_cons, not_or] at hr
    exact (ih (c.pop s) hr.2).trans (Function.update_of_ne hr.1 _ _)

/-- The register that is popped first gets the word at the top of the stack. -/
lemma pops_reg (hroom : c.rsp.toNat + 8 * rs.length < 2 ^ 64) (hrs : rs.Nodup) (hr : r ∈ rs) :
    (c.pops rs).reg r = read64 c.mem (c.rsp.toNat + 8 * rs.idxOf r) := by
  induction rs generalizing c with
  | nil => simp at hr
  | cons s rs ih =>
    obtain ⟨hs, hrs⟩ := List.nodup_cons.mp hrs
    have hlen : (s :: rs).length = rs.length + 1 := rfl
    have hsp : (c.pop s).rsp.toNat = c.rsp.toNat + 8 := toNat_add_of_lt (by omega)
    by_cases hrs' : r = s
    · subst hrs'
      rw [List.idxOf_cons_self, Nat.mul_zero, Nat.add_zero]
      exact (pops_other (c.pop r) hs).trans (Function.update_self ..)
    · have hmem : r ∈ rs := (List.mem_cons.mp hr).resolve_left hrs'
      refine (ih (c := c.pop s) (by omega) hrs hmem).trans ?_
      rw [hsp, List.idxOf_cons_ne _ (Ne.symm hrs')]
      refine congrArg (read64 c.mem) ?_
      omega

end Stack

end Core

end PiggyOs.X86
