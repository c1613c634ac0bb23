import PiggyOs.X86

/-! Jumps out of functions. `setjmp` keeps eight words, and `longjmp` brings them back. -/
namespace PiggyOs.Setjmp
open ByteMemory X86 Core

/-- Up to `ret`. -/
def setjmpCode : List Instr :=
  [.store .rbx 0 .rdi, .store .rbp 8 .rdi, .storeRsp 16 .rdi, .store .r12 24 .rdi, .store .r13 32 .rdi,
    .store .r14 40 .rdi, .store .r15 48 .rdi, .loadTop .rax, .store .rax 56 .rdi, .movImm 0 .rax]

/-- Up to the test of the second argument. -/
def longjmpCode : List Instr :=
  [.load 0 .rdi .rbx, .load 8 .rdi .rbp, .loadRsp 16 .rdi, .load 24 .rdi .r12, .load 32 .rdi .r13, .load 40 .rdi .r14,
    .load 48 .rdi .r15, .load 56 .rdi .rax, .storeTop .rax, .mov .rsi .rax]

def setjmp (c : Core) : Core := (c.run setjmpCode).ret

def longjmp (c : Core) : Core :=
  let c := c.run longjmpCode
  (if c.reg .rax = 0 then c.setReg .rax (c.reg .rax + 1) else c).ret

/-- The registers that a function has to give back as it got them. -/
def calleeSaved : List Reg := [.rbx, .rbp, .r12, .r13, .r14, .r15]

def jmpBufSize : ℕ := 64

section Jumps
variable {c d : Core} {f : BitVec 64}

/-- What `setjmp` keeps when it was called from `c`. -/
def jmpWords (c : Core) : List (BitVec 64) :=
  [c.reg .rbx, c.reg .rbp, c.rsp - 8#64, c.reg .r12, c.reg .r13, c.reg .r14, c.reg .r15, c.rip]

lemma toNat_words (hroom : (c.reg .rdi).toNat + jmpBufSize ≤ 2 ^ 64) :
    (c.reg .rdi + 0).toNat = (c.reg .rdi).toNat ∧ (c.reg .rdi + 8).toNat = (c.reg .rdi).toNat + 8 ∧
      (c.reg .rdi + 16).toNat = (c.reg .rdi).toNat + 16 ∧ (c.reg .rdi + 24).toNat = (c.reg .rdi).toNat + 24 ∧
      (c.reg .rdi + 32).toNat = (c.reg .rdi).toNat + 32 ∧ (c.reg .rdi + 40).toNat = (c.reg .rdi).toNat + 40 ∧
      (c.reg .rdi + 48).toNat = (c.reg .rdi).toNat + 48 ∧ (c.reg .rdi + 56).toNat = (c.reg .rdi).toNat + 56 := by
  rw [jmpBufSize] at hroom
  have hword : ∀ n < 64, (c.reg .rdi + BitVec.ofNat 64 n).toNat = (c.reg .rdi).toNat + n :=
    fun n hn => toNat_add_of_lt (by omega)
  exact ⟨hword 0 (by decide), hword 8 (by decide), hword 16 (by decide), hword 24 (by decide), hword 32 (by decide),
    hword 40 (by decide), hword 48 (by decide), hword 56 (by decide)⟩

/-- The stack has room for the return address, and the words are kept elsewhere. -/
structure Fits (c : Core) : Prop where
  room : (c.reg .rdi).toNat + jmpBufSize ≤ 2 ^ 64
  stack : 8 ≤ c.rsp.toNat
  apart : (c.reg .rdi).toNat + jmpBufSize ≤ c.rsp.toNat - 8 ∨ c.rsp.toNat ≤ (c.reg .rdi).toNat

/-- The memory of the call. -/
def calledMemory (c : Core) : Memory := write64 c.mem (c.rsp - 8#64).toNat c.rip

/-- `setjmp` returns zero and changes its eight words. -/
lemma setjmp_eq (h : Fits c) (f : BitVec 64) : setjmp (c.call f) = { c with
    reg := Function.update c.reg .rax 0
    mem := stored (c.reg .rdi).toNat (calledMemory c) (jmpWords c) } := by
  obtain ⟨hroom, hstack, hapart⟩ := h
  obtain ⟨h0, h8, h16, h24, h32, h40, h48, h56⟩ := toNat_words hroom
  have hslot : (c.rsp - 8#64).toNat = c.rsp.toNat - 8 := toNat_sub_of_le hstack
  have hback : c.rsp - 8#64 + 8#64 = c.rsp := BitVec.sub_add_cancel c.rsp 8#64
  rw [jmpBufSize] at hapart
  have hreturn : ∀ l : List (BitVec 64), l.length ≤ 8 →
      read64 (stored (c.reg .rdi).toNat (calledMemory c) l) (c.rsp - 8#64).toNat = c.rip := by
    intro l hl
    have hkept : read64 (stored (c.reg .rdi).toNat (calledMemory c) l) (c.rsp - 8#64).toNat =
        read64 (calledMemory c) (c.rsp - 8#64).toNat :=
      read64_congr fun k hk => stored_outside (by omega)
    rw [hkept, calledMemory, read64_write64]
  have hseven : (c.call f).run (setjmpCode.take 7) = { c with
      rsp := c.rsp - 8#64
      rip := f
      mem := stored (c.reg .rdi).toNat (calledMemory c) ((jmpWords c).take 7) } := by
    simp only [setjmpCode, jmpWords, List.take_succ_cons, List.take_zero, run_cons, run_nil, exec, call, push, stored,
      calledMemory, h0, h8, h16, h24, h32, h40, h48, Nat.add_assoc, Nat.reduceAdd]
  have hlast : stored (c.reg .rdi).toNat (calledMemory c) (jmpWords c) = write64
      (stored (c.reg .rdi).toNat (calledMemory c) ((jmpWords c).take 7)) ((c.reg .rdi).toNat + 56) c.rip := by
    simp only [jmpWords, List.take_succ_cons, List.take_zero, stored, Nat.add_assoc, Nat.reduceAdd]
  have hrdi : Function.update c.reg .rax c.rip .rdi = c.reg .rdi := Function.update_of_ne (by decide) ..
  rw [setjmp, show setjmpCode = setjmpCode.take 7 ++ [.loadTop .rax, .store .rax 56 .rdi, .movImm 0 .rax] from rfl,
    run_append, hseven]
  have hseventh := hreturn ((jmpWords c).take 7) (by simp [jmpWords])
  have hlater := hreturn (jmpWords c) (by simp [jmpWords])
  rw [hlast] at hlater ⊢
  simp only [run_cons, run_nil, exec, setReg, ret, hseventh, hrdi, h56, Function.update_self, Function.update_idem,
    hlater, hback]

/-- The registers of `d`, those that are kept as in `c`, and a result. -/
def jumpedRegs (c d : Core) (result : BitVec 64) (r : Reg) : BitVec 64 :=
  if r ∈ calleeSaved then c.reg r else if r = .rax then result else d.reg r

/-- `longjmp` loads the eight words, wherever they are. -/
lemma longjmp_eq (hroom : (d.reg .rdi).toNat + jmpBufSize ≤ 2 ^ 64)
    (hwords : ∀ i (hi : i < (jmpWords c).length), read64 d.mem ((d.reg .rdi).toNat + 8 * i) = (jmpWords c)[i]) :
    longjmp d = { d with
      reg := jumpedRegs c d (if d.reg .rsi = 0 then 1 else d.reg .rsi)
      rip := c.rip
      rsp := c.rsp
      mem := write64 d.mem (c.rsp - 8#64).toNat c.rip } := by
  obtain ⟨h0, h8, h16, h24, h32, h40, h48, h56⟩ := toNat_words hroom
  have hback : c.rsp - 8#64 + 8#64 = c.rsp := BitVec.sub_add_cancel c.rsp 8#64
  have w0 : read64 d.mem (d.reg .rdi).toNat = c.reg .rbx := hwords 0 (by simp [jmpWords])
  have w1 : read64 d.mem ((d.reg .rdi).toNat + 8) = c.reg .rbp := hwords 1 (by simp [jmpWords])
  have w2 : read64 d.mem ((d.reg .rdi).toNat + 16) = c.rsp - 8#64 := hwords 2 (by simp [jmpWords])
  have w3 : read64 d.mem ((d.reg .rdi).toNat + 24) = c.reg .r12 := hwords 3 (by simp [jmpWords])
  have w4 : read64 d.mem ((d.reg .rdi).toNat + 32) = c.reg .r13 := hwords 4 (by simp [jmpWords])
  have w5 : read64 d.mem ((d.reg .rdi).toNat + 40) = c.reg .r14 := hwords 5 (by simp [jmpWords])
  have w6 : read64 d.mem ((d.reg .rdi).toNat + 48) = c.reg .r15 := hwords 6 (by simp [jmpWords])
  have w7 : read64 d.mem ((d.reg .rdi).toNat + 56) = c.rip := hwords 7 (by simp [jmpWords])
  have hregs : Function.update (Function.update (Function.update (Function.update (Function.update (Function.update
      (Function.update (Function.update d.reg .rbx (c.reg .rbx)) .rbp (c.reg .rbp)) .r12 (c.reg .r12)) .r13
      (c.reg .r13)) .r14 (c.reg .r14)) .r15 (c.reg .r15)) .rax c.rip) .rax (d.reg .rsi) =
      jumpedRegs c d (d.reg .rsi) := by
    funext r
    cases r <;> rfl
  have hrun : d.run longjmpCode = { d with
      reg := jumpedRegs c d (d.reg .rsi)
      rsp := c.rsp - 8#64
      mem := write64 d.mem (c.rsp - 8#64).toNat c.rip } := by
    rw [← hregs]
    simp (disch := decide) only [longjmpCode, run_cons, run_nil, exec, setReg, h0, h8, h16, h24, h32, h40, h48, h56,
      w0, w1, w2, w3, w4, w5, w6, w7, Function.update_of_ne, Function.update_self]
  have hrax : jumpedRegs c d (d.reg .rsi) .rax = d.reg .rsi := rfl
  have hone : d.reg .rsi = 0 →
      Function.update (jumpedRegs c d (d.reg .rsi)) .rax (d.reg .rsi + 1) = jumpedRegs c d 1 := by
    intro hzero
    rw [hzero]
    funext r
    cases r <;> rfl
  rw [longjmp, hrun]
  simp only [hrax]
  split_ifs with hzero
  · simp only [setReg, ret, hone hzero, read64_write64, hback]
  · simp only [ret, read64_write64, hback]

lemma length_jmpWords (c : Core) : (jmpWords c).length = 8 := rfl

/-- The eight words are where `longjmp` looks for them, as long as nobody writes there. -/
lemma kept_words (h : Fits c) (f : BitVec 64) {m : Memory}
    (hkept : ∀ i < jmpBufSize, m ((c.reg .rdi).toNat + i) = (setjmp (c.call f)).mem ((c.reg .rdi).toNat + i)) {i : ℕ}
    (hi : i < (jmpWords c).length) : read64 m ((c.reg .rdi).toNat + 8 * i) = (jmpWords c)[i] := by
  have hlen := length_jmpWords c
  rw [setjmp_eq h f, jmpBufSize] at hkept
  rw [← stored_word (a := (c.reg .rdi).toNat) (m := calledMemory c) hi]
  refine read64_congr fun k hk => ?_
  rw [Nat.add_assoc]
  exact hkept _ (by omega)

/-- Whatever runs between the two and leaves the eight words alone, `longjmp` goes back to the call of `setjmp` with its
stack and its registers, and it can do so again. -/
theorem longjmp_returns (h : Fits c) (f : BitVec 64) (henv : d.reg .rdi = c.reg .rdi)
    (hkept : ∀ i < jmpBufSize,
      d.mem ((c.reg .rdi).toNat + i) = (setjmp (c.call f)).mem ((c.reg .rdi).toNat + i)) :
    setjmp (c.call f) = { c with reg := Function.update c.reg .rax 0, mem := (setjmp (c.call f)).mem } ∧
      longjmp d = { d with
        reg := jumpedRegs c d (if d.reg .rsi = 0 then 1 else d.reg .rsi)
        rip := c.rip
        rsp := c.rsp
        mem := (longjmp d).mem } ∧
      (∀ a, a < c.rsp.toNat - 8 ∨ c.rsp.toNat ≤ a → (longjmp d).mem a = d.mem a ∧
        (a < (c.reg .rdi).toNat ∨ (c.reg .rdi).toNat + jmpBufSize ≤ a → (setjmp (c.call f)).mem a = c.mem a)) ∧
      ∀ i < jmpBufSize,
        (longjmp d).mem ((c.reg .rdi).toNat + i) = (setjmp (c.call f)).mem ((c.reg .rdi).toNat + i) := by
  have hroom := h.room
  have hstack := h.stack
  have hapart := h.apart
  have hslot : (c.rsp - 8#64).toNat = c.rsp.toNat - 8 := toNat_sub_of_le hstack
  have hjump : longjmp d = _ := longjmp_eq (c := c) (henv ▸ hroom) fun i hi => by
    rw [henv]
    exact kept_words h f hkept hi
  have hmem : ∀ a, a < c.rsp.toNat - 8 ∨ c.rsp.toNat ≤ a → (longjmp d).mem a = d.mem a := by
    intro a ha
    rw [hjump]
    exact write64_outside _ _ (by omega)
  refine ⟨?_, ?_, fun a ha => ⟨hmem a ha, fun ha' => ?_⟩, fun i hi => ?_⟩
  · rw [setjmp_eq h f]
  · rw [hjump]
  · rw [setjmp_eq h f]
    dsimp only
    rw [stored_outside (by rw [length_jmpWords]; exact ha'), calledMemory, write64_outside _ _ (by omega)]
  · rw [hmem _ (by omega), hkept i hi]

end Jumps

/-- A program with its stack below and its buffer above. -/
def jumpingCore : Core :=
  { reg := fun r => if r = .rdi then 0x9000 else 3, rsp := 0x8000, rip := 0x400100, rflags := 0x202, cs := 0x23,
    ss := 0x1b, fsBase := 0, gsBase := 0, kernelGsBase := 0, mem := fun _ => 0 }

/-- A jump with another stack and other registers, and the number five. -/
theorem longjmp_returns_five : ∃ d, d.reg .rsi = 5 ∧ longjmp d = { d with
    reg := jumpedRegs jumpingCore d 5
    rip := 0x400100
    rsp := 0x8000
    mem := (longjmp d).mem } := by
  let d : Core := { setjmp (jumpingCore.call 0x400800) with
    rsp := 0x7000, reg := fun r => if r = .rdi then 0x9000 else 5 }
  exact ⟨d, rfl, (longjmp_returns (c := jumpingCore) (d := d) ⟨by decide, by decide, by decide⟩ 0x400800 rfl
    fun _ _ => rfl).2.1⟩

end PiggyOs.Setjmp
