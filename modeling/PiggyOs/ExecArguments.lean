import PiggyOs.Stores
import PiggyOs.CString
import PiggyOs.UserAccess
import PiggyOs.UserStacks

/-! How `thread_create` copies the arguments and the environment of a program to the top of its first
stack, and how far down that reaches. -/
namespace PiggyOs.ExecArguments
open ByteMemory Stores Vmm Fork UserStacks CString
open UserAccess (checkUserPtr)
open Elf (enomem efault enoexec)
open Descriptors (enoent)

section Code

/-- The strings are copied one below the other; `length` bytes and the terminator are two stores. -/
def pushStrings : BitVec 64 → List CString → BitVec 64 × List Store
  | stack, [] => (stack, [])
  | stack, s :: ss =>
      let length := BitVec.ofNat 64 s.strlen
      let stack := stack - length - 1
      let rest := pushStrings stack ss
      (rest.1, ⟨stack.toNat, s.1⟩ :: ⟨(stack + length).toNat, [0]⟩ :: rest.2)

/-- The addresses of the strings, counted down a second time for the program, are stored from
`stack[i]` on. -/
def storePointers (stack : BitVec 64) : ℕ → BitVec 64 → List CString → BitVec 64 × List Store
  | _, oldRsp, [] => (oldRsp, [])
  | i, oldRsp, s :: ss =>
      let oldRsp := oldRsp - (BitVec.ofNat 64 s.strlen + 1)
      let rest := storePointers stack (i + 1) oldRsp ss
      (rest.1, ⟨(stack + BitVec.ofNat 64 i * 8).toNat, word oldRsp⟩ :: rest.2)

/-- What is stored, at which addresses of the kernel, and what becomes of the registers. -/
structure Layout where
  stores : List Store
  rdi : BitVec 64
  rsi : BitVec 64
  rdx : BitVec 64
  rsp : BitVec 64

/-- The block for the first thread; `paddr` is the stack, and `rsp` its end as the program addresses it.
C does not define what becomes of the counters behind the last `int`. -/
def layout (highVma : ℕ) (argv envp : List CString) (paddr : ℕ) (rsp : BitVec 64) : Layout :=
  let stackTop := BitVec.ofNat 64 (paddr + stackSize.toNat + highVma)
  let envStrings := pushStrings stackTop envp
  let argStrings := pushStrings envStrings.1 argv
  let stack := argStrings.1 / 16 * 16
  let stack := if (argv.length + envp.length + 1) % 2 ≠ 0 then stack - 8 else stack
  let envNull := stack - 8
  let envStack := envNull - BitVec.ofNat 64 envp.length * 8
  let envPointers := storePointers envStack 0 rsp envp
  let argNull := envStack - 8
  let argStack := argNull - BitVec.ofNat 64 argv.length * 8
  let argPointers := storePointers argStack 0 envPointers.1 argv
  { stores := envStrings.2 ++ (argStrings.2 ++ (⟨envNull.toNat, word 0⟩ :: (envPointers.2 ++
      ⟨argNull.toNat, word 0⟩ :: argPointers.2)))
    rdi := BitVec.ofNat 64 argv.length
    rsi := rsp - (stackTop - argStack)
    rdx := rsp - (stackTop - envStack)
    rsp := rsp - (stackTop - argStack) }

/-- The stores go through the direct map. -/
def layArguments (highVma : ℕ) (argv envp : List CString) (paddr : ℕ) (t : Thread) (mem : Memory) : Thread × Memory :=
  let l := layout highVma argv envp paddr t.ctx.rsp
  ({ t with ctx := { t.ctx with rdi := l.rdi, rsi := l.rsi, rdx := l.rdx, rsp := l.rsp }, userStack := l.rsp },
    fun b => stored (fun v => mem (v - highVma)) l.stores (b + highVma))

end Code

section Sizes

def stringsSize (ss : List CString) : ℕ := (ss.map fun s => s.strlen + 1).sum

/-- What the strings take, rounded up, with the word that keeps the parity. -/
def paddedSize (argv envp : List CString) : ℕ :=
  (stringsSize envp + stringsSize argv + 15) / 16 * 16 + if (argv.length + envp.length + 1) % 2 ≠ 0 then 8 else 0

/-- How far down the environment reaches. -/
def envSize (argv envp : List CString) : ℕ := paddedSize argv envp + 8 * (envp.length + 1)

def layoutSize (argv envp : List CString) : ℕ := envSize argv envp + 8 * (argv.length + 1)

/-- The end of a stack as the kernel addresses it. -/
def kernelEnd (highVma paddr : ℕ) : ℕ := paddr + stackSize.toNat + highVma

/-- What is true of every stack that `pmm_alloc` gives out. -/
structure StackAt (highVma paddr : ℕ) : Prop where
  high : 2 ^ 63 ≤ highVma
  aligned : kernelEnd highVma paddr % 16 = 0
  mapped : kernelEnd highVma paddr ≤ 2 ^ 64

end Sizes

section Strings
variable {t r : BitVec 64} {d e i j k limit : ℕ} {s : CString} {ss argv envp : List CString}

/-- The address that lies `d` bytes below another. -/
def beneath (t : BitVec 64) (d : ℕ) : BitVec 64 := t - BitVec.ofNat 64 d

lemma beneath_zero (t : BitVec 64) : beneath t 0 = t := BitVec.sub_zero t

lemma beneath_beneath (t : BitVec 64) (d e : ℕ) : beneath (beneath t d) e = beneath t (d + e) := by
  rw [beneath, beneath, beneath, BitVec.ofNat_add]
  grind

lemma beneath_add (t : BitVec 64) (h : e ≤ d) : beneath t d + BitVec.ofNat 64 e = beneath t (d - e) := by
  obtain ⟨c, rfl⟩ := Nat.exists_eq_add_of_le h
  rw [beneath, beneath, BitVec.ofNat_add, Nat.add_sub_cancel_left]
  grind

lemma toNat_beneath (hk : k ≤ 2 ^ 64) (hd : 0 < d) (hdk : d ≤ k) : (beneath (BitVec.ofNat 64 k) d).toNat = k - d := by
  rw [beneath, BitVec.toNat_sub, BitVec.toNat_ofNat, BitVec.toNat_ofNat]
  omega

@[simp] lemma stringsSize_nil : stringsSize [] = 0 := rfl

@[simp] lemma stringsSize_cons (s : CString) (ss : List CString) :
    stringsSize (s :: ss) = s.strlen + 1 + stringsSize ss := by
  simp [stringsSize]

lemma length_le_stringsSize (ss : List CString) : ss.length ≤ stringsSize ss := by
  induction ss with
  | nil => exact le_rfl
  | cons s ss ih =>
    rw [List.length_cons, stringsSize_cons]
    omega

lemma pushStrings_cons (t : BitVec 64) (d : ℕ) (s : CString) (ss : List CString) :
    pushStrings (beneath t d) (s :: ss) =
      ((pushStrings (beneath t (d + (s.strlen + 1))) ss).1, ⟨(beneath t (d + (s.strlen + 1))).toNat, s.1⟩ ::
        ⟨(beneath t (d + 1)).toNat, [0]⟩ :: (pushStrings (beneath t (d + (s.strlen + 1))) ss).2) := by
  have hstack : beneath t d - BitVec.ofNat 64 s.strlen - 1 = beneath t (d + (s.strlen + 1)) := by
    simp only [beneath, BitVec.ofNat_add]
    grind
  have hend : beneath t (d + (s.strlen + 1)) + BitVec.ofNat 64 s.strlen = beneath t (d + 1) := by
    rw [beneath_add t (by omega), show d + (s.strlen + 1) - s.strlen = d + 1 by omega]
  rw [pushStrings, hstack, hend]

lemma pushStrings_fst (t : BitVec 64) (d : ℕ) (ss : List CString) :
    (pushStrings (beneath t d) ss).1 = beneath t (d + stringsSize ss) := by
  induction ss generalizing d with
  | nil => rfl
  | cons s ss ih => rw [pushStrings_cons, ih, stringsSize_cons, Nat.add_assoc]

/-- The strings fill what lies below the place where they are pushed. -/
lemma pushStrings_packed (hk : k ≤ 2 ^ 64) (h : d + stringsSize ss ≤ k) :
    Packed (k - (d + stringsSize ss)) (k - d) (pushStrings (beneath (BitVec.ofNat 64 k) d) ss).2 := by
  induction ss generalizing d with
  | nil => exact packed_nil _ _
  | cons s ss ih =>
    rw [stringsSize_cons] at h ⊢
    rw [pushStrings_cons, toNat_beneath hk (by omega) (by omega), toNat_beneath hk (by omega) (by omega)]
    have hlen : s.1.length = s.strlen := rfl
    have hbytes : Packed (k - (d + (s.strlen + 1))) (k - (d + 1)) [⟨k - (d + (s.strlen + 1)), s.1⟩] := by
      refine packed_singleton ⟨le_rfl, ?_⟩
      rw [Store.stop]
      dsimp only
      omega
    have hend : Packed (k - (d + 1)) (k - d) [⟨k - (d + 1), [0]⟩] := by
      refine packed_singleton ⟨le_rfl, ?_⟩
      rw [Store.stop]
      dsimp only [List.length_singleton]
      omega
    have hcopy := hbytes.append_above hend (by omega) (by omega)
    have hrest := ih (d := d + (s.strlen + 1)) (by omega)
    rw [Nat.add_assoc] at hrest
    exact hcopy.append_below hrest (by omega) (by omega)

/-- Strings that do not fit are stored below the limit. -/
lemma stringsSize_le_of_within (hk : k ≤ 2 ^ 64) (hlimit : 2 * limit + 1 ≤ k) (hd : d ≤ limit)
    (h : ∀ st ∈ (pushStrings (beneath (BitVec.ofNat 64 k) d) ss).2, st.Within (k - limit) k) :
    d + stringsSize ss ≤ limit := by
  induction ss generalizing d with
  | nil => simpa using hd
  | cons s ss ih =>
    rw [pushStrings_cons] at h
    obtain ⟨hcopy, hrest⟩ := List.forall_mem_cons.mp h
    obtain ⟨-, hrest⟩ := List.forall_mem_cons.mp hrest
    have hd' : d + (s.strlen + 1) ≤ limit := by
      obtain ⟨hlow, hhigh⟩ := hcopy
      have hlen : s.1.length = s.strlen := rfl
      rw [Store.stop] at hhigh
      dsimp only at hlow hhigh
      have hshort : d + (s.strlen + 1) ≤ k := by omega
      rw [toNat_beneath hk (by omega) hshort] at hlow
      omega
    rw [stringsSize_cons, ← Nat.add_assoc]
    exact ih hd' hrest

end Strings

section Pointers
variable {t r : BitVec 64} {d e i j k : ℕ} {s : CString} {ss : List CString}

lemma storePointers_cons (t r : BitVec 64) (i d : ℕ) (s : CString) (ss : List CString) :
    storePointers t i (beneath r d) (s :: ss) = ((storePointers t (i + 1) (beneath r (d + (s.strlen + 1))) ss).1,
      ⟨(t + BitVec.ofNat 64 i * 8).toNat, word (beneath r (d + (s.strlen + 1)))⟩ ::
        (storePointers t (i + 1) (beneath r (d + (s.strlen + 1))) ss).2) := by
  have hptr : beneath r d - (BitVec.ofNat 64 s.strlen + 1) = beneath r (d + (s.strlen + 1)) := by
    rw [← beneath_beneath, beneath, beneath, BitVec.ofNat_add]
    rfl
  rw [storePointers, hptr]

lemma storePointers_fst (t r : BitVec 64) (i d : ℕ) (ss : List CString) :
    (storePointers t i (beneath r d) ss).1 = beneath r (d + stringsSize ss) := by
  induction ss generalizing i d with
  | nil => rfl
  | cons s ss ih => rw [storePointers_cons, ih, stringsSize_cons, Nat.add_assoc]

/-- The address of `stack[i]`. -/
lemma toNat_element (hk : k ≤ 2 ^ 64) (he : e ≤ k) (hi : 8 * i < e) :
    (beneath (BitVec.ofNat 64 k) e + BitVec.ofNat 64 i * 8).toNat = k - e + 8 * i := by
  have hmul : BitVec.ofNat 64 i * 8 = BitVec.ofNat 64 (8 * i) := by
    rw [Nat.mul_comm, BitVec.ofNat_mul]
    rfl
  rw [hmul, beneath_add _ hi.le, toNat_beneath hk (by omega) (by omega)]
  omega

/-- The pointers fill an array. -/
lemma storePointers_packed (hk : k ≤ 2 ^ 64) (he : e ≤ k) (hi : 8 * (i + ss.length) ≤ e) (d : ℕ) :
    Packed (k - e + 8 * i) (k - e + 8 * (i + ss.length))
      (storePointers (beneath (BitVec.ofNat 64 k) e) i (beneath r d) ss).2 := by
  induction ss generalizing i d with
  | nil => exact packed_nil _ _
  | cons s ss ih =>
    rw [List.length_cons] at hi ⊢
    rw [storePointers_cons, toNat_element hk he (by omega)]
    have hfirst : Packed (k - e + 8 * i) (k - e + 8 * (i + 1))
        [⟨k - e + 8 * i, word (beneath r (d + (s.strlen + 1)))⟩] := by
      refine packed_singleton ⟨le_rfl, ?_⟩
      rw [Store.stop, length_word]
      dsimp only
      omega
    have hrest := ih (i := i + 1) (d := d + (s.strlen + 1)) (by omega)
    rw [Nat.add_right_comm, Nat.add_assoc] at hrest
    exact hfirst.append_above hrest (by omega) (by omega)

lemma mem_storePointers (hk : k ≤ 2 ^ 64) (he : e ≤ k) (hi : 8 * (i + ss.length) ≤ e) (d : ℕ) (hj : j < ss.length) :
    ⟨k - e + 8 * (i + j), word (beneath r (d + stringsSize (ss.take (j + 1))))⟩ ∈
      (storePointers (beneath (BitVec.ofNat 64 k) e) i (beneath r d) ss).2 := by
  induction ss generalizing i d j with
  | nil => simp at hj
  | cons s ss ih =>
    rw [List.length_cons] at hi hj
    rw [storePointers_cons, toNat_element hk he (by omega)]
    cases j with
    | zero => simp
    | succ j =>
      have hmem := ih (i := i + 1) (d := d + (s.strlen + 1)) (by omega) (Nat.lt_of_succ_lt_succ hj)
      rw [Nat.add_assoc d] at hmem
      rw [List.take_succ_cons, stringsSize_cons, show i + (j + 1) = i + 1 + j by omega]
      exact List.mem_cons_of_mem _ hmem

/-- An array lies below its null pointer. -/
lemma array_packed (hk : k ≤ 2 ^ 64) (hd : d + 8 * (ss.length + 1) ≤ k) (r : BitVec 64) (e : ℕ) :
    Packed (k - (d + 8 * (ss.length + 1))) (k - d) (⟨(beneath (BitVec.ofNat 64 k) (d + 8)).toNat, word 0⟩ ::
      (storePointers (beneath (BitVec.ofNat 64 k) (d + 8 * (ss.length + 1))) 0 (beneath r e) ss).2) := by
  have hnull : Packed (k - (d + 8)) (k - d) [⟨(beneath (BitVec.ofNat 64 k) (d + 8)).toNat, word 0⟩] := by
    rw [toNat_beneath hk (by omega) (by omega)]
    refine packed_singleton ⟨le_rfl, ?_⟩
    rw [Store.stop, length_word]
    dsimp only
    omega
  have hpointers : Packed (k - (d + 8 * (ss.length + 1)) + 8 * 0) (k - (d + 8 * (ss.length + 1)) + 8 * (0 + ss.length))
      (storePointers (beneath (BitVec.ofNat 64 k) (d + 8 * (ss.length + 1))) 0 (beneath r e) ss).2 :=
    storePointers_packed hk hd (by omega) e
  rw [Nat.mul_zero, Nat.add_zero, Nat.zero_add,
    show k - (d + 8 * (ss.length + 1)) + 8 * ss.length = k - (d + 8) by omega] at hpointers
  exact hnull.append_below hpointers (by omega) (by omega)

end Pointers

section Layouts
variable {highVma paddr d k : ℕ} {argv envp : List CString} {rsp : BitVec 64}

/-- The part of the stack that is aligned begins at a depth that is rounded up. -/
lemma beneath_align (hk : k ≤ 2 ^ 64) (haligned : k % 16 = 0) (hd : (d + 15) / 16 * 16 ≤ k) :
    beneath (BitVec.ofNat 64 k) d / 16 * 16 = beneath (BitVec.ofNat 64 k) ((d + 15) / 16 * 16) := by
  have hword : ∀ x : BitVec 64, (x / 16 * 16).toNat = x.toNat / 16 * 16 := by
    intro x
    have hx := x.isLt
    have h16 : (16 : BitVec 64).toNat = 16 := rfl
    rw [BitVec.toNat_mul, BitVec.toNat_udiv, h16]
    omega
  apply BitVec.eq_of_toNat_eq
  rw [hword]
  rcases Nat.eq_zero_or_pos d with rfl | hpos
  · rw [beneath_zero, BitVec.toNat_ofNat]
    omega
  · rw [toNat_beneath hk hpos (by omega), toNat_beneath hk (by omega) hd]
    omega

lemma beneath_pad (t : BitVec 64) (d : ℕ) (c : Prop) [Decidable c] :
    (if c then beneath t d - 8 else beneath t d) = beneath t (d + if c then 8 else 0) := by
  split_ifs
  · exact beneath_beneath t d 8
  · rfl

lemma sub_beneath (t r : BitVec 64) (d : ℕ) : r - (t - beneath t d) = beneath r d := by
  rw [beneath, beneath]
  grind

/-- The layout in terms of the depths below the end of the stack. -/
lemma layout_eq (h : StackAt highVma paddr) (rsp : BitVec 64)
    (hfits : (stringsSize envp + stringsSize argv + 15) / 16 * 16 ≤ kernelEnd highVma paddr) :
    layout highVma argv envp paddr rsp =
      let t := BitVec.ofNat 64 (kernelEnd highVma paddr)
      { stores := (pushStrings (beneath t 0) envp).2 ++ ((pushStrings (beneath t (stringsSize envp)) argv).2 ++
          (⟨(beneath t (paddedSize argv envp + 8)).toNat, word 0⟩ ::
            ((storePointers (beneath t (envSize argv envp)) 0 (beneath rsp 0) envp).2 ++
              ⟨(beneath t (envSize argv envp + 8)).toNat, word 0⟩ ::
                (storePointers (beneath t (layoutSize argv envp)) 0 (beneath rsp (stringsSize envp)) argv).2)))
        rdi := BitVec.ofNat 64 argv.length
        rsi := beneath rsp (layoutSize argv envp)
        rdx := beneath rsp (envSize argv envp)
        rsp := beneath rsp (layoutSize argv envp) } := by
  dsimp only
  set t := BitVec.ofNat 64 (kernelEnd highVma paddr) with ht
  have henv : (pushStrings t envp).1 = beneath t (stringsSize envp) := by
    have hfst := pushStrings_fst t 0 envp
    rwa [beneath_zero, Nat.zero_add] at hfst
  have harray : ∀ (d : ℕ) (ss : List CString),
      beneath t d - 8 - BitVec.ofNat 64 ss.length * 8 = beneath t (d + 8 * (ss.length + 1)) := by
    intro d ss
    have hmul : BitVec.ofNat 64 ss.length * 8 = BitVec.ofNat 64 (8 * ss.length) := by
      rw [Nat.mul_comm, BitVec.ofNat_mul]
      rfl
    have h8 : beneath t d - 8 = beneath t (d + 8) := beneath_beneath t d 8
    have hrest : beneath t (d + 8) - BitVec.ofNat 64 (8 * ss.length) = beneath t (d + 8 + 8 * ss.length) := beneath_beneath ..
    rw [h8, hmul, hrest, Nat.mul_add_one, Nat.add_assoc, Nat.add_comm (8 * ss.length)]
  have hptrs : (storePointers (beneath t (envSize argv envp)) 0 rsp envp).1 = beneath rsp (stringsSize envp) := by
    have hfst := storePointers_fst (beneath t (envSize argv envp)) rsp 0 0 envp
    rwa [beneath_zero, Nat.zero_add] at hfst
  have hpad : beneath t (paddedSize argv envp) - 8 = beneath t (paddedSize argv envp + 8) := beneath_beneath ..
  have hnull : beneath t (envSize argv envp) - 8 = beneath t (envSize argv envp + 8) := beneath_beneath ..
  have hstack : (if (argv.length + envp.length + 1) % 2 ≠ 0 then
      (pushStrings (pushStrings t envp).1 argv).1 / 16 * 16 - 8 else (pushStrings (pushStrings t envp).1 argv).1 / 16 * 16) =
        beneath t (paddedSize argv envp) := by
    rw [henv, pushStrings_fst, beneath_align h.mapped h.aligned hfits, beneath_pad, paddedSize]
  have henvStack : beneath t (paddedSize argv envp) - 8 - BitVec.ofNat 64 envp.length * 8 = beneath t (envSize argv envp) := harray ..
  have hargStack : beneath t (envSize argv envp) - 8 - BitVec.ofNat 64 argv.length * 8 = beneath t (layoutSize argv envp) := harray ..
  rw [layout, ← kernelEnd, ← ht, hstack, henvStack, hargStack, hptrs, hpad, hnull, sub_beneath, sub_beneath, henv, beneath_zero, beneath_zero]

lemma stringsSize_le_paddedSize (argv envp : List CString) :
    stringsSize envp + stringsSize argv ≤ paddedSize argv envp := by
  rw [paddedSize]
  omega

/-- If the layout fits, its stores are packed at the end of the stack. -/
lemma layout_packed (h : StackAt highVma paddr) (rsp : BitVec 64)
    (hfits : layoutSize argv envp ≤ kernelEnd highVma paddr) :
    Packed (kernelEnd highVma paddr - layoutSize argv envp) (kernelEnd highVma paddr)
      (layout highVma argv envp paddr rsp).stores := by
  have hstrings := stringsSize_le_paddedSize argv envp
  have hk := h.mapped
  have henv : envSize argv envp = paddedSize argv envp + 8 * (envp.length + 1) := rfl
  have harg : layoutSize argv envp = envSize argv envp + 8 * (argv.length + 1) := rfl
  rw [layout_eq h rsp (by rw [paddedSize] at henv; omega)]
  generalize kernelEnd highVma paddr = k at *
  have hargs : Packed (k - layoutSize argv envp) (k - envSize argv envp)
      (⟨(beneath (BitVec.ofNat 64 k) (envSize argv envp + 8)).toNat, word 0⟩ ::
        (storePointers (beneath (BitVec.ofNat 64 k) (layoutSize argv envp)) 0 (beneath rsp (stringsSize envp)) argv).2) :=
    array_packed hk (by omega) rsp (stringsSize envp)
  have henvs : Packed (k - envSize argv envp) (k - paddedSize argv envp)
      (⟨(beneath (BitVec.ofNat 64 k) (paddedSize argv envp + 8)).toNat, word 0⟩ ::
        (storePointers (beneath (BitVec.ofNat 64 k) (envSize argv envp)) 0 (beneath rsp 0) envp).2) :=
    array_packed hk (by omega) rsp 0
  have hargStrings : Packed (k - (stringsSize envp + stringsSize argv)) (k - stringsSize envp)
      (pushStrings (beneath (BitVec.ofNat 64 k) (stringsSize envp)) argv).2 := pushStrings_packed hk (by omega)
  have henvStrings : Packed (k - (0 + stringsSize envp)) (k - 0) (pushStrings (beneath (BitVec.ofNat 64 k) 0) envp).2 :=
    pushStrings_packed hk (by omega)
  rw [Nat.zero_add] at henvStrings
  have harrays := henvs.append_below hargs (by omega) (by omega)
  have hlower := hargStrings.append_below (harrays.mono le_rfl (by omega)) (by omega) (by omega)
  have hall := henvStrings.append_below hlower (by omega) (by omega)
  exact hall

/-- The lowest store is the first pointer to an argument, or the null pointer if there are none. -/
lemma exists_lowest (t : BitVec 64) (d e : ℕ) (r : BitVec 64) (ss : List CString) :
    ∃ st ∈ (⟨(beneath t (d + 8)).toNat, word 0⟩ :: (storePointers (beneath t (d + 8 * (ss.length + 1))) 0 (beneath r e) ss).2),
      st.addr = (beneath t (d + 8 * (ss.length + 1))).toNat := by
  cases ss with
  | nil => exact ⟨_, List.mem_cons_self, rfl⟩
  | cons s ss =>
    refine ⟨_, List.mem_cons_of_mem _ (by rw [storePointers_cons]; exact List.mem_cons_self), ?_⟩
    simp

/-- The stores fall into the stack if and only if the layout is not larger. -/
lemma layout_within_iff (h : StackAt highVma paddr) (rsp : BitVec 64) :
    (∀ st ∈ (layout highVma argv envp paddr rsp).stores, st.Within (paddr + highVma) (kernelEnd highVma paddr)) ↔
      layoutSize argv envp ≤ stackSize.toNat := by
  have hsize : stackSize.toNat = 0x40000 := rfl
  have hhigh := h.high
  have hk := h.mapped
  have hbase : paddr + highVma = kernelEnd highVma paddr - stackSize.toNat := by
    rw [kernelEnd]
    omega
  have hlarge : 2 * stackSize.toNat + 1 ≤ kernelEnd highVma paddr := by
    rw [kernelEnd]
    omega
  rw [hbase]
  constructor
  · intro hwithin
    have henvStrings : 0 + stringsSize envp ≤ stackSize.toNat := by
      refine stringsSize_le_of_within hk hlarge (Nat.zero_le _) fun st hst => hwithin st ?_
      rw [beneath_zero] at hst
      exact List.mem_append_left _ hst
    have hargStrings : stringsSize envp + stringsSize argv ≤ stackSize.toNat := by
      refine stringsSize_le_of_within hk hlarge (by omega) fun st hst => hwithin st ?_
      have hfst := pushStrings_fst (BitVec.ofNat 64 (kernelEnd highVma paddr)) 0 envp
      rw [beneath_zero, Nat.zero_add] at hfst
      rw [← hfst] at hst
      exact List.mem_append_right _ (List.mem_append_left _ hst)
    have henvCount := length_le_stringsSize envp
    have hargCount := length_le_stringsSize argv
    have hpadded : paddedSize argv envp ≤ stringsSize envp + stringsSize argv + 23 := by
      rw [paddedSize]
      split_ifs
      · omega
      · omega
    have henv : envSize argv envp = paddedSize argv envp + 8 * (envp.length + 1) := rfl
    have harg : layoutSize argv envp = envSize argv envp + 8 * (argv.length + 1) := rfl
    rw [layout_eq h rsp (by omega)] at hwithin
    obtain ⟨st, hst, haddr⟩ := exists_lowest (BitVec.ofNat 64 (kernelEnd highVma paddr)) (envSize argv envp)
      (stringsSize envp) rsp argv
    have hlow := (hwithin st (List.mem_append_right _ (List.mem_append_right _ (List.mem_cons_of_mem _
      (List.mem_append_right _ hst))))).1
    rw [haddr, ← harg, toNat_beneath hk (by omega) (by omega)] at hlow
    omega
  · intro hfits st hst
    exact ((layout_packed h rsp (by omega)).mono (by omega) le_rfl).within st hst

end Layouts

section Creations
variable {σ : Type} {env : Environment σ} {pagemap : Pagemap} {pid : ℕ} {p p' : Owner σ} {t : Thread}
  {entry arg : BitVec 64} {arguments : Bool} {kernelStack userStack fault : ℕ} {s1 s2 : σ} {m1 m2 : Machine σ}

/-- What `thread_create` has got and mapped when it comes to the arguments: `m1` is the machine after the
stack was mapped, and `m2` the one then. -/
structure Prepared (env : Environment σ) (pagemap : Pagemap) (p : Owner σ) (kernelStack userStack fault : ℕ)
    (s1 s2 : σ) (m1 m2 : Machine σ) : Prop where
  kernel : ∃ s0, env.cacheAllocObject p.machine.pmm = some (true, s0) ∧ env.pmmAlloc s0 stackPages = some (kernelStack, s1)
  user : env.pmmAlloc s1 stackPages = some (userStack, s2)
  window : Sbrk.mapPages env.pmmAlloc pagemap (p.threadStackTop - stackSize) (BitVec.ofNat 64 userStack) stackPages 0
    { p.machine with pmm := s2 } = some (true, m1)
  rest : ∃ s3 fpuStorage, env.pmmAlloc m1.pmm stackPages = some (fault, s3) ∧
    pmmAllocz env.pmmAlloc { m1 with pmm := s3 } ((env.fpuStorageSize + 4095) / 4096) = some (fpuStorage, m2) ∧
      fault ≠ 0 ∧ fpuStorage ≠ 0
  nonzero : kernelStack ≠ 0 ∧ userStack ≠ 0

/-- The thread that is made of it, and the process then. -/
def finished (env : Environment σ) (pid : ℕ) (p : Owner σ) (entry : BitVec 64) (arguments : Bool)
    (kernelStack userStack fault : ℕ) (m2 : Machine σ) : Thread × Owner σ :=
  let t := userThread env pid p.threadStackTop kernelStack fault
  let r := if p.threads = 0 ∧ arguments then env.layArguments userStack t m2.mem else (t, m2.mem)
  pushThread ⟨p.threadStackTop - (stackSize - 0x1000), p.threads, { m2 with mem := r.2 }⟩ r.1 entry

lemma finishUser_iff : finishUser env pid { p with machine := m1 } kernelStack userStack entry arguments = some (some t, p') ↔
    ∃ fault s3 fpuStorage m2, (env.pmmAlloc m1.pmm stackPages = some (fault, s3) ∧
      pmmAllocz env.pmmAlloc { m1 with pmm := s3 } ((env.fpuStorageSize + 4095) / 4096) = some (fpuStorage, m2) ∧
        fault ≠ 0 ∧ fpuStorage ≠ 0) ∧ finished env pid p entry arguments kernelStack userStack fault m2 = (t, p') := by
  rw [finishUser]
  constructor
  · intro h
    cases hfault : env.pmmAlloc m1.pmm stackPages with
    | none => simp [hfault] at h
    | some r =>
      obtain ⟨fault, s3⟩ := r
      rw [hfault] at h
      dsimp only at h
      by_cases hzero : fault = 0
      · simp [hzero] at h
      rw [if_neg hzero] at h
      cases hfpu : pmmAllocz env.pmmAlloc { m1 with pmm := s3 } ((env.fpuStorageSize + 4095) / 4096) with
      | none => simp [hfpu] at h
      | some r =>
        obtain ⟨fpuStorage, m2⟩ := r
        rw [hfpu] at h
        dsimp only at h
        by_cases hfpuZero : fpuStorage = 0
        · simp [hfpuZero] at h
        rw [if_neg hfpuZero] at h
        obtain ⟨ht, hp⟩ := Prod.mk.inj (Option.some.inj h)
        exact ⟨fault, s3, fpuStorage, m2, ⟨rfl, hfpu, hzero, hfpuZero⟩, Prod.ext (Option.some.inj ht) hp⟩
  · rintro ⟨fault, s3, fpuStorage, m2, ⟨hfault, hfpu, hzero, hfpuZero⟩, hdone⟩
    rw [hfault]
    dsimp only
    rw [if_neg hzero, hfpu]
    dsimp only
    rw [if_neg hfpuZero]
    obtain ⟨rfl, rfl⟩ := Prod.mk.inj hdone
    rfl

/-- A thread is created if and only if everything was there. -/
lemma threadCreate_iff : threadCreate env pagemap pid p entry arg arguments true = some (some t, p') ↔
    ∃ kernelStack userStack fault s1 s2 m1 m2, Prepared env pagemap p kernelStack userStack fault s1 s2 m1 m2 ∧
      finished env pid p entry arguments kernelStack userStack fault m2 = (t, p') := by
  rw [threadCreate]
  constructor
  · intro h
    cases hcache : env.cacheAllocObject p.machine.pmm with
    | none => simp [hcache] at h
    | some r =>
      obtain ⟨got, s0⟩ := r
      rw [hcache] at h
      cases got with
      | false => simp at h
      | true =>
        dsimp only at h
        cases hkernel : env.pmmAlloc s0 stackPages with
        | none => simp [hkernel] at h
        | some r =>
          obtain ⟨kernelStack, s1⟩ := r
          rw [hkernel] at h
          dsimp only at h
          by_cases hkernelZero : kernelStack = 0
          · simp [hkernelZero] at h
          rw [if_neg hkernelZero, if_pos rfl] at h
          cases huser : env.pmmAlloc s1 stackPages with
          | none => simp [huser] at h
          | some r =>
            obtain ⟨userStack, s2⟩ := r
            rw [huser] at h
            dsimp only at h
            by_cases huserZero : userStack = 0
            · simp [huserZero] at h
            rw [if_neg huserZero] at h
            cases hmap : Sbrk.mapPages env.pmmAlloc pagemap (p.threadStackTop - stackSize) (BitVec.ofNat 64 userStack)
                stackPages 0 { p.machine with pmm := s2 } with
            | none => simp [hmap] at h
            | some r =>
              obtain ⟨b, m1⟩ := r
              rw [hmap] at h
              cases b with
              | false => simp at h
              | true =>
                obtain ⟨fault, s3, fpuStorage, m2, hrest, hdone⟩ := finishUser_iff.mp h
                exact ⟨kernelStack, userStack, fault, s1, s2, m1, m2,
                  ⟨⟨s0, hcache, hkernel⟩, huser, hmap, ⟨s3, fpuStorage, hrest⟩, hkernelZero, huserZero⟩, hdone⟩
  · rintro ⟨kernelStack, userStack, fault, s1, s2, m1, m2, h, hdone⟩
    obtain ⟨s0, hcache, hkernel⟩ := h.kernel
    obtain ⟨s3, fpuStorage, hrest⟩ := h.rest
    rw [hcache]
    dsimp only
    rw [hkernel]
    dsimp only
    rw [if_neg h.nonzero.1, if_pos rfl, h.user]
    dsimp only
    rw [if_neg h.nonzero.2, h.window]
    exact finishUser_iff.mpr ⟨fault, s3, fpuStorage, m2, hrest, hdone⟩

end Creations

section Exec
variable {σ : Type}

/-- The pointers that `exec` is called with, and the pointers and strings behind two of them. -/
structure ExecCall where
  path : BitVec 64
  argv : BitVec 64
  envp : BitVec 64
  args : List (BitVec 64 × CString)
  env : List (BitVec 64 × CString)

def ExecCall.argStrings (c : ExecCall) : List CString := c.args.map Prod.snd

def ExecCall.envStrings (c : ExecCall) : List CString := c.env.map Prod.snd

/-- What the other functions return: a page table, whether the path leads to a regular file, the entry of the
program and the memory after it was loaded, the error of the descriptors that are closed, and the vector of
threads. -/
structure Surroundings (σ : Type) where
  newPagemap : Option Pagemap
  node : Option Bool
  load : Except ℤ (BitVec 64 × Machine σ)
  fdClose : Option ℤ
  vectorCreate : Bool

/-- The loop over an array of pointers. It looks at the first one twice. -/
def checkPointers (codeBase : BitVec 64) : List (BitVec 64) → Bool
  | [] => true
  | ptr :: ptrs => checkUserPtr codeBase ptr && (ptr :: ptrs).all (checkUserPtr codeBase)

/-- The process when its thread is created. -/
def replaced (m : Machine σ) : Owner σ := ⟨Fork.processThreadStackTop, 0, m⟩

def withArguments (env : Environment σ) (c : ExecCall) : Environment σ :=
  { env with layArguments := layArguments env.highVma c.argStrings c.envStrings }

/-- `none` is a panic. -/
def syscallExec (env : Environment σ) (pid : ℕ) (codeBase : BitVec 64) (c : ExecCall) (x : Surroundings σ) :
    Option (Except ℤ (Thread × Owner σ)) :=
  match x.newPagemap with
  | none => some (.error (-enomem))
  | some pagemap =>
      if ¬(checkUserPtr codeBase c.path ∧ checkUserPtr codeBase c.argv ∧ checkUserPtr codeBase c.envp) then
        some (.error (-efault))
      else if ¬checkPointers codeBase (c.args.map Prod.fst) then some (.error (-efault))
      else if ¬checkPointers codeBase (c.env.map Prod.fst) then some (.error (-efault))
      else match x.node with
      | none => some (.error (-enoent))
      | some regular =>
          if ¬regular then some (.error (-enoexec))
          else match x.load with
          | .error e => some (.error e)
          | .ok (entry, m) =>
              match x.fdClose with
              | some e => some (.error e)
              | none =>
                  if ¬x.vectorCreate then some (.error (-enomem))
                  else (threadCreate (withArguments env c) pagemap pid (replaced m) entry 0
                    (c.argv ≠ 0 ∧ c.envp ≠ 0) true).map fun r =>
                      match r.1 with
                      | none => .error (-enomem)
                      | some t => .ok (t, r.2)

/-- The stack of the thread: the second block that `thread_create` asks for. -/
def userStackPaddr (env : Environment σ) (p : Owner σ) : Option ℕ :=
  (env.cacheAllocObject p.machine.pmm).bind fun r => (env.pmmAlloc r.2 stackPages).bind fun r =>
    (env.pmmAlloc r.2 stackPages).map Prod.fst

/-- The arguments are copied into the stack only. -/
def ArgumentsConfined (env : Environment σ) (c : ExecCall) (m : Machine σ) : Prop :=
  c.argv ≠ 0 → c.envp ≠ 0 → ∀ paddr ∈ userStackPaddr env (replaced m),
    ∀ st ∈ (layout env.highVma c.argStrings c.envStrings paddr Fork.processThreadStackTop).stores,
      st.Within (paddr + env.highVma) (paddr + stackSize.toNat + env.highVma)

variable {env : Environment σ} {pid : ℕ} {codeBase entry : BitVec 64} {c : ExecCall} {x : Surroundings σ} {t : Thread}
  {p' : Owner σ} {m : Machine σ} {src : PageSource σ env.highVma}

lemma stackAt_of_alloc {highVma : ℕ} {src : PageSource σ highVma} {s s' : σ} {paddr : ℕ} (hv : 2 ^ 63 ≤ highVma)
    (haligned : highVma % pageSize = 0) (h : src.alloc s stackPages = some (paddr, s')) : StackAt highVma paddr := by
  have hsize : stackSize.toNat = pageSize * stackPages := rfl
  have hpage : pageSize = 0x1000 := rfl
  have hpaddr := src.aligned h
  have hmapped := src.mapped h
  refine ⟨hv, ?_, ?_⟩
  · rw [kernelEnd, hsize]
    rw [hpage] at hpaddr haligned ⊢
    omega
  · rw [kernelEnd, hsize]
    exact hmapped

/-- A call that starts a program has come to `thread_create`. -/
lemma threadCreate_of_exec (h : syscallExec env pid codeBase c x = some (.ok (t, p'))) :
    ∃ pagemap entry m, x.newPagemap = some pagemap ∧ x.load = .ok (entry, m) ∧
      threadCreate (withArguments env c) pagemap pid (replaced m) entry 0 (c.argv ≠ 0 ∧ c.envp ≠ 0) true =
        some (some t, p') := by
  rw [syscallExec] at h
  cases hpagemap : x.newPagemap with
  | none => simp [hpagemap] at h
  | some pagemap =>
    rw [hpagemap] at h
    dsimp only at h
    split at h
    · simp at h
    split at h
    · simp at h
    split at h
    · simp at h
    split at h
    · simp at h
    split at h
    · simp at h
    split at h
    · simp at h
    next entry m hload =>
      split at h
      · simp at h
      split at h
      · simp at h
      obtain ⟨⟨r, p⟩, hcreate, hr⟩ := Option.map_eq_some_iff.mp h
      cases r with
      | none => simp at hr
      | some t' =>
        obtain ⟨rfl, rfl⟩ := Prod.mk.inj (Except.ok.inj hr)
        exact ⟨pagemap, entry, m, rfl, hload, hcreate⟩

/-- And the other way round, if every check before it passes. -/
lemma exec_of_threadCreate {pagemap : Pagemap} {entry : BitVec 64} (hpagemap : x.newPagemap = some pagemap)
    (hptrs : checkUserPtr codeBase c.path ∧ checkUserPtr codeBase c.argv ∧ checkUserPtr codeBase c.envp)
    (hargs : checkPointers codeBase (c.args.map Prod.fst) = true)
    (henvs : checkPointers codeBase (c.env.map Prod.fst) = true) (hnode : x.node = some true)
    (hload : x.load = .ok (entry, m)) (hclose : x.fdClose = none) (hvector : x.vectorCreate = true)
    (hcreate : threadCreate (withArguments env c) pagemap pid (replaced m) entry 0 (c.argv ≠ 0 ∧ c.envp ≠ 0) true =
      some (some t, p')) : syscallExec env pid codeBase c x = some (.ok (t, p')) := by
  rw [syscallExec, hpagemap]
  dsimp only
  rw [if_neg (not_not.mpr hptrs), if_neg (not_not.mpr hargs), if_neg (not_not.mpr henvs), hnode]
  dsimp only
  rw [if_neg (not_not.mpr rfl), hload]
  dsimp only
  rw [hclose]
  dsimp only
  rw [if_neg (not_not.mpr hvector), hcreate]
  rfl

lemma userStackPaddr_of_prepared {pagemap : Pagemap} {p : Owner σ} {kernelStack userStack fault : ℕ} {s1 s2 : σ}
    {m1 m2 : Machine σ} (h : Prepared env pagemap p kernelStack userStack fault s1 s2 m1 m2) :
    userStackPaddr env p = some userStack := by
  obtain ⟨s0, hcache, hkernel⟩ := h.kernel
  rw [userStackPaddr, hcache, Option.bind_some, hkernel, Option.bind_some, h.user]
  rfl

lemma argumentsConfined_of_prepared {pagemap : Pagemap} {kernelStack userStack fault : ℕ} {s1 s2 : σ} {m1 m2 : Machine σ}
    (hv : 2 ^ 63 ≤ env.highVma) (haligned : env.highVma % pageSize = 0) (hpmm : env.pmmAlloc = src.alloc)
    (h : Prepared env pagemap (replaced m) kernelStack userStack fault s1 s2 m1 m2) :
    ArgumentsConfined env c m ↔ c.argv = 0 ∨ c.envp = 0 ∨
      layoutSize c.argStrings c.envStrings ≤ stackSize.toNat := by
  have halloc : src.alloc s1 stackPages = some (userStack, s2) := hpmm ▸ h.user
  have hstack := stackAt_of_alloc hv haligned halloc
  have hwithin : (∀ st ∈ (layout env.highVma c.argStrings c.envStrings userStack Fork.processThreadStackTop).stores,
      st.Within (userStack + env.highVma) (userStack + stackSize.toNat + env.highVma)) ↔
        layoutSize c.argStrings c.envStrings ≤ stackSize.toNat := layout_within_iff hstack _
  rw [ArgumentsConfined, userStackPaddr_of_prepared h, ← hwithin]
  simp only [Option.mem_def, Option.some.injEq, forall_eq']
  constructor
  · intro hstores
    by_cases hargv : c.argv = 0
    · exact Or.inl hargv
    by_cases henvp : c.envp = 0
    · exact Or.inr (Or.inl henvp)
    · exact Or.inr (Or.inr (hstores hargv henvp))
  · rintro (hargv | henvp | hstores) hargv' henvp'
    · exact absurd hargv hargv'
    · exact absurd henvp henvp'
    · exact hstores

/-- When a program is started, its arguments are copied into its stack only, if and only if there are none,
or the strings, the pointers and what is lost to alignment are not larger than the stack. -/
theorem argumentsConfined_iff (hv : 2 ^ 63 ≤ env.highVma) (haligned : env.highVma % pageSize = 0)
    (hpmm : env.pmmAlloc = src.alloc) (hload : x.load = .ok (entry, m))
    (h : syscallExec env pid codeBase c x = some (.ok (t, p'))) :
    ArgumentsConfined env c m ↔ c.argv = 0 ∨ c.envp = 0 ∨
      layoutSize c.argStrings c.envStrings ≤ stackSize.toNat := by
  obtain ⟨pagemap, entry', m', -, hload', hcreate⟩ := threadCreate_of_exec h
  rw [hload] at hload'
  obtain ⟨-, rfl⟩ := Prod.mk.inj (Except.ok.inj hload')
  obtain ⟨kernelStack, userStack, fault, s1, s2, m1, m2, hprepared, -⟩ := threadCreate_iff.mp hcreate
  have hbare : Prepared env pagemap (replaced m) kernelStack userStack fault s1 s2 m1 m2 :=
    ⟨hprepared.kernel, hprepared.user, hprepared.window, hprepared.rest, hprepared.nonzero⟩
  exact argumentsConfined_of_prepared hv haligned hpmm hbare

end Exec

section OneArgument

/-- A program is loaded into an empty address space. -/
def loaded : Surroundings Bump := ⟨some ⟨1, false⟩, some true, .ok (0x400000, bareMachine), none, true⟩

def oneArgument (s : CString) : ExecCall := ⟨0x500000, 0x500010, 0x500020, [(0x500030, s)], []⟩

lemma bump_prepared : ∃ kernelStack userStack fault s1 s2 m1 m2,
    Prepared bumpEnvironment ⟨1, false⟩ (replaced bareMachine) kernelStack userStack fault s1 s2 m1 m2 := by
  obtain ⟨t1, t2, p1, p2, h1, -⟩ := executed_threads
  cases h1 with
  | created h =>
    obtain ⟨kernelStack, userStack, fault, s1, s2, m1, m2, hprepared, -⟩ := threadCreate_iff.mp h
    exact ⟨kernelStack, userStack, fault, s1, s2, m1, m2, hprepared⟩

lemma exec_oneArgument (s : CString) :
    ∃ t p', syscallExec bumpEnvironment 0 0x400000 (oneArgument s) loaded = some (.ok (t, p')) := by
  obtain ⟨kernelStack, userStack, fault, s1, s2, m1, m2, h⟩ := bump_prepared
  obtain ⟨⟨t, p'⟩, hdone⟩ : ∃ r, finished (withArguments bumpEnvironment (oneArgument s)) 0 (replaced bareMachine) 0x400000
      true kernelStack userStack fault m2 = r := ⟨_, rfl⟩
  have hprepared : Prepared (withArguments bumpEnvironment (oneArgument s)) ⟨1, false⟩ (replaced bareMachine) kernelStack
      userStack fault s1 s2 m1 m2 := ⟨h.kernel, h.user, h.window, h.rest, h.nonzero⟩
  have hcreate : threadCreate (withArguments bumpEnvironment (oneArgument s)) ⟨1, false⟩ 0 (replaced bareMachine)
      0x400000 0 true true = some (some t, p') :=
    threadCreate_iff.mpr ⟨kernelStack, userStack, fault, s1, s2, m1, m2, hprepared, hdone⟩
  have hasked : decide ((oneArgument s).argv ≠ 0 ∧ (oneArgument s).envp ≠ 0) = true := rfl
  refine ⟨t, p', exec_of_threadCreate rfl ⟨?_, ?_, ?_⟩ ?_ ?_ rfl rfl rfl rfl (hasked ▸ hcreate)⟩
  all_goals rfl

lemma bump_pmmAlloc : bumpEnvironment.pmmAlloc = (bumpSource Pmm.directMap).alloc := rfl

lemma bump_highVma : 2 ^ 63 ≤ bumpEnvironment.highVma := by norm_num [bumpEnvironment, Pmm.directMap]

/-- The argument `"a"`. -/
theorem argumentsConfined_short : ArgumentsConfined bumpEnvironment (oneArgument ⟨[0x61], by decide⟩) bareMachine := by
  obtain ⟨t, p', h⟩ := exec_oneArgument ⟨[0x61], by decide⟩
  refine (argumentsConfined_iff bump_highVma (by decide) bump_pmmAlloc rfl h).mpr ?_
  exact Or.inr (Or.inr (by decide))

/-- An argument that is as long as the stack. -/
def hugeArgument : CString := ⟨List.replicate 0x40000 0x61, fun h => absurd (List.eq_of_mem_replicate h) (by decide)⟩

theorem argumentsConfined_huge : (∃ t p', syscallExec bumpEnvironment 0 0x400000 (oneArgument hugeArgument) loaded =
    some (.ok (t, p'))) ∧ ¬ArgumentsConfined bumpEnvironment (oneArgument hugeArgument) bareMachine := by
  refine ⟨exec_oneArgument hugeArgument, fun hconfined => ?_⟩
  obtain ⟨kernelStack, userStack, fault, s1, s2, m1, m2, h⟩ := bump_prepared
  have hlen : hugeArgument.strlen = 0x40000 := List.length_replicate
  have hsize : stringsSize (oneArgument hugeArgument).argStrings = 0x40001 := by
    have hargs : (oneArgument hugeArgument).argStrings = [hugeArgument] := rfl
    rw [hargs, stringsSize_cons, stringsSize_nil, hlen]
  rcases (argumentsConfined_of_prepared bump_highVma (by decide) bump_pmmAlloc h).mp hconfined with hargv | henvp | hfits
  · exact absurd hargv (by decide)
  · exact absurd henvp (by decide)
  · have hle := stringsSize_le_paddedSize (oneArgument hugeArgument).argStrings (oneArgument hugeArgument).envStrings
    have hstack : stackSize.toNat = 0x40000 := rfl
    rw [layoutSize, envSize] at hfits
    omega

end OneArgument

end PiggyOs.ExecArguments
