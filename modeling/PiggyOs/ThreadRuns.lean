import PiggyOs.ContextSwitch

/-! Every thread goes on as if it had a processor of its own: no change of threads, no interrupt and nothing that
other threads do changes its registers or its part of the kernel stack. -/
namespace PiggyOs.ContextSwitch
open ByteMemory X86 Core InterruptFrame Transition

section Places
variable {C T : Type} {L : Layout C T} {m m' m'' : Memory} {p q : Place C T} {a n o : ℕ} {v : BitVec 64} {t : T}

lemma Agree.refl (L : Layout C T) (m : Memory) (p : Place C T) : Agree L m m p := fun _ _ _ => rfl

lemma Agree.trans (h : Agree L m m' p) (h' : Agree L m' m'' p) : Agree L m m'' p :=
  fun a hlow hhigh => (h' a hlow hhigh).trans (h a hlow hhigh)

lemma Agree.read (h : Agree L m m' p) (ho : o + 8 ≤ p.size) :
    read64 m' (L.base p + o) = read64 m (L.base p + o) :=
  read64_congr fun k hk => h _ (by omega) (by omega)

lemma Agree.registersAt (h : Agree L m m' (.ctx t)) :
    registersAt m' (L.base (.ctx t)) = registersAt m (L.base (.ctx t)) :=
  registersAt_congr fun _ hk => h _ (Nat.le_add_right _ _) (Nat.add_lt_add_left hk _)

/-- What changes only within one place changes no other. -/
lemma agree_of_outside (hpq : p ≠ q) (h : ∀ a, a < L.base p ∨ L.base p + p.size ≤ a → m' a = m a) : Agree L m m' q := by
  intro a hlow hhigh
  have := L.apart p q hpq
  exact h a (by omega)

lemma agree_write (hpq : p ≠ q) (ho : o + 8 ≤ p.size) : Agree L m (write64 m (L.base p + o) v) q :=
  agree_of_outside hpq fun a ha => write64_outside m v (by omega)

lemma agree_copy (hpq : p ≠ q) (hn : n ≤ p.size) (src : ℕ) : Agree L m (copy m (L.base p) src n) q :=
  agree_of_outside hpq fun a ha => copy_outside m (by omega)

lemma toNat_start (L : Layout C T) (p : Place C T) : (L.start p).toNat = L.base p := by
  have := L.bound p
  rw [Layout.start, BitVec.toNat_ofNat, Nat.mod_eq_of_lt (by omega)]

lemma toNat_top (L : Layout C T) (p : Place C T) : (L.top p).toNat = L.base p + p.size := by
  rw [Layout.top, BitVec.toNat_ofNat, Nat.mod_eq_of_lt (L.bound p)]

/-- A field of the block of a processor. -/
lemma toNat_field (L : Layout C T) (p : Place C T) (ho : o < p.size) :
    (L.start p + BitVec.ofNat 64 o).toNat = L.base p + o := by
  have hstart := toNat_start L p
  have := L.bound p
  rw [toNat_add_of_lt (by omega), hstart]

lemma interruptStack_aligned {c : Core} {rsp0 x : BitVec 64} {ist : Option (BitVec 64)}
    (h : ist.getD (if c.cs &&& 3 ≠ 0 then rsp0 else c.rsp) = x) (hx : 16 ∣ x.toNat) :
    c.interruptStack rsp0 ist = x := by
  have hmod : x % 16 = 0 := BitVec.eq_of_toNat_eq (by
    rw [BitVec.toNat_umod]
    exact Nat.mod_eq_zero_of_dvd hx)
  rw [interruptStack, h, hmod]
  exact BitVec.sub_zero x

end Places

section States
variable {C T : Type}

/-- The processor has the registers of the thread. The base of its user `%gs` is in the other register while kernel
code runs. -/
structure Here (L : Layout C T) (isUser : T → Bool) (s : Machine C T) (c : C) (t : T) (p : Private) : Prop where
  reg : (s.regs c).reg = p.reg
  rsp : (s.regs c).rsp = p.rsp
  rip : (s.regs c).rip = p.rip
  rflags : (s.regs c).rflags = p.rflags
  cs : (s.regs c).cs = p.cs
  ss : (s.regs c).ss = p.ss
  fsBase : (s.regs c).fsBase = p.fsBase
  gsBase : isUser t → (if p.cs = userCode then (s.regs c).gsBase else (s.regs c).kernelGsBase) = p.gsBase
  userStack : isUser t → read64 s.mem (L.base (.percpu c) + 24) = p.userStack

/-- The registers of the thread are in `struct thread`. -/
structure Away (L : Layout C T) (isUser : T → Bool) (s : Machine C T) (t : T) (p : Private) : Prop where
  saved : ∃ num error, registersAt s.mem (L.base (.ctx t)) = ⟨p.reg, num, error, p.rip, p.cs, p.rflags, p.rsp, p.ss⟩
  fsBase : s.fsBase t = p.fsBase
  gsBase : isUser t → s.gsBase t = p.gsBase
  userStack : isUser t → s.userStack t = p.userStack

/-- Only threads with `is_user` run user code. Of the kernel stack the part in use counts. -/
structure Matches (L : Layout C T) (isUser : T → Bool) (s : Machine C T) (t : T) (p : Private) : Prop where
  code : p.cs = kernelCode ∨ p.cs = userCode
  user : p.cs = userCode → isUser t
  bounds : p.cs = kernelCode → L.base (.stack t) ≤ p.rsp.toNat ∧ p.rsp.toNat ≤ (L.top (.stack t)).toNat
  stack : p.cs = kernelCode → ∀ a, p.rsp.toNat ≤ a → a < (L.top (.stack t)).toNat → s.mem a = p.stack a
  here : ∀ c, s.running c = some t → Here L isUser s c t p
  away : (∀ c, s.running c ≠ some t) → Away L isUser s t p

/-- In kernel code `%gs` is the block of the processor, and in user code `swapgs` gets it back. -/
structure Sound (L : Layout C T) (s : Machine C T) : Prop where
  alone : ∀ c d t, s.running c = some t → s.running d = some t → c = d
  code : ∀ c, (s.regs c).cs = kernelCode ∨ (s.regs c).cs = userCode ∧ s.running c ≠ none
  kernelGs : ∀ c, (s.regs c).cs = kernelCode → (s.regs c).gsBase = L.start (.percpu c)
  userGs : ∀ c, (s.regs c).cs = userCode → (s.regs c).kernelGsBase = L.start (.percpu c)
  rsp0 : ∀ c t, s.running c = some t → s.rsp0 c = L.top (.stack t)
  kernelStack : ∀ c t, s.running c = some t → read64 s.mem (L.base (.percpu c) + 16) = L.top (.stack t)

variable {L : Layout C T} {isUser : T → Bool} {s s' : Machine C T} {c d : C} {t n : T} {p : Private} {P : T → Private}

/-- A thread that nothing happens to. -/
lemma Matches.congr (h : Matches L isUser s t p) (hrun : ∀ c, s'.running c = some t ↔ s.running c = some t)
    (hregs : ∀ c, s.running c = some t → s'.regs c = s.regs c)
    (hpercpu : ∀ c, s.running c = some t → Agree L s.mem s'.mem (.percpu c)) (hctx : Agree L s.mem s'.mem (.ctx t))
    (hstack : p.cs = kernelCode → ∀ a, p.rsp.toNat ≤ a → a < (L.top (.stack t)).toNat → s'.mem a = s.mem a)
    (hfs : s'.fsBase t = s.fsBase t) (hgs : s'.gsBase t = s.gsBase t) (huser : s'.userStack t = s.userStack t) :
    Matches L isUser s' t p where
  code := h.code
  user := h.user
  bounds := h.bounds
  stack hcs a hlow hhigh := (hstack hcs a hlow hhigh).trans (h.stack hcs a hlow hhigh)
  here c hc := by
    have hc' := (hrun c).mp hc
    have hhere := h.here c hc'
    have hsame := hregs c hc'
    refine ⟨?_, ?_, ?_, ?_, ?_, ?_, ?_, fun hu => ?_, fun hu => ?_⟩
    case refine_9 => rw [(hpercpu c hc').read (le_refl 32), hhere.userStack hu]
    all_goals rw [hsame]
    exacts [hhere.reg, hhere.rsp, hhere.rip, hhere.rflags, hhere.cs, hhere.ss, hhere.fsBase, hhere.gsBase hu]
  away hnot := by
    have haway := h.away fun c hc => hnot c ((hrun c).mpr hc)
    refine ⟨?_, hfs.trans haway.fsBase, fun hu => hgs.trans (haway.gsBase hu),
      fun hu => huser.trans (haway.userStack hu)⟩
    rw [hctx.registersAt]
    exact haway.saved

/-- The part in use of the kernel stack lies in its place. -/
lemma Matches.live (h : Matches L isUser s t p) (hagree : Agree L s.mem s'.mem (.stack t)) :
    p.cs = kernelCode → ∀ a, p.rsp.toNat ≤ a → a < (L.top (.stack t)).toNat → s'.mem a = s.mem a := by
  intro hcs a hlow hhigh
  have := (h.bounds hcs).1
  rw [toNat_top] at hhigh
  exact hagree a (by omega) hhigh

end States

section Switch
variable {C T : Type} {L : Layout C T} {isUser : T → Bool} {s s' : Machine C T} {c : C} {t n : T} {p : Private}
  {P : T → Private}

/-- What the handler finds when interrupt 48 comes. -/
lemma enter_switch (L : Layout C T) (s : Machine C T) (c : C) :
    Entered (s.core c) (enterInterrupt (s.core c) (s.rsp0 c) (some (L.top (.ist c))) 48 0) (L.top (.ist c)) 48 0 := by
  have htop := toNat_top L (.ist c)
  have haligned : 16 ∣ (L.top (.ist c)).toNat := by
    rw [htop]
    exact (L.istAligned c).add ⟨0x800, rfl⟩
  have hroom : registersSize ≤ (L.top (.ist c)).toNat := by
    rw [htop]
    exact le_add_left (show 176 ≤ 0x8000 by decide)
  exact enterInterrupt_entered _ 48 0 (interruptStack_aligned rfl haligned) hroom

/-- The frame lies on the stack of the gate. -/
lemma entered_agree {k : Core} (hk : Entered (s.core c) k (L.top (.ist c)) 48 0) {q : Place C T} (hq : .ist c ≠ q) :
    Agree L s.mem k.mem q := by
  have htop := toNat_top L (.ist c)
  refine agree_of_outside hq fun a ha => hk.outside a ?_
  rw [htop]
  simp only [Place.size, registersSize] at ha ⊢
  omega

/-- The handler runs with the block of the processor in `%gs`. -/
lemma Sound.entered {k : Core} {sp error : BitVec 64} {num : ℕ} (hs : Sound L s)
    (hk : Entered (s.core c) k sp num error) :
    k.gsBase = L.start (.percpu c) := by
  have hkernel : kernelCode &&& 3 = 0 := by decide
  have huser : userCode &&& 3 ≠ 0 := by decide
  rw [hk.gsBase]
  change (if (s.regs c).cs &&& 3 ≠ 0 then (s.regs c).kernelGsBase else (s.regs c).gsBase) = _
  rcases hs.code c with hcs | ⟨hcs, -⟩
  · rw [hcs, if_neg (not_not.mpr hkernel)]
    exact hs.kernelGs c hcs
  · rw [hcs, if_pos huser]
    exact hs.userGs c hcs

/-- And with the base of the thread in the other register. -/
lemma Here.entered {k : Core} {sp error : BitVec 64} {num : ℕ} (h : Here L isUser s c t p)
    (hcode : p.cs = kernelCode ∨ p.cs = userCode) (hk : Entered (s.core c) k sp num error) (hu : isUser t) :
    k.kernelGsBase = p.gsBase := by
  have hkernel : kernelCode &&& 3 = 0 := by decide
  have huser : userCode &&& 3 ≠ 0 := by decide
  have hne : kernelCode ≠ userCode := by decide
  rw [hk.kernelGsBase, ← h.gsBase hu]
  change (if (s.regs c).cs &&& 3 ≠ 0 then (s.regs c).gsBase else (s.regs c).kernelGsBase) = _
  rw [h.cs]
  rcases hcode with hcs | hcs
  · rw [hcs, if_neg (not_not.mpr hkernel), if_neg hne]
  · rw [hcs, if_pos huser, if_pos rfl]

variable [DecidableEq C] [DecidableEq T]

/-- The machine after the first half of the pass: the processor has no thread. -/
def suspend (L : Layout C T) (isUser : T → Bool) (s : Machine C T) (c : C) : Machine C T :=
  contextSwitch L isUser s c none

/-- What the first half changes. -/
structure Suspended (L : Layout C T) (s s' : Machine C T) (c : C) : Prop where
  here : s'.running c = none
  others : ∀ d ≠ c, s'.running d = s.running d ∧ s'.regs d = s.regs d
  kernel : (s'.regs c).cs = kernelCode
  gsBase : (s'.regs c).gsBase = L.start (.percpu c)
  rsp0 : s'.rsp0 = s.rsp0
  mem : ∀ q, .ist c ≠ q → (∀ t, s.running c = some t → .ctx t ≠ q) → Agree L s.mem s'.mem q
  fields : ∀ t, s.running c ≠ some t →
    s'.fsBase t = s.fsBase t ∧ s'.gsBase t = s.gsBase t ∧ s'.userStack t = s.userStack t

lemma suspended (isUser : T → Bool) (hs : Sound L s) (c : C) : Suspended L s (suspend L isUser s c) c := by
  have hk := enter_switch L s c
  have hgs := hs.entered hk
  have hagree : ∀ q, .ist c ≠ q → Agree L s.mem _ q := fun q hq => entered_agree hk hq
  rw [suspend, contextSwitch]
  generalize enterInterrupt (s.core c) (s.rsp0 c) (some (L.top (.ist c))) 48 0 = k at hk hgs hagree ⊢
  constructor
  case here => exact Function.update_self ..
  case kernel =>
    dsimp only
    rw [Function.update_self]
    exact hk.cs
  case gsBase =>
    dsimp only
    rw [Function.update_self]
    exact hgs
  case others =>
    intro d hd
    dsimp only
    rw [Function.update_of_ne hd, Function.update_of_ne hd]
    cases s.running c <;> exact ⟨rfl, rfl⟩
  case rsp0 => cases s.running c <;> rfl
  case mem =>
    intro q hq hctx
    dsimp only
    cases hrun : s.running c with
    | none => exact hagree q hq
    | some t => exact (hagree q hq).trans (agree_copy (hctx t hrun) le_rfl _)
  case fields =>
    intro t ht
    dsimp only
    cases hrun : s.running c with
    | none => exact ⟨rfl, rfl, rfl⟩
    | some x =>
      have hne : t ≠ x := fun h => ht (by rw [hrun, h])
      dsimp only [saveThread]
      rw [Function.update_of_ne hne]
      cases isUser x
      · exact ⟨rfl, rfl, rfl⟩
      · exact ⟨rfl, Function.update_of_ne hne .., Function.update_of_ne hne ..⟩

lemma Sound.suspend (isUser : T → Bool) (hs : Sound L s) (c : C) : Sound L (suspend L isUser s c) := by
  have h := suspended isUser hs c
  generalize ContextSwitch.suspend L isUser s c = s' at h ⊢
  have hrun : ∀ d t, s'.running d = some t → d ≠ c ∧ s.running d = some t := by
    intro d t hd
    by_cases hdc : d = c
    · subst hdc
      rw [h.here] at hd
      cases hd
    · exact ⟨hdc, (h.others d hdc).1 ▸ hd⟩
  constructor
  case alone => exact fun d e t hd he => hs.alone d e t (hrun d t hd).2 (hrun e t he).2
  case rsp0 => exact fun d t hd => (congrFun h.rsp0 d).trans (hs.rsp0 d t (hrun d t hd).2)
  case kernelStack =>
    intro d t hd
    have hagree := h.mem (.percpu d) (by simp) (by simp)
    rw [hagree.read (o := 16) (show 16 + 8 ≤ 32 by decide)]
    exact hs.kernelStack d t (hrun d t hd).2
  case code =>
    intro d
    by_cases hdc : d = c
    · exact Or.inl (hdc ▸ h.kernel)
    · rw [(h.others d hdc).1, (h.others d hdc).2]
      exact hs.code d
  case kernelGs =>
    intro d
    by_cases hdc : d = c
    · exact fun _ => hdc ▸ h.gsBase
    · rw [(h.others d hdc).2]
      exact hs.kernelGs d
  case userGs =>
    intro d hcs
    by_cases hdc : d = c
    · subst hdc
      exact absurd (h.kernel.symm.trans hcs) (by decide)
    · rw [(h.others d hdc).2] at hcs ⊢
      exact hs.userGs d hcs

/-- The thread that the processor leaves finds everything in `struct thread`. -/
lemma Here.suspend (hs : Sound L s) (hrun : s.running c = some t) (h : Here L isUser s c t p)
    (hcode : p.cs = kernelCode ∨ p.cs = userCode) : Away L isUser (suspend L isUser s c) t p := by
  have hk := enter_switch L s c
  have hgs := hs.entered hk
  have hkernelGs := fun hu => h.entered hcode hk hu
  have hagree : Agree L s.mem _ (.percpu c) := entered_agree hk (by simp)
  have hrdi := hk.rdi
  have hfs := hk.fsBase
  have hframe := hk.frame
  rw [ContextSwitch.suspend, contextSwitch]
  generalize enterInterrupt (s.core c) (s.rsp0 c) (some (L.top (.ist c))) 48 0 = k at *
  dsimp only
  rw [hrun]
  dsimp only [saveThread]
  constructor
  case saved =>
    refine ⟨48, 0, ?_⟩
    dsimp only
    rw [registersAt_congr fun i hi => copy_inside k.mem (k.reg .rdi).toNat hi, hrdi, hframe]
    have hreg : (s.core c).reg = p.reg := h.reg
    have hrip : (s.core c).rip = p.rip := h.rip
    have hcs : (s.core c).cs = p.cs := h.cs
    have hrflags : (s.core c).rflags = p.rflags := h.rflags
    have hrsp : (s.core c).rsp = p.rsp := h.rsp
    have hss : (s.core c).ss = p.ss := h.ss
    rw [saved, hreg, hrip, hcs, hrflags, hrsp, hss]
    rfl
  case fsBase =>
    dsimp only
    rw [Function.update_self, hfs]
    exact h.fsBase
  case gsBase =>
    intro hu
    dsimp only
    rw [if_pos hu, Function.update_self]
    exact hkernelGs hu
  case userStack =>
    intro hu
    have hcopy : Agree L k.mem _ (.percpu c) :=
      agree_copy (p := .ctx t) (by simp) (le_refl registersSize) (k.reg .rdi).toNat
    have hfield := toNat_field L (.percpu c) (show 24 < 32 by decide)
    dsimp only
    rw [if_pos hu, Function.update_self, hgs, hfield, hcopy.read (o := 24) (le_refl 32),
      hagree.read (o := 24) (le_refl 32)]
    exact h.userStack hu

/-- The other threads notice nothing. -/
lemma Matches.suspend (hs : Sound L s) (h : Matches L isUser s t p) (c : C) :
    Matches L isUser (suspend L isUser s c) t p := by
  have hsus := suspended isUser hs c
  have hstack := h.live (hsus.mem (.stack t) (by simp) (by simp))
  by_cases hrun : s.running c = some t
  · have haway := (h.here c hrun).suspend hs hrun h.code
    refine ⟨h.code, h.user, h.bounds, fun hcs a hlow hhigh => ?_, fun d hd => ?_, fun _ => haway⟩
    · rw [hstack hcs a hlow hhigh]
      exact h.stack hcs a hlow hhigh
    · by_cases hdc : d = c
      · subst hdc
        rw [hsus.here] at hd
        cases hd
      · rw [(hsus.others d hdc).1] at hd
        exact absurd (hs.alone d c t hd hrun) hdc
  · have hne : ∀ d, s.running d = some t → d ≠ c := by
      rintro d hd rfl
      exact hrun hd
    obtain ⟨hfs, hgs, huser⟩ := hsus.fields t hrun
    refine h.congr (fun d => ?_) (fun d hd => (hsus.others d (hne d hd)).2) (fun d _ => hsus.mem _ (by simp) (by simp))
      (hsus.mem _ (by simp) fun x hx => ?_) hstack hfs hgs huser
    · by_cases hdc : d = c
      · subst hdc
        rw [hsus.here]
        exact iff_of_false (by simp) hrun
      · rw [(hsus.others d hdc).1]
    · rintro ⟨⟩
      exact hrun hx

/-- The pass is its first half, and then the second from there. -/
lemma contextSwitch_some (s : Machine C T) (c : C) (n : T) : contextSwitch L isUser s c (some n) =
    resumeThread L isUser (suspend L isUser s c) ((suspend L isUser s c).core c) c n := by
  rw [suspend, contextSwitch, contextSwitch]
  generalize enterInterrupt (s.core c) (s.rsp0 c) (some (L.top (.ist c))) 48 0 = k
  dsimp only
  cases s.running c with
  | none => simp only [resumeThread, Machine.core, Machine.put, Function.update_self, Function.update_idem]
  | some t =>
    dsimp only
    generalize saveThread L isUser { s with mem := k.mem } k t = x
    simp only [resumeThread, Machine.core, Machine.put, Function.update_self, Function.update_idem]

/-- The registers of a thread that is taken up, as `struct thread` has them. -/
def loaded (r : Registers) (fsBase gsBase percpu : BitVec 64) : Regs where
  reg := r.reg
  rsp := r.rsp
  rip := r.rip
  rflags := r.rflags
  cs := r.cs
  ss := r.ss
  fsBase := fsBase
  gsBase := if r.cs = userCode then gsBase else percpu
  kernelGsBase := if r.cs = userCode then percpu else gsBase

/-- What the second half changes. -/
structure Resumed (L : Layout C T) (isUser : T → Bool) (s s' : Machine C T) (c : C) (n : T) : Prop where
  running : s'.running = Function.update s.running c (some n)
  others : ∀ d ≠ c, s'.regs d = s.regs d
  here : s'.regs c = loaded (registersAt s.mem (L.base (.ctx n))) (s.fsBase n)
    (if isUser n then s.gsBase n else (s.regs c).kernelGsBase) (s.regs c).gsBase
  rsp0 : s'.rsp0 = Function.update s.rsp0 c (L.top (.stack n))
  mem : ∀ q, .percpu c ≠ q → Agree L s.mem s'.mem q
  kernelStack : read64 s'.mem (L.base (.percpu c) + 16) = L.top (.stack n)
  userStack : isUser n → read64 s'.mem (L.base (.percpu c) + 24) = s.userStack n
  fields : s'.fsBase = s.fsBase ∧ s'.gsBase = s.gsBase ∧ s'.userStack = s.userStack

/-- Loading the registers from the thread, once the memory is as it should be. -/
lemma resume_core (k : Core) (hroom : k.rsp.toNat + registersSize < 2 ^ 64) :
    let e := k.run interruptExit
    (if read64 e.mem (e.rsp + 8#64).toNat = userCode then e.exec .swapgs else e).iretq =
      ⟨loaded (registersAt k.mem k.rsp.toNat) k.fsBase k.kernelGsBase k.gsBase, k.mem⟩ := by
  have hload := run_interruptExit hroom
  have hswap : ∀ e : Core, (e.exec .swapgs).iretq = e.iretq.exec .swapgs := fun _ => rfl
  dsimp only
  rw [run_interruptExit_cs hroom, loaded]
  split_ifs
  · rw [hswap, hload]
    generalize registersAt k.mem k.rsp.toNat = r
    rfl
  · rw [hload]
    generalize registersAt k.mem k.rsp.toNat = r
    rfl

omit [DecidableEq T] in
lemma resumed (isUser : T → Bool) (s : Machine C T) (hgs : (s.regs c).gsBase = L.start (.percpu c)) (n : T) :
    Resumed L isUser s (resumeThread L isUser s (s.core c) c n) c n := by
  have h16 := toNat_field L (.percpu c) (show 16 < 32 by decide)
  have h24 := toNat_field L (.percpu c) (show 24 < 32 by decide)
  have hstart := toNat_start L (.ctx n)
  have hbound := L.bound (.ctx n)
  have hcore : (s.core c).gsBase = L.start (.percpu c) := hgs
  rw [resumeThread, hcore, h16, h24]
  -- the memory after the two stores into the block of the processor
  generalize hmem : (if isUser n then write64 (write64 s.mem (L.base (.percpu c) + 16) (L.top (.stack n)))
    (L.base (.percpu c) + 24) (s.userStack n) else write64 s.mem (L.base (.percpu c) + 16) (L.top (.stack n))) = mem
  have hagree : ∀ q, .percpu c ≠ q → Agree L s.mem mem q := by
    intro q hq
    have hfirst : Agree L s.mem (write64 s.mem (L.base (.percpu c) + 16) (L.top (.stack n))) q :=
      agree_write hq (show 16 + 8 ≤ 32 by decide)
    rw [← hmem]
    split_ifs
    · exact hfirst.trans (agree_write hq (le_refl 32))
    · exact hfirst
  have hctx : registersAt mem (L.base (.ctx n)) = registersAt s.mem (L.base (.ctx n)) :=
    (hagree (.ctx n) (by simp)).registersAt
  rw [resume_core _ (by
    dsimp only
    rw [hstart]
    exact hbound)]
  dsimp only
  rw [hstart, hctx, Machine.put]
  constructor
  case running => rfl
  case others => exact fun d hd => Function.update_of_ne hd ..
  case here =>
    dsimp only
    rw [Function.update_self, hgs]
    rfl
  case rsp0 => rfl
  case mem =>
    intro q hq
    dsimp only
    exact hagree q hq
  case kernelStack =>
    dsimp only
    rw [← hmem]
    split_ifs
    · rw [read64_write64_of_apart _ _ (Or.inr (by omega)), read64_write64]
    · rw [read64_write64]
  case userStack =>
    intro hu
    dsimp only
    rw [← hmem, if_pos hu, read64_write64]
  case fields => exact ⟨rfl, rfl, rfl⟩

omit [DecidableEq T] in
/-- The processor is as it was, and the thread that it takes up is one that no processor has. -/
lemma Sound.resume (hs : Sound L s) (hm : Matches L isUser s n p) (hidle : s.running c = none)
    (hcode : (s.regs c).cs = kernelCode) (hfree : ∀ d, s.running d ≠ some n) :
    Sound L (resumeThread L isUser s (s.core c) c n) := by
  have hgs := hs.kernelGs c hcode
  have h := resumed isUser s hgs n
  obtain ⟨num, error, hsaved⟩ := (hm.away hfree).saved
  have hcs : (registersAt s.mem (L.base (.ctx n))).cs = p.cs := by rw [hsaved]
  generalize resumeThread L isUser s (s.core c) c n = s' at h ⊢
  have hother : ∀ d ≠ c, s'.running d = s.running d := by
    intro d hd
    rw [h.running, Function.update_of_ne hd]
  have hself : s'.running c = some n := by rw [h.running, Function.update_self]
  constructor
  case alone =>
    intro d e t hd he
    by_cases hdc : d = c <;> by_cases hec : e = c
    · rw [hdc, hec]
    · subst hdc
      rw [hself] at hd
      rw [hother e hec, ← hd] at he
      exact absurd he (hfree e)
    · subst hec
      rw [hself] at he
      rw [hother d hdc, ← he] at hd
      exact absurd hd (hfree d)
    · rw [hother d hdc] at hd
      rw [hother e hec] at he
      exact hs.alone d e t hd he
  case rsp0 =>
    intro d t hd
    rw [h.rsp0]
    by_cases hdc : d = c
    · subst hdc
      rw [Function.update_self, Option.some.inj (hself.symm.trans hd)]
    · rw [Function.update_of_ne hdc]
      exact hs.rsp0 d t (hother d hdc ▸ hd)
  case kernelStack =>
    intro d t hd
    by_cases hdc : d = c
    · subst hdc
      rw [h.kernelStack, Option.some.inj (hself.symm.trans hd)]
    · have hagree := h.mem (.percpu d) (by simpa using Ne.symm hdc)
      rw [hagree.read (o := 16) (show 16 + 8 ≤ 32 by decide)]
      exact hs.kernelStack d t (hother d hdc ▸ hd)
  case code =>
    intro d
    by_cases hdc : d = c
    · subst hdc
      rw [h.here, hself]
      dsimp only [loaded]
      rw [hcs]
      exact hm.code.imp_right fun hu => ⟨hu, by simp⟩
    · rw [h.others d hdc, hother d hdc]
      exact hs.code d
  case kernelGs =>
    intro d hd
    by_cases hdc : d = c
    · subst hdc
      rw [h.here] at hd ⊢
      dsimp only [loaded] at hd ⊢
      rw [hd, if_neg (by decide)]
      exact hgs
    · rw [h.others d hdc] at hd ⊢
      exact hs.kernelGs d hd
  case userGs =>
    intro d hd
    by_cases hdc : d = c
    · subst hdc
      rw [h.here] at hd ⊢
      dsimp only [loaded] at hd ⊢
      rw [if_pos hd]
      exact hgs
    · rw [h.others d hdc] at hd ⊢
      exact hs.userGs d hd

lemma Matches.resume (hs : Sound L s) (hn : Matches L isUser s n (P n)) (hidle : s.running c = none)
    (hcode : (s.regs c).cs = kernelCode) (hfree : ∀ d, s.running d ≠ some n) (h : Matches L isUser s t (P t)) :
    Matches L isUser (resumeThread L isUser s (s.core c) c n) t (P t) := by
  have hres := resumed isUser s (hs.kernelGs c hcode) n
  have haway := hn.away hfree
  generalize resumeThread L isUser s (s.core c) c n = s' at hres ⊢
  obtain ⟨hfs, hgs, huser⟩ := hres.fields
  have hstack := h.live (hres.mem (.stack t) (by simp))
  by_cases htn : t = n
  · subst htn
    obtain ⟨num, error, hsaved⟩ := haway.saved
    refine ⟨h.code, h.user, h.bounds, fun hcs a hlow hhigh => ?_, fun d hd => ?_, fun hnot => ?_⟩
    · rw [hstack hcs a hlow hhigh]
      exact h.stack hcs a hlow hhigh
    · obtain rfl : d = c := by
        by_contra hdc
        rw [hres.running, Function.update_of_ne hdc] at hd
        exact hfree d hd
      have hhere := hres.here
      rw [hsaved] at hhere
      constructor
      case userStack => exact fun hu => (hres.userStack hu).trans (haway.userStack hu)
      case gsBase =>
        intro hu
        rw [hhere]
        dsimp only [loaded]
        rw [if_pos hu, haway.gsBase hu]
        split_ifs <;> rfl
      case fsBase => exact (congrArg Regs.fsBase hhere).trans haway.fsBase
      all_goals rw [hhere]; rfl
    · exact absurd (show s'.running c = some t by rw [hres.running, Function.update_self]) (hnot c)
  · have hne : ∀ d, s.running d = some t → d ≠ c := by
      rintro d hd rfl
      rw [hidle] at hd
      cases hd
    refine h.congr (fun d => ?_) (fun d hd => hres.others d (hne d hd))
      (fun d hd => hres.mem _ (by simpa using (hne d hd).symm)) (hres.mem _ (by simp)) hstack (congrFun hfs t)
      (congrFun hgs t) (congrFun huser t)
    rw [hres.running]
    by_cases hdc : d = c
    · subst hdc
      rw [Function.update_self, hidle]
      exact iff_of_false (fun heq => htn (Option.some.inj heq).symm) (by simp)
    · rw [Function.update_of_ne hdc]

/-- A pass of the scheduler changes no thread. -/
lemma contextSwitch_invisible (hs : Sound L s) (hm : ∀ t, Matches L isUser s t (P t)) (c : C) (next : Option T)
    (hfree : ∀ n ∈ next, ∀ d, s.running d ≠ some n) :
    Sound L (contextSwitch L isUser s c next) ∧ ∀ t, Matches L isUser (contextSwitch L isUser s c next) t (P t) := by
  have hs' := hs.suspend isUser c
  have hm' := fun t => (hm t).suspend hs c
  have hsus := suspended isUser hs c
  cases next with
  | none => exact ⟨hs', hm'⟩
  | some n =>
    have hfree' : ∀ d, (suspend L isUser s c).running d ≠ some n := by
      intro d hd
      by_cases hdc : d = c
      · subst hdc
        rw [hsus.here] at hd
        cases hd
      · exact hfree n rfl d ((hsus.others d hdc).1 ▸ hd)
    rw [contextSwitch_some]
    exact ⟨hs'.resume (hm' n) hsus.here hsus.kernel hfree',
      fun t => (hm' n).resume hs' hsus.here hsus.kernel hfree' (hm' t)⟩

end Switch

section Calls
variable {d : Core} {g top : BitVec 64}

/-- The entry of a system call, if `swapgs` gets the block of the processor and the words there are as they should
be. -/
lemma run_syscallEntry (lstar : BitVec 64) (hg : d.kernelGsBase = g)
    (htop : read64 (write64 d.mem (g + 24).toNat d.rsp) (g + 16).toNat = top)
    (huser : read64 (stacked top (write64 d.mem (g + 24).toNat d.rsp) [0x1b]) (g + 24).toNat = d.rsp) :
    let called := Function.update (Function.update d.reg .rcx d.rip) .r11 d.rflags
    (d.syscall lstar 0x700 kernelCode 0x10).run syscallEntry =
      { reg := Function.update (Function.update called .rdi (top - 176#64)) .rbp 0
        rsp := top - 176#64
        rip := lstar
        rflags := d.rflags &&& ~~~0x700 ||| 0x200
        cs := kernelCode
        ss := 0x10
        fsBase := d.fsBase
        gsBase := g
        kernelGsBase := d.gsBase
        mem := stacked (top - 56#64) (stacked top (write64 d.mem (g + 24).toNat d.rsp)
          [0x1b, d.rsp, d.rflags, 0x23, d.rip]) (fieldOrder.reverse.map called) } := by
  intro called
  have hregs : ∀ e : Core, e.run pushRegisters = e.pushes (fieldOrder.reverse.map e.reg) :=
    fun e => run_pushRegs e fieldOrder.reverse
  have hr11 : Function.update (Function.update d.reg .rcx d.rip) .r11 d.rflags .r11 = d.rflags :=
    Function.update_self ..
  have hrcx : Function.update (Function.update d.reg .rcx d.rip) .r11 d.rflags .rcx = d.rip :=
    (Function.update_of_ne (by decide) ..).trans (Function.update_self ..)
  have hsub : top - 8#64 - 8#64 - 8#64 - 8#64 - 8#64 - 16 = top - 56#64 := by
    simp only [BitVec.sub_sub]
    rfl
  have hend : top - 56#64 - BitVec.ofNat 64 (8 * (fieldOrder.reverse.map called).length) = top - 176#64 := by
    rw [BitVec.sub_sub]
    rfl
  have hfirst : (d.syscall lstar 0x700 kernelCode 0x10).run [.swapgs, .storeRspGs 24, .loadRspGs 16, .pushImm 0x1b,
      .pushGs 24, .push .r11, .pushImm 0x23, .push .rcx, .subRsp 16] =
        { reg := called
          rsp := top - 56#64
          rip := lstar
          rflags := d.rflags &&& ~~~0x700
          cs := kernelCode
          ss := 0x10
          fsBase := d.fsBase
          gsBase := g
          kernelGsBase := d.gsBase
          mem := stacked top (write64 d.mem (g + 24).toNat d.rsp) [0x1b, d.rsp, d.rflags, 0x23, d.rip] } := by
    simp only [stacked] at huser ⊢
    simp only [run_cons, run_nil, exec, syscall, setReg, push, hg, htop, huser, hsub, hr11, hrcx]
    rfl
  rw [syscallEntry, run_append, run_append, hfirst, hregs, pushes_eq]
  dsimp only
  rw [hend]
  simp only [run_cons, run_nil, exec, setReg]

/-- The end of a system call. -/
lemma run_sysret (hroom : d.rsp.toNat + registersSize < 2 ^ 64) {u : BitVec 64}
    (hu : read64 d.mem (d.gsBase + 24).toNat = u) : (d.run syscallExit).sysretq userCode 0x1b = { d with
      reg := (registersAt d.mem d.rsp.toNat).reg
      rsp := u
      rip := (registersAt d.mem d.rsp.toNat).reg .rcx
      rflags := (registersAt d.mem d.rsp.toNat).reg .r11
      cs := userCode
      ss := 0x1b
      gsBase := d.kernelGsBase
      kernelGsBase := d.gsBase } := by
  have hcli : d.run [.cli] = { d with rflags := d.rflags &&& ~~~0x200 } := rfl
  have hpop := run_popRegisters (c := { d with rflags := d.rflags &&& ~~~0x200 }) hroom
  rw [syscallExit, run_append, run_append, hcli, hpop]
  simp only [run_cons, run_nil, exec, sysretq, hu]

/-- The frame of a system call lies at the top of the stack. -/
lemma callStack_outside (p : Private) (m : Memory) {a : ℕ} (hroom : registersSize ≤ top.toNat)
    (ha : a < top.toNat - registersSize ∨ top.toNat ≤ a) : p.callStack top m a = m a := by
  rw [registersSize] at hroom ha
  have hsub : (top - 56#64).toNat = top.toNat - 56 := toNat_sub_of_le (by omega)
  have hlen : (fieldOrder.reverse.map p.called).length = 15 := by rw [List.length_map]; rfl
  rw [Private.callStack, stacked_outside (by omega) (by omega)]
  refine stacked_outside ?_ ?_ <;> simp only [List.length_cons, List.length_nil] <;> omega

/-- And depends on what was there only in the words that are not written. -/
lemma callStack_congr (p : Private) {m m' : Memory} {a : ℕ} (hroom : registersSize ≤ top.toNat)
    (hlow : top.toNat - registersSize ≤ a) (hhigh : a < top.toNat)
    (hgap : ∀ i < 16, m (top.toNat - 56 + i) = m' (top.toNat - 56 + i)) :
    p.callStack top m a = p.callStack top m' a := by
  rw [registersSize] at hroom hlow
  have hsub : (top - 56#64).toNat = top.toNat - 56 := toNat_sub_of_le (by omega)
  have hlen : (fieldOrder.reverse.map p.called).length = 15 := by rw [List.length_map]; rfl
  refine stacked_congr (by omega) ?_
  by_cases hregs : a < top.toNat - 56
  · left
    omega
  · right
    refine stacked_congr ?_ ?_ <;> simp only [List.length_cons, List.length_nil]
    · omega
    · by_cases hfive : a < top.toNat - 40
      · right
        obtain ⟨i, rfl⟩ := Nat.exists_eq_add_of_le (Nat.le_of_not_lt hregs)
        exact hgap i (by omega)
      · left
        omega

end Calls

section Steps
variable {C T : Type} [DecidableEq C] {L : Layout C T} {isUser : T → Bool} {s s' : Machine C T} {c : C}
  {t x : T} {p p' : Private} {P : T → Private} {k : Core}

lemma put_here (s : Machine C T) (c : C) (k : Core) : (s.put c k).regs c = k.toRegs := Function.update_self ..

/-- What a processor does outside the scheduler. -/
lemma Sound.put (hs : Sound L s) (hcode : k.cs = kernelCode ∨ k.cs = userCode ∧ s.running c ≠ none)
    (hkernel : k.cs = kernelCode → k.gsBase = L.start (.percpu c))
    (huser : k.cs = userCode → k.kernelGsBase = L.start (.percpu c))
    (hstack : ∀ d, read64 k.mem (L.base (.percpu d) + 16) = read64 s.mem (L.base (.percpu d) + 16)) :
    Sound L (s.put c k) := by
  have hself := put_here s c k
  have hother : ∀ d ≠ c, (s.put c k).regs d = s.regs d := fun d hd => Function.update_of_ne hd ..
  constructor
  case alone => exact hs.alone
  case rsp0 => exact hs.rsp0
  case kernelStack => exact fun d t hd => (hstack d).trans (hs.kernelStack d t hd)
  case code =>
    intro d
    by_cases hdc : d = c
    · subst hdc
      rw [hself]
      exact hcode
    · rw [hother d hdc]
      exact hs.code d
  case kernelGs =>
    intro d
    by_cases hdc : d = c
    · subst hdc
      rw [hself]
      exact hkernel
    · rw [hother d hdc]
      exact hs.kernelGs d
  case userGs =>
    intro d
    by_cases hdc : d = c
    · subst hdc
      rw [hself]
      exact huser
    · rw [hother d hdc]
      exact hs.userGs d

/-- The other threads have another processor or none. -/
lemma Matches.put_other (h : Matches L isUser s x p) (hrun : s.running c = some t) (hxt : x ≠ t)
    (hmem : ∀ q, q ≠ .stack t → q ≠ .ctx t → q ≠ .percpu c → Agree L s.mem k.mem q) :
    Matches L isUser (s.put c k) x p := by
  have hne : ∀ d, s.running d = some x → d ≠ c := by
    rintro d hd rfl
    exact hxt (Option.some.inj (hd.symm.trans hrun))
  have hstack : Agree L s.mem k.mem (.stack x) := hmem _ (by simpa using hxt) (by simp) (by simp)
  exact h.congr (fun d => Iff.rfl) (fun d hd => Function.update_of_ne (hne d hd) ..)
    (fun d hd => hmem _ (by simp) (by simp) (by simpa using hne d hd)) (hmem _ (by simp) (by simpa using hxt) (by simp))
    (h.live hstack) rfl rfl rfl

lemma Matches.put_self (hs : Sound L s) (hrun : s.running c = some t) (hcode : p.cs = kernelCode ∨ p.cs = userCode)
    (huser : p.cs = userCode → isUser t)
    (hbounds : p.cs = kernelCode → L.base (.stack t) ≤ p.rsp.toNat ∧ p.rsp.toNat ≤ (L.top (.stack t)).toNat)
    (hstack : p.cs = kernelCode → ∀ a, p.rsp.toNat ≤ a → a < (L.top (.stack t)).toNat → k.mem a = p.stack a)
    (hhere : Here L isUser (s.put c k) c t p) : Matches L isUser (s.put c k) t p where
  code := hcode
  user := huser
  bounds := hbounds
  stack := hstack
  here d hd := by
    obtain rfl : d = c := hs.alone d c t hd hrun
    exact hhere
  away hnot := absurd hrun (hnot c)

/-- One step of a thread, seen from all of them. -/
structure Moves (L : Layout C T) (isUser : T → Bool) (s : Machine C T) (c : C) (t : T) (k : Core) (p : Private) :
    Prop where
  sound : Sound L (s.put c k)
  own : Matches L isUser (s.put c k) t p
  mem : ∀ q, q ≠ .stack t → q ≠ .ctx t → q ≠ .percpu c → Agree L s.mem k.mem q

lemma Moves.all (h : Moves L isUser s c t k p) (hrun : s.running c = some t)
    (hm : ∀ x, Matches L isUser s x (P x)) {Q : T → Private} (hown : Q t = p) (hother : ∀ x ≠ t, Q x = P x) :
    Sound L (s.put c k) ∧ ∀ x, Matches L isUser (s.put c k) x (Q x) := by
  refine ⟨h.sound, fun x => ?_⟩
  by_cases hx : x = t
  · subst hx
    rw [hown]
    exact h.own
  · rw [hother x hx]
    exact (hm x).put_other hrun hx h.mem

omit [DecidableEq C] in
/-- The words of a processor stay unless they are written to. -/
lemma read_percpu {m : Memory} (hmem : ∀ q, q ≠ .stack t → q ≠ .ctx t → Agree L s.mem m q) (d : C) {o : ℕ}
    (ho : o + 8 ≤ 32) : read64 m (L.base (.percpu d) + o) = read64 s.mem (L.base (.percpu d) + o) :=
  (hmem (.percpu d) (by simp) (by simp)).read ho

lemma user_moves (hs : Sound L s) (h : Matches L isUser s t p) (hrun : s.running c = some t) {u : UserMove}
    (hready : s.Ready L isUser c t (.user u)) :
    Moves L isUser s c t { s.core c with
      reg := u.reg, rsp := u.rsp, rip := u.rip, rflags := u.rflags, fsBase := u.fsBase, gsBase := u.gsBase,
      mem := u.mem }
      { p with
        reg := u.reg, rsp := u.rsp, rip := u.rip, rflags := u.rflags, fsBase := u.fsBase, gsBase := u.gsBase } := by
  obtain ⟨hcs, hmem⟩ := hready
  have hhere := h.here c hrun
  have hpcs : p.cs = userCode := hhere.cs.symm.trans hcs
  have hkernel : p.cs ≠ kernelCode := by
    rw [hpcs]
    decide
  have hcs' : (s.core c).cs = userCode := hcs
  refine ⟨hs.put (Or.inr ⟨hcs', by simp [hrun]⟩) (fun hk => ?_) (fun _ => hs.userGs c hcs) fun d => ?_,
    .put_self hs hrun h.code h.user (fun hk => absurd hk hkernel) (fun hk => absurd hk hkernel) ?_,
    fun q _ _ _ => hmem q⟩
  · exact absurd (hk.symm.trans hcs') (by decide)
  · exact (hmem _).read (show 16 + 8 ≤ 32 by decide)
  · constructor
    case gsBase =>
      intro hu
      rw [put_here]
      exact if_pos hpcs
    case userStack => exact fun hu => ((hmem _).read (le_refl 32)).trans (hhere.userStack hu)
    all_goals rw [put_here]
    exacts [hhere.cs, hhere.ss]

lemma kernel_moves (hs : Sound L s) (h : Matches L isUser s t p) (hrun : s.running c = some t) {u : KernelMove}
    (hready : s.Ready L isUser c t (.kernel u)) :
    Moves L isUser s c t { s.core c with reg := u.reg, rsp := u.rsp, rip := u.rip, rflags := u.rflags, mem := u.mem }
      { p with reg := u.reg, rsp := u.rsp, rip := u.rip, rflags := u.rflags, stack := u.mem } := by
  obtain ⟨hcs, hlow, hhigh, hmem⟩ := hready
  have hhere := h.here c hrun
  have hpcs : p.cs = kernelCode := hhere.cs.symm.trans hcs
  have hcs' : (s.core c).cs = kernelCode := hcs
  refine ⟨hs.put (Or.inl hcs') (fun _ => hs.kernelGs c hcs) (fun hk => ?_)
    (fun d => read_percpu hmem d (show 16 + 8 ≤ 32 by decide)),
    .put_self hs hrun h.code h.user (fun _ => ⟨hlow, hhigh⟩) (fun _ a _ _ => rfl) ?_, fun q hq hq' _ => hmem q hq hq'⟩
  · exact absurd (hcs'.symm.trans hk) (by decide)
  · constructor
    case gsBase =>
      intro hu
      rw [put_here]
      exact hhere.gsBase hu
    case userStack => exact fun hu => (read_percpu hmem c (le_refl 32)).trans (hhere.userStack hu)
    all_goals rw [put_here]
    exacts [hhere.cs, hhere.ss, hhere.fsBase]

lemma sysret_moves (hs : Sound L s) (h : Matches L isUser s t p) (hrun : s.running c = some t)
    (hready : s.Ready L isUser c t .sysret) :
    Moves L isUser s c t (((s.core c).run syscallExit).sysretq userCode 0x1b)
      (p.act L.lstar (L.top (.stack t)) .sysret) := by
  obtain ⟨hcs, hrsp, hu⟩ := hready
  have hhere := h.here c hrun
  have hpcs : p.cs = kernelCode := hhere.cs.symm.trans hcs
  have hgs := hs.kernelGs c hcs
  have htop := (L.top (.stack t)).isLt
  have hfield := toNat_field L (.percpu c) (show 24 < 32 by decide)
  have hword : read64 (s.core c).mem ((s.core c).gsBase + 24).toNat = p.userStack := by
    rw [← hhere.userStack hu, ← hfield, ← hgs]
    rfl
  rw [hhere.rsp] at hrsp
  have hrsp' : (s.core c).rsp = p.rsp := hhere.rsp
  have hframe : registersAt (s.core c).mem (s.core c).rsp.toNat = registersAt p.stack p.rsp.toNat := by
    rw [hrsp']
    refine registersAt_congr fun i hi => h.stack hpcs _ (Nat.le_add_right ..) ?_
    rw [← hrsp]
    exact Nat.add_lt_add_left hi _
  rw [run_sysret (by rw [hrsp']; omega) hword, hframe, Private.act]
  have hne : userCode ≠ kernelCode := by decide
  refine ⟨hs.put (Or.inr ⟨rfl, by simp [hrun]⟩) (fun hk => absurd hk hne) (fun _ => hgs) fun _ => rfl,
    .put_self hs hrun (Or.inr rfl) (fun _ => hu) (fun hk => absurd hk hne) (fun hk => absurd hk hne) ?_,
    fun q _ _ _ => Agree.refl L _ q⟩
  constructor
  case gsBase =>
    intro hu
    rw [put_here, ← hhere.gsBase hu, hpcs]
    rfl
  case userStack => exact fun hu => hhere.userStack hu
  all_goals rw [put_here]
  exact hhere.fsBase

lemma syscall_moves (hs : Sound L s) (h : Matches L isUser s t p) (hrun : s.running c = some t) {gap : Memory}
    (hready : s.Ready L isUser c t (.syscall gap)) :
    Moves L isUser s c t (((s.core c).syscall L.lstar 0x700 kernelCode 0x10).run syscallEntry)
      (p.act L.lstar (L.top (.stack t)) (.syscall gap)) := by
  obtain ⟨hcs, hgap⟩ := hready
  have hhere := h.here c hrun
  have hpcs : p.cs = userCode := hhere.cs.symm.trans hcs
  have hg : (s.core c).kernelGsBase = L.start (.percpu c) := hs.userGs c hcs
  have hbase := L.bound (.stack t)
  have htop : (L.top (.stack t)).toNat = L.base (.stack t) + 0x40000 := toNat_top L (.stack t)
  have h16 : (L.start (.percpu c) + 16).toNat = L.base (.percpu c) + 16 := toNat_field L _ (show 16 < 32 by decide)
  have h24 : (L.start (.percpu c) + 24).toNat = L.base (.percpu c) + 24 := toNat_field L _ (show 24 < 32 by decide)
  have hapart := L.apart (.percpu c) (.stack t) (by simp)
  have hroom : registersSize ≤ (L.top (.stack t)).toNat := by
    rw [htop, registersSize]
    omega
  simp only [Place.size] at hapart
  -- the memory after the stack pointer of the user is stored
  generalize hm : write64 s.mem (L.base (.percpu c) + 24) p.rsp = m
  have houtside : ∀ a, a < L.base (.percpu c) + 24 ∨ L.base (.percpu c) + 32 ≤ a → m a = s.mem a := by
    intro a ha
    rw [← hm]
    exact write64_outside _ _ (by omega)
  have huser : read64 m (L.base (.percpu c) + 24) = p.rsp := by rw [← hm, read64_write64]
  have hkernel : read64 m (L.base (.percpu c) + 16) = L.top (.stack t) := by
    rw [← hm, read64_write64_of_apart _ _ (Or.inr (le_refl _))]
    exact hs.kernelStack c t hrun
  have hrsp : (s.core c).rsp = p.rsp := hhere.rsp
  have hmem : (s.core c).mem = s.mem := rfl
  have hpushed : read64 (stacked (L.top (.stack t)) m [0x1b]) (L.base (.percpu c) + 24) = p.rsp := by
    rw [← huser]
    refine read64_congr fun k hk => stacked_outside ?_ ?_ <;> simp only [List.length_cons, List.length_nil] <;> omega
  have hreg : (s.core c).reg = p.reg := hhere.reg
  have hrip : (s.core c).rip = p.rip := hhere.rip
  have hrflags : (s.core c).rflags = p.rflags := hhere.rflags
  have hentry := run_syscallEntry L.lstar hg (by rw [h16, h24, hrsp, hmem, hm, hkernel])
    (by rw [h24, hrsp, hmem, hm, hpushed])
  rw [hentry, h24, hrsp, hmem, hm, hreg, hrip, hrflags, Private.act]
  generalize hcall : stacked _ _ (List.map _ _) = m'
  replace hcall : p.callStack (L.top (.stack t)) m = m' := hcall
  have hkept : ∀ a, a < L.base (.percpu c) + 24 ∨ L.base (.percpu c) + 32 ≤ a →
      a < (L.top (.stack t)).toNat - registersSize ∨ (L.top (.stack t)).toNat ≤ a → m' a = s.mem a := by
    intro a ha ha'
    rw [← hcall, callStack_outside p m hroom ha', houtside a ha]
  have hlow : (L.top (.stack t) - 176#64).toNat = (L.top (.stack t)).toNat - registersSize := toNat_sub_of_le hroom
  have hsize : registersSize = 176 := rfl
  have hne : kernelCode ≠ userCode := by decide
  refine ⟨hs.put (Or.inl rfl) (fun _ => rfl) (fun hk => absurd hk hne) fun d => ?_,
    .put_self hs hrun (Or.inl rfl) (fun hk => absurd hk hne) (fun _ => ?_) (fun _ a ha ha' => ?_) ?_,
    fun q hq _ hq' a ha ha' => ?_⟩
  · have hd := L.apart (.percpu d) (.stack t) (by simp)
    simp only [Place.size] at hd
    by_cases hdc : d = c
    · subst hdc
      refine read64_congr fun k hk => hkept _ ?_ ?_ <;> omega
    · have hd' := L.apart (.percpu d) (.percpu c) (by simpa using hdc)
      simp only [Place.size] at hd'
      refine read64_congr fun k hk => hkept _ ?_ ?_ <;> omega
  · dsimp only
    rw [hlow]
    omega
  · dsimp only at ha ⊢
    rw [hlow] at ha
    rw [← hcall]
    refine callStack_congr p hroom ha ha' fun i hi => ?_
    rw [← hgap i hi]
    exact houtside _ (by omega)
  · constructor
    case gsBase =>
      intro hu
      rewrite [put_here, ← hhere.gsBase hu, hpcs]
      dsimp only
      rewrite [if_neg hne, if_pos rfl]
      rfl
    case userStack =>
      intro hu
      change read64 m' (L.base (.percpu c) + 24) = p.rsp
      rw [← huser, ← hcall]
      exact read64_congr fun k hk => callStack_outside p m hroom (by omega)
    all_goals
      rewrite [put_here]
      dsimp only
    exacts [rfl, hhere.fsBase]
  · have hq1 : L.base (.stack t) + 0x40000 ≤ L.base q ∨ L.base q + q.size ≤ L.base (.stack t) :=
      L.apart (.stack t) q (Ne.symm hq)
    have hq2 : L.base (.percpu c) + 32 ≤ L.base q ∨ L.base q + q.size ≤ L.base (.percpu c) :=
      L.apart (.percpu c) q (Ne.symm hq')
    exact hkept a (by omega) (by omega)

omit [DecidableEq C] in
/-- The frame of an interrupt lies below what kernel code has on its stack, or at the top. -/
lemma interrupt_stack (hs : Sound L s) (hrun : s.running c = some t) {sp : BitVec 64}
    (hsp : (s.core c).interruptStack (s.rsp0 c) none = sp) :
    ((s.regs c).cs = kernelCode → sp.toNat ≤ (s.regs c).rsp.toNat ∧ (s.regs c).rsp.toNat < sp.toNat + 16) ∧
      ((s.regs c).cs = userCode → sp = L.top (.stack t)) := by
  have hcore : (s.core c).cs = (s.regs c).cs := rfl
  have hrsp : (s.core c).rsp = (s.regs c).rsp := rfl
  refine ⟨fun hcs => ?_, fun hcs => ?_⟩
  · have hkernel : ¬ kernelCode &&& 3 ≠ 0 := by decide
    rw [← hsp, interruptStack, hcore, hcs, Option.getD_none, if_neg hkernel, hrsp]
    have hmod : ((s.regs c).rsp % 16).toNat = (s.regs c).rsp.toNat % 16 := BitVec.toNat_umod
    have hle := Nat.mod_le (s.regs c).rsp.toNat 16
    have hlt := Nat.mod_lt (s.regs c).rsp.toNat (show 0 < 16 by decide)
    rw [BitVec.toNat_sub_of_le (BitVec.le_def.mpr (by rwa [hmod])), hmod]
    omega
  · have huser : userCode &&& 3 ≠ 0 := by decide
    have htop := toNat_top L (.stack t)
    rw [← hsp]
    refine interruptStack_aligned ?_ ?_
    · rw [Option.getD_none, hcore, hcs, if_pos huser, hs.rsp0 c t hrun]
    · rw [htop]
      exact (L.stackAligned t).add ⟨0x4000, rfl⟩

end Steps

section Runs
variable {C T : Type} [DecidableEq C] [DecidableEq T] {L : Layout C T} {isUser : T → Bool} {s s' : Machine C T} {c : C}
  {t : T} {P : T → Private} {e : Event C T} {es : List (Event C T)}

/-- What the thread itself does in an event. -/
def Event.own (t : T) : Event C T → Option Action
  | .act _ x a => if x = t then some a else none
  | .interrupt .. => none
  | .switch .. => none

def Private.run (p : Private) (lstar top : BitVec 64) (as : List Action) : Private :=
  as.foldl (fun p a => p.act lstar top a) p

lemma act_moves (hs : Sound L s) (hm : ∀ x, Matches L isUser s x (P x)) {a : Action} (hrun : s.running c = some t)
    (hready : s.Ready L isUser c t a) :
    Sound L (s.act L c a) ∧ ∀ x, Matches L isUser (s.act L c a) x
      ((P x).run L.lstar (L.top (.stack x)) (Event.own x (.act c t a)).toList) := by
  have hown : (P t).run L.lstar (L.top (.stack t)) (Event.own t (.act c t a)).toList =
      (P t).act L.lstar (L.top (.stack t)) a := by
    rw [Event.own, if_pos rfl]
    rfl
  have hother : ∀ x ≠ t, (P x).run L.lstar (L.top (.stack x)) (Event.own x (.act c t a)).toList = P x := by
    intro x hx
    rw [Event.own, if_neg (Ne.symm hx)]
    rfl
  cases a with
  | user u => exact (user_moves hs (hm t) hrun hready).all hrun hm hown hother
  | syscall gap => exact (syscall_moves hs (hm t) hrun hready).all hrun hm hown hother
  | kernel u => exact (kernel_moves hs (hm t) hrun hready).all hrun hm hown hother
  | sysret => exact (sysret_moves hs (hm t) hrun hready).all hrun hm hown hother

end Runs

section Pair

/-- One processor and two threads of the kernel. -/
def pairBase : Place Unit Bool → ℕ
  | .percpu _ => 0x1000
  | .ist _ => 0x10000
  | .ctx false => 0x2000
  | .ctx true => 0x3000
  | .stack false => 0x100000
  | .stack true => 0x200000

lemma pair_apart (p q : Place Unit Bool) (h : p ≠ q) :
    pairBase p + p.size ≤ pairBase q ∨ pairBase q + q.size ≤ pairBase p := by
  rcases p with _ | _ | (_ | _) | (_ | _) <;> rcases q with _ | _ | (_ | _) | (_ | _) <;>
    first | exact absurd rfl h | (simp only [pairBase, Place.size, registersSize]; decide)

lemma pair_bound (p : Place Unit Bool) : pairBase p + p.size < 2 ^ 64 := by
  rcases p with _ | _ | (_ | _) | (_ | _) <;> simp only [pairBase, Place.size, registersSize] <;> decide

lemma pair_istAligned (c : Unit) : 16 ∣ pairBase (.ist c) := ⟨0x1000, rfl⟩

lemma pair_stackAligned : ∀ t : Bool, 16 ∣ pairBase (.stack t)
  | false => ⟨0x10000, rfl⟩
  | true => ⟨0x20000, rfl⟩

def pairLayout : Layout Unit Bool where
  base := pairBase
  lstar := 0x5000
  apart := pair_apart
  bound := pair_bound
  istAligned := pair_istAligned
  stackAligned := pair_stackAligned

/-- The second thread waits in `struct thread`. -/
def pairMemory : Memory :=
  write64 (write64 (write64 (fun _ => 0) 0x1010 0x140000) 0x3090 0x08) 0x30a0 0x240000

/-- The first thread runs. -/
def pairMachine : Machine Unit Bool where
  regs _ := ⟨fun _ => 7, 0x13ff00, 0x9000, 0x202, 0x08, 0x10, 0, 0x1000, 0⟩
  mem := pairMemory
  running _ := some false
  rsp0 _ := 0x140000
  fsBase _ := 0
  gsBase _ := 0
  userStack _ := 0

def pairPrivate : Bool → Private
  | false => ⟨fun _ => 7, 0x13ff00, 0x9000, 0x202, 0x08, 0x10, 0, 0, 0, pairMemory⟩
  | true => ⟨fun _ => 0, 0x240000, 0, 0, 0x08, 0, 0, 0, 0, pairMemory⟩

lemma pair_sound : Sound pairLayout pairMachine where
  alone _ _ _ _ _ := rfl
  code _ := Or.inl rfl
  kernelGs _ _ := rfl
  userGs _ h := absurd (show (0x08 : BitVec 64) = userCode from h) (by decide)
  rsp0 _ _ h := by
    cases h
    rfl
  kernelStack _ _ h := by
    cases h
    exact show read64 pairMemory 0x1010 = 0x140000 by decide

lemma pair_saved : registersAt pairMemory 0x3000 = ⟨fun _ => 0, 0, 0, 0, 0x08, 0, 0x240000, 0⟩ := by
  refine Registers.ext (funext fun r => ?_) ?_ ?_ ?_ ?_ ?_ ?_ ?_
  · cases r <;> decide
  all_goals decide

lemma pair_matches (t : Bool) : Matches pairLayout (fun _ => false) pairMachine t (pairPrivate t) := by
  cases t with
  | false =>
    refine ⟨Or.inl rfl, fun h => absurd h (by decide), fun _ => by decide, fun _ _ _ _ => rfl, fun _ _ => ?_,
      fun h => ?_⟩
    · exact ⟨rfl, rfl, rfl, rfl, rfl, rfl, rfl, nofun, nofun⟩
    · exact absurd rfl (h ())
  | true =>
    refine ⟨Or.inl rfl, fun h => absurd h (by decide), fun _ => by decide, fun _ _ _ _ => rfl, fun _ h => ?_,
      fun _ => ?_⟩
    · cases h
    · exact ⟨⟨0, 0, pair_saved⟩, rfl, nofun, nofun⟩

end Pair

end PiggyOs.ContextSwitch
