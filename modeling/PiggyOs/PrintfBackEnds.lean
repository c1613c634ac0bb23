import PiggyOs.Printf
import PiggyOs.StreamWriting

/-! The characters that the formatting hands over do not depend on the callback, and what the three callbacks make
of them. -/
namespace PiggyOs.Printf
open ByteMemory Filter PiggyOs.Stream

/-- Characters that are handed over, and how many of them are not counted. -/
structure Emission where
  chars : List Byte
  uncounted : ℕ
  le : uncounted ≤ chars.length

def Emission.append (e e' : Emission) : Emission :=
  ⟨e.chars ++ e'.chars, e.uncounted + e'.uncounted, by
    rw [List.length_append]
    exact Nat.add_le_add e.le e'.le⟩

def Emission.counted (chars : List Byte) : Emission := ⟨chars, 0, Nat.zero_le _⟩

section Emissions
variable {σ : Type} (cb : σ → Byte → σ)

def Out.emit (o : Out σ) (e : Emission) : Out σ :=
  ⟨o.written + (e.chars.length - e.uncounted), o.uncounted + e.uncounted, e.chars.foldl cb o.cd⟩

lemma emit_append (o : Out σ) (e e' : Emission) : (o.emit cb e).emit cb e' = o.emit cb (e.append e') := by
  have h := e.le
  have h' := e'.le
  simp only [Out.emit, Emission.append, List.foldl_append, List.length_append, Out.mk.injEq, and_true]
  omega

lemma emit_nil (o : Out σ) : o.emit cb (.counted []) = o := rfl

lemma put_eq_emit (o : Out σ) (c : Byte) : o.put cb c = o.emit cb (.counted [c]) := rfl

lemma putUncounted_eq_emit (o : Out σ) (c : Byte) : o.putUncounted cb c = o.emit cb ⟨[c], 1, le_rfl⟩ := rfl

lemma puts_eq_emit (o : Out σ) (chars : List Byte) : o.puts cb chars = o.emit cb (.counted chars) := by
  induction chars generalizing o with
  | nil => rfl
  | cons c chars ih =>
    change (o.put cb c).puts cb chars = _
    rw [ih, put_eq_emit, emit_append]
    rfl

lemma emit_written (o : Out σ) (e : Emission) : (o.emit cb e).written + (o.emit cb e).uncounted =
    o.written + o.uncounted + e.chars.length := by
  have h := e.le
  simp only [Out.emit]
  omega

end Emissions

section Uniform

/-- What a part of the formatting does to any callback: an emission, if it ends. -/
def Uniform (F : ∀ σ : Type, (σ → Byte → σ) → Out σ → Option (Out σ)) : Prop :=
  ∃ e : Option Emission, ∀ (σ : Type) (cb : σ → Byte → σ) (o : Out σ), F σ cb o = e.map (o.emit cb)

lemma Uniform.none : Uniform fun _ _ _ => Option.none := ⟨Option.none, fun _ _ _ => rfl⟩

lemma Uniform.emit (e : Emission) : Uniform fun _ cb o => some (o.emit cb e) := ⟨some e, fun _ _ _ => rfl⟩

lemma Uniform.id : Uniform fun _ _ o => some o := .emit (.counted [])

/-- An emission before. -/
lemma Uniform.after {F : ∀ σ : Type, (σ → Byte → σ) → Out σ → Option (Out σ)} (h : Uniform F) (e : Emission) :
    Uniform fun σ cb o => F σ cb (o.emit cb e) := by
  obtain ⟨e', h⟩ := h
  refine ⟨e'.map e.append, fun σ cb o => ?_⟩
  dsimp only
  rw [h, Option.map_map]
  cases e' with
  | none => rfl
  | some e' => exact congrArg some (emit_append cb o e e')

/-- An emission behind. -/
lemma Uniform.before {F : ∀ σ : Type, (σ → Byte → σ) → Out σ → Option (Out σ)} (h : Uniform F) (e : Emission) :
    Uniform fun σ cb o => (F σ cb o).map fun o => o.emit cb e := by
  obtain ⟨e', h⟩ := h
  refine ⟨e'.map fun e' => e'.append e, fun σ cb o => ?_⟩
  dsimp only
  rw [h, Option.map_map, Option.map_map]
  cases e' with
  | none => rfl
  | some e' => exact congrArg some (emit_append cb o e' e)

lemma uniform_padLeft (c : Byte) (nWidth : BitVec 64) (width : BitVec 32) (fuel : ℕ) (printed : BitVec 32) :
    Uniform fun _ cb o => padLeft cb c nWidth width fuel printed o := by
  induction fuel generalizing printed with
  | zero => exact .none
  | succ fuel ih =>
    simp only [padLeft]
    split_ifs
    · exact (ih (printed + 1)).after (.counted [c])
    · exact .id

lemma uniform_padRight (c : Byte) (width : BitVec 32) (fuel : ℕ) (printed : BitVec 32) :
    Uniform fun _ cb o => padRight cb c width fuel printed o := by
  induction fuel generalizing printed with
  | zero => exact .none
  | succ fuel ih =>
    simp only [padRight]
    split_ifs
    · exact (ih (printed + 1)).after (.counted [c])
    · exact .id

lemma uniform_printDec (fuel : ℕ) (value : BitVec 64) (width : BitVec 32) (fillZero alignRight : Bool)
    (precision : BitVec 32) : Uniform fun _ cb o => printDec cb fuel value width fillZero alignRight precision o := by
  simp only [printDec, puts_eq_emit]
  by_cases hroom : (decDigits value precision).toNat > 100
  · simp only [if_pos hroom]
    exact .none
  · simp only [if_neg hroom]
    cases alignRight with
    | false => exact (uniform_padRight _ width fuel _).after _
    | true => exact (uniform_padLeft _ _ width fuel 0).before _

lemma uniform_printHex (value : BitVec 64) (width : BitVec 32) (fillZero alt caps align : Bool) :
    Uniform fun _ cb o => some (printHex cb value width fillZero alt caps align o) := by
  cases fillZero <;> cases alt <;> cases align <;>
    simp only [printHex, puts_eq_emit, emit_append, Bool.not_false, Bool.not_true, Bool.and_true, Bool.and_false,
      Bool.false_eq_true, if_true, if_false] <;>
    exact .emit _

/-- The same for parts that also have a result. -/
def UniformStep {ρ : Type} (F : ∀ σ : Type, (σ → Byte → σ) → Out σ → Option (ρ × Out σ)) : Prop :=
  ∃ e : Option (ρ × Emission), ∀ (σ : Type) (cb : σ → Byte → σ) (o : Out σ),
    F σ cb o = e.map fun r => (r.1, o.emit cb r.2)

lemma UniformStep.emit {ρ : Type} (r : ρ) (e : Emission) : UniformStep fun _ cb o => some (r, o.emit cb e) :=
  ⟨some (r, e), fun _ _ _ => rfl⟩

lemma Uniform.step {ρ : Type} {F : ∀ σ : Type, (σ → Byte → σ) → Out σ → Option (Out σ)} (h : Uniform F) (r : ρ) :
    UniformStep fun σ cb o => (F σ cb o).map fun o => (r, o) := by
  obtain ⟨e, h⟩ := h
  refine ⟨e.map fun e => (r, e), fun σ cb o => ?_⟩
  dsimp only
  rw [h, Option.map_map, Option.map_map]
  rfl

lemma uniform_putString (s : Memory) (limited : Bool) (argWidth : BitVec 32) (fuel count : ℕ) (precision : BitVec 32) :
    UniformStep fun _ cb o => putString cb s limited argWidth fuel count precision o := by
  induction fuel generalizing count precision with
  | zero => exact ⟨none, fun _ _ _ => rfl⟩
  | succ fuel ih =>
    simp only [putString]
    split_ifs
    · exact .emit _ (.counted [s count])
    · obtain ⟨e, h⟩ := ih (count + 1) (precision - 1)
      refine ⟨e.map fun r => (r.1, (Emission.counted [s count]).append r.2), fun σ cb o => ?_⟩
      dsimp only at h ⊢
      rw [h, Option.map_map, put_eq_emit]
      cases e with
      | none => rfl
      | some e =>
        refine congrArg some (Prod.ext rfl ?_)
        exact emit_append cb o _ e.2
    · exact .emit _ (.counted [])

lemma uniform_convert (mem : Memory) (args : ℕ → BitVec 64) (fuel : ℕ) (letter : Byte) (a : ℕ) (v : Conversion) :
    UniformStep fun _ cb o => convert cb mem args fuel letter a v o := by
  by_cases hs : letter = ch 's'
  · simp only [convert, if_pos hs]
    by_cases hbig : v.big ≠ 0
    · simp only [if_pos hbig]
      exact .emit _ (.counted [])
    · simp only [if_neg hbig]
      obtain ⟨e, h⟩ := uniform_putString (stringAt mem (args a)) (decide (0 ≤ v.precision.toInt)) v.argWidth fuel 0
        v.precision
      refine ⟨e.map fun r => (some (a + 1),
        r.2.append (.counted (List.replicate (v.argWidth.toNat - r.1) (ch ' ')))), fun σ cb o => ?_⟩
      dsimp only at h ⊢
      rw [h, Option.map_map, Option.map_map]
      cases e with
      | none => rfl
      | some e =>
        refine congrArg some (Prod.ext rfl ?_)
        dsimp only [Function.comp_apply]
        rw [puts_eq_emit, emit_append]
  simp only [convert, if_neg hs]
  by_cases hc : letter = ch 'c'
  · simp only [if_pos hc, putUncounted_eq_emit]
    exact .emit _ _
  simp only [if_neg hc]
  by_cases hx : letter = ch 'p' ∨ letter = ch 'X' ∨ letter = ch 'x'
  · simp only [if_pos hx]
    exact (uniform_printHex _ _ _ _ _ _).step (some (a + 1))
  simp only [if_neg hx]
  by_cases hd : letter = ch 'i' ∨ letter = ch 'd'
  · simp only [if_pos hd]
    by_cases hneg : (signedArg v.big (args a)).slt 0 = true
    · simp only [if_pos hneg, put_eq_emit]
      exact ((uniform_printDec fuel _ _ _ _ _).after _).step (some (a + 1))
    · simp only [if_neg hneg]
      by_cases hsign : v.alwaysSign ≠ 0
      · simp only [if_pos hsign, put_eq_emit]
        exact ((uniform_printDec fuel _ _ _ _ _).after _).step (some (a + 1))
      · simp only [if_neg hsign]
        exact (uniform_printDec fuel _ _ _ _ _).step (some (a + 1))
  simp only [if_neg hd]
  by_cases hu : letter = ch 'u'
  · simp only [if_pos hu]
    exact (uniform_printDec fuel _ _ _ _ _).step (some (a + 1))
  simp only [if_neg hu, put_eq_emit]
  split_ifs
  · exact .emit _ _
  · exact .emit _ _

lemma uniform_printfLoop (fmt mem : Memory) (args : ℕ → BitVec 64) (fuel f a : ℕ) :
    Uniform fun _ cb o => printfLoop cb fmt mem args fuel f a o := by
  induction fuel generalizing f a with
  | zero => exact .none
  | succ fuel ih =>
    simp only [printfLoop]
    by_cases hend : fmt f = 0
    · simp only [if_pos hend]
      exact .id
    simp only [if_neg hend]
    by_cases hplain : fmt f ≠ ch '%'
    · simp only [if_pos hplain, put_eq_emit]
      exact (ih (f + 1) a).after _
    simp only [if_neg hplain]
    cases parseConversion fmt args fuel (f + 1) a with
    | none => exact .none
    | some r =>
      simp only [Option.bind_some]
      obtain ⟨e, h⟩ := uniform_convert mem args fuel (fmt r.1) r.2.1 r.2.2
      simp only [h]
      cases e with
      | none => exact .none
      | some e =>
        obtain ⟨next, e⟩ := e
        cases next with
        | none => exact .emit e
        | some a' => exact (ih (r.1 + 1) a').after e

end Uniform

section BackEnds
variable {σ : Type} {fmt mem : Memory} {args : ℕ → BitVec 64} {fuel k : ℕ} {S : List Byte}

def fprintfCallback (calls : Calls σ) (n : ℕ) (s : Option (State σ)) (c : Byte) : Option (State σ) :=
  s.bind fun s => (fputc calls n s (c.signExtend 32)).map Prod.snd

structure Buf where
  mem : Memory
  str : ℕ
  size : BitVec 64
  written : BitVec 64

def Buf.store (b : Buf) (c : Byte) : Buf := { b with mem := Function.update b.mem (b.str + b.written.toNat) c }

def sprintfCallback (b : Buf) (c : Byte) : Buf := { b.store c with written := b.written + 1 }

def snprintfCallback (b : Buf) (c : Byte) : Buf :=
  if b.size > b.written + 1 then
    let b := { b.store c with written := b.written + 1 }
    if b.written < b.size then b.store 0 else b
  else b

/-- `n` is the fuel of each `fputc`. -/
def vfprintf (calls : Calls σ) (n fuel : ℕ) (s : State σ) (fmt mem : Memory) (args : ℕ → BitVec 64) :
    Option (BitVec 32 × State σ) :=
  (printfInternal (fprintfCallback calls n) fuel (some s) fmt mem args).bind fun r => r.2.map fun s => (r.1, s)

/-- The result and the memory, which held `stale` before. -/
def vsprintf (fuel : ℕ) (stale : Memory) (str : ℕ) (fmt mem : Memory) (args : ℕ → BitVec 64) :
    Option (BitVec 32 × Memory) :=
  (printfInternal sprintfCallback fuel ⟨stale, str, 0, 0⟩ fmt mem args).map fun r => (r.1, r.2.mem)

def vsnprintf (fuel : ℕ) (stale : Memory) (str : ℕ) (size : BitVec 64) (fmt mem : Memory) (args : ℕ → BitVec 64) :
    Option (BitVec 32 × Memory) :=
  (printfInternal snprintfCallback fuel ⟨stale, str, size, 0⟩ fmt mem args).map fun r => (r.1, r.2.mem)

/-- The callback that only keeps what it is handed. -/
def collect (l : List Byte) (c : Byte) : List Byte := l ++ [c]

/-- The run ends and hands over `S`; `k` of the characters come from `%c`. -/
def HandsOver (fmt mem : Memory) (args : ℕ → BitVec 64) (fuel : ℕ) (S : List Byte) (k : ℕ) : Prop :=
  ∃ w, printfLoop collect fmt mem args fuel 0 0 ⟨0, 0, []⟩ = some ⟨w, k, S⟩

/-- How the three back ends agree on `S`. -/
structure Agree (fmt mem : Memory) (args : ℕ → BitVec 64) (fuel : ℕ) (S : List Byte) (stale : Memory) (str : ℕ)
    (size : BitVec 64) : Prop where
  result : ∀ (σ : Type) (cb : σ → Byte → σ) (cd : σ),
    ∃ r, printfInternal cb fuel cd fmt mem args = some r ∧ r.1.toInt = S.length
  fprintf : ∀ (σ : Type) (calls : Calls σ) (s : State σ) (given : List Byte), Accepts calls → Writes s given →
    ∃ ret s', (∀ᶠ n in atTop, vfprintf calls n fuel s fmt mem args = some (ret, s')) ∧ Writes s' (given ++ S)
  sprintf : ∃ ret m, vsprintf fuel stale str fmt mem args = some (ret, m) ∧ readBytes m str (S.length + 1) = S ++ [0]
  snprintf : ∃ ret m, vsnprintf fuel stale str size fmt mem args = some (ret, m) ∧
    readBytes m str (min (size.toNat - 1) S.length + 1) = S.take (size.toNat - 1) ++ [0] ∧
    ∀ a, a < str ∨ str + size.toNat ≤ a → m a = stale a

lemma collect_foldl (l chars : List Byte) : chars.foldl collect l = l ++ chars := by
  induction chars generalizing l with
  | nil => exact (List.append_nil l).symm
  | cons c chars ih => rw [List.foldl_cons, ih, collect, List.append_assoc]; rfl

/-- Every callback is handed the same characters. -/
lemma HandsOver.internal (h : HandsOver fmt mem args fuel S k) : k ≤ S.length ∧
    ∀ (σ : Type) (cb : σ → Byte → σ) (cd : σ), printfInternal cb fuel cd fmt mem args =
      some (BitVec.ofNat 32 (S.length - k), S.foldl cb cd) := by
  obtain ⟨w, hrun⟩ := h
  obtain ⟨e, huniform⟩ := uniform_printfLoop fmt mem args fuel 0 0
  dsimp only at huniform
  rw [huniform] at hrun
  cases e with
  | none => cases hrun
  | some e =>
    rw [Option.map_some, Out.emit, collect_foldl, List.nil_append, Nat.zero_add, Nat.zero_add] at hrun
    obtain ⟨-, rfl, rfl⟩ := Out.mk.inj (Option.some.inj hrun)
    refine ⟨e.le, fun σ cb cd => ?_⟩
    rw [printfInternal, huniform, Option.map_some, Option.map_some, Out.emit, Nat.zero_add]

lemma toInt_counted (hk : k ≤ S.length) :
    (BitVec.ofNat 32 (S.length - k)).toInt = S.length ↔ k = 0 ∧ S.length < 2 ^ 31 := by
  rw [BitVec.toInt_eq_toNat_cond, BitVec.toNat_ofNat]
  split_ifs <;> omega

lemma setWidth_signExtend (c : Byte) : (c.signExtend 32).setWidth 8 = c := by
  ext i hi
  rw [BitVec.getElem_setWidth, BitVec.getLsbD_signExtend]
  simp [show i < 32 by omega, hi]

/-- The stream is given the characters. -/
lemma fprintf_foldl {calls : Calls σ} (hcalls : Accepts calls) {s : State σ} {given : List Byte} (h : Writes s given)
    (S : List Byte) : ∃ s', (∀ᶠ n in atTop, S.foldl (fprintfCallback calls n) (some s) = some s') ∧
      Writes s' (given ++ S) := by
  induction S generalizing s given with
  | nil => exact ⟨s, .of_forall fun _ => rfl, (List.append_nil given).symm ▸ h⟩
  | cons c S ih =>
    have hvalid : (WriteCall.fputc (c.signExtend 32)).Valid := trivial
    obtain ⟨s1, hev1, h1, -⟩ := h.call hcalls hvalid
    rw [WriteCall.given, setWidth_signExtend] at h1
    obtain ⟨s2, hev2, h2⟩ := ih h1
    refine ⟨s2, ?_, by rwa [List.append_assoc] at h2⟩
    filter_upwards [hev1, hev2] with n hn1 hn2
    rw [State.writeCall, Option.map_eq_some_iff] at hn1
    obtain ⟨r, hr, heq⟩ := hn1
    obtain rfl : r.2 = s1 := congrArg Prod.snd heq
    rw [List.foldl_cons, fprintfCallback, Option.bind_some, hr, Option.map_some]
    exact hn2

/-- One more character behind a list. -/
lemma blit_snoc (m : Memory) (str n : ℕ) (S : List Byte) (c : Byte) (hn : n = S.length) :
    Function.update (blit m str (fun k => S.getD k 0) n) (str + n) c =
      blit m str (fun k => (S ++ [c]).getD k 0) (n + 1) := by
  subst hn
  funext a
  by_cases hlast : a = str + S.length
  · subst hlast
    rw [Function.update_self, blit_inside m _ (Nat.lt_succ_self _)]
    simp
  rw [Function.update_of_ne hlast]
  by_cases hin : str ≤ a ∧ a < str + S.length
  · obtain ⟨j, rfl⟩ := Nat.exists_eq_add_of_le hin.1
    have hj : j < S.length := by omega
    rw [blit_inside m _ hj, blit_inside m _ (Nat.lt_succ_of_lt hj)]
    simp [List.getElem?_append_left hj]
  · rw [blit_outside m _ (by omega), blit_outside m _ (by omega)]

lemma blit_none (m src : Memory) (str : ℕ) : blit m str src 0 = m := funext fun a => blit_outside m src (by omega)

lemma toNat_ofNat_small {n : ℕ} (h : n < 2 ^ 64) : (BitVec.ofNat 64 n).toNat = n := by
  rw [BitVec.toNat_ofNat, Nat.mod_eq_of_lt h]

/-- The characters stand one after the other, and nothing else is stored. -/
lemma sprintf_foldl (stale : Memory) (str : ℕ) (size : BitVec 64) (S : List Byte) (hlen : S.length < 2 ^ 64) :
    S.foldl sprintfCallback ⟨stale, str, size, 0⟩ =
      ⟨blit stale str (fun k => S.getD k 0) S.length, str, size, BitVec.ofNat 64 S.length⟩ := by
  induction S using List.reverseRecOn with
  | nil => exact congrArg (fun m => Buf.mk m str size 0) (blit_none stale _ str).symm
  | append_singleton S c ih =>
    rw [List.length_append, List.length_singleton] at hlen ⊢
    rw [List.foldl_append, ih (by omega), List.foldl_cons, List.foldl_nil, sprintfCallback, Buf.store]
    simp only [toNat_ofNat_small (show S.length < 2 ^ 64 by omega), Buf.mk.injEq, true_and]
    exact ⟨blit_snoc stale str S.length S c rfl, (BitVec.ofNat_add _ _).symm⟩

/-- The characters that fit and the zero behind them, which is missing if nothing fits or there is nothing. -/
def limited (stale : Memory) (str : ℕ) (S : List Byte) (n : ℕ) : Memory :=
  if n = 0 then stale else Function.update (blit stale str (fun k => S.getD k 0) n) (str + n) 0

/-- A character after the last zero has been stored. -/
lemma limited_snoc (stale : Memory) (str : ℕ) (S : List Byte) (c : Byte) :
    Function.update (Function.update (limited stale str S S.length) (str + S.length) c) (str + (S.length + 1)) 0 =
      limited stale str (S ++ [c]) (S.length + 1) := by
  have hover : Function.update (limited stale str S S.length) (str + S.length) c =
      Function.update (blit stale str (fun k => S.getD k 0) S.length) (str + S.length) c := by
    rw [limited]
    split_ifs with h0
    · rw [h0, blit_none]
    · exact Function.update_idem _ _ _
  rw [hover, blit_snoc stale str S.length S c rfl, limited, if_neg (Nat.succ_ne_zero _)]

/-- Nothing changes once the buffer is full. -/
lemma limited_append (stale : Memory) (str : ℕ) (S S' : List Byte) {n : ℕ} (h : n ≤ S.length) :
    limited stale str (S ++ S') n = limited stale str S n := by
  rw [limited, limited]
  split_ifs
  · rfl
  · congr 1
    funext a
    by_cases hin : str ≤ a ∧ a < str + n
    · obtain ⟨j, rfl⟩ := Nat.exists_eq_add_of_le hin.1
      have hj : j < n := by omega
      rw [blit_inside stale _ hj, blit_inside stale _ hj]
      simp [List.getElem?_append_left (hj.trans_le h)]
    · rw [blit_outside stale _ (by omega), blit_outside stale _ (by omega)]

lemma snprintfCallback_fits (b : Buf) (c : Byte) (h : b.written + 1 < b.size) : snprintfCallback b c =
    ⟨Function.update (Function.update b.mem (b.str + b.written.toNat) c) (b.str + (b.written + 1).toNat) 0, b.str, b.size,
      b.written + 1⟩ := (if_pos h).trans (if_pos h)

lemma snprintfCallback_full (b : Buf) (c : Byte) (h : ¬ b.written + 1 < b.size) : snprintfCallback b c = b := if_neg h

lemma snprintf_foldl (stale : Memory) (str : ℕ) (size : BitVec 64) (hsize : size ≠ 0) (S : List Byte) :
    S.foldl snprintfCallback ⟨stale, str, size, 0⟩ =
      ⟨limited stale str S (min (size.toNat - 1) S.length), str, size,
        BitVec.ofNat 64 (min (size.toNat - 1) S.length)⟩ := by
  have hpos : 0 < size.toNat := Nat.pos_of_ne_zero fun h0 => hsize (BitVec.eq_of_toNat_eq h0)
  have hlt := size.isLt
  induction S using List.reverseRecOn with
  | nil =>
    rw [List.length_nil, Nat.min_zero]
    rfl
  | append_singleton S c ih =>
    rw [List.foldl_append, ih, List.foldl_cons, List.foldl_nil, List.length_append, List.length_singleton]
    obtain ⟨n, hn⟩ : ∃ n, min (size.toNat - 1) S.length = n := ⟨_, rfl⟩
    have hnext : BitVec.ofNat 64 n + 1 = BitVec.ofNat 64 (n + 1) := (BitVec.ofNat_add _ _).symm
    have hnat : (BitVec.ofNat 64 n).toNat = n := toNat_ofNat_small (by omega)
    have hnat1 : (BitVec.ofNat 64 (n + 1)).toNat = n + 1 := toNat_ofNat_small (by omega)
    rw [hn]
    by_cases hroom : n + 1 < size.toNat
    · obtain rfl : n = S.length := by omega
      have hmin : min (size.toNat - 1) (S.length + 1) = S.length + 1 := by omega
      rw [snprintfCallback_fits _ c (by rw [hnext, BitVec.lt_def, hnat1]; exact hroom)]
      dsimp only
      rw [hnext, hnat1, hnat, hmin, limited_snoc]
    · have hmin : min (size.toNat - 1) (S.length + 1) = n := by omega
      rw [snprintfCallback_full _ c (by rw [hnext, BitVec.lt_def, hnat1]; exact hroom), hmin,
        limited_append stale str S [c] (by omega)]

/-- What stands in the buffer of `sprintf`. -/
lemma readBytes_sprintf (stale : Memory) (str : ℕ) (S : List Byte) :
    readBytes (blit stale str (fun k => S.getD k 0) S.length) str (S.length + 1) = S ++ [stale (str + S.length)] := by
  rw [readBytes_append]
  congr 1
  · have hshift : readBytes (blit stale str (fun k => S.getD k 0) S.length) str S.length =
        readBytes (fun k => S.getD k 0) 0 S.length :=
      readBytes_congr fun j hj => by rw [blit_inside stale _ hj, Nat.zero_add]
    rw [hshift, readBytes_list]
  · exact congrArg (fun c => [c]) (blit_outside stale _ (Or.inr le_rfl))

/-- What stands in the buffer of `snprintf`. -/
lemma readBytes_limited (stale : Memory) (str : ℕ) (S : List Byte) {n : ℕ} (hn : n ≤ S.length) :
    readBytes (limited stale str S n) str (n + 1) = S.take n ++ [if n = 0 then stale str else 0] := by
  have hlen : (S.take n).length = n := List.length_take_of_le hn
  have hsame : limited stale str S n = limited stale str (S.take n) n := by
    have happend := limited_append stale str (S.take n) (S.drop n) hlen.ge
    rwa [List.take_append_drop] at happend
  rw [hsame, limited]
  split_ifs with h0
  · subst h0
    rfl
  · have hfront : readBytes (Function.update (blit stale str (fun k => (S.take n).getD k 0) n) (str + n) 0) str n =
        readBytes (blit stale str (fun k => (S.take n).getD k 0) (S.take n).length) str n :=
      readBytes_congr fun j hj => by rw [Function.update_of_ne (by omega), hlen]
    have hread := readBytes_sprintf stale str (S.take n)
    rw [readBytes_append, hlen] at hread
    rw [readBytes_append, hfront, hlen, List.append_inj_left' hread rfl]
    exact congrArg (fun c => S.take n ++ [c]) (Function.update_self _ _ _)

lemma limited_outside (stale : Memory) (str : ℕ) (S : List Byte) {n a : ℕ} (h : a < str ∨ str + n < a) :
    limited stale str S n a = stale a := by
  rw [limited]
  split_ifs
  · rfl
  · rw [Function.update_of_ne (by omega), blit_outside stale _ (by omega)]

/-- The back ends agree on what a run hands over exactly if no `%c` was carried out, the length fits into an `int`,
and the memory already holds the zeros that `sprintf`, and `snprintf` where nothing is stored, do not write. -/
theorem agree_iff {fmt mem : Memory} {args : ℕ → BitVec 64} {fuel k : ℕ} {S : List Byte}
    (hrun : HandsOver fmt mem args fuel S k) (stale : Memory) (str : ℕ) (size : BitVec 64) (hsize : size ≠ 0) :
    Agree fmt mem args fuel S stale str size ↔
      (k = 0 ∧ S.length < 2 ^ 31) ∧ stale (str + S.length) = 0 ∧ (size = 1 ∨ S = [] → stale str = 0) := by
  obtain ⟨hk, hinternal⟩ := hrun.internal
  have hpos : 0 < size.toNat := Nat.pos_of_ne_zero fun h0 => hsize (BitVec.eq_of_toNat_eq h0)
  obtain ⟨n, hn⟩ : ∃ n, min (size.toNat - 1) S.length = n := ⟨_, rfl⟩
  have htake : S.take (size.toNat - 1) = S.take n := by rw [← hn, ← List.take_eq_take_min]
  have hnone : n = 0 ↔ size = 1 ∨ S = [] := by
    rw [← hn, Nat.min_eq_zero_iff, List.length_eq_zero_iff, ← BitVec.toNat_inj]
    exact or_congr ⟨fun h => by rw [show size.toNat = 1 by omega]; rfl, fun h => by rw [h]; rfl⟩ Iff.rfl
  have hsnprintf : vsnprintf fuel stale str size fmt mem args =
      some (BitVec.ofNat 32 (S.length - k), limited stale str S n) := by
    rw [vsnprintf, hinternal, snprintf_foldl stale str size hsize, hn]
    rfl
  have hsprintf : S.length < 2 ^ 31 → vsprintf fuel stale str fmt mem args =
      some (BitVec.ofNat 32 (S.length - k), blit stale str (fun k => S.getD k 0) S.length) := by
    intro hlen
    rw [vsprintf, hinternal, sprintf_foldl stale str 0 S (by omega)]
    rfl
  have hread := readBytes_limited stale str S (n := n) (by omega)
  constructor
  · intro h
    obtain ⟨r, hr, hret⟩ := h.result Unit (fun _ _ => ()) ()
    rw [hinternal] at hr
    obtain rfl := Option.some.inj hr
    have hcounted := (toInt_counted hk).mp hret
    refine ⟨hcounted, ?_, fun hempty => ?_⟩
    · obtain ⟨ret, m, hv, hbytes⟩ := h.sprintf
      rw [hsprintf hcounted.2] at hv
      obtain rfl : blit stale str (fun k => S.getD k 0) S.length = m := congrArg Prod.snd (Option.some.inj hv)
      rw [readBytes_sprintf] at hbytes
      exact List.singleton_injective (List.append_cancel_left hbytes)
    · obtain ⟨ret, m, hv, hbytes, -⟩ := h.snprintf
      rw [hsnprintf] at hv
      obtain rfl : limited stale str S n = m := congrArg Prod.snd (Option.some.inj hv)
      rw [hn, hread, htake, if_pos (hnone.mpr hempty)] at hbytes
      exact List.singleton_injective (List.append_cancel_left hbytes)
  · rintro ⟨hcounted, hend, hempty⟩
    refine ⟨fun σ cb cd => ⟨_, hinternal σ cb cd, (toInt_counted hk).mpr hcounted⟩, fun σ calls s given hcalls hw => ?_,
      ⟨_, _, hsprintf hcounted.2, ?_⟩, ⟨_, _, hsnprintf, ?_, fun a ha => ?_⟩⟩
    · obtain ⟨s', hev, hw'⟩ := fprintf_foldl hcalls hw S
      refine ⟨BitVec.ofNat 32 (S.length - k), s', ?_, hw'⟩
      filter_upwards [hev] with n hfold
      rw [vfprintf, hinternal, Option.bind_some, hfold]
      rfl
    · rw [readBytes_sprintf, hend]
    · rw [hn, hread, htake]
      congr 2
      exact ite_eq_right_iff.mpr fun h0 => hempty (hnone.mp h0)
    · exact limited_outside stale str S (by omega)

/-- The memory that holds a format. -/
def formatMemory (l : List Char) : Memory := fun k => (l.map ch).getD k 0

/-- The format `n = %d` with 7 for a buffer of zeros. -/
theorem agree_iff_decimal : Agree (formatMemory ['n', '=', '%', 'd']) (fun _ => 0) (fun _ => 7) 8
    [ch 'n', ch '=', ch '7'] (fun _ => 0) 0 3 :=
  (agree_iff (k := 0) ⟨3, rfl⟩ (fun _ => 0) 0 3 (by decide)).mpr ⟨by decide, rfl, fun _ => rfl⟩

/-- `%c` is not counted, `sprintf` stores no zero behind `a`, and `snprintf` stores nothing if the size is one. -/
theorem backEnds_disagree :
    (HandsOver (formatMemory ['%', 'c']) (fun _ => 0) (fun _ => 97) 3 [ch 'a'] 1 ∧
      ¬ Agree (formatMemory ['%', 'c']) (fun _ => 0) (fun _ => 97) 3 [ch 'a'] (fun _ => 0) 0 3) ∧
    HandsOver (formatMemory ['a']) (fun _ => 0) (fun _ => 0) 3 [ch 'a'] 0 ∧
      ¬ Agree (formatMemory ['a']) (fun _ => 0) (fun _ => 0) 3 [ch 'a'] (fun a => if a = 1 then 120 else 0) 0 3 ∧
      ¬ Agree (formatMemory ['a']) (fun _ => 0) (fun _ => 0) 3 [ch 'a'] (fun a => if a = 0 then 120 else 0) 0 1 := by
  refine ⟨⟨⟨0, rfl⟩, fun h => ?_⟩, ⟨1, rfl⟩, fun h => ?_, fun h => ?_⟩
  · obtain ⟨r, hr, hret⟩ := h.result (List Byte) collect []
    have hrun : printfInternal collect 3 [] (formatMemory ['%', 'c']) (fun _ => 0) (fun _ => 97) =
        some (0, [ch 'a']) := by decide
    obtain rfl := Option.some.inj (hrun.symm.trans hr)
    exact absurd hret (by decide)
  · obtain ⟨ret, m, hv, hbytes⟩ := h.sprintf
    have hrun : vsprintf 3 (fun a => if a = 1 then 120 else 0) 0 (formatMemory ['a']) (fun _ => 0) (fun _ => 0) =
        some (1, Function.update (fun a => if a = 1 then 120 else 0) 0 (ch 'a')) := rfl
    obtain ⟨-, rfl⟩ := Prod.mk.inj (Option.some.inj (hrun.symm.trans hv))
    exact absurd hbytes (by decide)
  · obtain ⟨ret, m, hv, hbytes, -⟩ := h.snprintf
    have hrun : vsnprintf 3 (fun a => if a = 0 then 120 else 0) 0 1 (formatMemory ['a']) (fun _ => 0) (fun _ => 0) =
        some (1, fun a => if a = 0 then 120 else 0) := rfl
    obtain ⟨-, rfl⟩ := Prod.mk.inj (Option.some.inj (hrun.symm.trans hv))
    exact absurd hbytes (by decide)

end BackEnds

end PiggyOs.Printf
