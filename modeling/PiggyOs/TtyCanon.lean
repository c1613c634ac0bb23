import PiggyOs.RingBuf

/-! Reading lines from the terminal. In canonical mode `tty_read` collects characters in a line buffer until
the line ends, and hands out what is in the oldest line buffer. -/
namespace PiggyOs.TtyCanon
open ByteMemory PiggyOs.Ring

abbrev Char := BitVec 8

abbrev nccs : ℕ := 32
def vintr : Fin nccs := 0
def vquit : Fin nccs := 1
def verase : Fin nccs := 2
def vkill : Fin nccs := 3
def veof : Fin nccs := 4
def vtime : Fin nccs := 5
def vmin : Fin nccs := 6
def vstart : Fin nccs := 8
def vstop : Fin nccs := 9
def vsusp : Fin nccs := 10
def veol : Fin nccs := 11

def igncr : BitVec 32 := 1
def icrnl : BitVec 32 := 2
def inlcr : BitVec 32 := 4
def echo : BitVec 32 := 1
def echoe : BitVec 32 := 2
def echoctl : BitVec 32 := 0x10
def icanon : BitVec 32 := 0x40

structure Termios where
  cIflag : BitVec 32
  cLflag : BitVec 32
  cCc : Fin nccs → BitVec 32

/-- The cast to `char`. -/
def Termios.cc (attr : Termios) (i : Fin nccs) : Char := (attr.cCc i).setWidth 8

def ignoreChar (attr : Termios) (c : Char) : Bool := c = 13 ∧ attr.cIflag &&& igncr ≠ 0

def translateChar (attr : Termios) (c : Char) : Char :=
  if c = 13 ∧ attr.cIflag &&& icrnl ≠ 0 then attr.cc veol
  else if c = attr.cc veol ∧ attr.cIflag &&& inlcr ≠ 0 then 13
  else c

/-- `char` is signed. -/
def passToCanonBuf (attr : Termios) (c : Char) : Bool :=
  if c = attr.cc veol ∨ c = 9 ∨ (32 : Char).sle c then true
  else (List.finRange nccs).all fun i => c ≠ attr.cc i

/-- `input` are the characters that the keyboard has put or is going to put into `input_buf`, and `canonBuf`
are the line buffers that `canon_buf` points to. What is written to the screen is left out. -/
structure Tty where
  attr : Termios
  input : List Char
  canonBuf : List RingBuf

/-- What `tty_init` writes to memory that the cache has cleared. -/
def initAttr : Termios where
  cIflag := 0
  cLflag := echo ||| echoe ||| echoctl ||| icanon
  cCc i := if i = veof then 4 else if i = verase then 8 else if i = vintr then 3 else if i = vkill then 21
    else if i = vstart then 17 else if i = vstop then 19 else if i = vsusp then 26 else if i = veol then 10
    else if i = vquit then 28 else if i = vtime then 0 else if i = vmin then 1 else 0

/-- The terminal of `tty_init`, into which `input` is typed. -/
def ttyInit (input : List Char) : Tty := ⟨initAttr, input, []⟩

/-- The loop of `tty_handle_canon` until the line ends; `none` if the characters do not suffice. -/
def collectLine (attr : Termios) : List Char → RingBuf → ℕ → Option (RingBuf × List Char)
  | [], _, _ => none
  | c :: input, line, items =>
      if ignoreChar attr c then collectLine attr input line items
      else
        let ch := translateChar attr c
        let passes := passToCanonBuf attr ch
        let line := if passes then (ringbufPush line fun _ => ch).2 else line
        let items := if passes then items + 1 else items
        if ch = attr.cc veol ∨ ch = attr.cc veof then some (line, input)
        else if attr.cLflag &&& echoe ≠ 0 ∧ ch = attr.cc verase ∧ items ≠ 0 then
          collectLine attr input (ringbufPopTail line).2 (items - 1)
        else collectLine attr input line items

/-- At most `count` characters. -/
def popChars : ℕ → RingBuf → List Char × RingBuf
  | 0, line => ([], line)
  | count + 1, line => match ringbufPop line with
      | (none, line) => ([], line)
      | (some e, line) => (e ++ (popChars count line).1, (popChars count line).2)

/-- What follows the label `out` when there is a line buffer. -/
def deliver (tty : Tty) (line : RingBuf) (lines : List RingBuf) (count : BitVec 64) : List Char × Tty :=
  let r := popChars count.toInt.toNat line
  (r.1, { tty with canonBuf := if r.2.size = 0 then lines else r.2 :: lines })

section Reading
variable (stale : Memory) (readRaw : Tty → BitVec 64 → Option (List Char × Tty))

/-- The characters returned; `stale` is what a new buffer held before. -/
def ttyHandleCanon (tty : Tty) (count : BitVec 64) : Option (List Char × Tty) :=
  match tty.canonBuf with
  | line :: lines => some (deliver tty line lines count)
  | [] => (collectLine tty.attr tty.input (ringbufCreate stale 8192 1) 0).map fun r =>
      deliver { tty with input := r.2 } r.1 [] count

/-- `readRaw` is the part for the mode without lines. -/
def ttyRead (tty : Tty) (count : BitVec 64) : Option (List Char × Tty) :=
  if tty.attr.cLflag &&& icanon ≠ 0 then ttyHandleCanon stale tty count else readRaw tty count

/-- What successive calls deliver; `none` if one of them waits for more characters. -/
def ttyReads : Tty → List (BitVec 64) → Option (List Char × Tty)
  | tty, [] => some ([], tty)
  | tty, count :: counts => (ttyRead stale readRaw tty count).bind fun r =>
      (ttyReads r.2 counts).map fun q => (r.1 ++ q.1, q.2)

/-- Whatever the counts are, the calls deliver a part of `line` from its beginning on, and in the end, if each
asks for something, all of it. -/
structure DeliversLine (tty : Tty) (line : List Char) : Prop where
  part : ∀ counts out tty', ttyReads stale readRaw tty counts = some (out, tty') → out <+: line
  all : ∀ counts : ℕ → BitVec 64, (∀ i, 0 < (counts i).toInt) →
    ∃ n tty', ttyReads stale readRaw tty ((List.range n).map counts) = some (line, tty')

end Reading

/-- All but the control characters. -/
def Printable (c : Char) : Prop := 32 ≤ c.toNat ∧ c ≠ 127

instance (c : Char) : Decidable (Printable c) := inferInstanceAs (Decidable (_ ∧ _))

/-- What a line is after a character, as a user sees it. -/
def editChar (line : List Char) (c : Char) : List Char :=
  if c = initAttr.cc verase then line.dropLast
  else if Printable c ∨ c = 9 then line ++ [c]
  else line

def editLine (line chars : List Char) : List Char := chars.foldl editChar line

/-- A control character without a function, which goes into the line like any other. -/
def Unnamed (c : Char) : Prop := passToCanonBuf initAttr c ∧ ¬ Printable c ∧ c ≠ 9

instance (c : Char) : Decidable (Unnamed c) := inferInstanceAs (Decidable (_ ∧ _))

/-- With `before` characters left from before the last VEOF and `n` since then: no character without a
function is typed, and no VERASE comes when just one character is left, or when there are none but those from
before a VEOF. -/
def ErasesSeen : ℕ → ℕ → List Char → Prop
  | _, _, [] => True
  | before, n, c :: chars =>
      if c = initAttr.cc veof then ErasesSeen (before + n) 0 chars
      else if c = initAttr.cc verase then n ≠ 1 ∧ (n = 0 → before = 0) ∧ ErasesSeen before (n - 1) chars
      else if Printable c ∨ c = 9 then ErasesSeen before (n + 1) chars
      else ¬ Unnamed c ∧ ErasesSeen before n chars

def pushQueue (q : List Char) (c : Char) : List Char := if q.length = 8192 then q else q ++ [c]

/-- What `ringbuf_pop_tail` leaves. -/
def popTailQueue (q : List Char) : List Char := if q.length ≤ 1 then q else q.dropLast

/-- All that the characters `input` lead to, if `q` is in the line buffer and `items` are counted. -/
def delivered : List Char → List Char → ℕ → List Char
  | [], q, _ => q
  | c :: input, q, items =>
      if c = 10 then pushQueue q c ++ delivered input [] 0
      else if c = 4 then q ++ delivered input [] 0
      else if c = 8 then
        if items = 0 then delivered input q 0 else delivered input (popTailQueue q) (items - 1)
      else if passToCanonBuf initAttr c then delivered input (pushQueue q c) (items + 1)
      else delivered input q items

/-- The last of the characters, if there are any, ends a line. -/
def EndsLine (input : List Char) : Prop := ∀ h : input ≠ [], input.getLast h = 10

lemma EndsLine.tail {c : Char} {input : List Char} (h : EndsLine (c :: input)) : EndsLine input := by
  intro hne
  rw [← h (List.cons_ne_nil c input), List.getLast_cons hne]

lemma cc_veol : initAttr.cc veol = 10 := by decide
lemma cc_veof : initAttr.cc veof = 4 := by decide
lemma cc_verase : initAttr.cc verase = 8 := by decide
lemma passes_newline : passToCanonBuf initAttr 10 = true := by decide
lemma passes_veof : passToCanonBuf initAttr 4 = false := by decide
lemma passes_verase : passToCanonBuf initAttr 8 = false := by decide

lemma ignoreChar_init (c : Char) : ignoreChar initAttr c = false := by simp [ignoreChar, initAttr]

lemma translateChar_init (c : Char) : translateChar initAttr c = c := by simp [translateChar, initAttr]

lemma echoe_init : initAttr.cLflag &&& echoe ≠ 0 := by decide

abbrev Cells (q : List Char) : List Elem := q.map fun c => [c]

section Queue
variable {line : RingBuf} {q input : List Char} {items : ℕ}

lemma holds_push (h : Holds 8192 1 line (Cells q)) (c : Char) :
    Holds 8192 1 (ringbufPush line fun _ => c).2 (Cells (pushQueue q c)) := by
  have hread : readBytes (fun _ => c) 0 1 = [c] := rfl
  unfold pushQueue
  rcases h.push (by decide) (by decide) (fun _ => c) with ⟨_, hfull, hsame⟩ | ⟨_, hroom, hnew⟩
  · rw [if_pos (by simpa using hfull), hsame]
    exact h
  · rw [if_neg (by simpa using hroom)]
    simpa [hread] using hnew

lemma holds_popTail (h : Holds 8192 1 line (Cells q)) :
    Holds 8192 1 (ringbufPopTail line).2 (Cells (popTailQueue q)) := by
  have hpop := h.popTail (by decide) (by decide)
  unfold popTailQueue
  rw [List.length_map] at hpop
  by_cases hq : q.length ≤ 1
  · rw [if_pos hq] at hpop ⊢
    exact hpop
  · rw [if_neg hq] at hpop ⊢
    rwa [Cells, List.map_dropLast]

/-- What the loop does to a line is what the characters lead to, and it leaves the characters after it. -/
lemma collectLine_delivers (hend : EndsLine input) (hne : input ≠ []) (h : Holds 8192 1 line (Cells q)) :
    ∃ line' rest q', collectLine initAttr input line items = some (line', rest) ∧
      Holds 8192 1 line' (Cells q') ∧ delivered input q items = q' ++ delivered rest [] 0 ∧
      EndsLine rest ∧ rest.length < input.length := by
  induction input generalizing line q items with
  | nil => exact absurd rfl hne
  | cons c input ih =>
    have hnext : c ≠ 10 → input ≠ [] := by
      rintro hc rfl
      exact hc (hend hne)
    have step {line q items} (hc : c ≠ 10) (h : Holds 8192 1 line (Cells q)) :
        ∃ line' rest q', collectLine initAttr input line items = some (line', rest) ∧
          Holds 8192 1 line' (Cells q') ∧ delivered input q items = q' ++ delivered rest [] 0 ∧
          EndsLine rest ∧ rest.length < (c :: input).length := by
      obtain ⟨line', rest, q', h1, h2, h3, h4, h5⟩ := ih hend.tail (hnext hc) h
      exact ⟨line', rest, q', h1, h2, h3, h4, h5.trans (Nat.lt_succ_self _)⟩
    simp only [collectLine, delivered, ignoreChar_init, translateChar_init, cc_veol, cc_veof, cc_verase,
      Bool.false_eq_true, if_false]
    by_cases hnl : c = 10
    · subst hnl
      rw [if_pos (Or.inl rfl), passes_newline]
      exact ⟨(ringbufPush line fun _ => 10).2, input, pushQueue q 10, rfl, holds_push h 10, rfl, hend.tail,
        Nat.lt_succ_self _⟩
    by_cases heof : c = 4
    · subst heof
      rw [if_pos (Or.inr rfl), passes_veof]
      exact ⟨line, input, q, rfl, h, rfl, hend.tail, Nat.lt_succ_self _⟩
    rw [if_neg (not_or.mpr ⟨hnl, heof⟩), if_neg hnl, if_neg heof]
    by_cases her : c = 8
    · rw [her] at step ⊢
      simp only [passes_verase, Bool.false_eq_true, if_false, if_true, true_and, echoe_init, ne_eq,
        not_false_eq_true]
      by_cases hitems : items = 0
      · rw [if_pos hitems, if_neg (not_not.mpr hitems), hitems]
        exact step (by decide) h
      · rw [if_neg hitems, if_pos hitems]
        exact step (by decide) (holds_popTail h)
    · rw [if_neg her, if_neg fun h => her h.2.1]
      by_cases hpass : passToCanonBuf initAttr c = true
      · simp only [hpass, if_true]
        exact step hnl (holds_push h c)
      · simp only [hpass, Bool.false_eq_true, if_false]
        exact step hnl h

/-- What a call takes out of a line. -/
lemma holds_popChars (h : Holds 8192 1 line (Cells q)) (k : ℕ) :
    (popChars k line).1 = q.take k ∧ Holds 8192 1 (popChars k line).2 (Cells (q.drop k)) := by
  induction k generalizing line q with
  | zero => exact ⟨rfl, h⟩
  | succ k ih =>
    obtain ⟨hhead, hrest⟩ := h.pop (by decide) (by decide)
    cases q with
    | nil =>
      rw [popChars, show ringbufPop line = (none, (ringbufPop line).2) from Prod.ext hhead rfl]
      exact ⟨rfl, hrest⟩
    | cons c q =>
      obtain ⟨h1, h2⟩ := ih hrest
      rw [popChars, show ringbufPop line = (some [c], (ringbufPop line).2) from Prod.ext hhead rfl]
      exact ⟨congrArg _ h1, h2⟩

lemma holds_size (h : Holds 8192 1 line (Cells q)) : line.size = 0 ↔ q = [] := by
  have hle : (Cells q).length ≤ 8192 := h.cursors.le
  rw [List.length_map] at hle
  rw [h.size, List.length_map, ← List.length_eq_zero_iff]
  have hone := BitVec.toNat_ofNat q.length 64
  rw [Nat.mod_eq_of_lt (by omega)] at hone
  rw [← BitVec.toNat_inj, hone]
  rfl

end Queue

/-- What a terminal is still going to deliver. -/
inductive Pending : Tty → List Char → Prop
  | idle {input : List Char} : EndsLine input → Pending ⟨initAttr, input, []⟩ (delivered input [] 0)
  | line {input q : List Char} {line : RingBuf} : EndsLine input → q ≠ [] → Holds 8192 1 line (Cells q) →
      Pending ⟨initAttr, input, [line]⟩ (q ++ delivered input [] 0)

section Runs
variable {stale : Memory} {readRaw : Tty → BitVec 64 → Option (List Char × Tty)} {tty : Tty}
  {remains : List Char}

lemma deliver_pending {line : RingBuf} {q input : List Char} (lines : List RingBuf) (hend : EndsLine input)
    (h : Holds 8192 1 line (Cells q)) (count : BitVec 64) :
    ∃ out tty' remains', deliver ⟨initAttr, input, lines⟩ line [] count = (out, tty') ∧
      Pending tty' remains' ∧ q ++ delivered input [] 0 = out ++ remains' ∧ tty'.input = input ∧
      (0 < count.toInt → q ≠ [] → out ≠ []) := by
  obtain ⟨hout, hleft⟩ := holds_popChars h count.toInt.toNat
  have hparts : q ++ delivered input [] 0 =
      q.take count.toInt.toNat ++ (q.drop count.toInt.toNat ++ delivered input [] 0) := by
    rw [← List.append_assoc, List.take_append_drop]
  have hsome : 0 < count.toInt → q ≠ [] → q.take count.toInt.toNat ≠ [] := by
    intro hcount hq
    rw [Ne, List.take_eq_nil_iff]
    exact not_or.mpr ⟨by omega, hq⟩
  unfold deliver
  by_cases hq : q.drop count.toInt.toNat = []
  · refine ⟨_, _, delivered input [] 0, rfl, ?_, ?_, rfl, ?_⟩
    · dsimp only
      rw [if_pos ((holds_size hleft).mpr hq)]
      exact .idle hend
    · rw [hout, hparts, hq, List.nil_append]
    · rwa [hout]
  · refine ⟨_, _, q.drop count.toInt.toNat ++ delivered input [] 0, rfl, ?_, ?_, rfl, ?_⟩
    · dsimp only
      rw [if_neg (hq ∘ (holds_size hleft).mp)]
      exact .line hend hq hleft
    · rw [hout, ← hparts]
    · rwa [hout]

/-- One call delivers the next part, or waits because nothing is left. -/
lemma Pending.read (stale : Memory) (readRaw : Tty → BitVec 64 → Option (List Char × Tty))
    (h : Pending tty remains) (count : BitVec 64) :
    (ttyRead stale readRaw tty count = none ∧ remains = []) ∨
    ∃ out tty' remains', ttyRead stale readRaw tty count = some (out, tty') ∧ Pending tty' remains' ∧
      remains = out ++ remains' ∧
      (0 < count.toInt → remains'.length + tty'.input.length < remains.length + tty.input.length) := by
  have hcanon : initAttr.cLflag &&& icanon ≠ 0 := by decide
  cases h with
  | @idle input hend =>
    rw [ttyRead, if_pos hcanon, ttyHandleCanon]
    by_cases hne : input = []
    · rw [hne]
      exact Or.inl ⟨rfl, rfl⟩
    have hnew : Holds 8192 1 (ringbufCreate stale 8192 1) (Cells []) := @holds_create stale 8192 1 (by decide)
    obtain ⟨line, rest, q, hcollect, hline, hdeliv, hend', hlt⟩ := collectLine_delivers hend hne hnew
    obtain ⟨out, tty', remains', hout, hpend, hsplit, hinput, _⟩ := deliver_pending [] hend' hline count
    rw [hcollect, hdeliv]
    refine Or.inr ⟨out, tty', remains', congrArg some hout, hpend, hsplit, fun _ => ?_⟩
    rw [hsplit, List.length_append, hinput]
    dsimp only
    omega
  | @line input q line hend hq hline =>
    obtain ⟨out, tty', remains', hout, hpend, hsplit, hinput, hsome⟩ := deliver_pending [line] hend hline count
    rw [ttyRead, if_pos hcanon, ttyHandleCanon]
    refine Or.inr ⟨out, tty', remains', congrArg some hout, hpend, hsplit, fun hcount => ?_⟩
    have hpos := List.length_pos_of_ne_nil (hsome hcount hq)
    rw [hsplit, List.length_append, hinput]
    dsimp only
    omega

/-- Successive calls deliver successive parts. -/
lemma Pending.reads_part (h : Pending tty remains) {counts : List (BitVec 64)} {out : List Char} {tty' : Tty}
    (hreads : ttyReads stale readRaw tty counts = some (out, tty')) : out <+: remains := by
  induction counts generalizing tty remains out with
  | nil =>
    cases hreads
    exact List.nil_prefix
  | cons count counts ih =>
    rcases h.read stale readRaw count with ⟨hnone, _⟩ | ⟨out1, tty1, remains1, hone, hpend, hsplit, _⟩
    · rw [ttyReads, hnone] at hreads
      cases hreads
    · rw [ttyReads, hone, Option.bind_some] at hreads
      obtain ⟨⟨out2, tty2⟩, hrest, heq⟩ := Option.map_eq_some_iff.mp hreads
      cases heq
      rw [hsplit]
      exact (List.prefix_append_right_inj out1).mpr (ih hpend hrest)

/-- Calls that ask for something deliver everything in the end. -/
lemma Pending.reads_all (stale : Memory) (readRaw : Tty → BitVec 64 → Option (List Char × Tty)) {n : ℕ}
    (h : Pending tty remains) (hn : remains.length + tty.input.length ≤ n)
    (counts : ℕ → BitVec 64) (hpos : ∀ i, 0 < (counts i).toInt) :
    ∃ k tty', ttyReads stale readRaw tty ((List.range k).map counts) = some (remains, tty') := by
  induction n generalizing tty remains counts with
  | zero =>
    obtain rfl : remains = [] := List.length_eq_zero_iff.mp (by omega)
    exact ⟨0, tty, rfl⟩
  | succ n ih =>
    rcases h.read stale readRaw (counts 0) with
      ⟨_, hnil⟩ | ⟨out1, tty1, remains1, hone, hpend, hsplit, hlt⟩
    · rw [hnil]
      exact ⟨0, tty, rfl⟩
    · have hle := hlt (hpos 0)
      obtain ⟨k, tty2, hrest⟩ := ih hpend (by omega) (fun i => counts (i + 1)) fun i => hpos (i + 1)
      refine ⟨k + 1, tty2, ?_⟩
      rw [List.range_succ_eq_map, List.map_cons, List.map_map, ttyReads, hone, Option.bind_some]
      have hshift : counts ∘ Nat.succ = fun i => counts (i + 1) := rfl
      rw [hshift, hrest, hsplit]
      rfl

/-- A line is delivered just if it is what remains. -/
lemma Pending.delivers_iff (h : Pending tty remains) (line : List Char) :
    DeliversLine stale readRaw tty line ↔ line = remains := by
  have hone : ∀ _ : ℕ, 0 < (1 : BitVec 64).toInt := fun _ => by decide
  constructor
  · rintro ⟨hpart, hall⟩
    obtain ⟨n, tty', hline⟩ := hall (fun _ => 1) hone
    obtain ⟨k, tty'', hremains⟩ := h.reads_all stale readRaw le_rfl (fun _ => 1) hone
    exact (h.reads_part hline).eq_of_length_le (hpart _ _ _ hremains).length_le
  · rintro rfl
    exact ⟨fun counts out tty' hreads => h.reads_part hreads, h.reads_all stale readRaw le_rfl⟩

end Runs

lemma passes_of_printable {c : Char} (h : Printable c ∨ c = 9) : passToCanonBuf initAttr c = true := by
  revert c
  decide +kernel

lemma length_pushQueue_le (q : List Char) (c : Char) : q.length ≤ (pushQueue q c).length := by
  unfold pushQueue
  split_ifs
  · exact le_rfl
  · simp

lemma pushQueue_le {q : List Char} (h : q.length ≤ 8192) (c : Char) : (pushQueue q c).length ≤ 8192 := by
  unfold pushQueue
  split_ifs with hfull
  · exact h
  · rw [List.length_append, List.length_singleton]
    omega

lemma pushQueue_room {q : List Char} (h : q.length < 8192) (c : Char) : pushQueue q c = q ++ [c] :=
  if_neg (by omega)

lemma not_mem_snoc {q : List Char} {c : Char} (h : 10 ∉ q) (hc : c ≠ 10) : 10 ∉ q ++ [c] :=
  List.not_mem_append h (List.mem_singleton.not.mpr hc.symm)

lemma not_mem_pushQueue {q : List Char} {c : Char} (h : 10 ∉ q) (hc : c ≠ 10) : 10 ∉ pushQueue q c := by
  unfold pushQueue
  split_ifs
  · exact h
  · exact not_mem_snoc h hc

lemma popTailQueue_prefix (q : List Char) : popTailQueue q <+: q := by
  unfold popTailQueue
  split_ifs
  · exact List.prefix_rfl
  · exact List.dropLast_prefix q

section Editing
variable {chars L done q : List Char} {c : Char} {items : ℕ}

lemma editChar_verase (L : List Char) : editChar L 8 = L.dropLast := if_pos cc_verase.symm

lemma editChar_shown (hc : c ≠ 8) (h : Printable c ∨ c = 9) : editChar L c = L ++ [c] := by
  rw [editChar, cc_verase, if_neg hc, if_pos h]

lemma editChar_control (hc : c ≠ 8) (h : ¬ (Printable c ∨ c = 9)) : editChar L c = L := by
  rw [editChar, cc_verase, if_neg hc, if_neg h]

/-- Lines short enough, whatever part of the characters has been typed. -/
abbrev Short (L chars : List Char) : Prop := ∀ p, p <+: chars → (editLine L p).length < 8192

lemma Short.tail (h : Short L (c :: chars)) : Short (editChar L c) chars :=
  fun p hp => h (c :: p) ((List.prefix_cons_inj c).mpr hp)

lemma Short.now (h : Short L chars) : L.length < 8192 := h [] List.nil_prefix

/-- A line buffer that is longer than the line stays so. -/
lemma delivered_ahead (hnl : 10 ∉ chars) (hshort : Short L chars) (hlen : L.length < (done ++ q).length)
    (hq : 10 ∉ done ++ q) (hle : q.length ≤ 8192) :
    done ++ delivered (chars ++ [10]) q items ≠ editLine L chars ++ [10] := by
  induction chars generalizing L done q items with
  | nil =>
    intro heq
    change done ++ (pushQueue q 10 ++ []) = L ++ [10] at heq
    rw [List.append_nil, pushQueue] at heq
    split_ifs at heq
    · rw [heq] at hq
      exact hq (by simp)
    · have := congrArg List.length heq
      simp only [List.length_append, List.length_singleton] at this hlen
      omega
  | cons c chars ih =>
    have hc : c ≠ 10 := fun h => hnl (h ▸ List.mem_cons_self)
    have hrest : 10 ∉ chars := fun h => hnl (List.mem_cons_of_mem c h)
    have hnow := hshort.now
    have hnext := hshort.tail.now
    have hdone : 10 ∉ done := fun h => hq (List.mem_append_left q h)
    have hqueue : 10 ∉ q := fun h => hq (List.mem_append_right done h)
    rw [List.length_append] at hlen
    change done ++ delivered (c :: (chars ++ [10])) q items ≠ editLine (editChar L c) chars ++ [10]
    rw [delivered, if_neg hc]
    by_cases heof : c = 4
    · have hedit : editChar L c = L := editChar_control (by rw [heof]; decide) (by rw [heof]; decide)
      rw [if_pos heof, ← List.append_assoc]
      apply ih hrest hshort.tail
      · rwa [hedit, List.append_nil, List.length_append]
      · rwa [List.append_nil]
      · exact Nat.zero_le _
    rw [if_neg heof]
    by_cases her : c = 8
    · have hedit : (editChar L c).length = L.length - 1 := by rw [her, editChar_verase, List.length_dropLast]
      rw [if_pos her]
      by_cases hitems : items = 0
      · rw [if_pos hitems]
        apply ih hrest hshort.tail _ hq hle
        rw [List.length_append]
        omega
      · rw [if_neg hitems]
        have hpre := popTailQueue_prefix q
        apply ih hrest hshort.tail
        · rw [List.length_append, popTailQueue]
          split_ifs
          · omega
          · rw [List.length_dropLast]
            omega
        · exact List.not_mem_append hdone fun h => hqueue (hpre.subset h)
        · exact hpre.length_le.trans hle
    rw [if_neg her]
    by_cases hshown : Printable c ∨ c = 9
    · have hedit : (editChar L c).length = L.length + 1 := by
        rw [editChar_shown her hshown, List.length_append, List.length_singleton]
      rw [if_pos (passes_of_printable hshown)]
      apply ih hrest hshort.tail _ (List.not_mem_append hdone (not_mem_pushQueue hqueue hc)) (pushQueue_le hle c)
      rw [List.length_append, pushQueue]
      split_ifs
      · omega
      · rw [List.length_append, List.length_singleton]
        omega
    · have hedit : editChar L c = L := editChar_control her hshown
      have hgrow := length_pushQueue_le q c
      by_cases hpass : passToCanonBuf initAttr c = true
      · rw [if_pos hpass]
        apply ih hrest hshort.tail _ (List.not_mem_append hdone (not_mem_pushQueue hqueue hc)) (pushQueue_le hle c)
        rw [hedit, List.length_append]
        omega
      · rw [if_neg hpass]
        apply ih hrest hshort.tail _ hq hle
        rwa [hedit, List.length_append]

/-- What the characters lead to is the edited line just if no erase is missed. -/
lemma delivered_iff (hnl : 10 ∉ chars) (hshort : Short (done ++ q) chars) (hq : 10 ∉ done ++ q) :
    done ++ delivered (chars ++ [10]) q q.length = editLine (done ++ q) chars ++ [10] ↔
      ErasesSeen done.length q.length chars := by
  induction chars generalizing done q with
  | nil =>
    have hnow := hshort.now
    rw [List.length_append] at hnow
    refine iff_of_true ?_ trivial
    change done ++ (pushQueue q 10 ++ []) = done ++ q ++ [10]
    rw [pushQueue_room (by omega), List.append_nil, List.append_assoc]
  | cons c chars ih =>
    have hc : c ≠ 10 := fun h => hnl (h ▸ List.mem_cons_self)
    have hrest : 10 ∉ chars := fun h => hnl (List.mem_cons_of_mem c h)
    have hnow := hshort.now
    have hdone : 10 ∉ done := fun h => hq (List.mem_append_left q h)
    have hqueue : 10 ∉ q := fun h => hq (List.mem_append_right done h)
    rw [List.length_append] at hnow
    change done ++ delivered (c :: (chars ++ [10])) q q.length = editLine (editChar (done ++ q) c) chars ++ [10] ↔ _
    have htail := hshort.tail
    rw [delivered, if_neg hc, ErasesSeen, cc_veof, cc_verase]
    by_cases heof : c = 4
    · have hedit : editChar (done ++ q) c = done ++ q ++ [] := by
        rw [editChar_control (by rw [heof]; decide) (by rw [heof]; decide), List.append_nil]
      rw [hedit] at htail ⊢
      have hstep := ih hrest htail (by rwa [List.append_nil])
      rw [if_pos heof, if_pos heof, ← List.append_assoc]
      rwa [List.length_append] at hstep
    rw [if_neg heof, if_neg heof]
    by_cases her : c = 8
    · rw [her, editChar_verase] at htail ⊢
      rw [if_pos rfl, if_pos rfl]
      by_cases hq0 : q = []
      · subst hq0
        rw [List.length_nil, if_pos rfl]
        by_cases hd0 : done = []
        · subst hd0
          have hstep := ih hrest htail hq
          simpa using hstep
        · have hpos := List.length_pos_of_ne_nil hd0
          refine iff_of_false ?_ fun h => hd0 (List.length_eq_zero_iff.mp (h.2.1 rfl))
          apply delivered_ahead hrest htail _ hq (Nat.zero_le _)
          rw [List.length_dropLast, List.append_nil]
          omega
      · have hpos := List.length_pos_of_ne_nil hq0
        rw [if_neg (by omega)]
        by_cases hq1 : q.length = 1
        · refine iff_of_false ?_ fun h => h.1 hq1
          rw [popTailQueue, if_pos hq1.le]
          apply delivered_ahead hrest htail _ hq (by omega)
          rw [List.length_dropLast, List.length_append]
          omega
        · rw [List.dropLast_append_of_ne_nil hq0] at htail ⊢
          have hstep := ih hrest htail
            (List.not_mem_append hdone fun h => hqueue ((List.dropLast_prefix q).subset h))
          rw [popTailQueue, if_neg (by omega), ← List.length_dropLast, hstep]
          exact ⟨fun h => ⟨hq1, fun h0 => absurd h0 (by omega), h⟩, fun h => h.2.2⟩
    rw [if_neg her, if_neg her]
    by_cases hshown : Printable c ∨ c = 9
    · rw [editChar_shown her hshown, List.append_assoc] at htail ⊢
      have hstep := ih hrest htail (List.not_mem_append hdone (not_mem_snoc hqueue hc))
      rw [if_pos (passes_of_printable hshown), if_pos hshown, pushQueue_room (by omega)]
      rwa [List.length_append, List.length_singleton] at hstep
    · rw [editChar_control her hshown] at htail ⊢
      rw [if_neg hshown]
      by_cases hpass : passToCanonBuf initAttr c = true
      · refine iff_of_false ?_ fun h => h.1 ⟨hpass, not_or.mp hshown⟩
        rw [if_pos hpass, pushQueue_room (by omega)]
        apply delivered_ahead hrest htail
        · simp
        · exact List.not_mem_append hdone (not_mem_snoc hqueue hc)
        · rw [List.length_append, List.length_singleton]
          omega
      · rw [if_neg hpass, ih hrest htail hq]
        exact ⟨fun h => ⟨fun hun => hpass hun.1, h⟩, fun h => h.2⟩

end Editing

/-- `tty_read` delivers the edited line, however the reads are split, just if no VERASE comes when one
character is left on the line or only characters from before a VEOF are, and no control character without a
function is typed: the last character of a line buffer is not taken out of it. -/
theorem ttyRead_edits_iff (stale : Memory) (readRaw : Tty → BitVec 64 → Option (List Char × Tty))
    (chars : List Char) (hnl : 10 ∉ chars) (hshort : ∀ p, p <+: chars → (editLine [] p).length < 8192) :
    DeliversLine stale readRaw (ttyInit (chars ++ [10])) (editLine [] chars ++ [10]) ↔
      ErasesSeen 0 0 chars := by
  have hend : EndsLine (chars ++ [10]) := fun _ => List.getLast_concat
  have hiff : [] ++ delivered (chars ++ [10]) [] [].length = editLine ([] ++ []) chars ++ [10] ↔ _ :=
    delivered_iff hnl hshort List.not_mem_nil
  rw [ttyInit, (Pending.idle hend).delivers_iff, eq_comm]
  exact hiff

theorem ttyRead_edits_three :
    DeliversLine (fun _ => 0) (fun _ _ => none) (ttyInit [104, 105, 111, 8, 10]) [104, 105, 10] := by
  have hshort : ∀ p ∈ [104, 105, 111, 8].inits, (editLine [] p).length < 8192 := by decide
  exact (ttyRead_edits_iff _ _ [104, 105, 111, 8] (by decide) fun p hp =>
    hshort p ((List.mem_inits p _).mpr hp)).mpr (by simp [ErasesSeen, cc_veof, cc_verase, Printable])

/-- "x", VERASE, newline: the "x" is delivered. -/
theorem erase_first_stays :
    ¬ DeliversLine (fun _ => 0) (fun _ _ => none) (ttyInit [120, 8, 10]) (editLine [] [120, 8] ++ [10]) := by
  intro h
  have hread : (ttyReads (fun _ => 0) (fun _ _ => none) (ttyInit [120, 8, 10]) [5]).map Prod.fst =
      some [120, 10] := by decide +kernel
  obtain ⟨⟨out, tty'⟩, hreads, rfl⟩ := Option.map_eq_some_iff.mp hread
  have hline : [120, 10] <+: editLine [] [120, 8] ++ [10] := h.part [5] _ tty' hreads
  exact absurd hline (by decide)

end PiggyOs.TtyCanon
