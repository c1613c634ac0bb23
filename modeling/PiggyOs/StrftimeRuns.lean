import PiggyOs.StrftimeTexts

/-! Whole runs of `strftime`: when the buffer and the format are respected, and the result is what the items stand
for. -/
namespace PiggyOs.Strftime
open CString Function ByteMemory Printf Filter
open PiggyOs.Timegm (Tm InInt)

/-- A character of the format, or a percent sign with the letter behind it. -/
inductive Item
  | plain (c : Byte)
  | conversion (letter : Byte)
  deriving DecidableEq, Repr

/-- The items of a format, and whether a percent sign stands alone at its end. -/
def items : List Byte → List Item × Bool
  | [] => ([], false)
  | [c] => if c = ch '%' then ([], true) else ([.plain c], false)
  | c :: letter :: f =>
      if c = ch '%' then (.conversion letter :: (items f).1, (items f).2)
      else (.plain c :: (items (letter :: f)).1, (items (letter :: f)).2)

/-- The text of a letter, as the `switch` gives it. -/
def textOf (tm : Tm) (letter : Byte) : List Byte := charsOf literals (piecesOf letter tm)

/-- What an item stands for. -/
def expansion (tm : Tm) : Item → List Byte
  | .plain c => [c]
  | .conversion letter => textOf tm letter

/-- The characters of a text that are counted, which are the first ones. -/
def counted (tm : Tm) (letter : Byte) : List Byte :=
  (textOf tm letter).take ((textOf tm letter).length - uncountedOf (piecesOf letter tm))

/-- What stays in the buffer of the items. -/
def kept : Tm → List Item → List Byte
  | _, [] => []
  | tm, .plain c :: is => c :: kept tm is
  | tm, .conversion letter :: is => counted tm letter ++ kept (after letter tm) is

/-- The characters that the items are counted with. -/
def extent : Tm → List Item → ℕ
  | _, [] => 0
  | tm, .plain _ :: is => extent tm is + 1
  | tm, .conversion letter :: is =>
      (textOf tm letter).length - uncountedOf (piecesOf letter tm) + extent (after letter tm) is

/-- Every conversion is counted in full, and stands for what it does at the beginning. -/
def Plain (tm0 : Tm) : Tm → List Item → Prop
  | _, [] => True
  | tm, .plain _ :: is => Plain tm0 tm is
  | tm, .conversion letter :: is => uncountedOf (piecesOf letter tm) = 0 ∧ textOf tm letter = textOf tm0 letter ∧
      Plain tm0 (after letter tm) is

/-- The last item is no conversion. -/
def EndsPlain (is : List Item) : Prop := ∀ letter, is.getLast? ≠ some (.conversion letter)

/-- The buffer and the format are respected: the call returns, nothing outside of the buffer changes, and the result is
0 or the length of what the items stand for, which is in the buffer then. -/
def Respects (size : BitVec 64) (fmt : CString) (tm : Tm) : Prop := ∀ (stale : Memory) (buffer : ℕ), ∃ ret m,
  (∀ᶠ fuel in atTop, strftime fuel stale buffer size fmt tm = some (ret, m)) ∧
  (∀ a, a < buffer ∨ buffer + size.toNat ≤ a → m a = stale a) ∧
  (ret = 0 ∨ ret = ((items fmt.1).1.flatMap (expansion tm)).length ∧
    readBytes m buffer (ret + 1) = (items fmt.1).1.flatMap (expansion tm) ++ [0])

section Letters
variable {strings : List (List Byte)} {p : Piece} {l : List Piece} {tm tm' tm0 tm1 : Tm} {t : ℤ} {letter c : Byte}

/-- Pieces that are counted, and do not begin with the last letter of `unsupported`. -/
def Tame : Piece → Prop
  | .lit c => ch c ≠ ch 'd'
  | .chr _ => False
  | _ => True

lemma hexChar_ne : ∀ d < 10, hexChar false d ≠ ch '%' ∧ hexChar false d ≠ ch 'd' := by decide

lemma tame_number (fill : Byte) (hfill : fill ≠ ch '%' ∧ fill ≠ ch 'd') (w : ℕ) (n : ℤ) :
    ch '%' ∉ number fill w n ∧ ch 'd' ∉ number fill w n := by
  have hsign : ch '-' ≠ ch '%' ∧ ch '-' ≠ ch 'd' := by decide
  constructor
  · intro h
    obtain ⟨-, hc⟩ | hc | ⟨d, hd, hc⟩ := mem_number h
    · exact hsign.1 hc.symm
    · exact hfill.1 hc.symm
    · exact (hexChar_ne d hd).1 hc.symm
  · intro h
    obtain ⟨-, hc⟩ | hc | ⟨d, hd, hc⟩ := mem_number h
    · exact hsign.2 hc.symm
    · exact hfill.2 hc.symm
    · exact (hexChar_ne d hd).2 hc.symm

lemma fill_tame (zero : Bool) : (if zero then ch '0' else ch ' ') ≠ ch '%' ∧
    (if zero then ch '0' else ch ' ') ≠ ch 'd' := by cases zero <;> decide

lemma literals_tame : ∀ s ∈ literals, s ≠ [] ∧ ch '%' ∉ s ∧ s.head? ≠ some (ch 'd') := by decide

lemma head_ne {s : List Byte} (h : c ∉ s) : s.head? ≠ some c := fun hc => h (List.mem_of_head? hc)

/-- The characters of such a piece. -/
lemma tame_chars (hp : p.Valid literals) (h : Tame p) : p.uncounted = 0 ∧ p.chars literals ≠ [] ∧
    ch '%' ∉ p.chars literals ∧ (p.chars literals).head? ≠ some (ch 'd') := by
  cases p with
  | lit c =>
    refine ⟨rfl, List.cons_ne_nil _ _, ?_, ?_⟩
    · rw [Piece.chars, List.mem_singleton]
      exact hp.2.symm
    · rw [Piece.chars, List.head?_cons]
      exact fun heq => h (Option.some.inj heq)
  | chr c => exact h.elim
  | num zero w n =>
    obtain ⟨hpercent, hd⟩ := tame_number _ (fill_tame zero) w (n.bmod (2 ^ 32))
    exact ⟨rfl, number_ne_nil _ _ _, hpercent, head_ne hd⟩
  | long n =>
    obtain ⟨hpercent, hd⟩ := tame_number (ch ' ') (fill_tame false) 0 (n.bmod (2 ^ 64))
    exact ⟨rfl, number_ne_nil _ _ _, hpercent, head_ne hd⟩
  | str i =>
    have hmem : literals.getD i [] ∈ literals := by
      rw [List.getD_eq_getElem _ _ hp]
      exact List.getElem_mem hp
    exact ⟨rfl, literals_tame _ hmem⟩

lemma tame_pieces (hvalid : ∀ p ∈ l, p.Valid literals) (h : ∀ p ∈ l, Tame p) :
    uncountedOf l = 0 ∧ ch '%' ∉ charsOf literals l ∧ (l ≠ [] → charsOf literals l ≠ [] ∧
      (charsOf literals l).head? ≠ some (ch 'd')) := by
  induction l with
  | nil => exact ⟨rfl, List.not_mem_nil, fun h => absurd rfl h⟩
  | cons p l ih =>
    rw [List.forall_mem_cons] at hvalid h
    obtain ⟨hcount, hne, hpercent, hhead⟩ := tame_chars hvalid.1 h.1
    obtain ⟨hcounts, hpercents, -⟩ := ih hvalid.2 h.2
    refine ⟨?_, ?_, fun _ => ⟨?_, ?_⟩⟩
    · rw [uncountedOf, List.map_cons, List.sum_cons, hcount, Nat.zero_add]
      exact hcounts
    · rw [charsOf, List.flatMap_cons, List.mem_append, not_or]
      exact ⟨hpercent, hpercents⟩
    · exact List.append_ne_nil_of_left_ne_nil hne _
    · rw [charsOf, List.flatMap_cons, List.head?_append_of_ne_nil _ hne]
      exact hhead

/-- The cases without `%c`, the percent sign, and the letters that are not supported. -/
lemma switch_kinds : ∀ c ∈ switchCases, (∀ tm, c.2 tm ≠ [] ∧ ∀ p ∈ c.2 tm, Tame p) ∨ (∀ tm, c.2 tm = [.chr (ch '%')]) ∨
    ch c.1 ≠ ch '%' ∧ ch c.1 ≠ ch 'd' ∧ ∀ tm, c.2 tm = unsupported c.1 := by
  simp only [switchCases, List.forall_mem_cons, unsupported, List.map_cons, List.map_nil, abvdays, days, abvmonths,
    months, Tame, List.not_mem_nil, false_imp_iff, implies_true, and_true]
  and_intros
  all_goals first
    | exact Or.inl fun _ => List.cons_ne_nil _ _
    | exact Or.inl fun _ => ⟨List.cons_ne_nil _ _, by decide⟩
    | exact Or.inr (Or.inl trivial)
    | exact Or.inr (Or.inr ⟨by decide, by decide⟩)

lemma piecesOf_s (h : Current tm0 t tm1 tm) : piecesOf (ch 's') tm = [.long t] := by
  rw [piecesOf, if_pos rfl, h.mktime]
  rfl

lemma valid_pieces (h : Current tm0 t tm1 tm) (letter : Byte) :
    (∀ p ∈ piecesOf letter tm, p.Valid literals) ∧ (piecesOf letter tm).length ≤ 13 := by
  by_cases hs : letter = ch 's'
  · rw [hs, piecesOf_s h]
    exact ⟨fun p hp => List.mem_singleton.mp hp ▸ trivial, Nat.le_of_ble_eq_true rfl⟩
  · obtain hnone | ⟨c, hc, heq⟩ := piecesOf_cases hs
    · rw [hnone]
      exact ⟨fun p hp => absurd hp List.not_mem_nil, by decide⟩
    · rw [heq]
      exact valid_cases h.fields c hc

lemma length_chars_le (hp : p.Valid literals) : (p.chars literals).length ≤ 100 := by
  cases p with
  | lit c => exact Nat.le_of_ble_eq_true rfl
  | chr c => exact Nat.le_of_ble_eq_true rfl
  | num zero w n =>
    have hbmod := Int.bmod_lt (x := n) (m := 2 ^ 32) (by decide)
    have hbmod' := Int.le_bmod (x := n) (m := 2 ^ 32) (by decide)
    exact length_number_le hp (by omega)
  | long n =>
    have hbmod := Int.bmod_lt (x := n) (m := 2 ^ 64) (by decide)
    have hbmod' := Int.le_bmod (x := n) (m := 2 ^ 64) (by decide)
    exact length_number_le (Nat.zero_le 64) (by omega)
  | str i =>
    have hmem : literals.getD i [] ∈ literals := by
      rw [List.getD_eq_getElem _ _ hp]
      exact List.getElem_mem hp
    exact (literals_short.2 _ hmem).2.le.trans (by decide)

lemma length_text_le (h : Current tm0 t tm1 tm) (letter : Byte) : (textOf tm letter).length ≤ 1300 := by
  obtain ⟨hvalid, hlen⟩ := valid_pieces h letter
  have hall : ∀ l : List Piece, (∀ p ∈ l, p.Valid literals) → (charsOf literals l).length ≤ l.length * 100 := by
    intro l hl
    induction l with
    | nil => exact Nat.zero_le _
    | cons p l ih =>
      rw [List.forall_mem_cons] at hl
      have hp := length_chars_le hl.1
      have hrest := ih hl.2
      rw [charsOf, List.flatMap_cons, List.length_append, List.length_cons, Nat.succ_mul]
      exact (Nat.add_comm _ _).trans_le (Nat.add_le_add hrest hp)
  exact (hall _ hvalid).trans (by omega)

/-- The letters by what is counted of their texts: there is none, or all of it, or all but the last character. -/
inductive Kind (letter : Byte) : Prop
  | unknown (h : ∀ tm, piecesOf letter tm = [])
  | full (h : ∀ {tm0 t tm1 tm}, Current tm0 t tm1 tm → uncountedOf (piecesOf letter tm) = 0 ∧ textOf tm letter ≠ [] ∧
      ch '%' ∉ textOf tm letter ∧ (textOf tm letter).head? ≠ some (ch 'd'))
  | short (front : List Byte) (last : Byte) (h : ∀ tm, uncountedOf (piecesOf letter tm) = 1 ∧
      textOf tm letter = front ++ [last]) (hpercent : ch '%' ∉ front)
      (hlast : front = [] ∧ last = ch '%' ∨ front ≠ [] ∧ front.head? ≠ some (ch 'd') ∧ last = ch 'd')

lemma text_unsupported (letter : Char) : uncountedOf (unsupported letter) = 1 ∧ charsOf literals (unsupported letter) =
    ch letter :: [' ', 'u', 'n', 's', 'u', 'p', 'p', 'o', 'r', 't', 'e'].map ch ++ [ch 'd'] := ⟨rfl, rfl⟩

lemma kind_of (letter : Byte) : Kind letter := by
  by_cases hs : letter = ch 's'
  · refine .full fun {tm0 t tm1 tm} h => ?_
    obtain ⟨hcount, hpercent, hne⟩ := tame_pieces (l := [.long t]) (fun p hp => List.mem_singleton.mp hp ▸ trivial)
      fun p hp => List.mem_singleton.mp hp ▸ trivial
    rw [textOf, hs, piecesOf_s h]
    exact ⟨hcount, (hne (List.cons_ne_nil _ _)).1, hpercent, (hne (List.cons_ne_nil _ _)).2⟩
  · obtain hnone | ⟨c, hc, heq⟩ := piecesOf_cases hs
    · exact .unknown hnone
    · obtain htame | hpercent | ⟨hletter, hletter', hunsupported⟩ := switch_kinds c hc
      · refine .full fun {tm0 t tm1 tm} h => ?_
        obtain ⟨hcount, hpercent, hne⟩ := tame_pieces (valid_cases h.fields c hc).1 (htame tm).2
        rw [textOf, heq]
        exact ⟨hcount, (hne (htame tm).1).1, hpercent, (hne (htame tm).1).2⟩
      · refine .short [] (ch '%') (fun tm => ?_) List.not_mem_nil (Or.inl ⟨rfl, rfl⟩)
        rw [textOf, heq, hpercent]
        exact ⟨rfl, rfl⟩
      · refine .short (ch c.1 :: [' ', 'u', 'n', 's', 'u', 'p', 'p', 'o', 'r', 't', 'e'].map ch) (ch 'd') (fun tm => ?_)
          ?_ (Or.inr ⟨List.cons_ne_nil _ _, fun h => hletter' (Option.some.inj h), rfl⟩)
        · rw [textOf, heq, hunsupported]
          exact text_unsupported c.1
        · rw [List.mem_cons, not_or]
          exact ⟨hletter.symm, by decide⟩

lemma counted_eq (h : uncountedOf (piecesOf letter tm) = 0) : counted tm letter = textOf tm letter := by
  rw [counted, h, Nat.sub_zero, List.take_length]

lemma counted_short {front : List Byte} {last : Byte} (h : uncountedOf (piecesOf letter tm) = 1 ∧
    textOf tm letter = front ++ [last]) : counted tm letter = front := by
  rw [counted, h.1, h.2, List.length_append, List.length_singleton, Nat.add_sub_cancel, List.take_left]

lemma length_counted_le (tm : Tm) (letter : Byte) : (counted tm letter).length ≤ (textOf tm letter).length :=
  List.length_take_le' _ _

end Letters

section Contents
variable {tm tm0 tm1 : Tm} {t : ℤ} {is : List Item} {letter : Byte}

lemma Current.after (h : Current tm0 t tm1 tm) (h1 : Current tm0 t tm1 tm1) (letter : Byte) :
    Current tm0 t tm1 (after letter tm) := by
  unfold Strftime.after
  split_ifs
  · rw [h.mktime]
    exact h1
  · exact h

/-- Characters that stand for themselves are no percent signs. -/
def Proper (is : List Item) : Prop := ∀ c, .plain c ∈ is → c ≠ ch '%'

lemma proper_cons {i : Item} (h : Proper (i :: is)) : Proper is := fun c hc => h c (List.mem_cons_of_mem i hc)

lemma proper_items (f : List Byte) : Proper (items f).1 := by
  intro c hc
  fun_induction items f with
  | case1 => exact absurd hc List.not_mem_nil
  | case2 => exact absurd hc List.not_mem_nil
  | case3 b hb =>
    cases List.mem_singleton.mp hc
    exact hb
  | case4 letter f ih =>
    obtain heq | hc := List.mem_cons.mp hc
    · cases heq
    · exact ih hc
  | case5 b letter f hb ih =>
    obtain heq | hc := List.mem_cons.mp hc
    · cases heq
      exact hb
    · exact ih hc

lemma percent_notMem (h : Current tm0 t tm1 tm) (h1 : Current tm0 t tm1 tm1) (hproper : Proper is) :
    ch '%' ∉ kept tm is := by
  induction is generalizing tm with
  | nil => exact List.not_mem_nil
  | cons i is ih =>
    cases i with
    | plain c =>
      rw [kept, List.mem_cons, not_or]
      exact ⟨(hproper c (List.mem_cons_self ..)).symm, ih h (proper_cons hproper)⟩
    | conversion letter =>
      rw [kept, List.mem_append, not_or]
      refine ⟨fun hmem => ?_, ih (h.after h1 letter) (proper_cons hproper)⟩
      cases kind_of letter with
      | unknown hnone =>
        have hempty : counted tm letter = [] := by
          rw [counted, textOf, hnone]
          rfl
        exact absurd (hempty ▸ hmem) List.not_mem_nil
      | full hfull => exact (hfull h).2.2.1 (counted_eq (hfull h).1 ▸ hmem)
      | short front last hshort hpercent _ => exact hpercent (counted_short (hshort tm) ▸ hmem)

/-- A text that lacks its last letter is not followed by that letter instead. -/
lemma kept_ne (h : Current tm0 t tm1 tm) (h1 : Current tm0 t tm1 tm1)
    (hproper : Proper is) : kept tm is ≠ ch 'd' :: is.flatMap (expansion tm0) := by
  induction is generalizing tm with
  | nil => exact (List.cons_ne_nil _ _).symm
  | cons i is ih =>
    intro heq
    cases i with
    | plain c =>
      rw [kept, List.flatMap_cons, expansion, List.singleton_append] at heq
      obtain ⟨hc, hrest⟩ := List.cons.inj heq
      exact ih h (proper_cons hproper) (hc ▸ hrest)
    | conversion letter =>
      have hrest := ih (h.after h1 letter) (proper_cons hproper)
      rw [kept, List.flatMap_cons, expansion] at heq
      cases kind_of letter with
      | unknown hnone =>
        have hempty : ∀ tm, textOf tm letter = [] := fun tm => by
          rw [textOf, hnone]
          rfl
        rw [counted, hempty, hempty, List.take_nil] at heq
        exact hrest heq
      | full hfull =>
        obtain ⟨hcount, hne, -, hhead⟩ := hfull h
        rw [counted_eq hcount] at heq
        have hfirst := congrArg List.head? heq
        rw [List.head?_append_of_ne_nil _ hne] at hfirst
        exact hhead hfirst
      | short front last hshort hpercent hlast =>
        rw [counted_short (hshort tm)] at heq
        obtain ⟨rfl, rfl⟩ | ⟨hne, hhead, rfl⟩ := hlast
        · have hmem : ch '%' ∈ kept (Strftime.after letter tm) is := by
            rw [List.nil_append, (hshort tm0).2] at heq
            rw [heq]
            simp
          exact percent_notMem (h.after h1 letter) h1 (proper_cons hproper) hmem
        · have hfirst := congrArg List.head? heq
          rw [List.head?_append_of_ne_nil _ hne] at hfirst
          exact hhead hfirst

/-- The texts of a letter for different fields can be told apart. -/
lemma cancels_text (hy : InInt (tm0.tmYear + 1900)) (h : Current tm0 t tm1 tm) (h0 : Current tm0 t tm1 tm0)
    (letter : Byte) : Cancels (textOf tm letter) (textOf tm0 letter) := by
  unfold textOf
  by_cases hs : letter = ch 's'
  · rw [hs, piecesOf_s h, piecesOf_s h0]
    exact .refl _
  · obtain hnone | ⟨c, hc, heq⟩ := piecesOf_cases hs
    · rw [hnone, hnone]
      exact .refl _
    · rw [heq, heq]
      exact cancels_pieces (cancels_cases hy h h0 c hc)

/-- What stays in the buffer is what the items stand for exactly if every conversion is counted in full and stands for
the same as at the beginning. -/
lemma kept_eq_iff (hy : InInt (tm0.tmYear + 1900)) (h : Current tm0 t tm1 tm) (h0 : Current tm0 t tm1 tm0)
    (h1 : Current tm0 t tm1 tm1) (hproper : Proper is) :
    kept tm is = is.flatMap (expansion tm0) ↔ Plain tm0 tm is := by
  induction is generalizing tm with
  | nil => exact iff_of_true rfl trivial
  | cons i is ih =>
    cases i with
    | plain c =>
      rw [kept, List.flatMap_cons, expansion, List.singleton_append, List.cons_inj_right, Plain]
      exact ih h (proper_cons hproper)
    | conversion letter =>
      have hrest := ih (h.after h1 letter) (proper_cons hproper)
      rw [kept, List.flatMap_cons, expansion, Plain, ← hrest]
      cases kind_of letter with
      | unknown hnone =>
        have hempty : ∀ tm, textOf tm letter = [] := fun tm => by
          rw [textOf, hnone]
          rfl
        rw [counted, hempty, hempty, hnone]
        exact ⟨fun heq => ⟨rfl, rfl, heq⟩, fun heq => heq.2.2⟩
      | full hfull =>
        rw [counted_eq (hfull h).1]
        constructor
        · intro heq
          have hsame := cancels_text hy h h0 letter _ _ heq
          rw [hsame] at heq
          exact ⟨(hfull h).1, hsame, List.append_cancel_left heq⟩
        · rintro ⟨-, hsame, heq⟩
          rw [hsame, heq]
      | short front last hshort hpercent hlast =>
        rw [counted_short (hshort tm), (hshort tm0).2, (hshort tm).1, List.append_assoc]
        refine iff_of_false (fun heq => ?_) fun hfalse => absurd hfalse.1 one_ne_zero
        have hnext := List.append_cancel_left heq
        obtain ⟨rfl, rfl⟩ | ⟨hne, hhead, rfl⟩ := hlast
        · exact percent_notMem (h.after h1 letter) h1 (proper_cons hproper) (hnext ▸ List.mem_cons_self ..)
        · exact kept_ne (h.after h1 letter) h1 (proper_cons hproper) hnext

end Contents

section Loop
variable {tm tm0 tm1 : Tm} {t : ℤ} {is : List Item} {letter : Byte} {fuel buffer r : ℕ} {s : State}

/-- What is left of the buffer behind the items; `none` when 0 is returned at one of them. -/
def left : ℕ → Tm → List Item → Option ℕ
  | r, _, [] => some r
  | r, tm, .plain _ :: is => if r = 0 then none else left (r - 1) tm is
  | r, tm, .conversion letter :: is =>
      if r ≤ (counted tm letter).length then none
      else left (r - (counted tm letter).length) (Strftime.after letter tm) is

lemma endsPlain_nil : EndsPlain [] := fun _ => nofun

lemma endsPlain_plain (c : Byte) : EndsPlain (.plain c :: is) ↔ EndsPlain is := by
  cases is with
  | nil => exact iff_of_true (fun _ => nofun) endsPlain_nil
  | cons i is => rw [EndsPlain, List.getLast?_cons_cons, EndsPlain]

lemma endsPlain_conversion (letter : Byte) :
    EndsPlain (.conversion letter :: is) ↔ is ≠ [] ∧ EndsPlain is := by
  cases is with
  | nil => exact iff_of_false (fun h => h letter rfl) fun h => h.1 rfl
  | cons i is =>
    rw [EndsPlain, List.getLast?_cons_cons, EndsPlain]
    exact (and_iff_right (List.cons_ne_nil i is)).symm

lemma kept_ne_nil (h : EndsPlain is) (hne : is ≠ []) (tm : Tm) : kept tm is ≠ [] := by
  induction is generalizing tm with
  | nil => exact absurd rfl hne
  | cons i is ih =>
    cases i with
    | plain c => exact List.cons_ne_nil _ _
    | conversion letter =>
      obtain ⟨hne, h⟩ := (endsPlain_conversion letter).mp h
      exact List.append_ne_nil_of_right_ne_nil _ (ih h hne _)

/-- All items are passed if there is room behind them, or if they just fit and the last one is no conversion. -/
lemma left_eq_some {m : ℕ} : left r tm is = some m ↔ (kept tm is).length + m = r ∧ (m = 0 → EndsPlain is) := by
  induction is generalizing r tm with
  | nil =>
    rw [left, kept, List.length_nil, Nat.zero_add, Option.some_inj]
    exact ⟨fun h => ⟨h.symm, fun _ => endsPlain_nil⟩, fun h => h.1.symm⟩
  | cons i is ih =>
    cases i with
    | plain c =>
      rw [left, kept, List.length_cons, endsPlain_plain]
      split_ifs with hr
      · exact iff_of_false nofun fun h => by omega
      · rw [ih]
        exact and_congr_left fun _ => by omega
    | conversion letter =>
      rw [left, kept, List.length_append, endsPlain_conversion]
      split_ifs with hr
      · refine iff_of_false nofun fun h => ?_
        obtain ⟨hne, hplain⟩ := h.2 (by omega)
        have := List.length_pos_iff.mpr (kept_ne_nil hplain hne (Strftime.after letter tm))
        omega
      · rw [ih]
        refine ⟨fun h => ⟨by omega, fun hm => ⟨?_, h.2 hm⟩⟩, fun h => ⟨by omega, fun hm => (h.2 hm).2⟩⟩
        rintro rfl
        rw [kept, List.length_nil] at h
        omega

/-- What a conversion does: its text is in the buffer as far as it fits, and is counted. -/
lemma convertItem_eq (h : Current tm0 t tm1 s.tm) (letter : Byte) (hfuel : 100 < fuel) :
    convertItem fuel letter s = some (BitVec.ofNat 32 (counted s.tm letter).length,
      { s with
        mem := limited s.mem s.b (textOf s.tm letter) (min (s.size.toNat - 1) (textOf s.tm letter).length)
        tm := Strftime.after letter s.tm }) := by
  obtain ⟨hvalid, hlen⟩ := valid_pieces h letter
  have hcounted : (counted s.tm letter).length = (textOf s.tm letter).length - uncountedOf (piecesOf letter s.tm) := by
    rw [counted, List.length_take, Nat.min_eq_left (Nat.sub_le _ _)]
  have hprinted : ∀ tm, snprintf fuel { s with tm := tm } (piecesOf letter s.tm) =
      some (BitVec.ofNat 32 (counted s.tm letter).length, { s with
        mem := limited s.mem s.b (textOf s.tm letter) (min (s.size.toNat - 1) (textOf s.tm letter).length)
        tm := tm }) := by
    intro tm
    rw [snprintf, vsnprintf_pieces literals_short hvalid (by omega), Option.map_some, hcounted]
    rfl
  by_cases hs : letter = ch 's'
  · subst hs
    rw [convertItem, if_pos rfl, h.mktime, Option.bind_some, ← piecesOf_s h, hprinted, Strftime.after, if_pos rfl,
      h.mktime]
    rfl
  · have hafter : Strftime.after letter s.tm = s.tm := if_neg hs
    rw [hafter]
    have hpieces : piecesOf letter s.tm = (switchCases.find? fun c => ch c.1 = letter).elim [] fun c => c.2 s.tm :=
      if_neg hs
    rw [convertItem, if_neg hs]
    cases hfind : switchCases.find? fun c => ch c.1 = letter with
    | none =>
      have hempty : textOf s.tm letter = [] := by
        rw [textOf, hpieces, hfind]
        rfl
      rw [counted, hempty, List.take_nil, List.length_nil, Nat.min_zero]
      rfl
    | some c =>
      rw [hfind] at hpieces
      have hc : c.2 s.tm = piecesOf letter s.tm := hpieces.symm
      dsimp only
      rw [hc]
      exact hprinted s.tm

/-- The ways in which the loop ends, with the text that stays of the items and what is left behind them. -/
inductive Outcome (s : State) (buffer : ℕ) (l : List Byte) : Option ℕ → Bool → Option (ℕ × State) → Prop
  | stops (dangling : Bool) (s' : State) (h : ∀ a, a < s.b ∨ s.b + s.size.toNat ≤ a → s'.mem a = s.mem a) :
      Outcome s buffer l none dangling (some (0, s'))
  | full (s' : State) (h : ∀ a, a < s.b ∨ s.b + s.size.toNat ≤ a → s'.mem a = s.mem a) :
      Outcome s buffer l (some 0) true (some (0, s'))
  | beyond (m : ℕ) : Outcome s buffer l (some (m + 1)) true none
  | ends (m : ℕ) (s' : State) (h : ∀ a, a < s.b ∨ s.b + l.length < a ∧ s.b + s.size.toNat ≤ a → s'.mem a = s.mem a)
      (htext : Text s'.mem s.b l) : Outcome s buffer l (some m) false (some (s.b + l.length - buffer, s'))

/-- A step that stores some characters, and the outcome of the rest. -/
lemma Outcome.step {s₁ : State} {w l : List Byte} {m : Option ℕ} {d : Bool} {res : Option (ℕ × State)}
    (h : Outcome s₁ buffer l m d res) (hb : s₁.b = s.b + w.length) (hsize : s₁.size.toNat = s.size.toNat - w.length)
    (hle : w.length ≤ s.size.toNat) (hframe : ∀ a, a < s.b ∨ s.b + s.size.toNat ≤ a → s₁.mem a = s.mem a)
    (htext : ∀ k < w.length, s₁.mem (s.b + k) = w.getD k 0) : Outcome s buffer (w ++ l) m d res := by
  cases h with
  | stops d s' h => exact .stops d s' fun a ha => (h a (by omega)).trans (hframe a ha)
  | full s' h => exact .full s' fun a ha => (h a (by omega)).trans (hframe a ha)
  | beyond m => exact .beyond m
  | ends m s' h hrest =>
    have hlen : s₁.b + l.length = s.b + (w ++ l).length := by
      rw [hb, List.length_append, Nat.add_assoc]
    rw [hlen]
    refine .ends m s' (fun a ha => ?_) fun k hk => ?_
    · rw [List.length_append] at ha
      exact (h a (by omega)).trans (hframe a (by omega))
    · obtain hlt | hge := Nat.lt_or_ge k w.length
      · rw [h _ (by omega), htext k hlt, List.getD_append _ _ _ _ hlt]
      · rw [List.length_append] at hk
        have hat := hrest (k - w.length) (by omega)
        rw [List.getD_append_right _ _ _ _ hge, ← hat, hb]
        congr 1
        omega

lemma limited_inside (stale : Memory) (str : ℕ) (S : List Byte) {n k : ℕ} (h : k < n) :
    limited stale str S n (str + k) = S.getD k 0 := by
  rw [limited, if_neg (Nat.ne_zero_of_lt h), update_of_ne (by omega), blit_inside _ _ h]

lemma outcome_nil (s : State) : Outcome s buffer (kept s.tm (items []).1) (left s.size.toNat s.tm (items []).1)
    (items []).2 (strftimeLoop fuel buffer [] s) := by
  refine .ends (l := []) s.size.toNat { s with mem := update s.mem s.b 0 } (fun a ha => ?_) fun k hk => ?_
  · rw [List.length_nil] at ha
    exact update_of_ne (by omega) 0 s.mem
  · obtain rfl : k = 0 := Nat.le_zero.mp hk
    exact update_self s.b 0 s.mem

lemma outcome_dangling (s : State) : Outcome s buffer (kept s.tm (items [ch '%']).1)
    (left s.size.toNat s.tm (items [ch '%']).1) (items [ch '%']).2 (strftimeLoop fuel buffer [ch '%'] s) := by
  have hnone : convertItem fuel 0 s = some (0, s) := by
    have hfind : (switchCases.find? fun c => ch c.1 = 0) = none := by
      rw [List.find?_eq_none]
      simp only [switchCases, List.forall_mem_cons, List.not_mem_nil, false_imp_iff, implies_true, and_true]
      decide
    rw [convertItem, if_neg (by decide), hfind]
  have hitems : items [ch '%'] = ([], true) := if_pos rfl
  have hloop : strftimeLoop fuel buffer [ch '%'] s = if s.size.toNat = 0 then some (0, s) else none := by
    have hcond : (0 : BitVec 32).toInt < 0 ∨ s.size ≤ (0 : BitVec 32).signExtend 64 ↔ s.size.toNat = 0 := by
      rw [BitVec.le_def]
      exact ⟨fun h => Nat.le_zero.mp (h.resolve_left (by decide)), fun h => Or.inr h.le⟩
    rw [strftimeLoop, if_neg (not_not.mpr rfl), List.headD_nil, hnone, Option.bind_some]
    simp only [hcond]
  rw [hitems, hloop, left, kept]
  cases hsize : s.size.toNat with
  | zero => exact .full s fun _ _ => rfl
  | succ m => exact .beyond m

lemma items_plain {c : Byte} (hc : c ≠ ch '%') (f : List Byte) :
    items (c :: f) = (.plain c :: (items f).1, (items f).2) := by
  cases f with
  | nil => exact if_neg hc
  | cons letter f => exact if_neg hc

lemma outcome_plain {c : Byte} {f : List Byte} (hc : c ≠ ch '%') (hrest : ∀ s₁ : State, s₁.tm = s.tm →
      Outcome s₁ buffer (kept s₁.tm (items f).1) (left s₁.size.toNat s₁.tm (items f).1) (items f).2
        (strftimeLoop fuel buffer f s₁)) :
    Outcome s buffer (kept s.tm (items (c :: f)).1) (left s.size.toNat s.tm (items (c :: f)).1) (items (c :: f)).2
      (strftimeLoop fuel buffer (c :: f) s) := by
  rw [items_plain hc, strftimeLoop, if_pos hc]
  dsimp only
  rw [kept, left]
  by_cases hsize : s.size = 0
  · have hzero : s.size.toNat = 0 := by
      rw [hsize]
      rfl
    rw [if_pos hsize, if_pos hzero]
    exact .stops _ s fun _ _ => rfl
  · have hpos : s.size.toNat ≠ 0 := fun h => hsize (BitVec.eq_of_toNat_eq h)
    have hsub : (s.size - 1).toNat = s.size.toNat - 1 := by
      rw [BitVec.toNat_sub_of_le (show (1 : BitVec 64) ≤ s.size from Nat.one_le_iff_ne_zero.mpr hpos)]
      rfl
    rw [if_neg hsize, if_neg hpos, ← hsub]
    refine (hrest { s with mem := update s.mem s.b c, b := s.b + 1, size := s.size - 1 } rfl).step (w := [c]) rfl hsub
      (Nat.one_le_iff_ne_zero.mpr hpos) (fun a ha => ?_) fun k hk => ?_
    · have hne : a ≠ s.b := by omega
      exact update_of_ne hne _ _
    · obtain rfl : k = 0 := Nat.lt_one_iff.mp hk
      exact update_self s.b c s.mem

lemma outcome_conversion {f : List Byte} (h : Current tm0 t tm1 s.tm) (hfuel : 100 < fuel)
    (hrest : ∀ s₁ : State, s₁.tm = Strftime.after letter s.tm →
      Outcome s₁ buffer (kept s₁.tm (items f).1) (left s₁.size.toNat s₁.tm (items f).1) (items f).2
        (strftimeLoop fuel buffer f s₁)) :
    Outcome s buffer (kept s.tm (items (ch '%' :: letter :: f)).1)
      (left s.size.toNat s.tm (items (ch '%' :: letter :: f)).1) (items (ch '%' :: letter :: f)).2
      (strftimeLoop fuel buffer (ch '%' :: letter :: f) s) := by
  have hitems : items (ch '%' :: letter :: f) = (.conversion letter :: (items f).1, (items f).2) := if_pos rfl
  have hlen := (length_counted_le s.tm letter).trans (length_text_le h letter)
  obtain ⟨w, hw⟩ : ∃ w, (counted s.tm letter).length = w := ⟨_, rfl⟩
  have hnat : (BitVec.ofNat 32 w).toNat = w := by
    rw [BitVec.toNat_ofNat]
    omega
  have hint : (BitVec.ofNat 32 w).toInt = w := by
    rw [BitVec.toInt_eq_toNat_of_lt (by omega), hnat]
  have hext : ((BitVec.ofNat 32 w).signExtend 64).toNat = w := by
    rw [BitVec.signExtend_eq_setWidth_of_msb_false (BitVec.msb_eq_false_iff_two_mul_lt.mpr (by omega)),
      BitVec.toNat_setWidth, hnat]
    omega
  have hcond : (BitVec.ofNat 32 w).toInt < 0 ∨ s.size ≤ (BitVec.ofNat 32 w).signExtend 64 ↔ s.size.toNat ≤ w := by
    rw [BitVec.le_def, hext, hint]
    omega
  have hframe : ∀ a, a < s.b ∨ s.b + s.size.toNat ≤ a →
      limited s.mem s.b (textOf s.tm letter) (min (s.size.toNat - 1) (textOf s.tm letter).length) a = s.mem a := by
    intro a ha
    obtain hzero | hpos := Nat.eq_zero_or_pos s.size.toNat
    · rw [hzero, Nat.zero_sub, Nat.zero_min]
      rfl
    · exact limited_outside _ _ _ (by omega)
  rw [hitems, strftimeLoop, if_neg (not_not.mpr rfl), List.headD_cons, convertItem_eq h letter hfuel, Option.bind_some]
  dsimp only
  rw [kept, left, hw, hnat]
  by_cases hfull : s.size.toNat ≤ w
  · rw [if_pos (hcond.mpr hfull), if_pos hfull]
    exact .stops _ _ hframe
  · rw [if_neg fun hc => hfull (hcond.mp hc), if_neg hfull]
    have hsub : (s.size - (BitVec.ofNat 32 w).signExtend 64).toNat = s.size.toNat - w := by
      rw [BitVec.toNat_sub_of_le (BitVec.le_def.mpr (by omega)), hext]
    have hout := hrest { s with
      mem := limited s.mem s.b (textOf s.tm letter) (min (s.size.toNat - 1) (textOf s.tm letter).length)
      b := s.b + w
      size := s.size - (BitVec.ofNat 32 w).signExtend 64
      tm := Strftime.after letter s.tm } rfl
    rw [← hsub]
    refine hout.step (by rw [hw]) (by rw [hw, hsub]) (by omega) hframe fun k hk => ?_
    have hin : k < min (s.size.toNat - 1) (textOf s.tm letter).length := by
      have := length_counted_le s.tm letter
      omega
    dsimp only
    rw [limited_inside _ _ _ hin, counted, List.getD_eq_getElem?_getD, List.getD_eq_getElem?_getD,
      List.getElem?_take_of_lt]
    rw [counted, List.length_take] at hk
    omega

/-- The loop over the format. -/
lemma strftimeLoop_outcome (f : List Byte) (h : Current tm0 t tm1 s.tm) (h1 : Current tm0 t tm1 tm1)
    (hfuel : 100 < fuel) : Outcome s buffer (kept s.tm (items f).1) (left s.size.toNat s.tm (items f).1) (items f).2
      (strftimeLoop fuel buffer f s) := by
  induction f using items.induct generalizing s with
  | case1 => exact outcome_nil s
  | case2 => exact outcome_dangling s
  | case3 c hc => exact outcome_plain hc fun s₁ _ => outcome_nil s₁
  | case4 letter f ih => exact outcome_conversion h hfuel fun s₁ hs => ih (hs ▸ h.after h1 letter)
  | case5 c letter f hc ih => exact outcome_plain hc fun s₁ hs => ih (hs ▸ h)

/-- More fuel changes nothing. -/
lemma strftimeLoop_fuel (f : List Byte) (h : Current tm0 t tm1 s.tm) (h1 : Current tm0 t tm1 tm1)
    (hfuel : 100 < fuel) : strftimeLoop fuel buffer f s = strftimeLoop 101 buffer f s := by
  have hsame : ∀ letter {s : State}, Current tm0 t tm1 s.tm → convertItem fuel letter s = convertItem 101 letter s :=
    fun letter s hs => (convertItem_eq hs letter hfuel).trans (convertItem_eq hs letter (by decide)).symm
  induction f using items.induct generalizing s with
  | case1 => rfl
  | case2 => simp only [strftimeLoop, hsame _ h]
  | case3 c hc => simp only [strftimeLoop, if_pos hc]
  | case4 letter f ih =>
    simp only [strftimeLoop, ne_eq, not_true_eq_false, if_false, List.headD_cons, hsame _ h,
      convertItem_eq h letter (show 100 < 101 by decide), Option.bind_some]
    rw [ih (h.after h1 letter)]
  | case5 c letter f hc ih =>
    have hrest := @ih { s with mem := update s.mem s.b c, b := s.b + 1, size := s.size - 1 } h
    rw [strftimeLoop, if_pos hc, hrest]
    conv_rhs => rw [strftimeLoop, if_pos hc]

end Loop

section Results
variable {tm : Tm} {is : List Item}

lemma length_kept (tm : Tm) (is : List Item) : (kept tm is).length = extent tm is := by
  induction is generalizing tm with
  | nil => rfl
  | cons i is ih =>
    cases i with
    | plain c => rw [kept, List.length_cons, ih, extent]
    | conversion letter =>
      rw [kept, List.length_append, ih, extent, counted, List.length_take, Nat.min_eq_left (Nat.sub_le _ _)]

lemma readBytes_of_text {m : Memory} {b : ℕ} {l : List Byte} (h : Text m b l) :
    readBytes m b (l.length + 1) = l ++ [0] := by
  apply List.ext_getElem
  · simp
  · intro k hk hk'
    rw [length_readBytes] at hk
    rw [getElem_readBytes, h k (Nat.le_of_lt_succ hk)]
    obtain hlt | rfl := Nat.lt_or_eq_of_le (Nat.le_of_lt_succ hk)
    · rw [List.getD_eq_getElem _ _ hlt, List.getElem_append_left hlt]
    · simp

lemma exists_outcome (h : InRange tm) (size : BitVec 64) (fmt : CString) (stale : Memory) (buffer : ℕ) : ∃ res,
    Outcome ⟨stale, buffer, size, tm⟩ buffer (kept tm (items fmt.1).1) (left size.toNat tm (items fmt.1).1)
      (items fmt.1).2 res ∧
    ∀ fuel > 100, strftime fuel stale buffer size fmt tm = res.map fun r => (r.1, r.2.mem) := by
  obtain ⟨t, tm1, h0, h1⟩ := h.current
  refine ⟨_, strftimeLoop_outcome fmt.1 h0 h1 (show 100 < 101 by decide), fun fuel hfuel => ?_⟩
  rw [strftime, strftimeLoop_fuel fmt.1 h0 h1 hfuel]

lemma contents_iff (h : InRange tm) (fmt : CString) :
    kept tm (items fmt.1).1 = (items fmt.1).1.flatMap (expansion tm) ↔ Plain tm tm (items fmt.1).1 := by
  obtain ⟨t, tm1, h0, h1⟩ := h.current
  exact kept_eq_iff h.year.2 h0 h0 h1 (proper_items fmt.1)

lemma left_eq_some_extent {r m : ℕ} :
    left r tm is = some m ↔ extent tm is + m = r ∧ (m = 0 → EndsPlain is) := by rw [left_eq_some, length_kept]

end Results

/-- For fields in range: the buffer and the format are respected exactly if the counted characters do not fit, or they
just fit and the format ends with a conversion or a percent sign, or they fit with room for the terminator, no percent
sign stands alone at the end, and nothing is counted or every conversion is counted in full and stands for what it does
at the beginning. -/
theorem respects_iff (size : BitVec 64) (fmt : CString) (tm : Tm) (h : InRange tm) : Respects size fmt tm ↔
    size.toNat < extent tm (items fmt.1).1 ∨
    (extent tm (items fmt.1).1 = size.toNat ∧ (¬ EndsPlain (items fmt.1).1 ∨ (items fmt.1).2 = true)) ∨
    (extent tm (items fmt.1).1 < size.toNat ∧ (items fmt.1).2 = false ∧
      (extent tm (items fmt.1).1 = 0 ∨ Plain tm tm (items fmt.1).1)) := by
  have hcontents := contents_iff h fmt
  have hall := exists_outcome h size fmt
  obtain ⟨is, hitems⟩ : ∃ is, (items fmt.1).1 = is := ⟨_, rfl⟩
  obtain ⟨d, hd⟩ : ∃ d, (items fmt.1).2 = d := ⟨_, rfl⟩
  simp only [Respects, hitems, hd] at hcontents hall ⊢
  obtain ⟨x, hx⟩ : ∃ x, left size.toNat tm is = x := ⟨_, rfl⟩
  rw [hx] at hall
  constructor
  · intro hrespects
    obtain ⟨ret, m, hret, hframe, hresult⟩ := hrespects (fun _ => 1) 0
    obtain ⟨res, hcase, hrun⟩ := hall (fun _ => 1) 0
    obtain ⟨fuel, hfuel, heq⟩ := ((eventually_gt_atTop 100).and hret).exists
    rw [hrun fuel hfuel] at heq
    cases hcase with
    | stops d s' _ =>
      have hnone : ∀ m, ¬ (extent tm is + m = size.toNat ∧ (m = 0 → EndsPlain is)) := fun m hm => by
        rw [← left_eq_some_extent, hx] at hm
        cases hm
      obtain hlt | heq' | hgt := Nat.lt_trichotomy size.toNat (extent tm is)
      · exact Or.inl hlt
      · exact Or.inr (Or.inl ⟨heq'.symm, Or.inl fun hplain => hnone 0 ⟨heq'.symm, fun _ => hplain⟩⟩)
      · exact absurd ⟨by omega, fun h0 => by omega⟩ (hnone (size.toNat - extent tm is))
    | full s' _ => exact Or.inr (Or.inl ⟨(left_eq_some_extent.mp hx).1, Or.inr rfl⟩)
    | beyond m => cases heq
    | ends n s' _ htext =>
      obtain ⟨rfl, rfl⟩ := Prod.mk.inj (Option.some.inj heq)
      obtain ⟨hextent, -⟩ := left_eq_some_extent.mp hx
      simp only [Nat.zero_add, Nat.sub_zero, length_kept] at hframe hresult
      cases n with
      | zero =>
        have hterminator := htext (kept tm is).length le_rfl
        rw [List.getD_eq_default _ _ le_rfl, length_kept, Nat.zero_add, hframe _ (Or.inr (by omega))] at hterminator
        exact absurd hterminator (by decide)
      | succ n =>
        refine Or.inr (Or.inr ⟨by omega, rfl, hresult.imp id fun hread => hcontents.mp ?_⟩)
        have hbytes := hread.2
        rw [← length_kept, readBytes_of_text htext] at hbytes
        exact List.append_cancel_right hbytes
  · intro hcond stale buffer
    obtain ⟨res, hcase, hrun⟩ := hall stale buffer
    have hfuel : ∀ᶠ fuel in atTop, strftime fuel stale buffer size fmt tm = res.map fun r => (r.1, r.2.mem) := by
      filter_upwards [eventually_gt_atTop 100] with fuel hfuel
      exact hrun fuel hfuel
    cases hcase with
    | stops d s' hrest => exact ⟨0, s'.mem, hfuel, hrest, Or.inl rfl⟩
    | full s' hrest => exact ⟨0, s'.mem, hfuel, hrest, Or.inl rfl⟩
    | beyond m =>
      have := left_eq_some_extent.mp hx
      obtain hlt | ⟨heq, -⟩ | ⟨-, hfalse, -⟩ := hcond
      · omega
      · omega
      · cases hfalse
    | ends n s' hrest htext =>
      obtain ⟨hextent, hplain⟩ := left_eq_some_extent.mp hx
      obtain hlt | ⟨heq, hlast⟩ | ⟨hlt, -, hsame⟩ := hcond
      · omega
      · exact absurd (hplain (by omega)) (hlast.resolve_right Bool.false_ne_true)
      · have hlength := length_kept tm is
        refine ⟨_, s'.mem, hfuel, fun a ha => hrest a (by dsimp only; omega), ?_⟩
        dsimp only
        rw [Nat.add_sub_cancel_left]
        refine hsame.imp (fun h0 => (length_kept tm is).trans h0) fun hplain => ?_
        rw [← hcontents.mpr hplain]
        exact ⟨rfl, readBytes_of_text htext⟩

/-- 1970-01-01 00:00:00, a Thursday. -/
def epoch : Tm := ⟨0, 0, 0, 1, 0, 70, 4, 0⟩

lemma inRange_epoch : InRange epoch where
  sec := by decide
  min := by decide
  hour := by decide
  mday := by decide
  mon := by decide
  wday := by decide
  yday := by decide
  year := by decide

/-- `%H:%M` -/
def hourFormat : CString := ofBytes (['%', 'H', ':', '%', 'M'].map ch)

theorem respects_iff_hours : Respects 20 hourFormat epoch :=
  (respects_iff 20 hourFormat epoch inRange_epoch).mpr
    (Or.inr (Or.inr ⟨by decide +kernel, rfl, Or.inr ⟨rfl, rfl, rfl, rfl, trivial⟩⟩))

/-- The terminator behind three characters, the letter of a lonely percent sign, and a percent sign that is not
counted. -/
theorem strftime_disrespects : ¬ Respects 3 (ofBytes (['a', 'b', 'c'].map ch)) epoch ∧
    ¬ Respects 5 (ofBytes [ch '%']) epoch ∧ ¬ Respects 5 (ofBytes (['a', '%', '%'].map ch)) epoch := by
  refine ⟨fun h => ?_, fun h => ?_, fun h => ?_⟩
  · obtain ⟨ret, m, hret, hframe, -⟩ := h (fun _ => 1) 0
    obtain ⟨fuel, heq⟩ := hret.exists
    have hstrftime : strftime fuel (fun _ => 1) 0 3 (ofBytes (['a', 'b', 'c'].map ch)) epoch =
        some (3, update (update (update (update (fun _ => 1) 0 (ch 'a')) 1 (ch 'b')) 2 (ch 'c')) 3 0) := rfl
    obtain ⟨rfl, rfl⟩ := Prod.mk.inj (Option.some.inj (hstrftime.symm.trans heq))
    exact absurd (hframe 3 (Or.inr le_rfl)) (by decide)
  · obtain ⟨ret, m, hret, -⟩ := h (fun _ => 1) 0
    obtain ⟨fuel, heq⟩ := hret.exists
    have hstrftime : strftime fuel (fun _ => 1) 0 5 (ofBytes [ch '%']) epoch = none := rfl
    cases hstrftime.symm.trans heq
  · obtain ⟨ret, m, hret, -, hresult⟩ := h (fun _ => 1) 0
    obtain ⟨res, hcase, hrun⟩ := exists_outcome inRange_epoch 5 (ofBytes (['a', '%', '%'].map ch)) (fun _ => 1) 0
    obtain ⟨fuel, hfuel, heq⟩ := ((eventually_gt_atTop 100).and hret).exists
    rw [hrun fuel hfuel] at heq
    have hkept : kept epoch (items (ofBytes (['a', '%', '%'].map ch)).1).1 = [ch 'a'] := rfl
    have hleft : left (5 : BitVec 64).toNat epoch (items (ofBytes (['a', '%', '%'].map ch)).1).1 = some 4 := rfl
    have hend : (items (ofBytes (['a', '%', '%'].map ch)).1).2 = false := rfl
    have hlength : ((items (ofBytes (['a', '%', '%'].map ch)).1).1.flatMap (expansion epoch)).length = 2 := rfl
    rw [hkept, hleft, hend] at hcase
    rw [hlength] at hresult
    cases hcase with
    | ends n s' _ _ =>
      obtain ⟨rfl, rfl⟩ := Prod.mk.inj (Option.some.inj heq)
      obtain hzero | ⟨htwo, -⟩ := hresult
      · cases hzero
      · cases htwo

end PiggyOs.Strftime
