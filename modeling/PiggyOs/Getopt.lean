import PiggyOs.CString

/-! The options of a command line: `getopt`, and the scan that it should be. -/
namespace PiggyOs.Getopt
open CString

def dash : BitVec 8 := 0x2d

def colon : BitVec 8 := 0x3a

def question : BitVec 8 := 0x3f

/-- `optarg` points into an argument. -/
structure Vars where
  optarg : Option (ℕ × ℕ)
  optind : ℕ
  optopt : ℤ
  optcharOffset : ℕ
  stderr : List (BitVec 8)

/-- The character at an offset or the terminator; `none` for what is behind it. -/
def charAt (s : CString) (i : ℕ) : Option (BitVec 8) := (s.1 ++ [0])[i]?

def bytesOf (s : String) : List (BitVec 8) := s.toList.map fun c => BitVec.ofNat 8 c.toNat

def complaint (argv : List CString) (problem : String) (optchar : BitVec 8) : List (BitVec 8) :=
  (argv.head?.elim [] (·.1)) ++ bytesOf (": " ++ problem ++ " -- '") ++ [optchar] ++ bytesOf "'\n"

section Code
variable (argv : List CString) (optstring : CString)

/-- What `getopt` does in a group of letters. -/
def readLetter (v : Vars) (optgroup : CString) : Option (ℤ × Vars) :=
  (charAt optgroup v.optcharOffset).bind fun optchar =>
    let i := optstring.1.findIdx (· = optchar)
    if i = optstring.strlen then
      some (question.toInt, { v with
        optopt := optchar.toInt
        optind := v.optind + 1
        stderr := v.stderr ++ complaint argv "invalid option" optchar })
    else
      (charAt optgroup (v.optcharOffset + 1)).bind fun next =>
        if ¬ charAt optstring (i + 1) = some colon then
          if next = 0 then some (optchar.toInt, { v with optind := v.optind + 1, optcharOffset := 1 })
          else some (optchar.toInt, { v with optcharOffset := v.optcharOffset + 1 })
        else if next = 0 then
          if v.optind + 2 ≤ argv.length then
            some (optchar.toInt, { v with optarg := some (v.optind + 1, 0), optind := v.optind + 2 })
          else
            some (colon.toInt, { v with
              optind := v.optind + 1
              optarg := none
              optopt := optchar.toInt
              stderr := v.stderr ++ complaint argv "option requires an argument" optchar })
        else
          some (optchar.toInt, { v with
            optarg := some (v.optind, v.optcharOffset + 1)
            optind := v.optind + 1
            optcharOffset := 1 })

/-- `none` when a character behind the end of an argument is read. There is no argument from `argc` on. -/
def getopt (v : Vars) : Option (ℤ × Vars) :=
  match argv[v.optind]? with
  | none => some (-1, v)
  | some optgroup =>
      if optgroup.1.headD 0 ≠ dash ∨ optgroup.1 = [dash] then some (-1, v)
      else if optgroup.1 = [dash, dash] then some (-1, { v with optind := v.optind + 1 })
      else readLetter argv optstring v optgroup

/-- What can be seen after a call. -/
structure Event where
  result : ℤ
  optarg : Option (ℕ × ℕ)
  optind : ℕ
  deriving DecidableEq, Repr

/-- Calls are repeated until the result is `-1`. -/
def repeatGetopt : ℕ → Vars → Option (List Event)
  | 0, _ => none
  | fuel + 1, v => (getopt argv optstring v).bind fun r =>
      if r.1 = -1 then some [⟨r.1, r.2.optarg, r.2.optind⟩]
      else (repeatGetopt fuel r.2).map (⟨r.1, r.2.optarg, r.2.optind⟩ :: ·)

end Code

def initial : Vars where
  optarg := none
  optind := 1
  optopt := 0
  optcharOffset := 1
  stderr := []

/-- A letter of `optstring`, and whether `:` follows it. -/
structure Letter where
  char : BitVec 8
  takesArg : Bool
  positive : 0 < char.toInt
  plain : char ≠ colon ∧ char ≠ question

def Letter.bytes (l : Letter) : List (BitVec 8) := if l.takesArg then [l.char, colon] else [l.char]

lemma Letter.char_ne_zero (l : Letter) : l.char ≠ 0 := by
  intro h
  have hpos := l.positive
  rw [h] at hpos
  exact absurd hpos (by decide)

lemma zero_notMem_optstring (letters : List Letter) : 0 ∉ letters.flatMap Letter.bytes := by
  rw [List.mem_flatMap]
  rintro ⟨l, -, hmem⟩
  have hcolon : colon ≠ 0 := by decide
  rw [Letter.bytes] at hmem
  split_ifs at hmem
  · rcases List.mem_cons.mp hmem with h | h
    · exact l.char_ne_zero h.symm
    · exact hcolon (List.mem_singleton.mp h).symm
  · exact l.char_ne_zero (List.mem_singleton.mp hmem).symm

def optstringOf (letters : List Letter) : CString := ⟨letters.flatMap Letter.bytes, zero_notMem_optstring letters⟩

/-- Whether a letter takes an argument; `none` for an unknown one. -/
def lookup (letters : List Letter) (c : BitVec 8) : Option Bool :=
  (letters.find? fun l => l.char = c).map Letter.takesArg

section Scan
variable (letters : List Letter) (k : ℕ) (args : List CString)

/-- The letters of the group in the `k`-th argument from an offset on; then the scan goes on behind the group, or behind
the argument after it. -/
def scanLetters (next skip : Option (ℕ × ℕ) → List Event) : ℕ → List (BitVec 8) → Option (ℕ × ℕ) → List Event
  | _, [], optarg => next optarg
  | o, c :: cs, optarg =>
      match lookup letters c with
      | none => ⟨question.toInt, optarg, if cs = [] then k + 1 else k⟩ :: scanLetters next skip (o + 1) cs optarg
      | some false => ⟨c.toInt, optarg, if cs = [] then k + 1 else k⟩ :: scanLetters next skip (o + 1) cs optarg
      | some true =>
          if cs ≠ [] then ⟨c.toInt, some (k, o + 1), k + 1⟩ :: next (some (k, o + 1))
          else if args = [] then ⟨colon.toInt, none, k + 1⟩ :: next none
          else ⟨c.toInt, some (k + 1, 0), k + 2⟩ :: skip (some (k + 1, 0))

end Scan

/-- A group of letters. -/
def IsGroup (s : CString) : Prop := s.1.headD 0 = dash ∧ s.1 ≠ [dash] ∧ s.1 ≠ [dash, dash]

instance (s : CString) : Decidable (IsGroup s) := inferInstanceAs (Decidable (_ ∧ _))

lemma IsGroup.tail_ne_nil {s : CString} (h : IsGroup s) : s.1.tail ≠ [] := by
  obtain ⟨hhead, hone, -⟩ := h
  cases hs : s.1 with
  | nil =>
    rw [hs] at hhead
    exact absurd hhead (by decide)
  | cons c cs =>
    rw [hs, List.headD_cons] at hhead
    rw [List.tail_cons]
    rintro rfl
    exact hone (hhead ▸ hs)

/-- The arguments from the `k`-th on are scanned; the first of them may belong to the option before it. -/
def scan (letters : List Letter) : ℕ → Bool → List CString → Option (ℕ × ℕ) → List Event
  | k, _, [], optarg => [⟨-1, optarg, k⟩]
  | k, true, _ :: args, optarg => scan letters (k + 1) false args optarg
  | k, false, group :: args, optarg =>
      if IsGroup group then
        scanLetters letters k args (scan letters (k + 1) false args) (scan letters (k + 1) true args) 1 group.1.tail
          optarg
      else [⟨-1, optarg, if group.1 = [dash, dash] then k + 1 else k⟩]

section Lookup
variable {letters : List Letter} {c : BitVec 8}

/-- What the loop over `optstring` and the test for `:` find. -/
def found (bytes : List (BitVec 8)) (c : BitVec 8) : Option Bool :=
  if bytes.findIdx (· = c) = bytes.length then none
  else some (decide ((bytes ++ [0])[bytes.findIdx (· = c) + 1]? = some colon))

lemma found_nil (c : BitVec 8) : found [] c = none := rfl

lemma found_cons (x : BitVec 8) (bytes : List (BitVec 8)) (c : BitVec 8) :
    found (x :: bytes) c = if x = c then some (decide (bytes.head? = some colon)) else found bytes c := by
  have hcolon : 0#8 ≠ colon := by decide
  by_cases h : x = c
  · cases bytes with
    | nil => simp [found, List.findIdx_cons, h, hcolon]
    | cons y bytes => simp [found, List.findIdx_cons, h]
  · simp [found, List.findIdx_cons, h]

lemma found_of_notMem {bytes : List (BitVec 8)} (h : c ∉ bytes) : found bytes c = none := by
  induction bytes with
  | nil => rfl
  | cons x bytes ih =>
    rw [List.mem_cons, not_or] at h
    rw [found_cons, if_neg (Ne.symm h.1), ih h.2]

lemma lookup_cons (l : Letter) (letters : List Letter) (c : BitVec 8) :
    lookup (l :: letters) c = if l.char = c then some l.takesArg else lookup letters c := by
  by_cases h : l.char = c <;> simp [lookup, h]

lemma head_optstring (letters : List Letter) : (letters.flatMap Letter.bytes).head? ≠ some colon := by
  cases letters with
  | nil => simp
  | cons l letters => cases htakes : l.takesArg <;> simp [Letter.bytes, htakes, l.plain.1]

/-- For all characters but `:` the loop finds what it should. -/
lemma found_optstring (hc : c ≠ colon) (letters : List Letter) :
    found (letters.flatMap Letter.bytes) c = lookup letters c := by
  induction letters with
  | nil => rfl
  | cons l letters ih =>
    have hhead := head_optstring letters
    rw [List.flatMap_cons, lookup_cons, Letter.bytes]
    by_cases htakes : l.takesArg
    · rw [if_pos htakes, List.cons_append, found_cons, List.singleton_append, found_cons, if_neg hc.symm, ih, htakes]
      simp
    · rw [if_neg htakes, List.singleton_append, found_cons, ih]
      simp [hhead, htakes]

/-- A `:` in `optstring` is taken for a letter. -/
lemma found_colon (letters : List Letter) :
    found (letters.flatMap Letter.bytes) colon = if ∃ l ∈ letters, l.takesArg then some false else none := by
  induction letters with
  | nil => rfl
  | cons l letters ih =>
    have hhead := head_optstring letters
    rw [List.flatMap_cons, Letter.bytes]
    by_cases htakes : l.takesArg
    · rw [if_pos htakes, List.cons_append, found_cons, List.singleton_append, found_cons, if_neg l.plain.1, if_pos rfl]
      simp [hhead, htakes]
    · rw [if_neg htakes, List.singleton_append, found_cons, if_neg l.plain.1, ih]
      simp [htakes]

lemma lookup_some {takes : Bool} (h : lookup letters c = some takes) : 0 < c.toInt ∧ c ≠ colon ∧ c ≠ question := by
  obtain ⟨l, hl, -⟩ := Option.map_eq_some_iff.mp h
  have hchar := List.find?_some hl
  obtain rfl : l.char = c := of_decide_eq_true hchar
  exact ⟨l.positive, l.plain⟩

end Lookup

section Reading
variable {argv : List CString} {optstring group : CString} {v : Vars} {c next : BitVec 8} {cs : List (BitVec 8)}

lemma charAt_of_le {i : ℕ} (h : i ≤ group.1.length) : charAt group i = some ((group.1.drop i).headD 0) := by
  obtain rfl | hlt := Nat.eq_or_lt_of_le h
  · simp [charAt]
  · rw [charAt, List.getElem?_append_left hlt, List.drop_eq_getElem_cons hlt, List.getElem?_eq_getElem hlt,
      List.headD_cons]

lemma charAt_of_lt {i : ℕ} (h : group.1.length < i) : charAt group i = none :=
  List.getElem?_eq_none (by rw [List.length_append, List.length_singleton]; omega)

lemma le_of_drop {i : ℕ} (h : group.1.drop i = c :: cs) : i < group.1.length := by
  by_contra hle
  rw [List.drop_eq_nil_of_le (not_lt.mp hle)] at h
  cases h

lemma drop_next {i : ℕ} (h : group.1.drop i = c :: cs) : group.1.drop (i + 1) = cs := by
  rw [← List.tail_drop, h, List.tail_cons]

lemma headD_eq_zero {i : ℕ} (h : group.1.drop i = cs) : cs.headD 0 = 0 ↔ cs = [] := by
  cases cs with
  | nil => simp
  | cons x cs =>
    have hne : x ≠ 0#8 := by
      rintro rfl
      exact group.2 (List.mem_of_mem_drop (h ▸ List.mem_cons_self))
    simp [hne]

lemma charAt_group {i : ℕ} (h : group.1.drop i = c :: cs) :
    charAt group i = some c ∧ charAt group (i + 1) = some (cs.headD 0) := by
  have hlt := le_of_drop h
  rw [charAt_of_le hlt.le, charAt_of_le hlt, drop_next h, h]
  exact ⟨rfl, rfl⟩

lemma readLetter_unknown (hc : charAt group v.optcharOffset = some c) (hfound : found optstring.1 c = none) :
    readLetter argv optstring v group = some (question.toInt, { v with
      optopt := c.toInt
      optind := v.optind + 1
      stderr := v.stderr ++ complaint argv "invalid option" c }) := by
  have hend : optstring.1.findIdx (· = c) = optstring.1.length := by
    by_contra hne
    rw [found, if_neg hne] at hfound
    cases hfound
  rw [readLetter, hc, Option.bind_some]
  exact if_pos hend

lemma readLetter_found {takes : Bool} (hc : charAt group v.optcharOffset = some c)
    (hnext : charAt group (v.optcharOffset + 1) = some next) (hfound : found optstring.1 c = some takes) :
    readLetter argv optstring v group =
      if takes = false then
        if next = 0 then some (c.toInt, { v with optind := v.optind + 1, optcharOffset := 1 })
        else some (c.toInt, { v with optcharOffset := v.optcharOffset + 1 })
      else if next = 0 then
        if v.optind + 2 ≤ argv.length then
          some (c.toInt, { v with optarg := some (v.optind + 1, 0), optind := v.optind + 2 })
        else
          some (colon.toInt, { v with
            optind := v.optind + 1
            optarg := none
            optopt := c.toInt
            stderr := v.stderr ++ complaint argv "option requires an argument" c })
      else
        some (c.toInt, { v with
          optarg := some (v.optind, v.optcharOffset + 1)
          optind := v.optind + 1
          optcharOffset := 1 }) := by
  have hend : optstring.1.findIdx (· = c) ≠ optstring.1.length := by
    intro heq
    rw [found, if_pos heq] at hfound
    cases hfound
  rw [found, if_neg hend, Option.some.injEq] at hfound
  subst hfound
  rw [readLetter, hc, Option.bind_some, strlen]
  dsimp only
  rw [if_neg hend, hnext, Option.bind_some]
  simp only [decide_eq_false_iff_not]
  rfl

end Reading

section Calls
variable {argv : List CString} {optstring group : CString} {v v' : Vars} {events : List Event} {r : ℤ} {event : Event}

/-- Repeated calls give these events, and no character behind the end of an argument is read. -/
def Performs (argv : List CString) (optstring : CString) (v : Vars) (events : List Event) : Prop :=
  ∃ fuel, repeatGetopt argv optstring fuel v = some events

lemma not_performs (h : getopt argv optstring v = none) : ¬ Performs argv optstring v events := by
  rintro ⟨fuel, hrun⟩
  cases fuel with
  | zero => cases hrun
  | succ fuel =>
    rw [repeatGetopt, h] at hrun
    cases hrun

lemma performs_end (h : getopt argv optstring v = some (-1, v')) :
    Performs argv optstring v events ↔ events = [⟨-1, v'.optarg, v'.optind⟩] := by
  constructor
  · rintro ⟨fuel, hrun⟩
    cases fuel with
    | zero => cases hrun
    | succ fuel =>
      rw [repeatGetopt, h] at hrun
      exact (Option.some.inj hrun).symm
  · rintro rfl
    refine ⟨1, ?_⟩
    rw [repeatGetopt, h]
    rfl

lemma performs_next (h : getopt argv optstring v = some (r, v')) (hr : r ≠ -1) :
    Performs argv optstring v (event :: events) ↔
      (⟨r, v'.optarg, v'.optind⟩ : Event) = event ∧ Performs argv optstring v' events := by
  constructor
  · rintro ⟨fuel, hrun⟩
    cases fuel with
    | zero => cases hrun
    | succ fuel =>
      rw [repeatGetopt, h, Option.bind_some, if_neg hr] at hrun
      obtain ⟨rest, hrest, heq⟩ := Option.map_eq_some_iff.mp hrun
      obtain ⟨rfl, rfl⟩ := List.cons.inj heq
      exact ⟨rfl, fuel, hrest⟩
  · rintro ⟨rfl, fuel, hrest⟩
    refine ⟨fuel + 1, ?_⟩
    rw [repeatGetopt, h, Option.bind_some, if_neg hr, hrest]
    rfl

lemma getopt_done (h : argv[v.optind]? = none) : getopt argv optstring v = some (-1, v) := by
  rw [getopt, h]

lemma getopt_group (h : argv[v.optind]? = some group) (hgroup : IsGroup group) :
    getopt argv optstring v = readLetter argv optstring v group := by
  have hother : ¬ (group.1.headD 0 ≠ dash ∨ group.1 = [dash]) := not_or.mpr ⟨not_not.mpr hgroup.1, hgroup.2.1⟩
  rw [getopt, h]
  dsimp only
  rw [if_neg hother, if_neg hgroup.2.2]

/-- At an argument that is no group of letters the code stops as it should. -/
lemma getopt_other (h : argv[v.optind]? = some group) (hgroup : ¬ IsGroup group) :
    ∃ v', getopt argv optstring v = some (-1, v') ∧ v'.optarg = v.optarg ∧
      v'.optind = if group.1 = [dash, dash] then v.optind + 1 else v.optind := by
  rw [getopt, h]
  dsimp only
  by_cases hdashes : group.1 = [dash, dash]
  · have hother : ¬ (group.1.headD 0 ≠ dash ∨ group.1 = [dash]) := by
      rw [hdashes]
      decide
    rw [if_neg hother, if_pos hdashes, if_pos hdashes]
    exact ⟨_, rfl, rfl, rfl⟩
  · have hother : group.1.headD 0 ≠ dash ∨ group.1 = [dash] := by
      by_contra hnot
      rw [not_or, not_not] at hnot
      exact hgroup ⟨hnot.1, hnot.2, hdashes⟩
    rw [if_pos hother, if_neg hdashes]
    exact ⟨_, rfl, rfl, rfl⟩

end Calls

section Regular
variable (letters : List Letter)

/-- An unknown letter is the last one of its group, and no `:` for which the code finds one in `optstring`. How a scan
goes on depends on where in its group the last letter was. -/
def RegularLetters (next skip : ℕ → Prop) : ℕ → List (BitVec 8) → Prop
  | _, [] => next 1
  | o, c :: cs =>
      match lookup letters c with
      | none => cs = [] ∧ ¬ (c = colon ∧ ∃ l ∈ letters, l.takesArg) ∧ next o
      | some false => RegularLetters next skip (o + 1) cs
      | some true => if cs = [] then skip o else next 1

/-- What the arguments have to be when the place in the group is `o`. It is wrong unless it is 1; then only groups of
one unknown letter are read as they should be. -/
def Regular : ℕ → Bool → List CString → Prop
  | _, _, [] => True
  | o, true, _ :: args => Regular o false args
  | o, false, group :: args => IsGroup group →
      if o = 1 then
        RegularLetters letters (fun o => Regular o false args) (fun o => Regular o true args) 1 group.1.tail
      else o = 2 ∧ group.1.length = 2 ∧ (∀ c ∈ group.1.tail, lookup letters c = none) ∧ Regular 2 false args

end Regular

section Letters
variable {argv : List CString} {optstring group : CString} {letters : List Letter} {v : Vars} {c : BitVec 8}
  {cs : List (BitVec 8)}

lemma getopt_unknown (hg : argv[v.optind]? = some group) (hgroup : IsGroup group)
    (hc : charAt group v.optcharOffset = some c) (hfound : found optstring.1 c = none) :
    ∃ v', getopt argv optstring v = some (question.toInt, v') ∧ v'.optarg = v.optarg ∧ v'.optind = v.optind + 1 ∧
      v'.optcharOffset = v.optcharOffset :=
  ⟨_, (getopt_group hg hgroup).trans (readLetter_unknown hc hfound), rfl, rfl, rfl⟩

lemma getopt_flag (hg : argv[v.optind]? = some group) (hgroup : IsGroup group)
    (hdrop : group.1.drop v.optcharOffset = c :: cs) (hfound : found optstring.1 c = some false) :
    ∃ v', getopt argv optstring v = some (c.toInt, v') ∧ v'.optarg = v.optarg ∧
      v'.optind = (if cs = [] then v.optind + 1 else v.optind) ∧
      v'.optcharOffset = if cs = [] then 1 else v.optcharOffset + 1 := by
  obtain ⟨hc, hnext⟩ := charAt_group hdrop
  rw [getopt_group hg hgroup, readLetter_found hc hnext hfound, if_pos rfl]
  by_cases hcs : cs = []
  · rw [if_pos ((headD_eq_zero (drop_next hdrop)).mpr hcs), if_pos hcs, if_pos hcs]
    exact ⟨_, rfl, rfl, rfl, rfl⟩
  · rw [if_neg (mt (headD_eq_zero (drop_next hdrop)).mp hcs), if_neg hcs, if_neg hcs]
    exact ⟨_, rfl, rfl, rfl, rfl⟩

lemma getopt_rest (hg : argv[v.optind]? = some group) (hgroup : IsGroup group)
    (hdrop : group.1.drop v.optcharOffset = c :: cs) (hfound : found optstring.1 c = some true) (hcs : cs ≠ []) :
    ∃ v', getopt argv optstring v = some (c.toInt, v') ∧ v'.optarg = some (v.optind, v.optcharOffset + 1) ∧
      v'.optind = v.optind + 1 ∧ v'.optcharOffset = 1 := by
  have htrue : true ≠ false := by decide
  obtain ⟨hc, hnext⟩ := charAt_group hdrop
  rw [getopt_group hg hgroup, readLetter_found hc hnext hfound, if_neg htrue,
    if_neg (mt (headD_eq_zero (drop_next hdrop)).mp hcs)]
  exact ⟨_, rfl, rfl, rfl, rfl⟩

/-- An argument of its own; the offset stays what it was. -/
lemma getopt_arg (hg : argv[v.optind]? = some group) (hgroup : IsGroup group)
    (hdrop : group.1.drop v.optcharOffset = [c]) (hfound : found optstring.1 c = some true)
    (hroom : v.optind + 2 ≤ argv.length) :
    ∃ v', getopt argv optstring v = some (c.toInt, v') ∧ v'.optarg = some (v.optind + 1, 0) ∧
      v'.optind = v.optind + 2 ∧ v'.optcharOffset = v.optcharOffset := by
  have htrue : true ≠ false := by decide
  obtain ⟨hc, hnext⟩ := charAt_group hdrop
  rw [getopt_group hg hgroup, readLetter_found hc hnext hfound, if_neg htrue,
    if_pos ((headD_eq_zero (drop_next hdrop)).mpr rfl), if_pos hroom]
  exact ⟨_, rfl, rfl, rfl, rfl⟩

lemma getopt_missing (hg : argv[v.optind]? = some group) (hgroup : IsGroup group)
    (hdrop : group.1.drop v.optcharOffset = [c]) (hfound : found optstring.1 c = some true)
    (hroom : ¬ v.optind + 2 ≤ argv.length) :
    ∃ v', getopt argv optstring v = some (colon.toInt, v') ∧ v'.optarg = none ∧ v'.optind = v.optind + 1 ∧
      v'.optcharOffset = v.optcharOffset := by
  have htrue : true ≠ false := by decide
  obtain ⟨hc, hnext⟩ := charAt_group hdrop
  rw [getopt_group hg hgroup, readLetter_found hc hnext hfound, if_neg htrue,
    if_pos ((headD_eq_zero (drop_next hdrop)).mpr rfl), if_neg hroom]
  exact ⟨_, rfl, rfl, rfl, rfl⟩

end Letters

section Lagging
variable {argv : List CString} {group : CString} {letters : List Letter} {v : Vars} {k o : ℕ} {args : List CString}
  {next skip : Option (ℕ × ℕ) → List Event} {cs rs : List (BitVec 8)} {c : BitVec 8}

/-- What the code finds for a character that is in a group. -/
lemma found_cases (letters : List Letter) (c : BitVec 8) :
    (found (optstringOf letters).1 c = lookup letters c) ∨
      (c = colon ∧ lookup letters c = none ∧ found (optstringOf letters).1 c = some false ∧
        ∃ l ∈ letters, l.takesArg) := by
  by_cases hc : c = colon
  · subst hc
    have hnone : lookup letters colon = none := by
      cases h : lookup letters colon with
      | none => rfl
      | some takes => exact absurd rfl (lookup_some h).2.1
    by_cases htakes : ∃ l ∈ letters, l.takesArg
    · exact Or.inr ⟨rfl, hnone, (found_colon letters).trans (if_pos htakes), htakes⟩
    · exact Or.inl (((found_colon letters).trans (if_neg htakes)).trans hnone.symm)
  · exact Or.inl (found_optstring hc letters)

/-- The event of a letter that is not the last one of its group. -/
lemma scanLetters_inner {z : BitVec 8} (hrs : rs ≠ []) (optarg : Option (ℕ × ℕ)) :
    ∃ event rest, scanLetters letters k args next skip o (z :: rs) optarg = event :: rest ∧
      ((event.optind = k ∧ event.optarg = optarg ∧ rest = scanLetters letters k args next skip (o + 1) rs optarg ∧
          event.result = if lookup letters z = none then question.toInt else z.toInt) ∨
        (lookup letters z = some true ∧ event = ⟨z.toInt, some (k, o + 1), k + 1⟩)) := by
  rw [scanLetters]
  cases hz : lookup letters z with
  | none => exact ⟨_, _, rfl, Or.inl ⟨if_neg hrs, rfl, rfl, rfl⟩⟩
  | some takes =>
    cases takes with
    | false => exact ⟨_, _, rfl, Or.inl ⟨if_neg hrs, rfl, rfl, rfl⟩⟩
    | true => exact ⟨_, _, if_pos hrs, Or.inr ⟨rfl, rfl⟩⟩

lemma found_some {takes : Bool} (h : found (optstringOf letters).1 c = some takes) :
    c.toInt ≠ -1 ∧ (lookup letters c = some true ↔ takes = true) := by
  obtain hsame | ⟨rfl, hnone, hfalse, -⟩ := found_cases letters c
  · rw [hsame] at h
    have hpos := (lookup_some h).1
    exact ⟨by omega, by rw [h, Option.some.injEq]⟩
  · obtain rfl : takes = false := Option.some.inj (h.symm.trans hfalse)
    exact ⟨by decide, by simp [hnone]⟩

lemma question_ne : question.toInt ≠ -1 ∧ question.toInt ≠ colon.toInt ∧ colon.toInt ≠ -1 := by decide

/-- A scan that is ahead in a group of letters gives other events. -/
lemma not_performs_lagging (hg : argv[v.optind]? = some group) (hgroup : IsGroup group)
    (hdrop : group.1.drop v.optcharOffset = cs) (hcs : cs ≠ []) (ho : o < v.optcharOffset)
    (hlen : cs.length < rs.length) :
    ¬ Performs argv (optstringOf letters) v (scanLetters letters v.optind args next skip o rs v.optarg) := by
  induction cs generalizing v o rs with
  | nil => exact absurd rfl hcs
  | cons c cs ih =>
    cases rs with
    | nil => exact absurd hlen (Nat.not_lt_zero _)
    | cons z rs =>
      have hlt : cs.length < rs.length := Nat.lt_of_succ_lt_succ hlen
      have hrs : rs ≠ [] := List.length_pos_iff.mp (Nat.zero_lt_of_lt hlt)
      obtain ⟨event, rest, hscan, hevent⟩ : ∃ event rest,
          scanLetters letters v.optind args next skip o (z :: rs) v.optarg = event :: rest ∧ _ :=
        scanLetters_inner hrs v.optarg
      rw [hscan]
      cases hfound : found (optstringOf letters).1 c with
      | none =>
        obtain ⟨v', hrun, -, hind, -⟩ := getopt_unknown hg hgroup (charAt_group hdrop).1 hfound
        rw [performs_next hrun question_ne.1]
        rintro ⟨rfl, -⟩
        obtain ⟨hk, -⟩ | ⟨htrue, heq⟩ := hevent
        · dsimp only at hk
          omega
        · have hz := (Event.mk.inj heq).1
          exact (lookup_some htrue).2.2 (BitVec.eq_of_toInt_eq hz).symm
      | some takes =>
        obtain ⟨hret, htakes⟩ := found_some hfound
        cases takes with
        | false =>
          obtain ⟨v', hrun, harg, hind, hoff⟩ := getopt_flag hg hgroup hdrop hfound
          rw [performs_next hrun hret]
          rintro ⟨rfl, hrest⟩
          obtain ⟨hk, -, rfl, -⟩ | ⟨htrue, heq⟩ := hevent
          · have hcs' : cs ≠ [] := by
              rintro rfl
              rw [if_pos rfl] at hind
              dsimp only at hk
              omega
            rw [if_neg hcs'] at hind hoff
            refine ih (v := v') (o := o + 1) (by rwa [hind]) (by rw [hoff, drop_next hdrop]) hcs' (by omega) hlt ?_
            rwa [hind, harg]
          · have hz := (Event.mk.inj heq).1
            rw [← BitVec.eq_of_toInt_eq hz, htakes] at htrue
            cases htrue
        | true =>
          by_cases hcs' : cs = []
          · subst hcs'
            by_cases hroom : v.optind + 2 ≤ argv.length
            · obtain ⟨v', hrun, harg, hind, -⟩ := getopt_arg hg hgroup hdrop hfound hroom
              rw [performs_next hrun hret]
              rintro ⟨rfl, -⟩
              obtain ⟨hk, -⟩ | ⟨-, heq⟩ := hevent
              · dsimp only at hk
                omega
              · have hk := (Event.mk.inj heq).2.2
                omega
            · obtain ⟨v', hrun, harg, hind, -⟩ := getopt_missing hg hgroup hdrop hfound hroom
              rw [performs_next hrun question_ne.2.2]
              rintro ⟨rfl, -⟩
              obtain ⟨hk, -⟩ | ⟨-, heq⟩ := hevent
              · dsimp only at hk
                omega
              · have hnone := (Event.mk.inj heq).2.1
                rw [harg] at hnone
                cases hnone
          · obtain ⟨v', hrun, harg, hind, -⟩ := getopt_rest hg hgroup hdrop hfound hcs'
            rw [performs_next hrun hret]
            rintro ⟨rfl, -⟩
            obtain ⟨hk, -⟩ | ⟨-, heq⟩ := hevent
            · dsimp only at hk
              omega
            · have hoff := (Event.mk.inj heq).2.1
              rw [harg, Option.some.injEq, Prod.mk.injEq] at hoff
              omega

end Lagging

section Exact
variable {argv : List CString} {group : CString} {letters : List Letter} {v : Vars} {k : ℕ} {args : List CString}
  {c : BitVec 8} {cs : List (BitVec 8)}

/-- From here on the calls give the events of the scan just if the arguments are regular. -/
def Exact (argv : List CString) (letters : List Letter) (ahead : Bool) (args : List CString) (v : Vars) (k : ℕ) :
    Prop :=
  Performs argv (optstringOf letters) v (scan letters k ahead args v.optarg) ↔
    Regular letters v.optcharOffset ahead args

/-- While the offset is right, the letters of a group are read as they should be. -/
lemma performs_letters (hg : argv[v.optind]? = some group) (hgroup : IsGroup group)
    (hargs : argv.drop (v.optind + 1) = args) (hoff : v.optcharOffset ≠ 0)
    (hnext : ∀ v', v'.optind = v.optind + 1 → v'.optcharOffset ≠ 0 → Exact argv letters false args v' (v.optind + 1))
    (hskip : ∀ v', v'.optind = v.optind + 2 → v'.optcharOffset ≠ 0 → args ≠ [] →
      Exact argv letters true args v' (v.optind + 1))
    (hdrop : group.1.drop v.optcharOffset = cs) (hcs : cs ≠ []) :
    Performs argv (optstringOf letters) v (scanLetters letters v.optind args (scan letters (v.optind + 1) false args)
        (scan letters (v.optind + 1) true args) v.optcharOffset cs v.optarg) ↔
      RegularLetters letters (fun o => Regular letters o false args) (fun o => Regular letters o true args)
        v.optcharOffset cs := by
  induction cs generalizing v with
  | nil => exact absurd rfl hcs
  | cons c cs ih =>
    rw [scanLetters, RegularLetters]
    obtain hsame | ⟨rfl, hnone, hfound, htakes⟩ := found_cases letters c
    · cases hlookup : lookup letters c with
      | none =>
        rw [hlookup] at hsame
        dsimp only
        obtain ⟨v', hrun, harg, hind, hoff'⟩ := getopt_unknown hg hgroup (charAt_group hdrop).1 hsame
        have hplain : ¬ (c = colon ∧ ∃ l ∈ letters, l.takesArg) := by
          rintro ⟨rfl, htakes⟩
          rw [optstringOf, found_colon, if_pos htakes] at hsame
          cases hsame
        rw [performs_next hrun question_ne.1, harg, hind]
        by_cases hlast : cs = []
        · subst hlast
          have hexact := hnext v' hind (hoff' ▸ hoff)
          rw [Exact, harg, hoff'] at hexact
          simp [scanLetters, hplain, hexact]
        · simp [hlast]
      | some takes =>
        rw [hlookup] at hsame
        obtain ⟨hret, -⟩ := found_some hsame
        cases takes with
        | false =>
          dsimp only
          obtain ⟨v', hrun, harg, hind, hoff'⟩ := getopt_flag hg hgroup hdrop hsame
          rw [performs_next hrun hret, harg, hind]
          by_cases hlast : cs = []
          · subst hlast
            rw [if_pos rfl] at hind hoff'
            have hexact := hnext v' hind (by omega)
            rw [Exact, harg, hoff'] at hexact
            simp [scanLetters, RegularLetters, hexact]
          · rw [if_neg hlast] at hind hoff'
            have hrest := ih (v := v') (by rwa [hind]) (by rwa [hind]) (by omega) (by rwa [hind]) (by rwa [hind])
              (by rw [hoff', drop_next hdrop]) hlast
            rw [hind, harg, hoff'] at hrest
            simp [hrest]
        | true =>
          dsimp only
          by_cases hlast : cs = []
          · subst hlast
            have hnot : ¬ ([] : List (BitVec 8)) ≠ [] := not_not.mpr rfl
            rw [if_neg hnot, if_pos rfl]
            by_cases hempty : args = []
            · subst hempty
              have hroom : ¬ v.optind + 2 ≤ argv.length := by
                have := List.drop_eq_nil_iff.mp hargs
                omega
              obtain ⟨v', hrun, harg, hind, hoff'⟩ := getopt_missing hg hgroup hdrop hsame hroom
              have hexact := hnext v' hind (hoff' ▸ hoff)
              rw [Exact, harg, hoff'] at hexact
              rw [if_pos rfl, performs_next hrun question_ne.2.2, harg, hind]
              simpa [Regular] using hexact
            · have hroom : v.optind + 2 ≤ argv.length := by
                by_contra hle
                exact hempty (hargs.symm.trans (List.drop_eq_nil_iff.mpr (by omega)))
              obtain ⟨v', hrun, harg, hind, hoff'⟩ := getopt_arg hg hgroup hdrop hsame hroom
              have hexact := hskip v' hind (hoff' ▸ hoff) hempty
              rw [Exact, harg, hoff'] at hexact
              rw [if_neg hempty, performs_next hrun hret, harg, hind]
              simp [hexact]
          · obtain ⟨v', hrun, harg, hind, hoff'⟩ := getopt_rest hg hgroup hdrop hsame hlast
            have hexact := hnext v' hind (by omega)
            rw [Exact, harg, hoff'] at hexact
            rw [if_pos hlast, if_neg hlast, performs_next hrun hret, harg, hind]
            simp [hexact]
    · have hret : colon.toInt ≠ -1 := by decide
      obtain ⟨v', hrun, -⟩ := getopt_flag hg hgroup hdrop hfound
      rw [hnone]
      dsimp only
      rw [performs_next hrun hret]
      refine iff_of_false ?_ ?_
      · rintro ⟨heq, -⟩
        exact question_ne.2.1 (Event.mk.inj heq).1.symm
      · rintro ⟨-, hplain, -⟩
        exact hplain ⟨rfl, htakes⟩

/-- At a wrong offset only a group of one unknown letter is read as it should be. -/
lemma performs_stale (hg : argv[v.optind]? = some group) (hgroup : IsGroup group) (hoff : 2 ≤ v.optcharOffset)
    (hnext : ∀ v', v'.optind = v.optind + 1 → v'.optcharOffset ≠ 0 → Exact argv letters false args v' (v.optind + 1)) :
    Performs argv (optstringOf letters) v (scanLetters letters v.optind args (scan letters (v.optind + 1) false args)
        (scan letters (v.optind + 1) true args) 1 group.1.tail v.optarg) ↔
      v.optcharOffset = 2 ∧ group.1.length = 2 ∧ (∀ c ∈ group.1.tail, lookup letters c = none) ∧
        Regular letters 2 false args := by
  have htail : group.1.tail.length = group.1.length - 1 := List.length_tail
  obtain hlt | heq | hgt := lt_trichotomy v.optcharOffset group.1.length
  · refine iff_of_false (not_performs_lagging hg hgroup rfl ?_ (by omega) ?_) (by omega)
    · exact List.length_pos_iff.mp (by rw [List.length_drop]; omega)
    · rw [List.length_drop]
      omega
  · have hzero : charAt group v.optcharOffset = some 0 := by
      rw [charAt_of_le heq.le, heq, List.drop_length, List.headD_nil]
    obtain ⟨v', hrun, harg, hind, hoff'⟩ := getopt_unknown hg hgroup hzero (found_of_notMem (optstringOf letters).2)
    obtain ⟨x, xs, hx⟩ : ∃ x xs, group.1.tail = x :: xs :=
      List.exists_cons_of_length_pos (by omega)
    rw [hx, List.length_cons] at htail
    rw [hx, scanLetters]
    cases hlookup : lookup letters x with
    | none =>
      dsimp only
      rw [performs_next hrun question_ne.1, harg, hind]
      by_cases hlast : xs = []
      · subst hlast
        rw [List.length_nil] at htail
        have htwo : group.1.length = 2 := by omega
        have hexact := hnext v' hind (by omega)
        rw [Exact, harg, hoff', heq, htwo] at hexact
        simp [scanLetters, hexact, heq, htwo, hlookup]
      · have hlong := List.length_pos_iff.mpr hlast
        have hne : group.1.length ≠ 2 := by omega
        simp [hlast, hne]
    | some takes =>
      have hother := (lookup_some hlookup).2.2
      have hne : question.toInt ≠ x.toInt := fun h => hother (BitVec.eq_of_toInt_eq h).symm
      refine iff_of_false ?_ ?_
      · cases takes with
        | false =>
          rw [performs_next hrun question_ne.1]
          exact fun h => hne (Event.mk.inj h.1).1
        | true =>
          dsimp only
          split_ifs
          · rw [performs_next hrun question_ne.1]
            exact fun h => hne (Event.mk.inj h.1).1
          · rw [performs_next hrun question_ne.1]
            exact fun h => question_ne.2.1 (Event.mk.inj h.1).1
          · rw [performs_next hrun question_ne.1]
            exact fun h => hne (Event.mk.inj h.1).1
      · rintro ⟨-, -, hnone, -⟩
        have hx := hnone x List.mem_cons_self
        rw [hlookup] at hx
        cases hx
  · refine iff_of_false (not_performs ?_) (by omega)
    rw [getopt_group hg hgroup, readLetter, charAt_of_lt hgt, Option.bind_none]

/-- By induction on the arguments, of which the first may belong to an option. -/
lemma exact_all (args : List CString) :
    (∀ v, argv.drop v.optind = args → v.optcharOffset ≠ 0 → Exact argv letters false args v v.optind) ∧
      ∀ v k, argv.drop k = args → v.optind = k + 1 → v.optcharOffset ≠ 0 → args ≠ [] →
        Exact argv letters true args v k := by
  induction args with
  | nil =>
    refine ⟨fun v hargs _ => ?_, fun v k _ _ _ hempty => absurd rfl hempty⟩
    have hdone : argv[v.optind]? = none := List.getElem?_eq_none (List.drop_eq_nil_iff.mp hargs)
    rw [Exact, scan, performs_end (getopt_done hdone)]
    simp [Regular]
  | cons group args ih =>
    obtain ⟨hnext, hskip⟩ := ih
    have htail : ∀ {k}, argv.drop k = group :: args → argv[k]? = some group ∧ argv.drop (k + 1) = args := by
      intro k hargs
      rw [← List.tail_drop, ← List.head?_drop, hargs]
      exact ⟨rfl, rfl⟩
    constructor
    · intro v hargs hoff
      obtain ⟨hg, hrest⟩ := htail hargs
      rw [Exact, scan, Regular]
      have hnext' : ∀ v', v'.optind = v.optind + 1 → v'.optcharOffset ≠ 0 →
          Exact argv letters false args v' (v.optind + 1) := by
        intro v' hind hoff'
        rw [← hind]
        exact hnext v' (by rwa [hind]) hoff'
      by_cases hgroup : IsGroup group
      · rw [if_pos hgroup, imp_iff_right hgroup]
        by_cases hone : v.optcharOffset = 1
        · have hletters := performs_letters hg hgroup hrest hoff hnext'
            (fun v' hind hoff' hempty => hskip v' _ hrest hind hoff' hempty) rfl
            (by rw [hone, List.drop_one]; exact hgroup.tail_ne_nil)
          rw [hone, List.drop_one] at hletters
          rw [if_pos hone, hletters]
        · rw [if_neg hone]
          exact performs_stale hg hgroup (by omega) hnext'
      · obtain ⟨v', hrun, harg, hind⟩ : ∃ v', getopt argv (optstringOf letters) v = some (-1, v') ∧ _ :=
          getopt_other hg hgroup
        rw [if_neg hgroup, performs_end hrun, harg, hind]
        simp [hgroup]
    · intro v k hargs hind hoff _
      have hexact := hnext v (by rw [hind]; exact (htail hargs).2) hoff
      rw [Exact, hind] at hexact
      rw [Exact, scan, Regular]
      exact hexact

end Exact

/-- Repeated calls of `getopt` give the scan just if the arguments are regular. -/
theorem performs_iff (letters : List Letter) (argv : List CString) :
    Performs argv (optstringOf letters) initial (scan letters 1 false (argv.drop 1) none) ↔
      Regular letters 1 false (argv.drop 1) :=
  (exact_all (argv.drop 1)).1 initial rfl Nat.one_ne_zero

def flagA : Letter := ⟨0x61, false, by decide, by decide⟩

def flagB : Letter := ⟨0x62, false, by decide, by decide⟩

/-- `-ax -b` with the letters `ab`: behind `x` the terminator of `-b` is read in place of its letter. -/
theorem not_performs_stale : ¬ Performs
    [⟨[0x70], by decide⟩, ⟨[0x2d, 0x61, 0x78], by decide⟩, ⟨[0x2d, 0x62], by decide⟩]
    (optstringOf [flagA, flagB]) initial
    (scan [flagA, flagB] 1 false [⟨[0x2d, 0x61, 0x78], by decide⟩, ⟨[0x2d, 0x62], by decide⟩] none) := by
  rintro ⟨fuel, hrun⟩
  obtain hlt | hge := lt_or_ge fuel 4
  · interval_cases fuel <;> revert hrun <;> decide +kernel
  · obtain ⟨n, rfl⟩ := Nat.exists_eq_add_of_le' hge
    have hevents : repeatGetopt [⟨[0x70], by decide⟩, ⟨[0x2d, 0x61, 0x78], by decide⟩, ⟨[0x2d, 0x62], by decide⟩]
        (optstringOf [flagA, flagB]) (n + 4) initial =
          some [⟨0x61, none, 1⟩, ⟨0x3f, none, 2⟩, ⟨0x3f, none, 3⟩, ⟨-1, none, 3⟩] := rfl
    have hlists := Option.some.inj (hevents.symm.trans hrun)
    revert hlists
    decide +kernel

end PiggyOs.Getopt
