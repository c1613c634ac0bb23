import PiggyOs.PathSplit

/-! The command line of the kernel. An access outside of a block gives `none`; the directory is an exact map. -/
namespace PiggyOs.Cmdline
open PathSplit Function

abbrev Byte := BitVec 8

def space : Byte := 0x20
def quote : Byte := 0x22
def equals : Byte := 0x3d

/-- A string in a block of its own, or an address that is none of a block. -/
inductive Value
  | string (s : List Byte)
  | address (a : ℕ)
  deriving DecidableEq, Repr

abbrev Directory := List Byte → Option Value

def hashmapSet (map : Directory) (key : List Byte) (value : Value) : Directory := update map key (some value)

/-- The caches clear what they hand out; in a larger block is what the pages held before. -/
def kmalloc (stale : ℕ → Byte) (size : ℕ) : Option Buffer :=
  if size = 0 then none
  else some (if size ≤ 2048 then List.replicate size 0 else (List.range size).map stale)

/-- The loop over the characters, with `buf_ptr` and `bufferlen`. -/
def convert : List Byte → Bool → ℕ → ℕ → Buffer → Option (ℕ × Buffer)
  | [], _, _, bufferlen, buffer => some (bufferlen, buffer)
  | c :: line, doconvert, ptr, bufferlen, buffer =>
      if c = space ∧ doconvert = true then
        (Buffer.store buffer ptr 0).bind (convert line doconvert (ptr + 1) bufferlen)
      else if c = quote then convert line (!doconvert) ptr (bufferlen - 1) buffer
      else (Buffer.store buffer ptr c).bind (convert line doconvert (ptr + 1) bufferlen)

/-- The loop that replaces the equals signs, from `iter` on, and whether there are any. -/
def markEquals : Buffer → Option (Buffer × Bool)
  | [] => none
  | c :: iter =>
      if c = 0 then some (c :: iter, false)
      else (markEquals iter).map fun r => if c = equals then (0 :: r.1, true) else (c :: r.1, r.2)

def copyChars : Buffer → ℕ → List Byte → Option Buffer
  | block, _, [] => some block
  | block, i, c :: src => (Buffer.store block i c).bind fun block => copyChars block (i + 1) src

/-- `(char*) kmalloc(valuelen) + 1`, and the copy of the characters. -/
def copyValue (stale : ℕ → Byte) (src : List Byte) : Option Value :=
  match kmalloc stale src.length with
  | none => some (.address 1)
  | some block => (copyChars block 1 src).map fun block => .string ((block.drop 1).takeWhile (· ≠ 0))

/-- The loop over the tokens. -/
def parseLoop (stale : ℕ → Byte) (bufferlen : ℕ) (buffer : Buffer) (i : ℕ) (map : Directory) : Option Directory :=
  if _h : i < bufferlen then
    (markEquals (buffer.drop i)).bind fun marked =>
    (strlen marked.1).bind fun keylen =>
      if marked.2 then
        (strlen (marked.1.drop (keylen + 1))).bind fun valuelen =>
        (copyValue stale ((marked.1.drop (keylen + 1)).take valuelen)).bind fun value =>
        parseLoop stale bufferlen (buffer.take i ++ marked.1) (i + (valuelen + 1) + (keylen + 1))
          (hashmapSet map (marked.1.take keylen) value)
      else
        parseLoop stale bufferlen (buffer.take i ++ marked.1) (i + (keylen + 1))
          (hashmapSet map (marked.1.take keylen) (.string (marked.1.take keylen)))
  else some map
termination_by bufferlen - i

/-- `cmdline_map` afterwards. -/
def cmdlineParse (stale : ℕ → Byte) (cmdline : CString) : Option (Option Directory) :=
  if cmdline.1 = [] then some none
  else
    (kmalloc stale (cmdline.strlen + 1)).bind fun buffer =>
    (convert cmdline.1 true 0 (cmdline.strlen + 1) buffer).bind fun converted =>
    (Buffer.store converted.2 converted.1 0).bind fun buffer =>
    (parseLoop stale converted.1 buffer 0 fun _ => none).map some

def cmdlineGet (map : Option Directory) (key : CString) : Option Value := map.bind fun map => map key.1

section Meaning

/-- The parts between the spaces outside of quotes, without the quotes. -/
def split : Bool → List Byte → List (List Byte)
  | _, [] => [[]]
  | outside, c :: line =>
      if c = space ∧ outside = true then [] :: split outside line
      else if c = quote then split (!outside) line
      else (split outside line).modifyHead (c :: ·)

/-- The tokens; an empty line has none. -/
def tokens (cmdline : CString) : List (List Byte) := if cmdline.1 = [] then [] else split true cmdline.1

/-- What is in front of the first equals sign. -/
def keyOf (token : List Byte) : List Byte := token.takeWhile (· ≠ equals)

/-- What is behind the first equals sign, or the token. -/
def valueOf (token : List Byte) : List Byte := if equals ∈ token then token.drop ((keyOf token).length + 1) else token

/-- What the last token with a key gives it. -/
def expected (cmdline : CString) (key : List Byte) : Option (List Byte) :=
  ((tokens cmdline).reverse.find? fun token => keyOf token = key).map valueOf

/-- All writes stay inside of their blocks, and every key is found with its value. -/
def Parses (stale : ℕ → Byte) (cmdline : CString) : Prop := ∃ map, cmdlineParse stale cmdline = some map ∧
  ∀ key : CString, cmdlineGet map key = (expected cmdline key.1).map .string

end Meaning

section Segments
variable {e l rest : List Byte} {es : List (List Byte)} {c x : Byte} {n i bufferlen : ℕ} {buffer : Buffer}
  {map : Directory} {stale : ℕ → Byte}

/-- Strings with their terminators one after the other. -/
def flat (es : List (List Byte)) : List Byte := es.flatMap (· ++ [0])

@[simp] lemma flat_cons (e : List Byte) (es : List (List Byte)) : flat (e :: es) = e ++ 0 :: flat es := by
  simp [flat]

@[simp] lemma flat_append (es es' : List (List Byte)) : flat (es ++ es') = flat es ++ flat es' := List.flatMap_append ..

lemma splitOn_cons (x c : Byte) (l : List Byte) :
    (c :: l).splitOn x = if c = x then [] :: l.splitOn x else (l.splitOn x).modifyHead (c :: ·) := by
  rw [List.splitOn_eq_splitOnP, List.splitOn_eq_splitOnP, List.splitOnP_cons_eq_if_modifyHead]
  exact if_congr beq_iff_eq rfl rfl

lemma splitOn_ne_nil (x : Byte) (l : List Byte) : l.splitOn x ≠ [] := by
  rw [List.splitOn_eq_splitOnP]
  exact List.splitOnP_ne_nil _ l

lemma flat_modifyHead (c : Byte) (h : es ≠ []) : flat (es.modifyHead (c :: ·)) = c :: flat es := by
  obtain ⟨e, es, rfl⟩ := List.exists_cons_of_ne_nil h
  simp

/-- The parts between separators are the strings that appear when the separators become terminators. -/
lemma flat_splitOn (x : Byte) (l : List Byte) :
    flat (l.splitOn x) = l.map (fun c => if c = x then 0 else c) ++ [0] := by
  induction l with
  | nil => rfl
  | cons c l ih =>
    rw [splitOn_cons, List.map_cons, List.cons_append, ← ih]
    by_cases hc : c = x
    · rw [if_pos hc, if_pos hc, flat_cons, List.nil_append]
    · rw [if_neg hc, if_neg hc, flat_modifyHead c (splitOn_ne_nil x l)]

def mark (e : List Byte) : List Byte := e.map fun c => if c = equals then 0 else c

lemma mark_of_notMem (h : equals ∉ e) : mark e = e := by
  refine (List.map_congr_left fun c hc => ?_).trans (List.map_id e)
  exact if_neg (ne_of_mem_of_not_mem hc h)

lemma markEquals_append (h : 0 ∉ e) (rest : List Byte) :
    markEquals (e ++ 0 :: rest) = some (mark e ++ 0 :: rest, decide (equals ∈ e)) := by
  induction e with
  | nil => rfl
  | cons c e ih =>
    rw [List.mem_cons, not_or] at h
    rw [List.cons_append, markEquals, if_neg (Ne.symm h.1), ih h.2, Option.map_some]
    by_cases hc : c = equals
    · subst hc
      simp [mark]
    · simp [mark, hc, Ne.symm hc]

lemma drop_take_append (h : buffer.drop i ≠ []) (l : List Byte) (n : ℕ) :
    (buffer.take i ++ l).drop (i + n) = l.drop n := by
  have hi : i < buffer.length := by
    by_contra hge
    exact h (List.drop_eq_nil_of_le (not_lt.mp hge))
  rw [← List.drop_drop, List.drop_append_of_le_length (by simp; omega)]
  simp

lemma parseLoop_end (h : bufferlen ≤ i) : parseLoop stale bufferlen buffer i map = some map := by
  rw [parseLoop, dif_neg (by omega)]

/-- A token without an equals sign. -/
lemma parseLoop_bare (stale : ℕ → Byte) (map : Directory) (hi : i < bufferlen)
    (hdrop : buffer.drop i = e ++ 0 :: rest) (h0 : 0 ∉ e) (heq : equals ∉ e) :
    ∃ buffer', buffer'.drop (i + (e.length + 1)) = rest ∧ parseLoop stale bufferlen buffer i map =
      parseLoop stale bufferlen buffer' (i + (e.length + 1)) (hashmapSet map e (.string e)) := by
  refine ⟨buffer.take i ++ (e ++ 0 :: rest), ?_, ?_⟩
  · have hne : buffer.drop i ≠ [] := by simp [hdrop]
    rw [drop_take_append hne]
    simp
  · rw [parseLoop, dif_pos hi, hdrop, markEquals_append h0, mark_of_notMem heq, Option.bind_some,
      strlen_append h0, Option.bind_some, if_neg (by simpa using heq), List.take_left]

lemma length_kmalloc (h : kmalloc stale n = some buffer) : buffer.length = n := by
  unfold kmalloc at h
  split_ifs at h <;> cases h <;> simp

lemma copyChars_none (h : buffer.length < i + l.length) (hl : l ≠ []) : copyChars buffer i l = none := by
  induction l generalizing buffer i with
  | nil => exact absurd rfl hl
  | cons c l ih =>
    rw [copyChars, Buffer.store]
    by_cases hi : i < buffer.length
    · rw [if_pos hi, Option.bind_some]
      rw [List.length_cons] at h
      refine ih (by rw [List.length_set]; omega) ?_
      rintro rfl
      rw [List.length_nil] at h
      omega
    · rw [if_neg hi, Option.bind_none]

/-- What is copied from behind an equals sign lies one byte too far. -/
lemma copyValue_eq (stale : ℕ → Byte) (l : List Byte) :
    copyValue stale l = if l = [] then some (.address 1) else none := by
  unfold copyValue
  by_cases hl : l = []
  · subst hl
    rfl
  · have hne : l.length ≠ 0 := fun h => hl (List.length_eq_zero_iff.mp h)
    cases hk : kmalloc stale l.length with
    | none =>
      rw [kmalloc, if_neg hne] at hk
      cases hk
    | some block =>
      have hnone : copyChars block 1 l = none := copyChars_none (by rw [length_kmalloc hk]; omega) hl
      dsimp only
      rw [hnone, if_neg hl]
      rfl

lemma mark_append (e e' : List Byte) : mark (e ++ e') = mark e ++ mark e' := List.map_append

/-- The first part of what is behind an equals sign, as it stands in the buffer. -/
lemma mark_value (value rest : List Byte) : ∃ rest', mark value ++ 0 :: rest =
    value.takeWhile (· ≠ equals) ++ 0 :: rest' := by
  have hfirst : equals ∉ value.takeWhile (· ≠ equals) := fun h => by simpa using List.mem_takeWhile_imp h
  have hsplit : mark value = value.takeWhile (· ≠ equals) ++ mark (value.dropWhile (· ≠ equals)) := by
    calc mark value = mark (value.takeWhile (· ≠ equals) ++ value.dropWhile (· ≠ equals)) := by
          rw [List.takeWhile_append_dropWhile]
      _ = _ := by rw [mark_append, mark_of_notMem hfirst]
  rw [hsplit, List.append_assoc]
  cases hd : value.dropWhile (· ≠ equals) with
  | nil => exact ⟨rest, rfl⟩
  | cons c r =>
    have hc : c = equals := by
      have hhead := List.head?_dropWhile_not (fun c => decide (c ≠ equals)) value
      rw [hd] at hhead
      simpa using hhead
    exact ⟨mark r ++ 0 :: rest, by rw [hc]; rfl⟩

/-- A token with an equals sign. -/
lemma parseLoop_pair (stale : ℕ → Byte) (map : Directory) {key value : List Byte} (hi : i < bufferlen)
    (hdrop : buffer.drop i = key ++ equals :: value ++ 0 :: rest) (hkey0 : 0 ∉ key) (hkey : equals ∉ key)
    (hvalue0 : 0 ∉ value) :
    (value.takeWhile (· ≠ equals) ≠ [] ∧ parseLoop stale bufferlen buffer i map = none) ∨
    (value.takeWhile (· ≠ equals) = [] ∧ ∃ buffer', buffer'.drop (i + (key.length + 2)) =
      (mark value ++ 0 :: rest).drop 1 ∧ parseLoop stale bufferlen buffer i map =
        parseLoop stale bufferlen buffer' (i + (key.length + 2)) (hashmapSet map key (.address 1))) := by
  obtain ⟨rest', hrest'⟩ := mark_value value rest
  have hequals0 : (0 : Byte) ≠ equals := by decide
  have hzero : 0 ∉ key ++ equals :: value := by
    rw [List.mem_append, List.mem_cons, not_or, not_or]
    exact ⟨hkey0, hequals0, hvalue0⟩
  have hmark : mark (key ++ equals :: value) ++ 0 :: rest = key ++ 0 :: (mark value ++ 0 :: rest) := by
    rw [mark_append, mark_of_notMem hkey, List.append_assoc]
    rfl
  have hbehind : (key ++ 0 :: (mark value ++ 0 :: rest)).drop (key.length + 1) = mark value ++ 0 :: rest := by simp
  have hfirst0 : 0 ∉ value.takeWhile (· ≠ equals) := fun h => hvalue0 (List.takeWhile_subset _ h)
  have hstep : parseLoop stale bufferlen buffer i map =
      (copyValue stale (value.takeWhile (· ≠ equals))).bind fun v =>
        parseLoop stale bufferlen (buffer.take i ++ (key ++ 0 :: (mark value ++ 0 :: rest)))
          (i + ((value.takeWhile (· ≠ equals)).length + 1) + (key.length + 1)) (hashmapSet map key v) := by
    rw [parseLoop, dif_pos hi, hdrop, markEquals_append hzero, Option.bind_some, hmark]
    dsimp only
    rw [strlen_append hkey0, Option.bind_some, if_pos (by simp), hbehind, hrest', strlen_append hfirst0,
      Option.bind_some, List.take_left, List.take_left]
  rw [hstep, copyValue_eq]
  by_cases hempty : value.takeWhile (· ≠ equals) = []
  · refine Or.inr ⟨hempty, buffer.take i ++ (key ++ 0 :: (mark value ++ 0 :: rest)), ?_, ?_⟩
    · have hne : buffer.drop i ≠ [] := by simp [hdrop]
      rw [drop_take_append hne]
      conv_rhs => rw [← hbehind, List.drop_drop]
    · rw [if_pos hempty, Option.bind_some, hempty, List.length_nil]
      congr 1
      omega
  · exact Or.inl ⟨hempty, by rw [if_neg hempty]; rfl⟩

end Segments

section Entries
variable {e l rest : List Byte} {es : List (List Byte)} {i bufferlen : ℕ} {buffer : Buffer} {map : Directory}
  {stale : ℕ → Byte}

/-- The first equals sign, if there is one, is followed by another one or the end. -/
def Quiet (e : List Byte) : Prop := (e.splitOn equals).getD 1 [] = []

/-- The parts behind the second equals sign, or the token if it has none. -/
def written (e : List Byte) : List (List Byte) := if equals ∈ e then (e.splitOn equals).drop 2 else [e]

/-- What the loop enters for a token. -/
def entries (e : List Byte) : List (List Byte × Value) :=
  (if equals ∈ e then [(keyOf e, .address 1)] else []) ++ (written e).map fun p => (p, .string p)

def assign (map : Directory) (l : List (List Byte × Value)) : Directory :=
  l.foldl (fun map entry => hashmapSet map entry.1 entry.2) map

lemma assign_append (map : Directory) (l l' : List (List Byte × Value)) :
    assign map (l ++ l') = assign (assign map l) l' := List.foldl_append ..

lemma splitOn_notMem (h : equals ∉ e) : e.splitOn equals = [e] := List.splitOn_eq_singleton h

lemma mem_parts {x : Byte} {p : List Byte} (h : p ∈ e.splitOn x) : x ∉ p ∧ ∀ c ∈ p, c ∈ e := by
  induction e generalizing p with
  | nil =>
    obtain rfl := List.mem_singleton.mp h
    exact ⟨List.not_mem_nil, fun c hc => hc⟩
  | cons c e ih =>
    rw [splitOn_cons] at h
    by_cases hc : c = x
    · rw [if_pos hc] at h
      obtain rfl | h := List.mem_cons.mp h
      · exact ⟨List.not_mem_nil, fun c hc => absurd hc List.not_mem_nil⟩
      · exact ⟨(ih h).1, fun d hd => List.mem_cons_of_mem _ ((ih h).2 d hd)⟩
    · rw [if_neg hc] at h
      obtain ⟨q, qs, hq⟩ := List.exists_cons_of_ne_nil (splitOn_ne_nil x e)
      rw [hq] at h ih
      obtain rfl | h := List.mem_cons.mp h
      · obtain ⟨hne, hsub⟩ := ih (List.mem_cons_self ..)
        refine ⟨?_, fun d hd => ?_⟩
        · rw [List.mem_cons, not_or]
          exact ⟨Ne.symm hc, hne⟩
        · obtain rfl | hd := List.mem_cons.mp hd
          · exact List.mem_cons_self ..
          · exact List.mem_cons_of_mem _ (hsub d hd)
      · obtain ⟨hne, hsub⟩ := ih (List.mem_cons_of_mem _ h)
        exact ⟨hne, fun d hd => List.mem_cons_of_mem _ (hsub d hd)⟩

lemma keyOf_append {key : List Byte} (h : equals ∉ key) (value : List Byte) :
    keyOf (key ++ equals :: value) = key := by
  rw [keyOf, List.takeWhile_append_of_pos fun c hc => by simpa using ne_of_mem_of_not_mem hc h]
  simp

lemma keyOf_of_notMem (h : equals ∉ e) : keyOf e = e :=
  List.takeWhile_eq_self_iff.mpr fun c hc => by simpa using ne_of_mem_of_not_mem hc h

lemma valueOf_append {key : List Byte} (h : equals ∉ key) (value : List Byte) :
    valueOf (key ++ equals :: value) = value := by
  rw [valueOf, if_pos (by simp), keyOf_append h]
  simp

lemma splitOn_append {key : List Byte} (h : equals ∉ key) (value : List Byte) :
    (key ++ equals :: value).splitOn equals = key :: value.splitOn equals := by
  induction key with
  | nil => rw [List.nil_append, splitOn_cons, if_pos rfl]
  | cons c key ih =>
    rw [List.mem_cons, not_or] at h
    rw [List.cons_append, splitOn_cons, if_neg (Ne.symm h.1), ih h.2]
    rfl

lemma head_splitOn (value : List Byte) : (value.splitOn equals).head? = some (value.takeWhile (· ≠ equals)) := by
  induction value with
  | nil => rfl
  | cons c value ih =>
    obtain ⟨p, ps, hp⟩ := List.exists_cons_of_ne_nil (splitOn_ne_nil equals value)
    rw [hp] at ih
    rw [splitOn_cons, hp]
    by_cases hc : c = equals
    · subst hc
      simp
    · rw [if_neg hc, List.takeWhile_cons, if_pos (by simpa using hc)]
      exact congrArg (fun q => some (c :: q)) (Option.some.inj ih)

lemma quiet_append {key : List Byte} (h : equals ∉ key) (value : List Byte) :
    Quiet (key ++ equals :: value) ↔ value.takeWhile (· ≠ equals) = [] := by
  obtain ⟨p, ps, hp⟩ := List.exists_cons_of_ne_nil (splitOn_ne_nil equals value)
  have hhead := head_splitOn value
  rw [hp] at hhead
  obtain rfl := Option.some.inj hhead
  rw [Quiet, splitOn_append h, hp]
  rfl

lemma quiet_of_notMem (h : equals ∉ e) : Quiet e := by
  rw [Quiet, splitOn_notMem h]
  rfl

lemma entries_of_notMem (h : equals ∉ e) : entries e = [(e, .string e)] := by
  rw [entries, written, if_neg h, if_neg h]
  rfl

lemma entries_append {key : List Byte} (h : equals ∉ key) (value : List Byte) :
    entries (key ++ equals :: value) =
      (key, .address 1) :: ((value.splitOn equals).drop 1).map fun p => (p, .string p) := by
  have hmem : equals ∈ key ++ equals :: value := by simp
  rw [entries, written, if_pos hmem, if_pos hmem, keyOf_append h, splitOn_append h]
  rfl

/-- Tokens without equals signs, one after the other. -/
lemma parseLoop_bares (stale : ℕ → Byte) (map : Directory) (hes : ∀ e ∈ es, 0 ∉ e ∧ equals ∉ e)
    (hdrop : buffer.drop i = flat es ++ rest)
    (hi : i + (flat es).length ≤ bufferlen) : ∃ buffer', buffer'.drop (i + (flat es).length) = rest ∧
      parseLoop stale bufferlen buffer i map = parseLoop stale bufferlen buffer' (i + (flat es).length)
        (assign map (es.map fun e => (e, .string e))) := by
  induction es generalizing buffer i map with
  | nil => exact ⟨buffer, hdrop, rfl⟩
  | cons e es ih =>
    rw [List.forall_mem_cons] at hes
    have hlen : i + (flat (e :: es)).length = i + (e.length + 1) + (flat es).length := by
      rw [flat_cons, List.length_append, List.length_cons]
      omega
    rw [flat_cons, List.append_assoc, List.cons_append] at hdrop
    obtain ⟨buffer', hdrop', hstep⟩ := parseLoop_bare stale map (show i < bufferlen by omega) hdrop hes.1.1 hes.1.2
    obtain ⟨buffer'', hdrop'', hrun⟩ := ih (hashmapSet map e (.string e)) hes.2 hdrop' (by omega)
    rw [hlen]
    exact ⟨buffer'', hdrop'', hstep.trans hrun⟩

/-- A token, as a whole. -/
lemma parseLoop_token (stale : ℕ → Byte) (map : Directory) (h0 : 0 ∉ e)
    (hdrop : buffer.drop i = e ++ 0 :: rest) (hi : i + (e.length + 1) ≤ bufferlen) :
    (¬ Quiet e ∧ parseLoop stale bufferlen buffer i map = none) ∨
    (Quiet e ∧ ∃ buffer', buffer'.drop (i + (e.length + 1)) = rest ∧ parseLoop stale bufferlen buffer i map =
      parseLoop stale bufferlen buffer' (i + (e.length + 1)) (assign map (entries e))) := by
  by_cases heq : equals ∈ e
  · obtain ⟨key, value, rfl, hkey⟩ := List.eq_append_cons_of_mem heq
    have hkey0 : 0 ∉ key := fun h => h0 (List.mem_append_left _ h)
    have hvalue0 : 0 ∉ value := fun h => h0 (List.mem_append_right _ (List.mem_cons_of_mem _ h))
    have hlt : i < bufferlen := by omega
    obtain ⟨hne, hnone⟩ | ⟨hempty, buffer', hdrop', hstep⟩ :=
      parseLoop_pair stale map hlt hdrop hkey0 hkey hvalue0
    · exact Or.inl ⟨fun hquiet => hne ((quiet_append hkey value).mp hquiet), hnone⟩
    · refine Or.inr ⟨(quiet_append hkey value).mpr hempty, ?_⟩
      rw [List.length_append, List.length_cons] at hi ⊢
      rw [entries_append hkey]
      cases value with
      | nil => exact ⟨buffer', hdrop', hstep⟩
      | cons c value =>
        have hc : c = equals := by
          by_contra hc
          rw [List.takeWhile_cons, if_pos (by simpa using hc)] at hempty
          cases hempty
        subst hc
        have hflat : mark value ++ 0 :: rest = flat (value.splitOn equals) ++ rest := by
          rw [flat_splitOn, List.append_assoc]
          rfl
        have hlen : (flat (value.splitOn equals)).length = value.length + 1 := by
          rw [flat_splitOn]
          simp
        have hbares : ∀ p ∈ value.splitOn equals, 0 ∉ p ∧ equals ∉ p := fun p hp =>
          ⟨fun h => hvalue0 (List.mem_cons_of_mem _ ((mem_parts hp).2 0 h)), (mem_parts hp).1⟩
        rw [splitOn_cons, if_pos rfl, List.drop_one, List.tail_cons]
        rw [List.length_cons] at hi ⊢
        obtain ⟨buffer'', hdrop'', hrun⟩ := parseLoop_bares stale
          (hashmapSet map key (.address 1)) hbares (hdrop'.trans hflat) (show _ ≤ bufferlen by omega)
        have hindex : i + (key.length + 2) + (flat (value.splitOn equals)).length =
            i + (key.length + (value.length + 1 + 1) + 1) := by omega
        rw [hindex] at hdrop'' hrun
        exact ⟨buffer'', hdrop'', hstep.trans hrun⟩
  · obtain ⟨buffer', hdrop', hstep⟩ := parseLoop_bare stale map (show i < bufferlen by omega)
      hdrop h0 heq
    rw [entries_of_notMem heq]
    exact Or.inr ⟨quiet_of_notMem heq, buffer', hdrop', hstep⟩

lemma parseLoop_tokens (stale : ℕ → Byte) (map : Directory) (hes : ∀ e ∈ es, 0 ∉ e)
    (hdrop : buffer.drop i = flat es ++ rest)
    (hi : i + (flat es).length ≤ bufferlen) :
    ((∃ e ∈ es, ¬ Quiet e) ∧ parseLoop stale bufferlen buffer i map = none) ∨
    ((∀ e ∈ es, Quiet e) ∧ ∃ buffer', buffer'.drop (i + (flat es).length) = rest ∧
      parseLoop stale bufferlen buffer i map = parseLoop stale bufferlen buffer' (i + (flat es).length)
        (assign map (es.flatMap entries))) := by
  induction es generalizing buffer i map with
  | nil => exact Or.inr ⟨fun e he => absurd he List.not_mem_nil, buffer, hdrop, rfl⟩
  | cons e es ih =>
    rw [List.forall_mem_cons] at hes
    have hlen : i + (flat (e :: es)).length = i + (e.length + 1) + (flat es).length := by
      rw [flat_cons, List.length_append, List.length_cons]
      omega
    rw [flat_cons, List.append_assoc, List.cons_append] at hdrop
    obtain ⟨hloud, hnone⟩ | ⟨hquiet, buffer', hdrop', hstep⟩ :=
      parseLoop_token stale map hes.1 hdrop (show _ ≤ bufferlen by omega)
    · exact Or.inl ⟨⟨e, List.mem_cons_self .., hloud⟩, hnone⟩
    · obtain ⟨⟨e', he', hloud⟩, hnone⟩ | ⟨hquiets, buffer'', hdrop'', hrun⟩ :=
        ih (assign map (entries e)) hes.2 hdrop' (by omega)
      · exact Or.inl ⟨⟨e', List.mem_cons_of_mem _ he', hloud⟩, hstep.trans hnone⟩
      · rw [hlen, List.forall_mem_cons, List.flatMap_cons, assign_append]
        exact Or.inr ⟨⟨hquiet, hquiets⟩, buffer'', hdrop'', hstep.trans hrun⟩

end Entries

section Conversion
variable {line : List Byte} {outside : Bool} {stale : ℕ → Byte} {cmdline : CString}

/-- The characters that are stored in the buffer. -/
def text : Bool → List Byte → List Byte
  | _, [] => []
  | outside, c :: line =>
      if c = space ∧ outside = true then 0 :: text outside line
      else if c = quote then text (!outside) line
      else c :: text outside line

lemma length_text (outside : Bool) (line : List Byte) :
    (text outside line).length + line.count quote = line.length := by
  induction line generalizing outside with
  | nil => rfl
  | cons c line ih =>
    have hspace : space ≠ quote := by decide
    rw [text]
    split_ifs with hs hq
    · have hrest := ih outside
      rw [hs.1, List.length_cons, List.length_cons, List.count_cons_of_ne hspace]
      omega
    · have hrest := ih (!outside)
      rw [hq, List.count_cons_self, List.length_cons]
      omega
    · have hrest := ih outside
      rw [List.length_cons, List.length_cons, List.count_cons_of_ne hq]
      omega

/-- The tokens stand in the buffer between the terminators. -/
lemma splitOn_text (h : 0 ∉ line) (outside : Bool) : (text outside line).splitOn 0 = split outside line := by
  induction line generalizing outside with
  | nil => rfl
  | cons c line ih =>
    rw [List.mem_cons, not_or] at h
    rw [text, split]
    split_ifs with hs hq
    · rw [splitOn_cons, if_pos rfl, ih h.2]
    · exact ih h.2 _
    · rw [splitOn_cons, if_neg (Ne.symm h.1), ih h.2]

lemma split_ne_nil (outside : Bool) (line : List Byte) : split outside line ≠ [] := by
  induction line generalizing outside with
  | nil => exact List.cons_ne_nil _ _
  | cons c line ih =>
    rw [split]
    split_ifs
    · exact List.cons_ne_nil _ _
    · exact ih _
    · obtain ⟨t, ts, ht⟩ := List.exists_cons_of_ne_nil (ih outside)
      rw [ht]
      exact List.cons_ne_nil _ _

lemma zero_split (h : 0 ∉ line) (outside : Bool) : ∀ t ∈ split outside line, 0 ∉ t := by
  intro t ht
  rw [← splitOn_text h] at ht
  exact (mem_parts ht).1

lemma convert_eq (done todo : List Byte) (n : ℕ) (h : (text outside line).length ≤ todo.length) :
    convert line outside done.length n (done ++ todo) = some (n - line.count quote,
      done ++ text outside line ++ todo.drop (text outside line).length) := by
  induction line generalizing outside done todo n with
  | nil => simp [convert, text]
  | cons c line ih =>
    have hstore : ∀ b x todo, Buffer.store (done ++ x :: todo) done.length b = some (done ++ [b] ++ todo) := by
      intro b x todo
      rw [store_middle, List.append_assoc]
      rfl
    have hspace : space ≠ quote := by decide
    rw [text] at h ⊢
    rw [convert]
    split_ifs at h ⊢ with hs hq
    · obtain ⟨x, todo, rfl⟩ := List.exists_cons_of_ne_nil (List.ne_nil_of_length_pos (Nat.zero_lt_of_lt h))
      have hrest := ih (done ++ [0]) todo n (Nat.le_of_succ_le_succ h)
      rw [List.length_append, List.length_singleton] at hrest
      rw [hstore, Option.bind_some, hrest, hs.1, List.count_cons_of_ne hspace]
      simp
    · have hrest := ih done todo (n - 1) h
      rw [hrest, hq, List.count_cons_self, Nat.sub_sub, Nat.add_comm 1]
    · obtain ⟨x, todo, rfl⟩ := List.exists_cons_of_ne_nil (List.ne_nil_of_length_pos (Nat.zero_lt_of_lt h))
      have hrest := ih (done ++ [c]) todo n (Nat.le_of_succ_le_succ h)
      rw [List.length_append, List.length_singleton] at hrest
      rw [hstore, Option.bind_some, hrest, List.count_cons_of_ne hq]
      simp

/-- The byte of the buffer that is not written. -/
def gap (stale : ℕ → Byte) (cmdline : CString) : Byte :=
  if cmdline.strlen + 1 ≤ 2048 then 0 else stale (cmdline.strlen - cmdline.1.count quote)

lemma kmalloc_eq (stale : ℕ → Byte) (n : ℕ) : ∃ block, kmalloc stale (n + 1) = some block ∧ block.length = n + 1 ∧
    ∀ k < n + 1, block[k]? = some (if n + 1 ≤ 2048 then 0 else stale k) := by
  unfold kmalloc
  rw [if_neg n.succ_ne_zero]
  split_ifs
  · exact ⟨_, rfl, List.length_replicate, fun k hk => List.getElem?_replicate_of_lt hk⟩
  · refine ⟨_, rfl, by simp, fun k hk => ?_⟩
    rw [List.getElem?_map, List.getElem?_range hk]
    rfl

/-- Without quotes the last terminator is stored behind the buffer. -/
lemma cmdlineParse_unquoted (hne : cmdline.1 ≠ []) (hq : quote ∉ cmdline.1) : cmdlineParse stale cmdline = none := by
  obtain ⟨block, hblock, hlen, -⟩ := kmalloc_eq stale cmdline.strlen
  have hcount : cmdline.1.count quote = 0 := List.count_eq_zero_of_not_mem hq
  have htext : (text true cmdline.1).length = cmdline.strlen := by
    have := length_text true cmdline.1
    rw [hcount] at this
    exact this
  have hconvert := convert_eq [] block (cmdline.strlen + 1) (htext.trans_le (by omega))
  rw [List.length_nil, List.nil_append, List.nil_append, hcount, Nat.sub_zero] at hconvert
  have hfull : ¬ cmdline.strlen + 1 <
      (text true cmdline.1 ++ block.drop (text true cmdline.1).length).length := by
    rw [List.length_append, List.length_drop, htext, hlen]
    omega
  rw [cmdlineParse, if_neg hne, hblock, Option.bind_some, hconvert, Option.bind_some, Buffer.store, if_neg hfull]
  rfl

/-- What the loop over the tokens begins with. -/
lemma cmdlineParse_quoted (stale : ℕ → Byte) (hq : quote ∈ cmdline.1) : ∃ rest, cmdlineParse stale cmdline =
    (parseLoop stale ((text true cmdline.1).length + 1)
      (text true cmdline.1 ++ gap stale cmdline :: 0 :: rest) 0 fun _ => none).map some := by
  obtain ⟨block, hblock, hlen, hget⟩ := kmalloc_eq stale cmdline.strlen
  have hpos : 0 < cmdline.1.count quote := List.count_pos_iff.mpr hq
  have hlength : (text true cmdline.1).length + cmdline.1.count quote = cmdline.strlen := length_text true cmdline.1
  have hconvert := convert_eq [] block (cmdline.strlen + 1)
    (show (text true cmdline.1).length ≤ block.length by omega)
  have hbufferlen : cmdline.strlen + 1 - cmdline.1.count quote = (text true cmdline.1).length + 1 := by omega
  rw [List.length_nil, List.nil_append, List.nil_append, hbufferlen] at hconvert
  have hgap : block[(text true cmdline.1).length]? = some (gap stale cmdline) := by
    rw [hget _ (by omega), gap]
    congr 3
    omega
  obtain ⟨x, rest, hrest⟩ : ∃ x rest, block.drop ((text true cmdline.1).length + 1) = x :: rest :=
    List.exists_cons_of_ne_nil fun h => by
      have := List.drop_eq_nil_iff.mp h
      omega
  have hdrop : block.drop (text true cmdline.1).length = gap stale cmdline :: x :: rest := by
    have hlt : (text true cmdline.1).length < block.length := by omega
    rw [List.getElem?_eq_getElem hlt, Option.some_inj] at hgap
    rw [List.drop_eq_getElem_cons hlt, hgap, hrest]
  have hstore : Buffer.store (text true cmdline.1 ++ block.drop (text true cmdline.1).length)
      ((text true cmdline.1).length + 1) 0 = some (text true cmdline.1 ++ gap stale cmdline :: 0 :: rest) := by
    rw [hdrop]
    simpa using (store_middle : Buffer.store (text true cmdline.1 ++ [gap stale cmdline] ++ x :: rest) _ 0 = _)
  refine ⟨rest, ?_⟩
  rw [cmdlineParse, if_neg (List.ne_nil_of_mem hq), hblock, Option.bind_some, hconvert, Option.bind_some, hstore]
  rfl

end Conversion

section Directories
variable {e t : List Byte} {es ts : List (List Byte)} {k : List Byte} {v : Value} {map map' : Directory}
  {l : List (List Byte × Value)}

lemma assign_cons (map : Directory) (entry : List Byte × Value) (l : List (List Byte × Value)) :
    assign map (entry :: l) = assign (hashmapSet map entry.1 entry.2) l := rfl

lemma assign_of_notMem (h : ∀ entry ∈ l, entry.1 ≠ k) : assign map l k = map k := by
  induction l generalizing map with
  | nil => rfl
  | cons entry l ih =>
    rw [List.forall_mem_cons] at h
    rw [assign_cons, ih h.2]
    exact update_of_ne h.1.symm _ _

lemma assign_isSome (map : Directory) (h : ∃ entry ∈ l, entry.1 = k) : ∃ v, assign map l k = some v := by
  induction l using List.reverseRecOn with
  | nil =>
    obtain ⟨entry, hentry, -⟩ := h
    cases hentry
  | append_singleton l entry ih =>
    rw [assign_append]
    by_cases hk : entry.1 = k
    · exact ⟨entry.2, by rw [← hk]; exact update_self _ _ _⟩
    · obtain ⟨entry', hentry', hk'⟩ := h
      obtain hentry' | hentry' := List.mem_append.mp hentry'
      · obtain ⟨v, hv⟩ := ih ⟨entry', hentry', hk'⟩
        exact ⟨v, (update_of_ne (Ne.symm hk) _ _).trans hv⟩
      · exact absurd (List.mem_singleton.mp hentry' ▸ hk') hk

/-- The keys that are entered for a token. -/
def keysOf (e : List Byte) : List (List Byte) := keyOf e :: written e

lemma written_of_notMem (h : equals ∉ e) : written e = [e] := if_neg h

lemma mem_keysOf : k ∈ keysOf e ↔ ∃ entry ∈ entries e, entry.1 = k := by
  rw [keysOf, List.mem_cons, entries]
  by_cases heq : equals ∈ e
  · simp [heq, eq_comm]
  · rw [keyOf_of_notMem heq, written_of_notMem heq]
    simp [heq, eq_comm]

lemma assign_strings {ps : List (List Byte)} (h : k ∈ ps) :
    assign map (ps.map fun p => (p, .string p)) k = some (.string k) := by
  induction ps using List.reverseRecOn with
  | nil => cases h
  | append_singleton ps p ih =>
    rw [List.map_append, assign_append]
    by_cases hp : p = k
    · subst hp
      exact update_self _ _ _
    · obtain hk | hk := List.mem_append.mp h
      · exact (update_of_ne (Ne.symm hp) _ _).trans (ih hk)
      · exact absurd (List.mem_singleton.mp hk).symm hp

/-- What is written last for a token has the key as its value. -/
lemma assign_entries_written (h : k ∈ written e) : assign map (entries e) k = some (.string k) := by
  rw [entries, assign_append]
  exact assign_strings h

/-- A token whose key does not come again leaves the address. -/
lemma assign_entries_address (h : k ∉ written e) (hmap : map k = some (.address 1) ∨ equals ∈ e ∧ keyOf e = k) :
    assign map (entries e) k = some (.address 1) := by
  have hnone : ∀ entry ∈ (written e).map fun p => (p, Value.string p), entry.1 ≠ k := by
    intro entry hentry hk
    obtain ⟨p, hp, rfl⟩ := List.mem_map.mp hentry
    exact h (hk ▸ hp)
  rw [entries, assign_append, assign_of_notMem hnone]
  by_cases heq : equals ∈ e
  · rw [if_pos heq]
    by_cases hk : keyOf e = k
    · subst hk
      exact update_self _ _ _
    · obtain hmap | ⟨-, hkey⟩ := hmap
      · exact (update_of_ne (Ne.symm hk) _ _).trans hmap
      · exact absurd hkey hk
  · rw [if_neg heq]
    exact hmap.resolve_right fun h => heq h.1

lemma assign_address (h : ∀ e ∈ es, k ∉ written e) (hmap : map k = some (.address 1)) :
    assign map (es.flatMap entries) k = some (.address 1) := by
  induction es generalizing map with
  | nil => exact hmap
  | cons e es ih =>
    rw [List.forall_mem_cons] at h
    rw [List.flatMap_cons, assign_append]
    exact ih h.2 (assign_entries_address h.1 (Or.inl hmap))

/-- Behind every token with an equals sign its key comes again, as a part behind the second sign or as a token. -/
def Again (es : List (List Byte)) : Prop := ∀ e rest, e :: rest <:+ es → equals ∈ e →
  keyOf e ∈ written e ∨ ∃ e' ∈ rest, keyOf e ∈ written e'

lemma Again.tail (h : Again (e :: es)) : Again es := fun e' rest hsuffix =>
  h e' rest (hsuffix.trans (List.suffix_cons e es))

lemma assign_again (h : Again es) (hk : ∃ e ∈ es, k ∈ keysOf e) :
    assign map (es.flatMap entries) k = some (.string k) := by
  induction es generalizing map with
  | nil =>
    obtain ⟨e, he, -⟩ := hk
    cases he
  | cons e es ih =>
    rw [List.flatMap_cons, assign_append]
    by_cases hlater : ∃ e' ∈ es, k ∈ keysOf e'
    · exact ih h.tail hlater
    · have hnone : ∀ entry ∈ es.flatMap entries, entry.1 ≠ k := by
        intro entry hentry heq
        obtain ⟨e', he', hmem⟩ := List.mem_flatMap.mp hentry
        exact hlater ⟨e', he', mem_keysOf.mpr ⟨entry, hmem, heq⟩⟩
      rw [assign_of_notMem hnone]
      apply assign_entries_written
      obtain ⟨e', he', hkeys⟩ := hk
      obtain rfl | he' := List.mem_cons.mp he'
      · obtain rfl | hwritten := List.mem_cons.mp hkeys
        · by_cases heq : equals ∈ e'
          · refine (h e' es List.suffix_rfl heq).resolve_right ?_
            rintro ⟨e'', he'', hwritten⟩
            exact hlater ⟨e'', he'', List.mem_cons_of_mem _ hwritten⟩
          · rw [keyOf_of_notMem heq, written_of_notMem heq]
            exact List.mem_singleton_self _
        · exact hwritten
      · exact absurd ⟨e', he', hkeys⟩ hlater

/-- The tokens' own assignments. -/
lemma assign_expected (ts : List (List Byte)) (k : List Byte) :
    assign (fun _ => none) (ts.map fun t => (keyOf t, .string (valueOf t))) k =
      ((ts.reverse.find? fun t => keyOf t = k).map valueOf).map .string := by
  induction ts using List.reverseRecOn with
  | nil => rfl
  | append_singleton ts t ih =>
    rw [List.map_append, assign_append, List.reverse_append, List.reverse_singleton, List.singleton_append,
      List.find?_cons]
    by_cases hk : keyOf t = k
    · subst hk
      simp [assign, hashmapSet]
    · simpa [assign, hashmapSet, hk, update_of_ne (Ne.symm hk)] using ih

/-- What the loop enters is an address, or the key itself. -/
def Plain (map : Directory) : Prop := ∀ k v, map k = some v → v = .address 1 ∨ v = .string k

lemma plain_set (h : Plain map) (k : List Byte) (hv : v = .address 1 ∨ v = .string k) : Plain (hashmapSet map k v) := by
  intro k' v' hv'
  by_cases hk : k' = k
  · subst hk
    rw [hashmapSet, update_self] at hv'
    cases hv'
    exact hv
  · rw [hashmapSet, update_of_ne hk] at hv'
    exact h k' v' hv'

lemma plain_entries (h : Plain map) (es : List (List Byte)) : Plain (assign map (es.flatMap entries)) := by
  have hall : ∀ entry ∈ es.flatMap entries, entry.2 = .address 1 ∨ entry.2 = .string entry.1 := by
    intro entry hentry
    obtain ⟨e, -, hentry⟩ := List.mem_flatMap.mp hentry
    obtain hentry | hentry := List.mem_append.mp hentry
    · split_ifs at hentry
      · obtain rfl := List.mem_singleton.mp hentry
        exact Or.inl rfl
      · cases hentry
    · obtain ⟨p, -, rfl⟩ := List.mem_map.mp hentry
      exact Or.inr rfl
  generalize es.flatMap entries = l at hall
  induction l generalizing map with
  | nil => exact h
  | cons entry l ih =>
    rw [List.forall_mem_cons] at hall
    exact ih (plain_set h entry.1 hall.1) hall.2

lemma plain_empty : Plain fun _ => none := fun _ _ => nofun

lemma exists_last (h : ∃ t ∈ ts, keyOf t = k) :
    ∃ t rest, t :: rest <:+ ts ∧ keyOf t = k ∧ ∀ t' ∈ rest, keyOf t' ≠ k := by
  induction ts with
  | nil =>
    obtain ⟨t, ht, -⟩ := h
    cases ht
  | cons t ts ih =>
    by_cases hlater : ∃ t' ∈ ts, keyOf t' = k
    · obtain ⟨t', rest, hsuffix, hlast⟩ := ih hlater
      exact ⟨t', rest, hsuffix.trans (List.suffix_cons t ts), hlast⟩
    · obtain ⟨t', ht', hk⟩ := h
      obtain rfl | ht' := List.mem_cons.mp ht'
      · exact ⟨t', ts, List.suffix_rfl, hk, fun t'' ht'' heq => hlater ⟨t'', ht'', heq⟩⟩
      · exact absurd ⟨t', ht', hk⟩ hlater

/-- The assignment of the last token with a key. -/
lemma assign_last {rest : List (List Byte)} (hsuffix : t :: rest <:+ ts) (h : ∀ t' ∈ rest, keyOf t' ≠ keyOf t) :
    assign map (ts.map fun t => (keyOf t, .string (valueOf t))) (keyOf t) = some (.string (valueOf t)) := by
  obtain ⟨front, rfl⟩ := hsuffix
  rw [List.map_append, assign_append, List.map_cons, assign_cons, assign_of_notMem]
  · exact update_self _ _ _
  · intro entry hentry
    obtain ⟨t', ht', rfl⟩ := List.mem_map.mp hentry
    exact h t' ht'

/-- The tokens of the line, and the ones that stand in the buffer. -/
structure Sound (ts es : List (List Byte)) : Prop where
  quiet : ∀ e ∈ es, Quiet e
  keys : ∀ k, (∃ t ∈ ts, keyOf t = k) ↔ ∃ e ∈ es, k ∈ keysOf e
  last : ∀ t rest, t :: rest <:+ ts → (∀ t' ∈ rest, keyOf t' ≠ keyOf t) → equals ∈ t → t = [equals]
  again : Again es

lemma equals_keyOf (e : List Byte) : equals ∉ keyOf e := fun h => by simpa using List.mem_takeWhile_imp h

lemma takeWhile_of_notMem (h : equals ∉ e) : e.takeWhile (· ≠ equals) = e := keyOf_of_notMem h

/-- The directories agree exactly on sound tokens. -/
lemma entries_agree_iff (hquiet : ∀ e ∈ es, Quiet e) (hsub : ∀ t ∈ ts, equals ∈ t → t ∈ es) :
    (∀ k, assign (fun _ => none) (es.flatMap entries) k =
      assign (fun _ => none) (ts.map fun t => (keyOf t, .string (valueOf t))) k) ↔ Sound ts es := by
  have hentered : ∀ k, (∃ e ∈ es, k ∈ keysOf e) ↔ ∃ entry ∈ es.flatMap entries, entry.1 = k := by
    intro k
    constructor
    · rintro ⟨e, he, hk⟩
      obtain ⟨entry, hentry, heq⟩ := mem_keysOf.mp hk
      exact ⟨entry, List.mem_flatMap.mpr ⟨e, he, hentry⟩, heq⟩
    · rintro ⟨entry, hentry, heq⟩
      obtain ⟨e, he, hmem⟩ := List.mem_flatMap.mp hentry
      exact ⟨e, he, mem_keysOf.mpr ⟨entry, hmem, heq⟩⟩
  have hexpected : ∀ k, (∃ t ∈ ts, keyOf t = k) ↔
      ∃ entry ∈ ts.map fun t => (keyOf t, Value.string (valueOf t)), entry.1 = k := by
    intro k
    simp
  have hnone : ∀ {l : List (List Byte × Value)} {k}, ¬ (∃ entry ∈ l, entry.1 = k) → assign (fun _ => none) l k = none :=
    fun {l k} h => assign_of_notMem fun entry hentry heq => h ⟨entry, hentry, heq⟩
  constructor
  · intro hagree
    refine ⟨hquiet, fun k => ?_, fun t rest hsuffix hlast heq => ?_, fun e rest hsuffix heq => ?_⟩
    · rw [hentered, hexpected]
      constructor
      · intro h
        by_contra hno
        obtain ⟨v, hv⟩ := assign_isSome (fun _ => none) h
        rw [← hagree, hnone hno] at hv
        cases hv
      · intro h
        by_contra hno
        obtain ⟨v, hv⟩ := assign_isSome (fun _ => none) h
        rw [hagree, hnone hno] at hv
        cases hv
    · have hvalue := (hagree (keyOf t)).trans (assign_last hsuffix hlast)
      obtain hv | hv := plain_entries plain_empty es _ _ hvalue
      · cases hv
      · have hsame : valueOf t = keyOf t := Value.string.inj hv
        have hmem : t ∈ es := hsub t (hsuffix.subset (List.mem_cons_self ..)) heq
        obtain ⟨key, value, rfl, hkey⟩ := List.eq_append_cons_of_mem heq
        rw [valueOf_append hkey, keyOf_append hkey] at hsame
        subst hsame
        have hempty := (quiet_append hkey value).mp (hquiet _ hmem)
        rw [takeWhile_of_notMem hkey] at hempty
        rw [hempty]
        rfl
    · by_contra hno
      rw [not_or, not_exists] at hno
      obtain ⟨front, rfl⟩ := hsuffix
      have haddress : assign (fun _ => none) ((front ++ e :: rest).flatMap entries) (keyOf e) =
          some (.address 1) := by
        rw [List.flatMap_append, assign_append, List.flatMap_cons, assign_append]
        exact assign_address (fun e' he' hk => hno.2 e' ⟨he', hk⟩)
          (assign_entries_address hno.1 (Or.inr ⟨heq, rfl⟩))
      rw [hagree, assign_expected] at haddress
      cases hfind : ts.reverse.find? fun t => keyOf t = keyOf e with
      | none =>
        rw [hfind] at haddress
        cases haddress
      | some t =>
        rw [hfind] at haddress
        cases haddress
  · intro hsound k
    by_cases hk : ∃ t ∈ ts, keyOf t = k
    · obtain ⟨t, rest, hsuffix, rfl, hlast⟩ := exists_last hk
      rw [assign_again hsound.again ((hsound.keys _).mp hk), assign_last hsuffix hlast]
      by_cases heq : equals ∈ t
      · rw [hsound.last t rest hsuffix hlast heq]
        rfl
      · rw [valueOf, if_neg heq, keyOf_of_notMem heq]
    · rw [hnone fun h => hk ((hsound.keys k).mpr ((hentered k).mpr h)), hnone fun h => hk ((hexpected k).mpr h)]

end Directories

section Runs
variable {stale : ℕ → Byte} {cmdline : CString} {front : List (List Byte)} {t : List Byte} {g : Byte}

/-- The tokens as they stand in the buffer; the byte that is not written belongs to the last one. -/
def extended (g : Byte) (ts : List (List Byte)) : List (List Byte) :=
  if g = 0 then ts else ts.dropLast ++ [ts.getLastD [] ++ [g]]

lemma extended_append (hg : g ≠ 0) : extended g (front ++ [t]) = front ++ [t ++ [g]] := by
  rw [extended, if_neg hg, List.dropLast_concat, List.getLastD_concat]

lemma tokens_quoted (hq : quote ∈ cmdline.1) : tokens cmdline = split true cmdline.1 :=
  if_neg (List.ne_nil_of_mem hq)

lemma flat_tokens (cmdline : CString) : flat (split true cmdline.1) = text true cmdline.1 ++ [0] := by
  have hsame : (text true cmdline.1).map (fun c => if c = 0 then 0 else c) = text true cmdline.1 := by
    refine (List.map_congr_left fun c _ => ?_).trans (List.map_id _)
    split_ifs with hc
    · exact hc.symm
    · rfl
  rw [← splitOn_text cmdline.2, flat_splitOn, hsame]

lemma exists_split (cmdline : CString) : ∃ front t, split true cmdline.1 = front ++ [t] ∧
    text true cmdline.1 = flat front ++ t := by
  obtain ⟨front, t, ht⟩ := (List.eq_nil_or_concat (split true cmdline.1)).resolve_left (split_ne_nil true cmdline.1)
  rw [List.concat_eq_append] at ht
  refine ⟨front, t, ht, ?_⟩
  have hflat := flat_tokens cmdline
  rw [ht, flat_append, flat_cons, ← List.append_assoc] at hflat
  exact (List.append_cancel_right hflat).symm

/-- A run over tokens that lie in the buffer as a whole, or of which the last one has no equals sign. -/
lemma cmdlineParse_extended (stale : ℕ → Byte) (hq : quote ∈ cmdline.1)
    (hlast : gap stale cmdline = 0 ∨ equals ∉ (tokens cmdline).getLastD [] ++ [gap stale cmdline]) :
    ((∃ e ∈ extended (gap stale cmdline) (tokens cmdline), ¬ Quiet e) ∧ cmdlineParse stale cmdline = none) ∨
    ((∀ e ∈ extended (gap stale cmdline) (tokens cmdline), Quiet e) ∧ cmdlineParse stale cmdline =
      some (some (assign (fun _ => none) ((extended (gap stale cmdline) (tokens cmdline)).flatMap entries)))) := by
  obtain ⟨rest, hparse⟩ := cmdlineParse_quoted stale hq
  obtain ⟨front, t, hsplit, htext⟩ := exists_split cmdline
  have hzero := zero_split cmdline.2 true
  rw [tokens_quoted hq] at hlast ⊢
  obtain ⟨g, hg⟩ : ∃ g, gap stale cmdline = g := ⟨_, rfl⟩
  rw [hg] at hparse hlast ⊢
  by_cases hg0 : g = 0
  · subst hg0
    rw [extended, if_pos rfl]
    have hdrop : (text true cmdline.1 ++ 0 :: 0 :: rest).drop 0 = flat (split true cmdline.1) ++ 0 :: rest := by
      rw [List.drop_zero, flat_tokens, List.append_assoc]
      rfl
    have hlen : (flat (split true cmdline.1)).length = (text true cmdline.1).length + 1 := by
      rw [flat_tokens, List.length_append, List.length_singleton]
    obtain ⟨hloud, hnone⟩ | ⟨hquiet, buffer', -, hrun⟩ :=
      parseLoop_tokens stale (fun _ => none) hzero hdrop (show _ ≤ (text true cmdline.1).length + 1 by omega)
    · exact Or.inl ⟨hloud, by rw [hparse, hnone]; rfl⟩
    · refine Or.inr ⟨hquiet, ?_⟩
      rw [hparse, hrun, parseLoop_end (by omega)]
      rfl
  · rw [hsplit] at hlast hzero ⊢
    rw [List.getLastD_concat] at hlast
    have heq : equals ∉ t ++ [g] := hlast.resolve_left hg0
    have hfront0 : ∀ e ∈ front, 0 ∉ e := fun e he => hzero e (List.mem_append_left _ he)
    have ht0 : 0 ∉ t ++ [g] := by
      rw [List.mem_append, List.mem_singleton, not_or]
      exact ⟨hzero t (by simp), Ne.symm hg0⟩
    have hdrop : (text true cmdline.1 ++ g :: 0 :: rest).drop 0 = flat front ++ (t ++ [g] ++ 0 :: rest) := by
      rw [List.drop_zero, htext]
      simp
    have hlen : (text true cmdline.1).length = (flat front).length + t.length := by rw [htext, List.length_append]
    rw [extended_append hg0]
    obtain ⟨⟨e, he, hloud⟩, hnone⟩ | ⟨hquiet, buffer', hdrop', hrun⟩ :=
      parseLoop_tokens stale (fun _ => none) hfront0 hdrop (show _ ≤ (text true cmdline.1).length + 1 by omega)
    · exact Or.inl ⟨⟨e, List.mem_append_left _ he, hloud⟩, by rw [hparse, hnone]; rfl⟩
    · obtain ⟨buffer'', -, hstep⟩ := parseLoop_bare stale (assign (fun _ => none) (front.flatMap entries))
        (show _ < (text true cmdline.1).length + 1 by omega) hdrop' ht0 heq
      refine Or.inr ⟨?_, ?_⟩
      · intro e he
        obtain he | he := List.mem_append.mp he
        · exact hquiet e he
        · exact List.mem_singleton.mp he ▸ quiet_of_notMem heq
      · rw [List.length_append, List.length_singleton] at hstep
        rw [hparse, hrun, hstep, parseLoop_end (by omega), List.flatMap_append, assign_append, List.flatMap_singleton,
          entries_of_notMem heq]
        rfl

lemma zero_keysOf {e k : List Byte} (h : 0 ∉ e) (hk : k ∈ keysOf e) : 0 ∉ k := by
  obtain rfl | hk := List.mem_cons.mp hk
  · exact fun h0 => h (List.takeWhile_subset _ h0)
  · unfold written at hk
    split_ifs at hk
    · exact fun h0 => h ((mem_parts (List.mem_of_mem_drop hk)).2 0 h0)
    · exact List.mem_singleton.mp hk ▸ h

lemma zero_tokens (cmdline : CString) : ∀ t ∈ tokens cmdline, 0 ∉ t := by
  unfold tokens
  split_ifs
  · exact fun t ht => absurd ht List.not_mem_nil
  · exact zero_split cmdline.2 true

lemma zero_extended {ts : List (List Byte)} (h : ∀ t ∈ ts, 0 ∉ t) (hne : ts ≠ []) : ∀ e ∈ extended g ts, 0 ∉ e := by
  by_cases hg : g = 0
  · rwa [extended, if_pos hg]
  · obtain ⟨front, t, rfl⟩ := (List.eq_nil_or_concat' ts).resolve_left hne
    rw [extended_append hg]
    intro e he
    obtain he | he := List.mem_append.mp he
    · exact h e (List.mem_append_left _ he)
    · rw [List.mem_singleton.mp he, List.mem_append, List.mem_singleton, not_or]
      exact ⟨h t (by simp), Ne.symm hg⟩

/-- Only keys without zeros are entered and expected. -/
lemma agree_zero {ts : List (List Byte)} {k : List Byte} (h : ∀ t ∈ ts, 0 ∉ t) (hne : ts ≠ []) (hk : 0 ∈ k) :
    assign (fun _ => none) ((extended g ts).flatMap entries) k =
      assign (fun _ => none) (ts.map fun t => (keyOf t, .string (valueOf t))) k := by
  rw [assign_of_notMem, assign_of_notMem]
  · intro entry hentry heq
    obtain ⟨t, ht, rfl⟩ := List.mem_map.mp hentry
    rw [← heq] at hk
    exact zero_keysOf (h t ht) (List.mem_cons_self ..) hk
  · intro entry hentry heq
    obtain ⟨e, he, hmem⟩ := List.mem_flatMap.mp hentry
    exact zero_keysOf (zero_extended h hne e he) (mem_keysOf.mpr ⟨entry, hmem, rfl⟩) (heq ▸ hk)

lemma mem_extended {ts : List (List Byte)} (hne : ts ≠ []) (hlast : g = 0 ∨ equals ∉ ts.getLastD [] ++ [g]) :
    ∀ t ∈ ts, equals ∈ t → t ∈ extended g ts := by
  intro t ht heq
  by_cases hg : g = 0
  · rwa [extended, if_pos hg]
  · obtain ⟨front, t', rfl⟩ := (List.eq_nil_or_concat' ts).resolve_left hne
    rw [List.getLastD_concat] at hlast
    rw [extended_append hg]
    obtain ht | ht := List.mem_append.mp ht
    · exact List.mem_append_left _ ht
    · rw [List.mem_singleton.mp ht] at heq
      exact absurd (List.mem_append_left _ heq) (hlast.resolve_left hg)

/-- The loop enters nothing but addresses and the keys themselves. -/
lemma plain_parseLoop {bufferlen i : ℕ} {buffer : Buffer} {map map' : Directory} (hmap : Plain map)
    (h : parseLoop stale bufferlen buffer i map = some map') : Plain map' := by
  induction hn : bufferlen - i using Nat.strong_induction_on generalizing buffer i map with
  | _ n ih =>
    rw [parseLoop] at h
    split_ifs at h with hi
    · obtain ⟨marked, -, h⟩ := Option.bind_eq_some_iff.mp h
      obtain ⟨keylen, -, h⟩ := Option.bind_eq_some_iff.mp h
      split_ifs at h
      · obtain ⟨valuelen, -, h⟩ := Option.bind_eq_some_iff.mp h
        obtain ⟨value, hvalue, h⟩ := Option.bind_eq_some_iff.mp h
        rw [copyValue_eq] at hvalue
        split_ifs at hvalue
        obtain rfl := Option.some.inj hvalue
        exact ih _ (by omega) (plain_set hmap _ (Or.inl rfl)) h rfl
      · exact ih _ (by omega) (plain_set hmap _ (Or.inr rfl)) h rfl
    · cases h
      exact hmap

lemma expected_last (hq : quote ∈ cmdline.1) (hsplit : split true cmdline.1 = front ++ [t]) :
    expected cmdline (keyOf t) = some (valueOf t) := by
  rw [expected, tokens_quoted hq, hsplit, List.reverse_append, List.reverse_singleton, List.singleton_append,
    List.find?_cons_of_pos (by simp)]
  rfl

/-- Where the byte that is not written makes the last token one with an equals sign, or behind one, its key does not
get its value. -/
lemma not_parses_extended (hq : quote ∈ cmdline.1) (hgap : gap stale cmdline ≠ 0)
    (heq : equals ∈ (tokens cmdline).getLastD [] ++ [gap stale cmdline]) : ¬ Parses stale cmdline := by
  rintro ⟨map, hmap, hget⟩
  obtain ⟨rest, hparse⟩ := cmdlineParse_quoted stale hq
  obtain ⟨front, t, hsplit, htext⟩ := exists_split cmdline
  have hzero := zero_split cmdline.2 true
  rw [tokens_quoted hq, hsplit, List.getLastD_concat] at heq
  obtain ⟨g, hg⟩ : ∃ g, gap stale cmdline = g := ⟨_, rfl⟩
  rw [hg] at hparse hgap heq
  rw [hsplit] at hzero
  have ht0 : 0 ∉ t := hzero t (by simp)
  have hfront0 : ∀ e ∈ front, 0 ∉ e := fun e he => hzero e (List.mem_append_left _ he)
  have hdrop : (text true cmdline.1 ++ g :: 0 :: rest).drop 0 = flat front ++ (t ++ [g] ++ 0 :: rest) := by
    rw [List.drop_zero, htext]
    simp
  have hlen : (text true cmdline.1).length = (flat front).length + t.length := by rw [htext, List.length_append]
  have hkey0 : 0 ∉ keyOf t := fun h => ht0 (List.takeWhile_subset _ h)
  have hlast := hget ⟨keyOf t, hkey0⟩
  rw [expected_last hq hsplit, Option.map_some] at hlast
  rw [hparse] at hmap
  obtain ⟨map, hloop, rfl⟩ := Option.map_eq_some_iff.mp hmap
  change map (keyOf t) = some (.string (valueOf t)) at hlast
  -- the value is the key, so the token has no equals sign or is one
  have hsame : valueOf t = keyOf t := by
    obtain hv | hv := plain_parseLoop plain_empty hloop _ _ hlast
    · cases hv
    · exact Value.string.inj hv
  obtain ⟨-, hnone⟩ | ⟨-, buffer', hdrop', hrun⟩ :=
    parseLoop_tokens stale (fun _ => none) hfront0 hdrop (show _ ≤ (text true cmdline.1).length + 1 by omega)
  · rw [hnone] at hloop
    cases hloop
  · rw [hrun] at hloop
    obtain ⟨key, value, hkv, hkey⟩ := List.eq_append_cons_of_mem heq
    have hlength := congrArg List.length hkv
    simp only [List.length_append, List.length_cons, List.length_nil] at hlength
    have hkv0 : 0 ∉ key ++ equals :: value := by
      rw [← hkv, List.mem_append, List.mem_singleton, not_or]
      exact ⟨ht0, Ne.symm hgap⟩
    rw [hkv] at hdrop'
    obtain ⟨-, hnone⟩ | ⟨hempty, buffer'', -, hstep⟩ := parseLoop_pair stale
      (assign (fun _ => none) (front.flatMap entries)) (show _ < (text true cmdline.1).length + 1 by omega) hdrop'
      (fun h => hkv0 (List.mem_append_left _ h)) hkey
      (fun h => hkv0 (List.mem_append_right _ (List.mem_cons_of_mem _ h)))
    · rw [hnone] at hloop
      cases hloop
    · have hshort : keyOf t = key ∧ value.length ≤ 1 := by
        obtain rfl | ⟨w, x, hw⟩ := List.eq_nil_or_concat value
        · obtain ⟨rfl, -⟩ := List.append_inj' hkv rfl
          exact ⟨keyOf_of_notMem hkey, Nat.zero_le 1⟩
        · rw [List.concat_eq_append] at hw
          rw [hw, ← List.cons_append, ← List.append_assoc] at hkv
          obtain ⟨rfl, -⟩ := List.append_inj' hkv rfl
          rw [valueOf_append hkey, keyOf_append hkey] at hsame
          refine ⟨keyOf_append hkey w, ?_⟩
          cases w with
          | nil => exact (congrArg List.length hw).le
          | cons c w =>
            have hc : c ≠ equals := fun hc => hkey (hsame ▸ hc ▸ List.mem_cons_self ..)
            rw [hw, List.cons_append, List.takeWhile_cons, if_pos (by simpa using hc)] at hempty
            cases hempty
      obtain ⟨rfl, hone⟩ := hshort
      rw [hstep, parseLoop_end (by omega)] at hloop
      obtain rfl := Option.some.inj hloop
      rw [hashmapSet, update_self] at hlast
      cases hlast

end Runs

/-- The command line is parsed as it should exactly if it is empty; or if there is a quote, and the byte of the buffer
that is not written is 0 or gives no equals sign to the last token, and the tokens are sound. -/
theorem parses_iff (stale : ℕ → Byte) (cmdline : CString) : Parses stale cmdline ↔ cmdline.1 = [] ∨
    quote ∈ cmdline.1 ∧
      (gap stale cmdline = 0 ∨ equals ∉ (tokens cmdline).getLastD [] ++ [gap stale cmdline]) ∧
      Sound (tokens cmdline) (extended (gap stale cmdline) (tokens cmdline)) := by
  by_cases hempty : cmdline.1 = []
  · refine iff_of_true ⟨none, if_pos hempty, fun key => ?_⟩ (Or.inl hempty)
    rw [expected, tokens, if_pos hempty]
    rfl
  · rw [or_iff_right hempty]
    by_cases hq : quote ∈ cmdline.1
    · rw [and_iff_right hq]
      by_cases hlast : gap stale cmdline = 0 ∨ equals ∉ (tokens cmdline).getLastD [] ++ [gap stale cmdline]
      · rw [and_iff_right hlast]
        have hne : tokens cmdline ≠ [] := by
          rw [tokens_quoted hq]
          exact split_ne_nil true _
        obtain ⟨⟨e, he, hloud⟩, hnone⟩ | ⟨hquiet, hparse⟩ := cmdlineParse_extended stale hq hlast
        · refine iff_of_false ?_ fun hsound => hloud (hsound.quiet e he)
          rintro ⟨map, hmap, -⟩
          rw [hnone] at hmap
          cases hmap
        · rw [← entries_agree_iff hquiet (mem_extended hne hlast)]
          constructor
          · rintro ⟨map, hmap, hget⟩ k
            rw [hparse] at hmap
            obtain rfl := Option.some.inj hmap
            by_cases hk : 0 ∈ k
            · exact agree_zero (zero_tokens cmdline) hne hk
            · exact (hget ⟨k, hk⟩).trans (assign_expected (tokens cmdline) k).symm
          · intro hagree
            exact ⟨_, hparse, fun key => (hagree key.1).trans (assign_expected (tokens cmdline) key.1)⟩
      · rw [not_or, not_not] at hlast
        exact iff_of_false (not_parses_extended hq hlast.1 hlast.2) fun h => h.1.elim hlast.1 fun h => h hlast.2
    · refine iff_of_false ?_ fun h => hq h.1
      rintro ⟨map, hmap, -⟩
      rw [cmdlineParse_unquoted hempty hq] at hmap
      cases hmap

lemma zero_notMem_nosmp : (0 : Byte) ∉ [0x6e, 0x6f, 0x73, 0x6d, 0x70] := by decide

/-- `nosmp` -/
def nosmp : CString := ⟨[0x6e, 0x6f, 0x73, 0x6d, 0x70], zero_notMem_nosmp⟩

lemma zero_notMem_pair : (0 : Byte) ∉ [quote, 0x6b, equals, 0x76, quote] := by decide

/-- `"k=v"` -/
def quotedPair : CString := ⟨[quote, 0x6b, equals, 0x76, quote], zero_notMem_pair⟩

/-- The terminator behind a line without quotes, and the copy of a value. -/
theorem cmdlineParse_overflows : ¬ Parses (fun _ => 0) nosmp ∧ ¬ Parses (fun _ => 0) quotedPair := by
  constructor
  · rintro ⟨map, hmap, -⟩
    rw [cmdlineParse_unquoted (by decide) (by decide)] at hmap
    cases hmap
  · rintro ⟨map, hmap, -⟩
    have hq : quote ∈ quotedPair.1 := by decide
    obtain ⟨-, hnone⟩ | ⟨hquiet, -⟩ := cmdlineParse_extended (fun _ => 0) hq (Or.inl rfl)
    · rw [hnone] at hmap
      cases hmap
    · have hloud : ¬ Quiet [0x6b, equals, 0x76] := by
        unfold Quiet
        decide
      exact hloud (hquiet _ (by decide))

end PiggyOs.Cmdline
