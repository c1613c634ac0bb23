import PiggyOs.VfsCreate

/-! The directory and the last name of a path, on the bytes of a buffer. -/
namespace PiggyOs.PathSplit
open CString Separated VfsTree

/-- The bytes that belong to a string, up to its terminator. -/
abbrev Buffer := List (BitVec 8)

namespace Buffer

def load (buf : Buffer) (i : ℕ) : Option (BitVec 8) := buf[i]?

/-- `none` is an access outside of the buffer. -/
def store (buf : Buffer) (i : ℕ) (b : BitVec 8) : Option Buffer := if i < buf.length then some (buf.set i b) else none

end Buffer

/-- What a function returns: a string of its own, or a position in the buffer. -/
inductive Pointer
  | constant (s : CString)
  | offset (i : ℕ)
  deriving DecidableEq, Repr

/-- The string that a pointer leads to; it ends inside of the buffer. -/
def stringAt (buf : Buffer) : Pointer → Option CString
  | .constant s => some s
  | .offset i => if 0 ∈ buf.drop i then some (ofBytes (buf.drop i)) else none

/-- `strlen`, from the first byte of the list on. -/
def strlen : Buffer → Option ℕ
  | [] => none
  | b :: buf => if b = 0 then some 0 else (strlen buf).map (· + 1)

/-- A loop of `dirname`, from `i` back as long as the bytes pass the test. `some none` is the return that stands in the
loop. -/
def backWhile (buf : Buffer) (test : BitVec 8 → Bool) : ℕ → Option (Option ℕ)
  | 0 => (buf.load 0).map fun b => if test b then none else some 0
  | i + 1 => (buf.load (i + 1)).bind fun b => if test b then backWhile buf test i else some (some (i + 1))

/-- The rest of a function, unless it has returned already. -/
def orReturn (buf : Buffer) (s : CString) (rest : ℕ → Option (Pointer × Buffer)) :
    Option ℕ → Option (Pointer × Buffer)
  | none => some (.constant s, buf)
  | some i => rest i

namespace Libc

def dirname : Option Buffer → Option (Pointer × Buffer)
  | none => some (.constant dot, [])
  | some path =>
      (path.load 0).bind fun first =>
      if first = 0 then some (.constant dot, path)
      else
        (strlen path).bind fun len =>
        (backWhile path (· = slash) (len - 1)).bind <| orReturn path slashPath fun i =>
        (backWhile path (· ≠ slash) i).bind <| orReturn path dot fun i =>
        (backWhile path (· = slash) i).bind <| orReturn path slashPath fun i =>
        (path.store (i + 1) 0).map fun path => (.offset 0, path)

/-- The loop of `basename` over the slashes at the end. -/
def trimSlashes : ℕ → Buffer → Option (ℕ × Buffer)
  | 0, path => some (0, path)
  | size + 1, path =>
      (path.load size).bind fun b =>
      if b = slash then (path.store size 0).bind (trimSlashes size) else some (size + 1, path)

/-- The loop of `strrchr`. -/
def searchBack (str : Buffer) (c : BitVec 8) : ℕ → Option (Option ℕ)
  | 0 => some none
  | len + 1 => (str.load len).bind fun b => if b = c then some (some len) else searchBack str c len

def strrchr (str : Buffer) (c : BitVec 8) : Option (Option ℕ) :=
  (strlen str).bind fun len => if len = 0 then some none else searchBack str c len

def basename : Option Buffer → Option (Pointer × Buffer)
  | none => some (.constant dot, [])
  | some path =>
      (path.load 0).bind fun first =>
      if first = 0 then some (.constant dot, path)
      else
        (strlen path).bind fun size =>
        (trimSlashes size path).bind fun trimmed =>
        (trimmed.2.load 0).bind fun first =>
        if first = 0 then (trimmed.2.store 0 slash).map fun path => (.offset 0, path)
        else (strrchr trimmed.2 slash).map fun lastSep =>
          match lastSep with
          | none => (.offset 0, trimmed.2)
          | some i => (.offset (i + 1), trimmed.2)

end Libc

namespace Kernel

/-- The loop over the slashes at the end; the first byte stays. -/
def clearSlashes : ℕ → Buffer → Option (ℕ × Buffer)
  | 0, str => some (0, str)
  | i + 1, str =>
      (str.load (i + 1)).bind fun b =>
      if b = slash then (str.store (i + 1) 0).bind (clearSlashes i) else some (i + 1, str)

/-- The loop back to the byte behind a slash. -/
def behindSlash (str : Buffer) : ℕ → Option ℕ
  | 0 => some 0
  | i + 1 => (str.load i).bind fun b => if b ≠ slash then behindSlash str i else some (i + 1)

def basename : Option Buffer → Option (Pointer × Buffer)
  | none => some (.constant dot, [])
  | some str =>
      (str.load 0).bind fun first =>
      if first = 0 then some (.constant dot, str)
      else
        (strlen str).bind fun len =>
        (clearSlashes (len - 1) str).bind fun cleared =>
        (behindSlash cleared.2 cleared.1).map fun i => (.offset i, cleared.2)

end Kernel

/-- A call with a copy of a path, and the string that it returns. -/
def called (f : Option Buffer → Option (Pointer × Buffer)) (path : CString) : Option CString :=
  (f (some (path.1 ++ [0]))).bind fun r => stringAt r.2 r.1

/-- The components of a directory, where `.` stands for none if the path is one relative name. -/
def parentComponents (path dir : CString) : List (List (BitVec 8)) :=
  if dir = dot ∧ path.1.head? ≠ some slash ∧ (components slash path.1).length = 1 then []
  else components slash dir.1

section Loops
variable {a l rest : Buffer} {x y : BitVec 8} {test : BitVec 8 → Bool} {n : ℕ}

@[simp] lemma load_middle : Buffer.load (a ++ x :: rest) a.length = some x := by simp [Buffer.load]

@[simp] lemma store_middle : Buffer.store (a ++ x :: rest) a.length y = some (a ++ y :: rest) := by
  simp [Buffer.store]

lemma strlen_append (hl : 0 ∉ l) : strlen (l ++ 0 :: rest) = some l.length := by
  induction l with
  | nil => rfl
  | cons b l ih =>
    rw [List.mem_cons, not_or] at hl
    rw [List.cons_append, strlen, if_neg (Ne.symm hl.1), ih hl.2]
    rfl

lemma stringAt_append (hl : 0 ∉ l) : stringAt (a ++ (l ++ 0 :: rest)) (.offset a.length) = some ⟨l, hl⟩ := by
  have htake : (ofBytes (l ++ 0 :: rest)).1 = l := by
    change List.takeWhile _ (l ++ 0 :: rest) = l
    rw [List.takeWhile_append_of_pos fun b hb => by simpa using ne_of_mem_of_not_mem hb hl]
    simp
  rw [stringAt, List.drop_left, if_pos (by simp)]
  exact congrArg some (Subtype.ext htake)

lemma backWhile_stop {buf : Buffer} {i : ℕ} (h : buf.load i = some x) (hx : test x = false) :
    backWhile buf test i = some (some i) := by
  cases i with
  | zero => simp [backWhile, h, hx]
  | succ i => simp [backWhile, h, hx]

/-- The bytes that pass the test are skipped. -/
lemma backWhile_append (hx : test x = false) (hl : ∀ b ∈ l, test b = true) :
    backWhile (a ++ x :: (l ++ rest)) test (a.length + l.length) = some (some a.length) := by
  induction l using List.reverseRecOn generalizing rest with
  | nil => exact backWhile_stop load_middle hx
  | append_singleton l b ih =>
    have hload : Buffer.load (a ++ x :: (l ++ [b] ++ rest)) (a.length + l.length + 1) = some b := by
      simpa [Nat.add_assoc] using (load_middle : Buffer.load (a ++ x :: l ++ b :: rest) _ = _)
    rw [List.length_append, List.length_singleton, ← Nat.add_assoc, backWhile, hload, Option.bind_some,
      if_pos (hl b (by simp)), List.append_assoc]
    exact ih fun c hc => hl c (List.mem_append_left _ hc)

/-- With nothing else in front the first byte is reached. -/
lemma backWhile_all (hl : ∀ b ∈ x :: l, test b = true) : backWhile (x :: (l ++ rest)) test l.length = some none := by
  induction l using List.reverseRecOn generalizing rest with
  | nil => simp [backWhile, Buffer.load, hl x (List.mem_cons_self ..)]
  | append_singleton l b ih =>
    have hload : Buffer.load (x :: (l ++ [b] ++ rest)) (l.length + 1) = some b := by
      simpa using (load_middle : Buffer.load (x :: l ++ b :: rest) _ = _)
    rw [List.length_append, List.length_singleton, backWhile, hload, Option.bind_some, if_pos (hl b (by simp)),
      List.append_assoc]
    refine ih fun c hc => hl c ?_
    rw [← List.cons_append]
    exact List.mem_append_left _ hc

lemma trimSlashes_append (ha : ∀ b ∈ a.getLast?, b ≠ slash) :
    Libc.trimSlashes (a.length + n) (a ++ (List.replicate n slash ++ rest)) =
      some (a.length, a ++ (List.replicate n 0 ++ rest)) := by
  induction n generalizing rest with
  | zero =>
    induction a using List.reverseRecOn with
    | nil => rfl
    | append_singleton a b =>
      have hload : Buffer.load (a ++ b :: rest) a.length = some b := load_middle
      rw [List.length_append, List.length_singleton, Nat.add_zero, Libc.trimSlashes]
      simp only [List.replicate_zero, List.nil_append, List.append_assoc, List.cons_append]
      rw [hload, Option.bind_some, if_neg (ha b (by simp))]
  | succ n ih =>
    have hlen : (a ++ List.replicate n slash).length = a.length + n := by simp
    have hload : Buffer.load (a ++ List.replicate n slash ++ slash :: rest) (a.length + n) = some slash :=
      hlen ▸ load_middle
    have hstore : Buffer.store (a ++ List.replicate n slash ++ slash :: rest) (a.length + n) 0 =
        some (a ++ List.replicate n slash ++ 0 :: rest) := hlen ▸ store_middle
    rw [← Nat.add_assoc, Libc.trimSlashes]
    simp only [List.replicate_succ', List.append_assoc, List.singleton_append] at hload hstore ⊢
    rw [hload, Option.bind_some, if_pos rfl, hstore, Option.bind_some, ih]

lemma clearSlashes_append (hx : x ≠ slash) :
    Kernel.clearSlashes (a.length + n) (a ++ x :: (List.replicate n slash ++ rest)) =
      some (a.length, a ++ x :: (List.replicate n 0 ++ rest)) := by
  induction n generalizing rest with
  | zero =>
    have hload : Buffer.load (a ++ x :: rest) a.length = some x := load_middle
    change Kernel.clearSlashes a.length (a ++ x :: rest) = some (a.length, a ++ x :: rest)
    cases ha : a.length with
    | zero => rfl
    | succ i =>
      rw [Kernel.clearSlashes, ← ha, hload]
      exact if_neg hx
  | succ n ih =>
    have hlen : (a ++ x :: List.replicate n slash).length = a.length + n + 1 := by
      simp [Nat.add_assoc]
    have hload : Buffer.load (a ++ x :: List.replicate n slash ++ slash :: rest) (a.length + n + 1) = some slash :=
      hlen ▸ load_middle
    have hstore : Buffer.store (a ++ x :: List.replicate n slash ++ slash :: rest) (a.length + n + 1) 0 =
        some (a ++ x :: List.replicate n slash ++ 0 :: rest) := hlen ▸ store_middle
    rw [← Nat.add_assoc, Kernel.clearSlashes]
    simp only [List.replicate_succ', List.append_assoc, List.cons_append, List.nil_append] at hload hstore ⊢
    rw [hload, Option.bind_some, if_pos rfl, hstore, Option.bind_some, ih]

/-- The search begins behind a part without slashes. -/
lemma searchBack_append (hl : slash ∉ l) :
    Libc.searchBack (a ++ (l ++ rest)) slash (a.length + l.length) =
      Libc.searchBack (a ++ (l ++ rest)) slash a.length := by
  induction l using List.reverseRecOn generalizing rest with
  | nil => rfl
  | append_singleton l b ih =>
    rw [List.mem_append, not_or, List.mem_singleton] at hl
    have hload : Buffer.load (a ++ (l ++ [b] ++ rest)) (a.length + l.length) = some b := by
      simpa using (load_middle : Buffer.load (a ++ l ++ b :: rest) _ = _)
    rw [List.length_append, List.length_singleton, ← Nat.add_assoc, Libc.searchBack, hload, Option.bind_some,
      if_neg (Ne.symm hl.2), List.append_assoc]
    exact ih hl.1

lemma behindSlash_append (hl : slash ∉ l) :
    Kernel.behindSlash (a ++ (l ++ rest)) (a.length + l.length) = Kernel.behindSlash (a ++ (l ++ rest)) a.length := by
  induction l using List.reverseRecOn generalizing rest with
  | nil => rfl
  | append_singleton l b ih =>
    rw [List.mem_append, not_or, List.mem_singleton] at hl
    have hload : Buffer.load (a ++ (l ++ [b] ++ rest)) (a.length + l.length) = some b := by
      simpa using (load_middle : Buffer.load (a ++ l ++ b :: rest) _ = _)
    rw [List.length_append, List.length_singleton, ← Nat.add_assoc, Kernel.behindSlash, hload, Option.bind_some,
      if_pos (Ne.symm hl.2), List.append_assoc]
    exact ih hl.1

end Loops

section Calls
variable {path : CString} {p c : List (BitVec 8)} {n : ℕ}

/-- A path with a name ends with one, and slashes; in front is nothing or a slash. -/
structure Splits (path : CString) (p c : List (BitVec 8)) (n : ℕ) : Prop where
  path_eq : path.1 = p ++ c ++ List.replicate n slash
  name_ne : c ≠ []
  name_slash : slash ∉ c
  front : p = [] ∨ p.getLast? = some slash
  components_eq : components slash path.1 = components slash p ++ [c]

lemma exists_trimmed (l : List (BitVec 8)) (x : BitVec 8) :
    ∃ q k, l = q ++ List.replicate k x ∧ ∀ b ∈ q.getLast?, b ≠ x := by
  induction l using List.reverseRecOn with
  | nil => exact ⟨[], 0, rfl, by simp⟩
  | append_singleton l b ih =>
    by_cases hb : b = x
    · obtain ⟨q, k, rfl, hlast⟩ := ih
      exact ⟨q, k + 1, by rw [hb, List.replicate_succ', List.append_assoc], hlast⟩
    · exact ⟨l ++ [b], 0, by simp, by simpa using hb⟩

lemma exists_splits (h : ∃ b ∈ path.1, b ≠ slash) : ∃ p c n, Splits path p c n := by
  have hne : components slash path.1 ≠ [] := by
    obtain ⟨b, hb, hslash⟩ := h
    rw [← components_dropWhile]
    cases hrest : path.1.dropWhile (· = slash) with
    | nil =>
      have hall := List.dropWhile_eq_nil_iff.mp hrest b hb
      exact absurd (by simpa using hall) hslash
    | cons x l =>
      have hx : x ≠ slash := by
        have hhead := List.head?_dropWhile_not (fun y => decide (y = slash)) path.1
        rw [hrest] at hhead
        simpa using hhead
      rw [components_cons hx]
      exact List.cons_ne_nil _ _
  obtain ⟨p, c, n, hpath, hc, hslash, hp, hcomps⟩ := components_last hne
  exact ⟨p, c, n, hpath, hc, hslash, hp, hcomps⟩

namespace Splits

lemma zero_name (h : Splits path p c n) : 0 ∉ c := fun h0 =>
  path.2 (h.path_eq ▸ List.mem_append_left _ (List.mem_append_right _ h0))

lemma zero_front (h : Splits path p c n) : 0 ∉ p := fun h0 =>
  path.2 (h.path_eq ▸ List.mem_append_left _ (List.mem_append_left _ h0))

/-- With nothing in front of the name the path is relative. -/
lemma relative (h : Splits path [] c n) : path.1.head? ≠ some slash := by
  rw [h.path_eq, List.nil_append, List.head?_append_of_ne_nil _ h.name_ne]
  exact fun hhead => h.name_slash (List.mem_of_head? hhead)

/-- The first byte is there, and no terminator. -/
lemma first (h : Splits path p c n) : ∃ b, Buffer.load (path.1 ++ [0]) 0 = some b ∧ b ≠ 0 := by
  cases hpath : path.1 with
  | nil => exact absurd (hpath ▸ h.path_eq) (by simp [h.name_ne])
  | cons b l => exact ⟨b, rfl, fun hb => path.2 (by simp [hpath, hb])⟩

lemma load_first (h : Splits path p c n) (rest : Buffer) :
    ∃ b, Buffer.load (p ++ c ++ rest) 0 = some b ∧ b ≠ 0 := by
  cases hpc : p ++ c with
  | nil => exact absurd (List.append_eq_nil_iff.mp hpc).2 h.name_ne
  | cons b l =>
    refine ⟨b, rfl, fun hb => ?_⟩
    have hmem : b ∈ p ++ c := hpc ▸ List.mem_cons_self ..
    exact (List.mem_append.mp (hb ▸ hmem)).elim h.zero_front h.zero_name

/-- Both searches for the slash in front of the name stop there. -/
lemma searchBack (h : Splits path p c n) (rest : Buffer) :
    Libc.searchBack (p ++ (c ++ rest)) slash (p.length + c.length) =
      some (if p = [] then none else some (p.length - 1)) := by
  rw [searchBack_append h.name_slash]
  obtain rfl | hp := h.front
  · rfl
  · obtain ⟨q, rfl⟩ := List.getLast?_eq_some_iff.mp hp
    have hload : Buffer.load (q ++ slash :: (c ++ rest)) q.length = some slash := load_middle
    rw [List.length_append, List.length_singleton, Libc.searchBack, if_neg (by simp), List.append_assoc,
      List.singleton_append, hload, Option.bind_some, if_pos rfl, Nat.add_sub_cancel]

lemma behindSlash (h : Splits path p c n) {d : List (BitVec 8)} (hd : slash ∉ d) (rest : Buffer) :
    Kernel.behindSlash (p ++ (d ++ rest)) (p.length + d.length) = some p.length := by
  rw [behindSlash_append hd]
  obtain rfl | hp := h.front
  · rfl
  · obtain ⟨q, rfl⟩ := List.getLast?_eq_some_iff.mp hp
    have hload : Buffer.load (q ++ slash :: (d ++ rest)) q.length = some slash := load_middle
    rw [List.length_append, List.length_singleton, Kernel.behindSlash, List.append_assoc, List.singleton_append, hload,
      Option.bind_some, if_neg (not_not.mpr rfl)]

/-- Behind the name slashes are replaced by terminators. -/
lemma cleared (h : Splits path p c n) (i : ℕ) (hi : i = p.length) :
    stringAt (p ++ (c ++ (List.replicate n 0 ++ [0]))) (.offset i) = some ⟨c, h.zero_name⟩ := by
  subst hi
  have hzeros : List.replicate n (0 : BitVec 8) ++ [0] = 0 :: List.replicate n 0 := by
    rw [← List.replicate_succ', List.replicate_succ]
  rw [hzeros]
  exact stringAt_append h.zero_name

lemma buffer_eq (h : Splits path p c n) : path.1 ++ [0] = p ++ c ++ (List.replicate n slash ++ [0]) := by
  rw [h.path_eq, List.append_assoc]

lemma strlen_eq (h : Splits path p c n) : strlen (path.1 ++ [0]) = some (p.length + c.length + n) := by
  rw [strlen_append path.2, h.path_eq]
  simp [Nat.add_assoc]

lemma libc_basename (h : Splits path p c n) : called Libc.basename path = some ⟨c, h.zero_name⟩ := by
  obtain ⟨b, hb, hb0⟩ := h.first
  obtain ⟨b', hb', hb0'⟩ := h.load_first (List.replicate n 0 ++ [0])
  have hlast : ∀ b ∈ (p ++ c).getLast?, b ≠ slash := by
    intro b hlast hslash
    rw [List.getLast?_append_of_ne_nil _ h.name_ne] at hlast
    exact h.name_slash (hslash ▸ List.mem_of_getLast? hlast)
  have htrim : Libc.trimSlashes (p.length + c.length + n) (path.1 ++ [0]) =
      some (p.length + c.length, p ++ c ++ (List.replicate n 0 ++ [0])) := by
    rw [h.buffer_eq, ← List.length_append]
    exact trimSlashes_append hlast
  have hstrlen : strlen (p ++ c ++ (List.replicate n 0 ++ [0])) = some (p.length + c.length) := by
    have hzeros : List.replicate n (0 : BitVec 8) ++ [0] = 0 :: List.replicate n 0 := by
      rw [← List.replicate_succ', List.replicate_succ]
    rw [hzeros, strlen_append fun h0 => (List.mem_append.mp h0).elim h.zero_front h.zero_name, List.length_append]
  have hne : p.length + c.length ≠ 0 := by
    have := List.length_pos_iff.mpr h.name_ne
    omega
  have hsep : Libc.strrchr (p ++ c ++ (List.replicate n 0 ++ [0])) slash =
      some (if p = [] then none else some (p.length - 1)) := by
    rw [Libc.strrchr, hstrlen, Option.bind_some, if_neg hne, List.append_assoc, h.searchBack]
  rw [called, Libc.basename, hb, Option.bind_some, if_neg hb0, h.strlen_eq, Option.bind_some, htrim, Option.bind_some,
    hb', Option.bind_some, if_neg hb0', hsep, List.append_assoc]
  obtain rfl | hp := h.front
  · exact h.cleared 0 rfl
  · have hpos : p ≠ [] := by
      rintro rfl
      cases hp
    rw [if_neg hpos]
    exact h.cleared _ (Nat.succ_pred_eq_of_pos (List.length_pos_iff.mpr hpos))

lemma kernel_basename (h : Splits path p c n) : called Kernel.basename path = some ⟨c, h.zero_name⟩ := by
  obtain ⟨b, hb, hb0⟩ := h.first
  obtain ⟨d, x, hdx⟩ := (List.eq_nil_or_concat c).resolve_left h.name_ne
  rw [List.concat_eq_append] at hdx
  have hx : x ≠ slash := fun hslash => h.name_slash (by simp [hdx, hslash])
  have hd : slash ∉ d := fun hslash => h.name_slash (hdx ▸ List.mem_append_left _ hslash)
  have hclear : Kernel.clearSlashes (p.length + c.length + n - 1) (path.1 ++ [0]) =
      some (p.length + d.length, p ++ (c ++ (List.replicate n 0 ++ [0]))) := by
    have hindex : p.length + c.length + n - 1 = (p ++ d).length + n := by
      simp [hdx]
      omega
    rw [h.buffer_eq, hindex, hdx]
    simpa using (clearSlashes_append hx :
      Kernel.clearSlashes ((p ++ d).length + n) (p ++ d ++ x :: (List.replicate n slash ++ [0])) = _)
  have hbehind : Kernel.behindSlash (p ++ (c ++ (List.replicate n 0 ++ [0]))) (p.length + d.length) =
      some p.length := by
    rw [hdx, List.append_assoc]
    exact h.behindSlash hd _
  rw [called, Kernel.basename, hb, Option.bind_some, if_neg hb0, h.strlen_eq, Option.bind_some, hclear,
    Option.bind_some, hbehind]
  exact h.cleared _ rfl

/-- The first loop of `dirname` ends at the last byte of the name. -/
lemma name_end (h : Splits path p c n) :
    backWhile (path.1 ++ [0]) (· = slash) (p.length + c.length + n - 1) = some (some (p.length + c.length - 1)) := by
  obtain ⟨d, x, hdx⟩ := (List.eq_nil_or_concat c).resolve_left h.name_ne
  rw [List.concat_eq_append] at hdx
  have hx : x ≠ slash := fun hslash => h.name_slash (by simp [hdx, hslash])
  have hindex : p.length + c.length + n - 1 = (p ++ d).length + (List.replicate n slash).length := by
    simp [hdx]
    omega
  have hend : p.length + c.length - 1 = (p ++ d).length := by simp [hdx]
  have hbuf : path.1 ++ [0] = p ++ d ++ x :: (List.replicate n slash ++ [0]) := by
    rw [h.buffer_eq, hdx]
    simp only [List.append_assoc, List.cons_append, List.nil_append]
  rw [hindex, hend, hbuf]
  exact backWhile_append (by simpa using hx) fun b hb => by simpa using List.eq_of_mem_replicate hb

/-- The second one ends at the slash in front of the name. -/
lemma name_begin (h : Splits path p c n) : backWhile (path.1 ++ [0]) (· ≠ slash) (p.length + c.length - 1) =
    some (if p = [] then none else some (p.length - 1)) := by
  have hother : ∀ b ∈ c, decide (b ≠ slash) = true := fun b hb => by
    simpa using ne_of_mem_of_not_mem hb h.name_slash
  obtain rfl | hp := h.front
  · obtain ⟨y, l, rfl⟩ := List.exists_cons_of_ne_nil h.name_ne
    rw [h.buffer_eq, List.length_nil, Nat.zero_add, List.length_cons, Nat.add_sub_cancel]
    exact backWhile_all hother
  · obtain ⟨q, rfl⟩ := List.getLast?_eq_some_iff.mp hp
    have hindex : (q ++ [slash]).length + c.length - 1 = q.length + c.length := by
      rw [List.length_append, List.length_singleton]
      omega
    rw [h.buffer_eq, hindex, if_neg (by simp), List.length_append, List.length_singleton, Nat.add_sub_cancel,
      List.append_assoc, List.append_assoc]
    exact backWhile_append (by simp) hother

/-- The third one ends in front of the slashes. -/
lemma slashes_begin {q rest : Buffer} {k : ℕ} (hlast : ∀ b ∈ q.getLast?, b ≠ slash) :
    backWhile (q ++ List.replicate (k + 1) slash ++ rest) (· = slash) (q.length + k) =
      some (if q = [] then none else some (q.length - 1)) := by
  have hslashes : ∀ m, ∀ b ∈ List.replicate m slash, decide (b = slash) = true := fun m b hb => by
    simpa using List.eq_of_mem_replicate hb
  obtain rfl | ⟨q, y, hqy⟩ := List.eq_nil_or_concat q
  · rw [List.length_nil, Nat.zero_add, List.nil_append, if_pos rfl]
    have hall : backWhile (slash :: (List.replicate k slash ++ rest)) (· = slash) (List.replicate k slash).length =
        some none := backWhile_all (hslashes (k + 1))
    rwa [List.length_replicate] at hall
  · rw [List.concat_eq_append] at hqy
    subst hqy
    have hy : y ≠ slash := hlast y (by simp)
    have hindex : (q ++ [y]).length + k = q.length + (List.replicate (k + 1) slash).length := by
      simp [Nat.add_assoc, Nat.add_comm]
    rw [hindex, if_neg (by simp), List.length_append, List.length_singleton, Nat.add_sub_cancel, List.append_assoc,
      List.append_assoc]
    exact backWhile_append (by simpa using hy) (hslashes (k + 1))

/-- `dirname` gives what is in front of the name, without the slashes at its end. -/
lemma dirname (h : Splits path p c n) : ∃ dir, called Libc.dirname path = some dir ∧
    (p = [] ∧ dir = dot ∨ p ≠ [] ∧ components slash dir.1 = components slash p ∧ dir.1.head? = p.head?) := by
  obtain ⟨b, hb, hb0⟩ := h.first
  rw [called, Libc.dirname, hb, Option.bind_some, if_neg hb0, h.strlen_eq, Option.bind_some, h.name_end,
    Option.bind_some, orReturn, h.name_begin, Option.bind_some]
  obtain rfl | hp := h.front
  · exact ⟨dot, rfl, Or.inl ⟨rfl, rfl⟩⟩
  · have hne : p ≠ [] := by
      rintro rfl
      cases hp
    obtain ⟨p', rfl⟩ := List.getLast?_eq_some_iff.mp hp
    obtain ⟨q, k, rfl, hlast⟩ := exists_trimmed p' slash
    have hbuf : path.1 ++ [0] = q ++ List.replicate (k + 1) slash ++ (c ++ (List.replicate n slash ++ [0])) := by
      rw [h.buffer_eq, List.replicate_succ']
      simp
    have hindex : (q ++ List.replicate k slash ++ [slash]).length - 1 = q.length + k := by simp
    have hfront : (q ++ List.replicate k slash ++ [slash]) = q ++ List.replicate (k + 1) slash := by
      rw [List.replicate_succ', List.append_assoc]
    rw [if_neg hne, orReturn, hindex, hbuf, slashes_begin hlast, Option.bind_some, hfront,
      components_append_replicate]
    by_cases hq : q = []
    · subst hq
      exact ⟨slashPath, rfl, Or.inr ⟨by simp, components_append_replicate [] 1, rfl⟩⟩
    · have hstore : Buffer.store (q ++ List.replicate (k + 1) slash ++ (c ++ (List.replicate n slash ++ [0])))
          (q.length - 1 + 1) 0 =
            some (q ++ 0 :: (List.replicate k slash ++ (c ++ (List.replicate n slash ++ [0])))) := by
        rw [Nat.sub_add_cancel (List.length_pos_iff.mpr hq), List.replicate_succ]
        simp
      have hzero : 0 ∉ q := fun h0 => h.zero_front (hfront ▸ List.mem_append_left _ h0)
      rw [if_neg hq, orReturn, hstore]
      exact ⟨⟨q, hzero⟩, stringAt_append (a := []) hzero, Or.inr ⟨by simp [hq], rfl, by
        rw [List.head?_append_of_ne_nil _ hq]⟩⟩

end Splits

end Calls

theorem dirname_basename (path : CString) (h : ∃ b ∈ path.1, b ≠ slash) : ∃ dir base,
    called Libc.dirname path = some dir ∧ called Libc.basename path = some base ∧
    called Kernel.basename path = some base ∧
    parentComponents path dir ++ [base.1] = components slash path.1 ∧
    (dir.1.head? = some slash ↔ path.1.head? = some slash) ∧ slash ∉ base.1 := by
  obtain ⟨p, c, n, hsplit⟩ := exists_splits h
  obtain ⟨dir, hdir, hcases⟩ := hsplit.dirname
  have hhead : ∀ hne : p ≠ [], path.1.head? = p.head? := fun hne => by
    rw [hsplit.path_eq, List.append_assoc, List.head?_append_of_ne_nil _ hne]
  refine ⟨dir, _, hdir, hsplit.libc_basename, hsplit.kernel_basename, ?_, ?_, hsplit.name_slash⟩
  · rw [hsplit.components_eq, parentComponents]
    obtain ⟨rfl, rfl⟩ | ⟨-, hcomps, -⟩ := hcases
    · rw [if_pos ⟨rfl, hsplit.relative, by rw [hsplit.components_eq, components_nil]; rfl⟩, components_nil]
    · rw [if_neg, hcomps]
      rintro ⟨rfl, -, hone⟩
      rw [hsplit.components_eq, ← hcomps] at hone
      have hdot : (components slash dot.1).length = 1 := by decide
      rw [List.length_append, hdot] at hone
      cases hone
  · obtain ⟨rfl, rfl⟩ | ⟨hne, -, heq⟩ := hcases
    · exact iff_of_false (by decide) hsplit.relative
    · rw [heq, hhead hne]

lemma zero_notMem_slashed : (0 : BitVec 8) ∉ [slash, slash, 0x75, slash, slash, 0x62, slash] := by decide

/-- `//u//b/` -/
def slashedPath : CString := ⟨[slash, slash, 0x75, slash, slash, 0x62, slash], zero_notMem_slashed⟩

theorem dirname_basename_slashed : ∃ dir base,
    called Libc.dirname slashedPath = some dir ∧ called Libc.basename slashedPath = some base ∧
    called Kernel.basename slashedPath = some base ∧
    parentComponents slashedPath dir ++ [base.1] = components slash slashedPath.1 ∧
    (dir.1.head? = some slash ↔ slashedPath.1.head? = some slash) ∧ slash ∉ base.1 :=
  dirname_basename slashedPath ⟨0x75, by decide, by decide⟩

example : (called Libc.dirname slashedPath).map Subtype.val = some [slash, slash, 0x75] := by decide +kernel

/-- The base name that `vfs_create` is modelled with is the one of the loops. -/
lemma kernel_basename_eq {path : CString} (h : ∃ b ∈ path.1, b ≠ slash) :
    called Kernel.basename path = some (VfsTree.basename path) := by
  obtain ⟨p, c, n, hsplit⟩ := exists_splits h
  rw [hsplit.kernel_basename]
  exact congrArg some (Subtype.ext (basename_val hsplit.components_eq).symm)

end PiggyOs.PathSplit
