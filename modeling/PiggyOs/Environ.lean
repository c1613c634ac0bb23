import Mathlib.Data.Finset.Insert
import PiggyOs.CString

/-! The environment of the C library: `setenv`, `unsetenv` and `getenv`. -/
namespace PiggyOs.Environ
open Function CString

/-- Memory of the program, and blocks that `malloc` has given. -/
inductive Ptr
  | foreign (n : ℕ)
  | heap (n : ℕ)
  deriving DecidableEq, Repr

/-- What the allocator answers, depending on how often it has been asked, the blocks of the environment that have not
been freed, and the size. -/
structure Allocator where
  malloc : ℕ → Finset ℕ → ℕ → Option ℕ
  realloc : ℕ → Finset ℕ → ℕ → ℕ → Option ℕ

/-- The strings and the arrays of pointers in memory, and the variables of the library. The code does not keep the
blocks of the environment, how often it has asked for memory, and whether it was refused. -/
structure Env where
  str : Ptr → CString
  arr : Ptr → ℕ → Option Ptr
  environ : Option Ptr
  heapEnviron : Option Ptr
  length : ℕ
  size : ℕ
  owned : Finset ℕ
  calls : ℕ
  refused : Bool

def equals : CString := ⟨[61], by decide⟩

def Env.setSlot (e : Env) (base : Ptr) (i : ℕ) (p : Option Ptr) : Env :=
  { e with arr := update e.arr base (update (e.arr base) i p) }

def Env.setStr (e : Env) (p : Ptr) (s : CString) : Env := { e with str := update e.str p s }

/-- The name, `=` and the value behind one another. -/
def joined (name value : CString) : CString :=
  ⟨name.1 ++ equals.1 ++ value.1, fun h => by
    rw [List.mem_append, List.mem_append] at h
    exact h.elim (fun h => h.elim name.2 equals.2) value.2⟩

section Calls
variable (a : Allocator)

def Env.malloc (e : Env) (size : ℕ) : Option Ptr × Env :=
  match a.malloc e.calls e.owned size with
  | none => (none, { e with calls := e.calls + 1, refused := true })
  | some p => (some (.heap p), { e with calls := e.calls + 1, owned := insert p e.owned })

/-- `none` for a pointer that is not a block of the environment. -/
def Env.free (e : Env) : Option Ptr → Option Env
  | none => some e
  | some (.foreign _) => none
  | some (.heap p) => if p ∈ e.owned then some { e with owned := e.owned.erase p } else none

/-- `none` as for `free`. The entries of the old block are copied, and what is behind them is what the memory held. -/
def Env.reallocarray (e : Env) (p : Ptr) (size1 size2 : ℕ) : Option (Option Ptr × Env) :=
  if 2 ^ 64 ≤ size1 * size2 then some (none, { e with refused := true })
  else
    match p with
    | .foreign _ => none
    | .heap k =>
        if k ∉ e.owned then none
        else
          match a.realloc e.calls e.owned k (size1 * size2) with
          | none => some (none, { e with calls := e.calls + 1, refused := true })
          | some q => some (some (.heap q),
              { e with
                calls := e.calls + 1
                owned := insert q (e.owned.erase k)
                arr := update e.arr (.heap q) fun i => if i < e.size then e.arr (.heap k) i else e.arr (.heap q) i })

def Env.strdup (e : Env) (p : Ptr) : Option Ptr × Env :=
  match e.malloc a ((e.str p).strlen + 1) with
  | (none, e') => (none, e')
  | (some q, e') => (some q, e'.setStr q (e.str p))

/-- The loop that frees a table and moves the pointer to it, which then is no longer the start of a block. -/
def freeTable (base : Ptr) : ℕ → ℕ → Env → Option Env
  | 0, _, _ => none
  | fuel + 1, i, e =>
      match e.arr base i with
      | none => if i = 0 then e.free (some base) else none
      | some p => (e.free (some p)).bind (freeTable base fuel (i + 1))

def countEntries (slots : ℕ → Option Ptr) : ℕ → ℕ → Option ℕ
  | 0, _ => none
  | fuel + 1, i => if slots i = none then some i else countEntries slots fuel (i + 1)

/-- The next entries of a table, from the `j`-th on, are freed. -/
def freeEntries (base : Ptr) : ℕ → ℕ → Env → Option Env
  | 0, _, e => some e
  | n + 1, j, e => (e.free (e.arr base j)).bind (freeEntries base n (j + 1))

/-- The loop over the entries that are copied, when `n` of them are left; `none` for a null pointer among them. -/
def copyEntries (src : Option Ptr) (dst : Ptr) : ℕ → ℕ → Env → Option (Bool × Env)
  | 0, i, e => some (true, { e.setSlot dst i none with environ := some dst })
  | n + 1, i, e =>
      (src.bind fun base => e.arr base i).bind fun p =>
        let r := e.strdup a p
        let e := r.2.setSlot dst i r.1
        if r.1 = none then
          (freeEntries dst i 0 e).bind fun e => (e.free (some dst)).map fun e => (false, { e with heapEnviron := none })
        else copyEntries src dst n (i + 1) e

def resetEnviron (fuel : ℕ) (e : Env) : Option (Bool × Env) :=
  (match e.heapEnviron with
    | none => some e
    | some base => freeTable base fuel 0 e).bind fun e =>
  (match e.environ with
    | none => some 0
    | some base => countEntries (e.arr base) fuel 0).bind fun length =>
  let size := if length > 15 then length + 1 else 16
  let r := e.malloc a (size * 8)
  match r.1 with
  | none => some (false, { r.2 with heapEnviron := none })
  | some dst => copyEntries a e.environ dst length 0 { r.2 with heapEnviron := some dst, length := length, size := size }

/-- Whether an entry has a name, as `setenv` and `unsetenv` compare it. -/
def Env.isEntry (e : Env) (name : CString) (p : Ptr) : Bool :=
  decide (name.strlen = strcspn (e.str p) equals ∧ strncmp (e.str p) name name.strlen = 0)

/-- The place of the first entry that has the name, or of the null pointer. -/
def findEntry (e : Env) (base : Ptr) (name : CString) : ℕ → ℕ → Option ℕ
  | 0, _ => none
  | fuel + 1, i =>
      match e.arr base i with
      | none => some i
      | some p => if e.isEntry name p then some i else findEntry e base name fuel (i + 1)

/-- The table twice as large if only the null pointer fits into it. -/
def growTable (e : Env) (base : Ptr) : Option (Option Ptr × Env) :=
  if e.length + 1 = e.size then
    (e.reallocarray a base e.size 16).map fun r =>
      match r.1 with
      | none => (none, r.2)
      | some q => (some q, { r.2 with environ := some q, heapEnviron := some q, size := r.2.size * 2 })
  else some (some base, e)

/-- The part of `setenv` behind the loop. -/
def appendEntry (e : Env) (base : Ptr) (i : ℕ) (name value : CString) : Option (ℤ × Env) :=
  (growTable a e base).map fun r =>
    match r.1 with
    | none => (-1, r.2)
    | some base =>
        let m := r.2.malloc a (name.strlen + value.strlen + 2)
        let e := m.2.setSlot base i m.1
        match m.1 with
        | none => (-1, e)
        | some p => (0, { (e.setStr p (joined name value)).setSlot base (i + 1) none with length := e.length + 1 })

/-- What `setenv` does with the table on the heap. -/
def setEntry (fuel : ℕ) (e : Env) (name value : CString) (overwrite : Bool) : Option (ℤ × Env) :=
  e.environ.bind fun base =>
  (findEntry e base name fuel 0).bind fun i =>
    if e.arr base i = none then appendEntry a e base i name value
    else if !overwrite then some (0, e)
    else
      let m := e.malloc a (name.strlen + value.strlen + 2)
      match m.1 with
      | none => some (-1, m.2)
      | some p => ((m.2.setStr p (joined name value)).free (m.2.arr base i)).map fun e => (0, e.setSlot base i (some p))

def setenv (fuel : ℕ) (e : Env) (name value : CString) (overwrite : Bool) : Option (ℤ × Env) :=
  if name.1 = [] ∨ 61 ∈ name.1 then some (-1, e)
  else
    (if e.environ = none ∨ e.environ ≠ e.heapEnviron then resetEnviron a fuel e else some (true, e)).bind fun r =>
      if !r.1 then some (-1, r.2) else setEntry a fuel r.2 name value overwrite

/-- Every entry from the `j`-th on moves down by one. -/
def shiftEntries (base : Ptr) : ℕ → ℕ → Env → Option Env
  | 0, _, _ => none
  | fuel + 1, j, e =>
      if e.arr base j = none then some e else shiftEntries base fuel (j + 1) (e.setSlot base j (e.arr base (j + 1)))

/-- The loop of `unsetenv`; after a removal its index steps back before it steps on. -/
def unsetLoop (base : Ptr) (name : CString) : ℕ → ℕ → Env → Option Env
  | 0, _, _ => none
  | fuel + 1, i, e =>
      match e.arr base i with
      | none => some e
      | some p =>
          if e.isEntry name p then
            if e.heapEnviron = some base then
              (e.free (some p)).bind fun e =>
                let e := { e with length := e.length - 1 }
                unsetLoop base name fuel i ((e.setSlot base i (e.arr base e.length)).setSlot base e.length none)
            else (shiftEntries base fuel i e).bind (unsetLoop base name fuel i)
          else unsetLoop base name fuel (i + 1) e

def unsetenv (fuel : ℕ) (e : Env) (name : CString) : Option (ℤ × Env) :=
  if name.1 = [] ∨ 61 ∈ name.1 then some (-1, e)
  else
    match e.environ with
    | none => some (0, e)
    | some base => (unsetLoop base name fuel 0 e).map fun e => (0, e)

/-- The bytes behind the name and the `=`. -/
def getenvLoop (e : Env) (base : Ptr) (name : CString) : ℕ → ℕ → Option (Option CString)
  | 0, _ => none
  | fuel + 1, i =>
      match e.arr base i with
      | none => some none
      | some p =>
          let length := strcspn (e.str p) equals
          if length = name.strlen ∧ strncmp name (e.str p) length = 0 then
            some (some (ofBytes ((e.str p).1.drop (length + 1))))
          else getenvLoop e base name fuel (i + 1)

/-- `none` also for a null pointer in `environ`, which is not checked. -/
def getenv (fuel : ℕ) (e : Env) (name : CString) : Option (Option CString) :=
  e.environ.bind fun base => getenvLoop e base name fuel 0

inductive Op
  | setenv (name value : CString) (overwrite : Bool)
  | unsetenv (name : CString)
  | getenv (name : CString)

inductive Answer
  | status (r : ℤ)
  | value (v : Option CString)

def Env.call (fuel : ℕ) (e : Env) : Op → Option (Answer × Env)
  | .setenv name value overwrite => (setenv a fuel { e with refused := false } name value overwrite).map fun r =>
      (.status r.1, r.2)
  | .unsetenv name => (unsetenv fuel { e with refused := false } name).map fun r => (.status r.1, r.2)
  | .getenv name => (getenv fuel { e with refused := false } name).map fun v => (.value v, { e with refused := false })

/-- The answers, each with what is left behind. -/
def Env.callAll (fuel : ℕ) : Env → List Op → Option (List (Answer × Env))
  | _, [] => some []
  | e, op :: ops => (e.call a fuel op).bind fun r => (Env.callAll fuel r.2 ops).map fun list => r :: list

end Calls

end PiggyOs.Environ
