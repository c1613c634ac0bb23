import PiggyOs.ByteMemory

/-! The formatting of `printf`. It hands its characters one after the other to a callback, whichever that is. -/
namespace PiggyOs.Printf
open ByteMemory

abbrev Byte := BitVec 8

def ch (c : Char) : Byte := BitVec.ofNat 8 c.toNat

/-- The number of characters that have been counted and what the callback works on. The code does not keep how many
characters it has not counted. -/
structure Out (σ : Type) where
  written : ℕ
  uncounted : ℕ
  cd : σ

section Formatting
variable {σ : Type} (cb : σ → Byte → σ)

def Out.put (o : Out σ) (c : Byte) : Out σ := { o with written := o.written + 1, cd := cb o.cd c }

def Out.putUncounted (o : Out σ) (c : Byte) : Out σ := { o with uncounted := o.uncounted + 1, cd := cb o.cd c }

def Out.puts (o : Out σ) (chars : List Byte) : Out σ := chars.foldl (Out.put cb) o

/-- The number of decimal digits; twenty rounds are enough for 64 bits. -/
def decWidth : ℕ → ℕ → ℕ
  | 0, _ => 1
  | rounds + 1, val => if val ≥ 10 then decWidth rounds (val / 10) + 1 else 1

/-- The lowest digits of `value` in the places below `i` of `tmp`. -/
def decTmp : ℕ → ℕ → List Byte → List Byte
  | 0, _, tmp => tmp
  | i + 1, value, tmp => decTmp i (value / 10) (BitVec.ofNat 8 (value % 10 + 48) :: tmp)

/-- The loop before the digits; like all loops here it gives `none` if it does not end within the fuel. -/
def padLeft (c : Byte) (nWidth : BitVec 64) (width : BitVec 32) : ℕ → BitVec 32 → Out σ → Option (Out σ)
  | 0, _, _ => none
  | fuel + 1, printed, o =>
      if nWidth + printed.signExtend 64 < width.setWidth 64 then padLeft c nWidth width fuel (printed + 1) (o.put cb c)
      else some o

def padRight (c : Byte) (width : BitVec 32) : ℕ → BitVec 32 → Out σ → Option (Out σ)
  | 0, _, _ => none
  | fuel + 1, printed, o =>
      if printed.toInt < width.toNat then padRight c width fuel (printed + 1) (o.put cb c) else some o

/-- The number of digits that `print_dec` prints. -/
def decDigits (value : BitVec 64) (precision : BitVec 32) : BitVec 64 :=
  let precision : BitVec 64 := (if precision = -1 then 1 else precision).signExtend 64
  let nWidth := if value = 0 then 0 else BitVec.ofNat 64 (decWidth 20 value.toNat)
  if nWidth < precision then precision else nWidth

/-- `none` also if the digits do not fit into `tmp`. -/
def printDec (fuel : ℕ) (value : BitVec 64) (width : BitVec 32) (fillZero alignRight : Bool) (precision : BitVec 32)
    (o : Out σ) : Option (Out σ) :=
  let nWidth := decDigits value precision
  let c := if fillZero then ch '0' else ch ' '
  let tmp := decTmp nWidth.toNat value.toNat []
  if nWidth.toNat > 100 then none
  else if alignRight then (padLeft cb c nWidth width fuel 0 o).map fun o => o.puts cb tmp
  else padRight cb c width fuel (nWidth.setWidth 32) (o.puts cb tmp)

def hexWidth (value : BitVec 64) : ℕ → BitVec 64 → ℕ → ℕ
  | 0, _, nWidth => nWidth
  | rounds + 1, j, nWidth =>
      if value > j ∧ j < -1 then hexWidth value rounds (j * 0x10 + 0x0f) (nWidth + 1) else nWidth

def hexChar (caps : Bool) (digit : ℕ) : Byte :=
  BitVec.ofNat 8 (if digit < 10 then digit + 48 else if caps then digit + 55 else digit + 87)

def hexDigits (value : BitVec 64) (caps : Bool) : ℕ → List Byte
  | 0 => []
  | i + 1 => hexChar caps (value >>> (i * 4) &&& 0xf).toNat :: hexDigits value caps i

def printHex (value : BitVec 64) (width : BitVec 32) (fillZero alt caps align : Bool) (o : Out σ) : Out σ :=
  let nWidth := hexWidth value 16 0x0f 1
  let pad := (width.toInt - (nWidth + 2 * alt.toNat)).toNat
  let o := if !fillZero && align then o.puts cb (List.replicate pad (ch ' ')) else o
  let o := if alt then o.puts cb [ch '0', if caps then ch 'X' else ch 'x'] else o
  let o := if fillZero && align then o.puts cb (List.replicate pad (ch '0')) else o
  let o := o.puts cb (hexDigits value caps nWidth)
  if align then o else o.puts cb (List.replicate pad (ch ' '))

/-- The loops over the characters of a string, with how many there were. -/
def putString (s : Memory) (limited : Bool) (argWidth : BitVec 32) :
    ℕ → ℕ → BitVec 32 → Out σ → Option (ℕ × Out σ)
  | 0, _, _, _ => none
  | fuel + 1, count, precision, o =>
      if s count ≠ 0 ∧ (limited → 0 < precision.toInt) then
        if argWidth ≠ 0 ∧ count + 1 = argWidth.toNat then some (count + 1, o.put cb (s count))
        else putString s limited argWidth fuel (count + 1) (precision - 1) (o.put cb (s count))
      else some (count, o)

/-- What stands between `%` and the letter. -/
structure Conversion where
  argWidth : BitVec 32
  align : Bool
  fillZero : Bool
  big : ℕ
  alt : Bool
  alwaysSign : ℕ
  precision : BitVec 32

/-- `fmt` is the memory from the format on, `args` are the arguments in their order. -/
def parseFlags (fmt : Memory) (args : ℕ → BitVec 64) : ℕ → ℕ → ℕ → Conversion → Option (ℕ × ℕ × Conversion)
  | 0, _, _, _ => none
  | fuel + 1, f, a, v =>
      if fmt f = ch '-' then parseFlags fmt args fuel (f + 1) a { v with align := false }
      else if fmt f = ch '#' then parseFlags fmt args fuel (f + 1) a { v with alt := true }
      else if fmt f = ch '*' then parseFlags fmt args fuel (f + 1) (a + 1) { v with argWidth := (args a).setWidth 32 }
      else if fmt f = ch '0' then parseFlags fmt args fuel (f + 1) a { v with fillZero := true }
      else if fmt f = ch '+' then parseFlags fmt args fuel (f + 1) a { v with alwaysSign := 1 }
      else if fmt f = ch ' ' then parseFlags fmt args fuel (f + 1) a { v with alwaysSign := 2 }
      else some (f, a, v)

def parseDigits (fmt : Memory) : ℕ → ℕ → BitVec 32 → Option (ℕ × BitVec 32)
  | 0, _, _ => none
  | fuel + 1, f, n =>
      if 48 ≤ (fmt f).toNat ∧ (fmt f).toNat ≤ 57 then
        parseDigits fmt fuel (f + 1) (n * 10 + BitVec.ofNat 32 ((fmt f).toNat - 48))
      else some (f, n)

def parsePrecision (fmt : Memory) (args : ℕ → BitVec 64) (fuel f a : ℕ) (v : Conversion) :
    Option (ℕ × ℕ × Conversion) :=
  if fmt f = ch '.' then
    if fmt (f + 1) = ch '*' then some (f + 2, a + 1, { v with precision := (args a).setWidth 32 })
    else (parseDigits fmt fuel (f + 1) 0).map fun r => (r.1, a, { v with precision := r.2 })
  else some (f, a, v)

def parseLength (fmt : Memory) (f : ℕ) (v : Conversion) : ℕ × Conversion :=
  let r := if fmt f = ch 'l' then
      if fmt (f + 1) = ch 'l' then (f + 2, { v with big := 2 }) else (f + 1, { v with big := 1 })
    else (f, v)
  let r := if fmt r.1 = ch 'z' then (r.1 + 1, { r.2 with big := 2 }) else r
  if fmt r.1 = ch 't' then (r.1 + 1, { r.2 with big := 2 }) else r

def parseConversion (fmt : Memory) (args : ℕ → BitVec 64) (fuel f a : ℕ) : Option (ℕ × ℕ × Conversion) :=
  (parseFlags fmt args fuel f a ⟨0, true, false, 0, false, 0, -1⟩).bind fun r =>
  (parseDigits fmt fuel r.1 r.2.2.argWidth).bind fun d =>
  (parsePrecision fmt args fuel d.1 r.2.1 { r.2.2 with argWidth := d.2 }).map fun p =>
    ((parseLength fmt p.1 p.2.2).1, p.2.1, (parseLength fmt p.1 p.2.2).2)

def nullString : List Byte := [ch '(', ch 'n', ch 'u', ch 'l', ch 'l', ch ')']

/-- The memory from a string on. -/
def stringAt (mem : Memory) (p : BitVec 64) : Memory :=
  if p = 0 then fun k => nullString.getD k 0 else fun k => mem (p.toNat + k)

def unsignedArg (big : ℕ) (arg : BitVec 64) : BitVec 64 := if big = 0 then (arg.setWidth 32).setWidth 64 else arg

def signedArg (big : ℕ) (arg : BitVec 64) : BitVec 64 := if big = 0 then (arg.setWidth 32).signExtend 64 else arg

/-- The `switch`, with the number of arguments used up, or `none` in its place for the early return. -/
def convert (mem : Memory) (args : ℕ → BitVec 64) (fuel : ℕ) (letter : Byte) (a : ℕ) (v : Conversion) (o : Out σ) :
    Option (Option ℕ × Out σ) :=
  if letter = ch 's' then
    if v.big ≠ 0 then some (none, o)
    else
      (putString cb (stringAt mem (args a)) (decide (0 ≤ v.precision.toInt)) v.argWidth fuel 0 v.precision o).map fun r =>
        (some (a + 1), r.2.puts cb (List.replicate (v.argWidth.toNat - r.1) (ch ' ')))
  else if letter = ch 'c' then some (some (a + 1), o.putUncounted cb ((args a).setWidth 8))
  else if letter = ch 'p' ∨ letter = ch 'X' ∨ letter = ch 'x' then
    let alt := v.alt || letter = ch 'p'
    let big := if letter = ch 'p' then 2 else v.big
    some (some (a + 1), printHex cb (unsignedArg big (args a)) v.argWidth v.fillZero alt (letter &&& 32 = 0) v.align o)
  else if letter = ch 'i' ∨ letter = ch 'd' then
    let llval := signedArg v.big (args a)
    let o := if llval.slt 0 then o.put cb (ch '-')
      else if v.alwaysSign ≠ 0 then o.put cb (if v.alwaysSign = 2 then ch ' ' else ch '+')
      else o
    let llval := if llval.slt 0 then -llval else llval
    (printDec cb fuel llval v.argWidth v.fillZero v.align v.precision o).map fun o => (some (a + 1), o)
  else if letter = ch 'u' then
    (printDec cb fuel (unsignedArg v.big (args a)) v.argWidth v.fillZero v.align v.precision o).map fun o =>
      (some (a + 1), o)
  else if letter = ch '%' then some (some a, o.put cb (ch '%'))
  else some (some a, o.put cb letter)

def printfLoop (fmt mem : Memory) (args : ℕ → BitVec 64) : ℕ → ℕ → ℕ → Out σ → Option (Out σ)
  | 0, _, _, _ => none
  | fuel + 1, f, a, o =>
      if fmt f = 0 then some o
      else if fmt f ≠ ch '%' then printfLoop fmt mem args fuel (f + 1) a (o.put cb (fmt f))
      else
        (parseConversion fmt args fuel (f + 1) a).bind fun r =>
        (convert cb mem args fuel (fmt r.1) r.2.1 r.2.2 o).bind fun q =>
          match q.1 with
          | none => some q.2
          | some a => printfLoop fmt mem args fuel (r.1 + 1) a q.2

/-- The result and what the callback has made of `cd`. -/
def printfInternal (fuel : ℕ) (cd : σ) (fmt mem : Memory) (args : ℕ → BitVec 64) : Option (BitVec 32 × σ) :=
  (printfLoop cb fmt mem args fuel 0 0 ⟨0, 0, cd⟩).map fun o => (BitVec.ofNat 32 o.written, o.cd)

end Formatting

end PiggyOs.Printf
