import PiggyOs.CString
import PiggyOs.PrintfPieces
import PiggyOs.Timegm

/-! `strftime`: the buffer, the format and the expansions of its items. -/
namespace PiggyOs.Strftime
open Function ByteMemory Printf Filter
open PiggyOs.Timegm (Tm timegm InInt)

/-- The tables of names one after the other, and the strings for the halves of the day. -/
def literals : List (List Byte) := [
  ['S', 'u', 'n'], ['M', 'o', 'n'], ['T', 'u', 'e'], ['W', 'e', 'd'], ['T', 'h', 'u'], ['F', 'r', 'i'],
  ['S', 'a', 't'],
  ['S', 'u', 'n', 'd', 'a', 'y'], ['M', 'o', 'n', 'd', 'a', 'y'], ['T', 'u', 'e', 's', 'd', 'a', 'y'],
  ['W', 'e', 'd', 'n', 'e', 's', 'd', 'a', 'y'], ['T', 'h', 'u', 'r', 's', 'd', 'a', 'y'],
  ['F', 'r', 'i', 'd', 'a', 'y'], ['S', 'a', 't', 'u', 'r', 'd', 'a', 'y'],
  ['J', 'a', 'n'], ['F', 'e', 'b'], ['M', 'a', 'r'], ['A', 'p', 'r'], ['M', 'a', 'y'], ['J', 'u', 'n'],
  ['J', 'u', 'l'], ['A', 'u', 'g'], ['S', 'e', 'p'], ['O', 'c', 't'], ['N', 'o', 'v'], ['D', 'e', 'c'],
  ['J', 'a', 'n', 'u', 'a', 'r', 'y'], ['F', 'e', 'b', 'r', 'u', 'a', 'r', 'y'], ['M', 'a', 'r', 'c', 'h'],
  ['A', 'p', 'r', 'i', 'l'], ['M', 'a', 'y'], ['J', 'u', 'n', 'e'], ['J', 'u', 'l', 'y'],
  ['A', 'u', 'g', 'u', 's', 't'], ['S', 'e', 'p', 't', 'e', 'm', 'b', 'e', 'r'],
  ['O', 'c', 't', 'o', 'b', 'e', 'r'], ['N', 'o', 'v', 'e', 'm', 'b', 'e', 'r'],
  ['D', 'e', 'c', 'e', 'm', 'b', 'e', 'r'],
  ['A', 'M'], ['P', 'M'], ['a', 'm'], ['p', 'm']].map (·.map ch)

def abvdays (i : ℤ) : Piece := .str i.toNat

def days (i : ℤ) : Piece := .str (7 + i.toNat)

def abvmonths (i : ℤ) : Piece := .str (14 + i.toNat)

def months (i : ℤ) : Piece := .str (26 + i.toNat)

def hour12 (tm : Tm) : ℤ := if tm.tmHour = 0 then 12 else if tm.tmHour = 12 then 12 else tm.tmHour.tmod 12

def unsupported (letter : Char) : List Piece :=
  .chr (ch letter) :: [' ', 'u', 'n', 's', 'u', 'p', 'p', 'o', 'r', 't', 'e', 'd'].map .lit

/-- The format and the arguments of the call of `snprintf` in each case of the `switch` but for `s`. -/
def switchCases : List (Char × (Tm → List Piece)) := [
  ('a', fun tm => [abvdays tm.tmWday]),
  ('A', fun tm => [days tm.tmWday]),
  ('h', fun tm => [abvmonths tm.tmMon]),
  ('b', fun tm => [abvmonths tm.tmMon]),
  ('B', fun tm => [months tm.tmMon]),
  ('c', fun tm => [abvdays tm.tmWday, .lit ' ', abvmonths tm.tmMon, .lit ' ', .num true 2 tm.tmMday, .lit ' ',
    .num true 2 tm.tmHour, .lit ':', .num true 2 tm.tmMin, .lit ':', .num true 2 tm.tmSec, .lit ' ',
    .num true 4 (tm.tmYear + 1900)]),
  ('C', fun tm => [.num true 2 ((tm.tmYear + 1900).tdiv 100)]),
  ('d', fun tm => [.num true 2 tm.tmMday]),
  ('D', fun tm => [.num true 2 (tm.tmMon + 1), .lit '/', .num true 2 tm.tmMday, .lit '/',
    .num true 2 (tm.tmYear.tmod 100)]),
  ('e', fun tm => [.num false 2 tm.tmMday]),
  ('F', fun tm => [.num true 4 (tm.tmYear + 1900), .lit '-', .num true 2 (tm.tmMon + 1), .lit '-',
    .num true 2 tm.tmMday]),
  ('H', fun tm => [.num true 2 tm.tmHour]),
  ('I', fun tm => [.num true 2 (hour12 tm)]),
  ('j', fun tm => [.num true 3 tm.tmYday]),
  ('k', fun tm => [.num false 2 tm.tmHour]),
  ('l', fun tm => [.num false 2 (hour12 tm)]),
  ('m', fun tm => [.num true 2 (tm.tmMon + 1)]),
  ('M', fun tm => [.num true 2 tm.tmMin]),
  ('n', fun _ => [.lit '\n']),
  ('p', fun tm => [.str (if tm.tmHour < 12 then 38 else 39)]),
  ('P', fun tm => [.str (if tm.tmHour < 12 then 40 else 41)]),
  ('r', fun tm => [.num true 2 (hour12 tm), .lit ':', .num true 2 tm.tmMin, .lit ':', .num true 2 tm.tmSec, .lit ' ',
    .str (if tm.tmHour < 12 then 38 else 39)]),
  ('R', fun tm => [.num true 2 tm.tmHour, .lit ':', .num true 2 tm.tmMin]),
  ('S', fun tm => [.num true 2 tm.tmSec]),
  ('t', fun _ => [.lit '\t']),
  ('T', fun tm => [.num true 2 tm.tmHour, .lit ':', .num true 2 tm.tmMin, .lit ':', .num true 2 tm.tmSec]),
  ('u', fun tm => [.num false 0 (if tm.tmWday = 0 then 7 else tm.tmWday)]),
  ('w', fun tm => [.num false 0 tm.tmWday]),
  ('x', fun tm => [.num true 2 (tm.tmMon + 1), .lit '/', .num true 2 tm.tmMday, .lit '/',
    .num true 2 (tm.tmYear.tmod 100)]),
  ('X', fun tm => [.num true 2 tm.tmHour, .lit ':', .num true 2 tm.tmMin, .lit ':', .num true 2 tm.tmSec]),
  ('y', fun tm => [.num true 2 (tm.tmYear.tmod 100)]),
  ('Y', fun tm => [.num true 4 (tm.tmYear + 1900)]),
  ('%', fun _ => [.chr (ch '%')]),
  ('z', fun _ => unsupported 'z'),
  ('Z', fun _ => unsupported 'Z'),
  ('V', fun _ => unsupported 'V'),
  ('W', fun _ => unsupported 'W'),
  ('U', fun _ => unsupported 'U'),
  ('G', fun _ => unsupported 'G'),
  ('g', fun _ => unsupported 'g')]

/-- The result and what the fields hold afterwards; `none` for a calculation that overflows unchecked. When the overflow
is reported some fields have been changed, which is left out. -/
def mktime (tm : Tm) : Option (ℤ × Tm) :=
  match timegm tm with
  | .ok r => some r
  | .error .eoverflow => some (-1, tm)
  | .error .undefined => none

structure State where
  mem : Memory
  b : ℕ
  size : BitVec 64
  tm : Tm

def snprintf (fuel : ℕ) (s : State) (pieces : List Piece) : Option (BitVec 32 × State) :=
  (vsnprintf fuel s.mem s.b s.size (formatOf pieces) (stringMemory literals) (argsOf pieces)).map fun r =>
    (r.1, { s with mem := r.2 })

/-- The `switch`, with `w`. `mktime` works on the structure of the caller. -/
def convertItem (fuel : ℕ) (letter : Byte) (s : State) : Option (BitVec 32 × State) :=
  if letter = ch 's' then (mktime s.tm).bind fun r => snprintf fuel { s with tm := r.2 } [.long r.1]
  else
    match switchCases.find? fun c => ch c.1 = letter with
    | none => some (0, s)
    | some c => snprintf fuel s (c.2 s.tm)

/-- The loop over the format; `none` when a character behind its terminator is read. -/
def strftimeLoop (fuel buffer : ℕ) : List Byte → State → Option (ℕ × State)
  | [], s => some (s.b - buffer, { s with mem := update s.mem s.b 0 })
  | c :: f, s =>
      if c ≠ ch '%' then
        if s.size = 0 then some (0, s)
        else strftimeLoop fuel buffer f { s with mem := update s.mem s.b c, b := s.b + 1, size := s.size - 1 }
      else
        (convertItem fuel (f.headD 0) s).bind fun r =>
          if r.1.toInt < 0 ∨ r.2.size ≤ r.1.signExtend 64 then some (0, r.2)
          else
            match f with
            | [] => none
            | _ :: f => strftimeLoop fuel buffer f
                { r.2 with b := r.2.b + r.1.toNat, size := r.2.size - r.1.signExtend 64 }

def strftime (fuel : ℕ) (stale : Memory) (buffer : ℕ) (size : BitVec 64) (fmt : CString) (tm : Tm) :
    Option (ℕ × Memory) :=
  (strftimeLoop fuel buffer fmt.1 ⟨stale, buffer, size, tm⟩).map fun r => (r.1, r.2.mem)

end PiggyOs.Strftime
