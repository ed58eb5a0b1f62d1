import Whisker.Scalar.Binary
import Whisker.Text

/-!
# Numbers as text

The four ways in which the library writes a number, and the one in which it makes a number of digits that it has read;
the spelling of infinities and of "not a number" is part of the format.

A numeral is a sign, digits and a power of ten. Digits may have a point before, within or after them, and an exponent
counts only if digits stand in it. Either the whole of a text is read, or, blanks apart, as much of it as forms a
number. The end of such a number is looked for in the bytes of the text, and the text up to there is cut out and read as
a whole.
-/

namespace Whisker

class NumberText (α : Type) where
  /-- The shortest text that reads back, positional whatever the size; of two as near the larger. -/
  plain : α → String
  /-- The exact value rounded to a number of places, halves to even. -/
  fixed : Nat → α → String
  /-- A JSON literal, of two as near the even one; `none` for a number that JSON cannot write. -/
  literal? : α → Option String
  /-- `m · 10 ^ e` with a sign, rounded to nearest. -/
  ofDigits : (negative : Bool) → (m : Nat) → (e : Int) → α

/-- The text of a number in labels: infinities are spelled out and a zero has no sign. -/
def NumberText.spelled {α : Type} [Scalar α] [NumberText α] (x : α) : String :=
  if Scalar.isNaN x then "NaN"
  else if Scalar.isInfinite x then if 0 < x then "Infinity" else "-Infinity"
  else if x == 0 then "0"
  else plain x

namespace Binary

/-- Fewest digits that read back; `none` for zero. -/
def decimal? (tie : Decimal.Tie) (p : Parts) : Option Decimal :=
  if p.mantissa = 0 then none else some (Decimal.shortest tie p.mantissa p.exponent)

def outOfRange : Value → Option String
  | .notANumber => some "NaN"
  | .infinite false => some "inf"
  | .infinite true => some "-inf"
  | .finite _ => none

def plain (x : Float) : String :=
  match decode x with
  | .finite p =>
    let body := match decimal? .larger p with
      | some d => Decimal.join d.positional
      | none => ['0']
    String.ofList (Decimal.signed p.negative body)
  | v => (outOfRange v).getD ""

def fixed (places : Nat) (x : Float) : String :=
  match decode x with
  | .finite p =>
    String.ofList <| Decimal.signed p.negative <|
      Decimal.fixed places (p.mantissa <<< p.exponent.toNat) (1 <<< (-p.exponent).toNat)
  | v => (outOfRange v).getD ""

/-- Numbers from `10 ^ -5` up to `10 ^ 16` are positional with at least one fraction digit, the others scientific. -/
def literal? (x : Float) : Option String :=
  match decode x with
  | .finite p =>
    let body := match decimal? .even p with
      | some d =>
        if -5 ≤ d.leading ∧ d.leading < 16 then d.pointed else d.scientific
      | none => ['0', '.', '0']
    some (String.ofList (Decimal.signed p.negative body))
  | _ => none

instance : NumberText Float where
  plain := plain
  fixed := fixed
  literal? := literal?
  ofDigits negative m e := withSign negative (ofScientific m e)

end Binary

structure Numeral where
  negative : Bool
  mantissa : Nat
  exponent : Int
  deriving DecidableEq, Repr

namespace Numeral

def isDigit (c : Char) : Bool := '0' ≤ c && c ≤ '9'

/-- The digits at the start of a text and the rest. -/
def spanDigits (cs : List Char) : List Char × List Char := cs.span isDigit

/-- A sign, if there is one, and the rest. -/
def spanSign : List Char → Bool × List Char
  | '-' :: cs => (true, cs)
  | '+' :: cs => (false, cs)
  | cs => (false, cs)

def ofParts (negative : Bool) (whole fraction : List Char) (exponent : Int) : Numeral :=
  ⟨negative, Decimal.ofDigits (whole ++ fraction), exponent - fraction.length⟩

/-- The exponent at the start of a text and the rest; it is zero, and nothing is taken, where none is complete. -/
def spanExponent (cs : List Char) : Int × List Char :=
  match cs with
  | [] => (0, [])
  | e :: tail =>
    if e = 'e' ∨ e = 'E' then
      let (negative, tail) := spanSign tail
      let (ds, rest) := spanDigits tail
      if ds.isEmpty then (0, cs)
      else (if negative then -(Decimal.ofDigits ds : Int) else Decimal.ofDigits ds, rest)
    else (0, cs)

/-- The digits after a point at the start of a text, and the rest. -/
def spanFraction : List Char → List Char × List Char
  | '.' :: cs => spanDigits cs
  | cs => ([], cs)

/-- The unsigned number at the start of a text and the rest. -/
def spanMagnitude? (negative : Bool) (cs : List Char) : Option (Numeral × List Char) :=
  let (whole, rest) := spanDigits cs
  let (fraction, rest) := spanFraction rest
  if whole.isEmpty && fraction.isEmpty then none
  else
    let (exponent, rest) := spanExponent rest
    some (ofParts negative whole fraction exponent, rest)

variable {α : Type} [NumberText α]

def value (n : Numeral) : α := NumberText.ofDigits n.negative n.mantissa n.exponent

variable [Scalar α]

def signed (negative : Bool) (x : α) : α := if negative then -x else x

/-- The number that a text in small letters spells. -/
def ofText? (cs : List Char) : Option α :=
  let (negative, rest) := spanSign cs
  if rest = "inf".toList ∨ rest = "infinity".toList then some (signed negative Scalar.inf)
  else if rest = "nan".toList then some Scalar.nan
  else
    match spanMagnitude? negative rest with
    | some (n, []) => some n.value
    | _ => none

end Numeral

end Whisker

namespace Whisker.Numeral

open Text (bytes cut? testAt runAt?)

/-- What a text starts with. -/
inductive Start where
  | nothing
  | infinity (negative : Bool)
  | number (text : List Char)
  deriving DecidableEq, Repr

def isSign (c : Char) : Bool := c = '+' || c = '-'

def isPower (c : Char) : Bool := c = 'e' || c = 'E'

/-- The position behind a sign. -/
def signEnd (bs : List UInt8) (i : Nat) : Nat := if testAt isSign bs i then i + 1 else i

/-- The position behind digits and a point; where there is no digit, nothing is taken. -/
def mantissaEnd? (bs : List UInt8) (i : Nat) : Option Nat := do
  let whole ← runAt? isDigit bs i
  let stop := i + whole
  if testAt (· = '.') bs stop then
    let fraction ← runAt? isDigit bs (stop + 1)
    return if 0 < whole ∨ 0 < fraction then stop + 1 + fraction else stop
  return stop

/-- The position behind an exponent; where none is complete, nothing is taken. -/
def exponentEnd? (bs : List UInt8) (i : Nat) : Option Nat := do
  if testAt isPower bs i then
    let first := signEnd bs (i + 1)
    let digits ← runAt? isDigit bs first
    return if 0 < digits then first + digits else i
  return i

/-- What a text starts with; `none` if the search leaves the text or cuts a character. -/
def start? (text : List Char) : Option Start := do
  let bs := bytes text
  let first := signEnd bs 0
  let (_, rest) ← cut? first text
  if "Infinity".toList.isPrefixOf rest then return .infinity (testAt (· = '-') bs 0)
  let stop ← mantissaEnd? bs first
  if stop = first then return .nothing
  let stop ← exponentEnd? bs stop
  let (number, _) ← cut? stop text
  return .number number

variable {α : Type} [Scalar α] [NumberText α]

def Start.value : Start → α
  | .nothing => Scalar.nan
  | .infinity negative => signed negative Scalar.inf
  | .number text => (ofText? text).getD Scalar.nan

/-- The number that a text starts with, blanks apart; `nan` where it starts with none. -/
def leading (cs : List Char) : α := ((start? (Text.trimStart cs)).map Start.value).getD Scalar.nan

end Whisker.Numeral
