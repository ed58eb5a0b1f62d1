import Whisker.NumberText

/-!
# Exact arithmetic

Rational numbers with two infinities and "not a number". Nothing is rounded and zero has no sign; a
quotient by zero is infinite, with the sign of its numerator. Formulas read here have the value that
they have on paper wherever all operands are finite.
-/

namespace Whisker

inductive Exact where
  | finite (value : Rat)
  | infinite (negative : Bool)
  | notANumber
  deriving DecidableEq, Repr

namespace Exact

def neg : Exact → Exact
  | finite p => finite (-p)
  | infinite n => infinite !n
  | notANumber => notANumber

def add : Exact → Exact → Exact
  | finite p, finite q => finite (p + q)
  | infinite m, infinite n => if m = n then infinite m else notANumber
  | infinite m, finite _ => infinite m
  | finite _, infinite n => infinite n
  | _, _ => notANumber

def mul : Exact → Exact → Exact
  | finite p, finite q => finite (p * q)
  | infinite m, infinite n => infinite (m != n)
  | infinite m, finite q => if q = 0 then notANumber else infinite (m != decide (q < 0))
  | finite p, infinite n => if p = 0 then notANumber else infinite (n != decide (p < 0))
  | _, _ => notANumber

def div : Exact → Exact → Exact
  | finite p, finite q =>
    if q ≠ 0 then finite (p / q) else if p = 0 then notANumber else infinite (decide (p < 0))
  | finite _, infinite _ => finite 0
  | infinite m, finite q => infinite (m != decide (q < 0))
  | _, _ => notANumber

def lt : Exact → Exact → Bool
  | finite p, finite q => decide (p < q)
  | infinite m, infinite n => m && !n
  | infinite m, finite _ => m
  | finite _, infinite n => !n
  | _, _ => false

def le : Exact → Exact → Bool
  | finite p, finite q => decide (p ≤ q)
  | infinite m, infinite n => m || !n
  | infinite m, finite _ => m
  | finite _, infinite n => !n
  | _, _ => false

def beq : Exact → Exact → Bool
  | finite p, finite q => decide (p = q)
  | infinite m, infinite n => m == n
  | _, _ => false

/-- Infinities and `notANumber` stay as they are. -/
def onFinite (f : Rat → Rat) : Exact → Exact
  | finite p => finite (f p)
  | x => x

/-- The nearest integer, halves away from zero. -/
def nearest (p : Rat) : Int := if p < 0 then -(-p + mkRat 1 2).floor else (p + mkRat 1 2).floor

/-- `10 ^ e`. -/
def power (e : Int) : Rat := mkRat (Int.ofNat (Nat.pow 10 e.toNat)) (Nat.pow 10 (-e).toNat)

/-- The exponent of the largest power of ten not above a positive number. The digits of numerator and
denominator leave two exponents to choose from. -/
def decade (p : Rat) : Int :=
  let e := Int.ofNat (Decimal.digits p.num.natAbs).length - Int.ofNat (Decimal.digits p.den).length
  if power e ≤ p then e else e - 1

instance : Scalar Exact where
  add := add
  sub x y := add x (neg y)
  mul := mul
  div := div
  neg := neg
  lt x y := lt x y = true
  le x y := le x y = true
  beq := beq
  decLt x y := inferInstanceAs (Decidable (lt x y = true))
  decLe x y := inferInstanceAs (Decidable (le x y = true))
  ofDecimal m places := finite (mkRat (Int.ofNat m) (Nat.pow 10 places))
  nan := notANumber
  inf := infinite false
  isNaN x := decide (x = notANumber)
  isFinite
    | finite _ => true
    | _ => false
  abs
    | infinite _ => infinite false
    | x => onFinite Rat.abs x
  floor := onFinite fun p => Rat.ofInt p.floor
  ceil := onFinite fun p => Rat.ofInt p.ceil
  round := onFinite fun p => Rat.ofInt (nearest p)
  decade
    | finite p => decade p
    | _ => 0
  tenPow e := finite (power e)
  toNat
    | finite p => Nat.min p.floor.toNat (UInt64.size - 1)
    | infinite false => UInt64.size - 1
    | _ => 0

/-- The digits after the point that a number needs; `none` if no number of them is enough. -/
def places? (p : Rat) : Option Nat := (List.range (p.den.log2 + 1)).find? fun k => Nat.pow 10 k % p.den = 0

/-- The decimal of a number's size, for a number that needs `places` digits after the point. -/
def decimal (p : Rat) (places : Nat) : Decimal := ⟨p.num.natAbs * Nat.pow 10 places / p.den, -Int.ofNat places⟩

/-- A number that no decimal equals is written as a fraction. -/
def magnitude (p : Rat) : List Char :=
  match places? p with
  | some k => Decimal.join (decimal p k).positional
  | none => Decimal.digits p.num.natAbs ++ '/' :: Decimal.digits p.den

def signed (p : Rat) (body : List Char) : String := String.ofList (Decimal.signed (decide (p < 0)) body)

def outOfRange : Exact → String
  | infinite false => "inf"
  | infinite true => "-inf"
  | _ => "NaN"

instance : NumberText Exact where
  plain
    | finite p => signed p (magnitude p)
    | x => outOfRange x
  fixed places
    | finite p => signed p (Decimal.fixed places p.num.natAbs p.den)
    | x => outOfRange x
  literal?
    | finite p => (places? p).map fun k => signed p (decimal p k).pointed
    | _ => none
  ofDigits negative m e :=
    let p := Rat.ofInt (Int.ofNat m) * power e
    finite (if negative then -p else p)

end Exact

end Whisker
