/-!
# Decimals

A positive decimal is a coefficient and a power of ten. It is written positionally, with a chosen number of places, or
in scientific notation, which only places digits and marks. The decimal of a binary64 number is the one with the fewest
digits among those that round back to it, and of those the nearest: grids of powers of ten are tried from coarse to
fine, each by the two neighbours of the number on it, and a number halfway between them goes as the writer's format
says.
-/

namespace Whisker

/-- The number `coefficient · 10 ^ exponent`. -/
structure Decimal where
  coefficient : Nat
  exponent : Int
  deriving DecidableEq, Repr

namespace Decimal

/-- The digits of a natural number, most significant first. -/
def digits (n : Nat) : List Char := Nat.toDigits 10 n

def digitValue (c : Char) : Nat := c.toNat - '0'.toNat

/-- The number that a list of digits spells. -/
def ofDigits (cs : List Char) : Nat := cs.foldl (fun n c => 10 * n + digitValue c) 0

/-- Integer part and fraction digits of the positional form; the fraction is empty for an integer. -/
def positional (d : Decimal) : List Char × List Char :=
  let ds := digits d.coefficient
  if 0 ≤ d.exponent then (ds ++ List.replicate d.exponent.toNat '0', [])
  else
    let places := (-d.exponent).toNat
    if places < ds.length then (ds.take (ds.length - places), ds.drop (ds.length - places))
    else (['0'], List.replicate (places - ds.length) '0' ++ ds)

def join (parts : List Char × List Char) : List Char :=
  if parts.2.isEmpty then parts.1 else parts.1 ++ '.' :: parts.2

/-- The positional form with at least one digit after the point. -/
def pointed (d : Decimal) : List Char :=
  let (whole, fraction) := d.positional
  join (whole, if fraction.isEmpty then ['0'] else fraction)

/-- The exponent of the leading digit. -/
def leading (d : Decimal) : Int := (digits d.coefficient).length - 1 + d.exponent

/-- One digit, the others after a point, and the exponent with its sign. -/
def scientific (d : Decimal) : List Char :=
  let ds := digits d.coefficient
  let e := d.leading
  join (ds.take 1, ds.drop 1) ++ 'e' :: (if e < 0 then '-' else '+') :: digits e.natAbs

def signed (negative : Bool) (cs : List Char) : List Char := if negative then '-' :: cs else cs

/-- `num / den` to the nearest integer, a half going to the even neighbour. -/
def roundDiv (num den : Nat) : Nat :=
  let q := num / den
  let r := num % den
  if den < 2 * r ∨ (den = 2 * r ∧ q % 2 = 1) then q + 1 else q

/-- `num / den` written with exactly `places` digits after the point. -/
def fixed (places num den : Nat) : List Char :=
  let ds := digits (roundDiv (num * Nat.pow 10 places) den)
  let ds := List.replicate (places + 1 - ds.length) '0' ++ ds
  join (ds.take (ds.length - places), ds.drop (ds.length - places))

end Decimal

end Whisker

namespace Whisker.Decimal

/-- Which of two decimals a number halfway between them takes. -/
inductive Tie where
  | larger
  | even
  deriving DecidableEq, Repr

/-- The numbers that round to one binary64 number, as integers over a common denominator. -/
structure Interval where
  low : Nat
  value : Nat
  high : Nat
  denominator : Nat
  /-- The ends belong to the interval when the mantissa is even. -/
  closed : Bool

/-- The lower half of the interval is half as wide at a power of two, where the spacing changes. -/
def Interval.ofParts (m : Nat) (q : Int) : Interval :=
  let unit := 1 <<< (q - 2).toNat
  let below := if m = 1 <<< 52 ∧ -1074 < q then 1 else 2
  ⟨(4 * m - below) * unit, 4 * m * unit, (4 * m + 2) * unit, 1 <<< (2 - q).toNat, m % 2 = 0⟩

/-- Whether `c · 10 ^ k` lies in the interval. -/
def Interval.contains (i : Interval) (c : Nat) (k : Int) : Bool :=
  let x := c * Nat.pow 10 k.toNat * i.denominator
  let s := Nat.pow 10 (-k).toNat
  if i.closed then i.low * s ≤ x && x ≤ i.high * s else i.low * s < x && x < i.high * s

/-- The largest `c` with `c · 10 ^ k` not above the value. -/
def Interval.below (i : Interval) (k : Int) : Nat :=
  i.value * Nat.pow 10 (-k).toNat / (Nat.pow 10 k.toNat * i.denominator)

/-- Whether the upper neighbour `c + 1` is taken before `c`. -/
def Interval.takesUpper (i : Interval) (tie : Tie) (c : Nat) (k : Int) : Bool :=
  let middle := (2 * c + 1) * Nat.pow 10 k.toNat * i.denominator
  let twice := 2 * i.value * Nat.pow 10 (-k).toNat
  match tie with
  | .larger => middle ≤ twice
  | .even => middle < twice || (middle = twice && c % 2 = 1)

/-- The first grid, from `10 ^ k` down, on which a neighbour of the value lies in the interval. -/
def Interval.search (i : Interval) (tie : Tie) : Nat → Int → Decimal
  | 0, k => ⟨i.below k, k⟩
  | fuel + 1, k =>
    let c := i.below k
    match i.contains c k, i.contains (c + 1) k with
    | true, true => if i.takesUpper tie c k then ⟨c + 1, k⟩ else ⟨c, k⟩
    | true, false => ⟨c, k⟩
    | false, true => ⟨c + 1, k⟩
    | false, false => i.search tie fuel (k - 1)

/-- The shortest decimal of `m · 2 ^ q`, for a positive `m`. -/
def shortest (tie : Tie) (m : Nat) (q : Int) : Decimal :=
  (Interval.ofParts m q).search tie 24 ((m.log2 + q) * 30103 / 100000 + 2)

end Whisker.Decimal
