import Whisker.Decimal
import Whisker.Scalar

/-!
# Binary64 arithmetic

Rounding to integers and remainders are computed exactly on sign, mantissa and exponent, so each result is
the correctly rounded one and a zero keeps its sign. The length of a vector is a rounded root with one
correction: it may be off by one in the last place.
-/

namespace Whisker.Binary

/-- A finite number is `(-1) ^ negative · mantissa · 2 ^ exponent`. -/
structure Parts where
  negative : Bool
  mantissa : Nat
  exponent : Int
  deriving DecidableEq, Repr

inductive Value where
  | notANumber
  | infinite (negative : Bool)
  | finite (parts : Parts)
  deriving DecidableEq, Repr

def decode (x : Float) : Value :=
  let bits := x.toBits.toNat
  let negative := bits >>> 63 = 1
  let e : Nat := (bits >>> 52) % 2048
  let m := bits % (1 <<< 52)
  if e = 2047 then
    if m = 0 then .infinite negative else .notANumber
  else if e = 0 then .finite ⟨negative, m, -1074⟩
  else .finite ⟨negative, m + (1 <<< 52), (e : Int) - 1075⟩

def withSign (negative : Bool) (x : Float) : Float := if negative then -x else x

/-- `2 ^ q`, for exponents from -1074 to 1023. -/
def twoPow (q : Int) : Float :=
  if q < -1022 then Float.ofBits (UInt64.ofNat (1 <<< (q + 1074).toNat))
  else Float.ofBits (UInt64.ofNat ((q + 1023).toNat <<< 52))

/-- `m · 2 ^ q`, for a number that binary64 has: in two steps if the power alone may be too small. -/
def scale (m : Nat) (q : Int) : Float :=
  if q < -1000 then Float.ofNat m * twoPow (-1000) * twoPow (q + 1000) else Float.ofNat m * twoPow q

/-- Rounds a finite number to an integer: `up` says, from the sign, the integer part of the magnitude
and the fraction `rest / unit` left over, whether the magnitude goes one up. -/
def toInteger (up : (negative : Bool) → (rest unit : Nat) → Bool) (x : Float) : Float :=
  match decode x with
  | .finite p =>
    if 0 ≤ p.exponent then x
    else
      let unit := 1 <<< (-p.exponent).toNat
      let rest := p.mantissa % unit
      let whole := p.mantissa / unit
      withSign p.negative (Float.ofNat (if up p.negative rest unit then whole + 1 else whole))
  | _ => x

def floor : Float → Float := toInteger fun negative rest _ => negative && rest != 0

def ceil : Float → Float := toInteger fun negative rest _ => !negative && rest != 0

def round : Float → Float := toInteger fun _ rest unit => unit ≤ 2 * rest

/-- The integer part, for a number that has one. -/
def toInt (x : Float) : Int :=
  match decode x with
  | .finite p =>
    let whole := if 0 ≤ p.exponent then p.mantissa <<< p.exponent.toNat
      else p.mantissa >>> (-p.exponent).toNat
    if p.negative then -whole else whole
  | _ => 0

def toNat (x : Float) : Nat :=
  match decode x with
  | .finite p => if p.negative then 0 else min (toInt x).toNat (UInt64.size - 1)
  | .infinite false => UInt64.size - 1
  | _ => 0

/-- Magnitudes `a · 2 ^ p` and `b · 2 ^ q` over one exponent. -/
def align (x y : Parts) : Nat × Nat × Int :=
  let q := min x.exponent y.exponent
  (x.mantissa <<< (x.exponent - q).toNat, y.mantissa <<< (y.exponent - q).toNat, q)

/-- The remainder of the quotient cut toward zero; it has the sign of `x` and is exact. -/
def remainder (x y : Float) : Float :=
  match decode x, decode y with
  | .finite a, .finite b =>
    if b.mantissa = 0 then 0 / 0
    else
      let (m, n, q) := align a b
      withSign a.negative (scale (m % n) q)
  | .finite _, .infinite _ => x
  | _, _ => 0 / 0

/-- The remainder, raised by `|y|` where it is negative. -/
def wrap (x y : Float) : Float :=
  let r := remainder x y
  if r < 0 then r + y.abs else r

/-- The length of `(a, b)` for `0 ≤ b ≤ a` whose squares stay in range: the root of the rounded sum of squares,
less the error of its square over twice the root. -/
def corrected (a b : Float) : Float :=
  let h := (a * a + b * b).sqrt
  let excess :=
    if h ≤ 2 * b then
      let d := h - b
      a * (2 * d - a) + (d - 2 * (a - b)) * d
    else
      let d := h - a
      2 * d * (a - 2 * b) + ((4 * d - b) * b + d * d)
  h - excess / (2 * h)

/-- The length of a vector by its sides `0 ≤ b ≤ a`. A side too small to count is added, and sides whose squares
would leave the range are scaled by a power of two first. -/
def lengthOf (a b : Float) : Float :=
  let negligible := twoPow (-54)
  let unit := twoPow (-600)
  if twoPow 511 < a then
    if b ≤ a * negligible then a + b else corrected (a * unit) (b * unit) / unit
  else if b < twoPow (-459) then
    if b / negligible ≤ a then a + b else corrected (a / unit) (b / unit) * unit
  else if b ≤ a * negligible then a + b
  else corrected a b

/-- The length of `(x, y)`; it is infinite if a side is, even beside a `nan`. -/
def hypot (x y : Float) : Float :=
  match decode x, decode y with
  | .infinite _, _ | _, .infinite _ => 1 / 0
  | .finite _, .finite _ => if x.abs < y.abs then lengthOf y.abs x.abs else lengthOf x.abs y.abs
  | _, _ => 0 / 0

/-- `m · 10 ^ e`, nearest with ties to even. Numbers whose digits alone tell that they are out of range are cut before any
power is formed. -/
def ofScientific (m : Nat) (e : Int) : Float :=
  let magnitude : Int := (Decimal.digits m).length + e
  if m = 0 then 0
  else if 310 < magnitude then 1 / 0
  else if magnitude < -330 then 0
  else if e < 0 then Float.ofScientific m true e.natAbs
  else Float.ofScientific m false e.natAbs

/-- The exponent of a number's first digit. Logarithm and power have no definition to reason with: where a few digits
of a whole number say the same, none is taken. -/
def decade (x : Float) : Int :=
  let n := toNat x
  if 0 < n ∧ n < Nat.pow 10 12 ∧ Float.ofNat n == x then (Decimal.digits n).length - 1
  else toInt (floor x.log10)

/-- Powers below `2 ^ 53` are whole numbers that binary64 has. No power is negative. -/
def tenPow (e : Int) : Float :=
  if 0 ≤ e ∧ e ≤ 15 then Float.ofNat (Nat.pow 10 e.toNat) else (Float.pow 10 (Float.ofInt e)).abs

instance : Scalar Float where
  decLt := inferInstance
  decLe := inferInstance
  ofDecimal m places := Float.ofScientific m true places
  nan := 0 / 0
  inf := 1 / 0
  isNaN := Float.isNaN
  isFinite := Float.isFinite
  abs := Float.abs
  floor := floor
  ceil := ceil
  round := round
  decade := decade
  tenPow := tenPow
  toNat := toNat

def pi : Float := 3.141592653589793

instance : Circular Float where
  turn := 2 * pi
  sin := Float.sin
  cos := Float.cos
  atan2 := Float.atan2
  hypot := hypot
  wrap x := wrap x (2 * pi)

end Whisker.Binary
