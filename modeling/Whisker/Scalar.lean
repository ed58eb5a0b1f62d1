/-!
# Chart arithmetic

Every formula of the library is written once, over a type with the operations below. `Scalar.Binary`
supplies them for binary64 and `Scalar.Exact` for rational numbers extended by two infinities and
"not a number"; the two differ in rounding only. No law is assumed here: comparisons with a number
that is not one are false, and `x == x` may fail.
-/

namespace Whisker

class Scalar (α : Type) extends Add α, Sub α, Mul α, Div α, Neg α, LT α, LE α, BEq α where
  decLt : DecidableLT α
  decLe : DecidableLE α
  /-- The number nearest to `m / 10 ^ places`. -/
  ofDecimal : (m places : Nat) → α
  nan : α
  inf : α
  isNaN : α → Bool
  isFinite : α → Bool
  abs : α → α
  floor : α → α
  ceil : α → α
  /-- The nearest integer, halves away from zero. -/
  round : α → α
  /-- The exponent of the largest power of ten not above a positive number. -/
  decade : α → Int
  tenPow : Int → α
  /-- The integer part as a 64-bit count: `0` below one and for `nan`, capped at `2 ^ 64 - 1`. -/
  toNat : α → Nat

/-- Angles: `turn` is the full turn, and the other fields measure in the same unit. -/
class Circular (α : Type) where
  turn : α
  sin : α → α
  cos : α → α
  /-- `atan2 y x` is the angle of the direction `(x, y)`. -/
  atan2 : α → α → α
  hypot : α → α → α
  /-- The angle brought into `[0, turn)`. -/
  wrap : α → α

namespace Scalar

variable {α : Type} [Scalar α]

instance (priority := low) : DecidableLT α := Scalar.decLt

instance (priority := low) : DecidableLE α := Scalar.decLe

instance (priority := low) (n : Nat) : OfNat α n := ⟨ofDecimal n 0⟩

instance (priority := low) : OfScientific α :=
  ⟨fun m negative e => if negative then ofDecimal m e else ofDecimal (m * Nat.pow 10 e) 0⟩

instance (priority := low) : Inhabited α := ⟨0⟩

def ofNat (n : Nat) : α := ofDecimal n 0

def ofInt : Int → α
  | .ofNat n => ofNat n
  | .negSucc n => -ofNat (n + 1)

/-- The smaller of two numbers; a `nan` gives way to the other operand. -/
def min (a b : α) : α := if isNaN a then b else if b < a then b else a

/-- The larger of two numbers; a `nan` gives way to the other operand. -/
def max (a b : α) : α := if isNaN a then b else if a < b then b else a

/-- A `nan` stays as it is. -/
def clamp (x lo hi : α) : α := if x < lo then lo else if hi < x then hi else x

/-- Equality that takes every `nan` for the same number. -/
def same (a b : α) : Bool := a == b || (isNaN a && isNaN b)

/-- Finite and not negative. -/
def isSize (x : α) : Bool := isFinite x && !(x < 0)

/-- Finite and positive. -/
def isPositive (x : α) : Bool := isFinite x && !(x ≤ 0)

def isInfinite (x : α) : Bool := !isNaN x && !isFinite x

/-- Power by repeated squaring, lowest bit of the exponent first. -/
def powNat (a : α) (n : Nat) : α :=
  go (n + 1) 1 a n
where
  go : Nat → α → α → Nat → α
    | 0, r, _, _ => r
    | fuel + 1, r, a, n =>
      let r := if n % 2 = 1 then r * a else r
      if n / 2 = 0 then r else go fuel r (a * a) (n / 2)

def powInt (a : α) : Int → α
  | .ofNat n => powNat a n
  | .negSucc n => 1 / powNat a (n + 1)

/-- The distance from 1 to the next binary64 number. -/
def epsilon : α := 1 / 4503599627370496

end Scalar

end Whisker
