import Whisker.Error
import Whisker.NumberText

/-!
# Colors

Red, green, blue and alpha, each meant to lie in the unit interval; nothing enforces it but `validate`.

As style sheets write them, colors are read from `transparent`, hexadecimal digits after a hash (three, four, six or
eight) and three or four numbers in `rgb(…)` or `rgba(…)`, in any case and with blanks around each part. Written is
always `rgba(…)`, with bytes and an alpha of three places at most.
-/

namespace Whisker

open Scalar

structure Color (α : Type) where
  red : α
  green : α
  blue : α
  alpha : α
  deriving BEq

namespace Color

variable {α : Type} [Scalar α]

def transparent : Color α := ⟨0, 0, 0, 0⟩

def black : Color α := ⟨0, 0, 0, 1⟩

def white : Color α := ⟨1, 1, 1, 1⟩

/-- A color of 8-bit channels. -/
def ofBytes (red green blue : Nat) (alpha : α) : Color α :=
  ⟨ofNat red / 255, ofNat green / 255, ofNat blue / 255, alpha⟩

def inUnit (x : α) : Bool := isFinite x && 0 ≤ x && x ≤ 1

def validate (c : Color α) : Result Unit := do
  check (inUnit c.red) (.colorChannel "red")
  check (inUnit c.green) (.colorChannel "green")
  check (inUnit c.blue) (.colorChannel "blue")
  check (inUnit c.alpha) (.colorChannel "alpha")

/-- A channel in 8 bits. -/
def byte (x : α) : Nat := Nat.min 255 (toNat (round (clamp x 0 1 * 255)))

def bytes (c : Color α) : Nat × Nat × Nat := (byte c.red, byte c.green, byte c.blue)

/-- Mixes two colors, `weight` of the first to the rest of the second. A difference in alpha shifts the
weights of the other channels. -/
def mix (c d : Color α) (weight : α) : Color α :=
  let w := 2 * weight - 1
  let a := c.alpha - d.alpha
  let w₁ := ((if w * a == -1 then w else (w + a) / (1 + w * a)) + 1) / 2
  let w₂ := 1 - w₁
  ⟨w₁ * c.red + w₂ * d.red, w₁ * c.green + w₂ * d.green, w₁ * c.blue + w₂ * d.blue,
    c.alpha * weight + d.alpha * (1 - weight)⟩

/-- Alpha to three places. -/
def roundedAlpha (c : Color α) : α := round (clamp c.alpha 0 1 * 1000) / 1000

end Color

end Whisker

namespace Whisker.Color

open Scalar

variable {α : Type} [Scalar α] [NumberText α]

def toCss (c : Color α) : String :=
  let (r, g, b) := c.bytes
  "rgba(" ++ toString r ++ "," ++ toString g ++ "," ++ toString b ++ "," ++ NumberText.plain c.roundedAlpha ++ ")"

def hexDigit? (c : Char) : Option Nat :=
  if '0' ≤ c ∧ c ≤ '9' then some (c.toNat - '0'.toNat)
  else if 'a' ≤ c ∧ c ≤ 'f' then some (c.toNat - 'a'.toNat + 10)
  else none

/-- A color of hexadecimal digits in small letters; a single digit stands for itself twice. -/
def ofHex? (cs : List Char) : Option (Color α) := do
  let make (r g b a : Nat) : Color α := ofBytes r g b (ofNat a / 255)
  match ← cs.mapM hexDigit? with
  | [r, g, b] => some (make (r * 17) (g * 17) (b * 17) 255)
  | [r, g, b, a] => some (make (r * 17) (g * 17) (b * 17) (a * 17))
  | [r, s, g, h, b, c] => some (make (r * 16 + s) (g * 16 + h) (b * 16 + c) 255)
  | [r, s, g, h, b, c, a, z] => some (make (r * 16 + s) (g * 16 + h) (b * 16 + c) (a * 16 + z))
  | _ => none

/-- What stands between the brackets of `rgb(…)` or `rgba(…)`. -/
def arguments? (cs : List Char) : Option (List Char) := do
  let rest ← Text.afterStart? "rgba(".toList cs <|> Text.afterStart? "rgb(".toList cs
  if rest.getLast? = some ')' then some rest.dropLast else none

def channel? (cs : List Char) : Option α := (Numeral.ofText? cs).map fun (x : α) => clamp x 0 255 / 255

def ofArguments? (cs : List Char) : Option (Color α) := do
  match (Text.split ',' cs).map Text.trim with
  | [r, g, b] => return ⟨← channel? r, ← channel? g, ← channel? b, 1⟩
  | [r, g, b, a] => do
    let alpha : α ← Numeral.ofText? a
    return ⟨← channel? r, ← channel? g, ← channel? b, clamp alpha 0 1⟩
  | _ => none

def ofLowerCss? (cs : List Char) : Option (Color α) :=
  if cs = "transparent".toList then some transparent
  else
    match cs with
    | '#' :: hex => ofHex? hex
    | _ => do ofArguments? (← arguments? cs)

def ofCss (text : String) : Result (Color α) :=
  let cs := Text.trim text.toList
  match ofLowerCss? (cs.map Char.toLower) with
  | some c => .ok c
  | none => .error (.data (.colorText (String.ofList cs)))

end Whisker.Color
