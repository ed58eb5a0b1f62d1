import Whisker.Datum
import Whisker.Geometry
import Whisker.Json.Decode
import Whisker.Style

/-!
# Animation

How far an animation has come after some time, as a number from 0 to 1, and the state at such a fraction of the way from
one to another. Parts whose forms differ jump to the second state at once.
-/

namespace Whisker

open Scalar

inductive Easing where
  | linear
  | inOutQuad
  | outQuart
  deriving DecidableEq, Repr

structure Animation (α : Type) where
  /-- In milliseconds. -/
  duration : α
  easing : Easing
  /-- Sectors sweep in from the start angle. -/
  rotates : Bool
  /-- Sectors grow from the center. -/
  grows : Bool
  deriving BEq

namespace Easing

def names : List (String × Easing) :=
  [("linear", .linear), ("easeInOutQuad", .inOutQuad), ("easeOutQuart", .outQuart)]

def name : Easing → String
  | .linear => "linear"
  | .inOutQuad => "easeInOutQuad"
  | .outQuart => "easeOutQuart"

variable {α : Type} [Scalar α]

def apply (e : Easing) (t : α) : α :=
  let t := clamp t 0 1
  match e with
  | .linear => t
  | .inOutQuad =>
    let u := t * 2
    if u < 1 then 0.5 * u * u else -0.5 * ((u - 1) * (u - 1 - 2) - 1)
  | .outQuart => -(powNat (t - 1) 4 - 1)

end Easing

namespace Animation

variable {α : Type} [Scalar α]

def default : Animation α := ⟨1000, .outQuart, true, true⟩

def validate (a : Animation α) : Result Unit :=
  check (isSize a.duration) .animationDuration

/-- Progress after some milliseconds; without a duration all is done at once. -/
def progress (a : Animation α) (elapsed : α) : α :=
  if a.duration ≤ 0 || !isFinite elapsed then 1 else a.easing.apply (elapsed / a.duration)

def isComplete (a : Animation α) (elapsed : α) : Bool := a.duration ≤ 0 || a.duration ≤ elapsed

variable [NumberText α]

def ofJson? (v : Json) : Option (Animation α) := do
  let f ← Json.fields? ["duration", "easing", "animateRotate", "animateScale"] v
  return { duration := ← f.getD? "duration" Json.number? 1000
           easing := ← f.getD? "easing" (Json.choice? Easing.names) .outQuart
           rotates := ← f.getD? "animateRotate" Json.bool? true
           grows := ← f.getD? "animateScale" Json.bool? true }

def toJson (a : Animation α) : Json :=
  .ofMembers [("duration", Json.ofNumber a.duration), ("easing", .ofText a.easing.name),
    ("animateRotate", .bool a.rotates), ("animateScale", .bool a.grows)]

end Animation

variable {α : Type} [Scalar α]

namespace Blend

/-- Equal numbers stay as they are, infinities included. -/
def number (x y factor : α) : α := if x == y then y else x + (y - x) * factor

def color (c d : Color α) (factor : α) : Color α := if c == d then d else d.mix c factor

def option {β : Type} (blend : β → β → β) : Option β → Option β → Option β
  | some v, some w => some (blend v w)
  | _, w => w

/-- Entry by entry, for lists of one length. -/
def entries {β : Type} (blend : β → β → β) (vs ws : List β) : List β :=
  if vs.length = ws.length then List.zipWith blend vs ws else ws

def bound (b c : Bound α) (factor : α) : Bound α :=
  match b, c with
  | .single v, .single w => .single (number v w factor)
  | .stack vs, .stack ws => .stack (entries (number · · factor) vs ws)
  | _, c => c

def bounds (b c : Bounds α) (factor : α) : Bounds α :=
  ⟨option (bound · · factor) b.lower c.lower, option (bound · · factor) b.upper c.upper⟩

def pixels (p q : PerAxis (Bounds α)) (factor : α) : PerAxis (Bounds α) :=
  ⟨bounds p.x q.x factor, bounds p.y q.y factor, bounds p.r q.r factor⟩

def setting {β : Type} (blend : β → β → β) : Setting β → Setting β → Setting β
  | .all v, .all w => .all (blend v w)
  | .each vs, .each ws => .each (entries blend vs ws)
  | .wrapped vs, .wrapped ws => .wrapped (entries blend vs ws)
  | _, t => t

def style (s t : Style α) (factor : α) : Style α where
  lineWidth := setting (number · · factor) s.lineWidth t.lineWidth
  color := setting (color · · factor) s.color t.color
  whiskerLineWidth := setting (number · · factor) s.whiskerLineWidth t.whiskerLineWidth
  whiskerRatio := setting (number · · factor) s.whiskerRatio t.whiskerRatio
  whiskerSize := setting (number · · factor) s.whiskerSize t.whiskerSize
  whiskerColor := setting (color · · factor) s.whiskerColor t.whiskerColor

end Blend

end Whisker
