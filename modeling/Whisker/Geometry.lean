import Whisker.Error
import Whisker.Scalar

/-!
# Axes, viewports and pixel ranges
-/

namespace Whisker

inductive Axis where
  | x
  | y
  | r
  deriving DecidableEq, Repr, Inhabited

def Axis.name : Axis → String
  | .x => "x"
  | .y => "y"
  | .r => "r"

/-- One value for each axis. -/
structure PerAxis (β : Type) where
  x : β
  y : β
  r : β
  deriving DecidableEq, BEq, Repr

namespace PerAxis

variable {β γ : Type}

def get (p : PerAxis β) : Axis → β
  | .x => p.x
  | .y => p.y
  | .r => p.r

def set (p : PerAxis β) (a : Axis) (v : β) : PerAxis β :=
  match a with
  | .x => { p with x := v }
  | .y => { p with y := v }
  | .r => { p with r := v }

def map (f : β → γ) (p : PerAxis β) : PerAxis γ := ⟨f p.x, f p.y, f p.r⟩

def const (v : β) : PerAxis β := ⟨v, v, v⟩

@[simp] theorem get_set_same (p : PerAxis β) (a : Axis) (v : β) : (p.set a v).get a = v := by
  cases a <;> rfl

theorem get_set_other (p : PerAxis β) {a b : Axis} (h : b ≠ a) (v : β) : (p.set a v).get b = p.get b := by
  cases a <;> cases b <;> simp_all [get, set]

@[simp] theorem get_map (f : β → γ) (p : PerAxis β) (a : Axis) : (p.map f).get a = f (p.get a) := by
  cases a <;> rfl

@[simp] theorem get_const (v : β) (a : Axis) : (const v).get a = v := by cases a <;> rfl

end PerAxis

/-- Canvas size in pixels; both sides fit 32 bits. -/
structure Viewport where
  width : Nat
  height : Nat
  deriving DecidableEq, Repr

namespace Viewport

def isValid (v : Viewport) : Bool := 0 < v.width && 0 < v.height

def validate (v : Viewport) : Result Unit :=
  if v.isValid then .ok () else .error (.viewport v.width v.height)

end Viewport

variable {α : Type} [Scalar α]

open Scalar

/-- The pixels that a scale maps its domain onto: `start` belongs to the domain's first end and may exceed `stop`. -/
structure PixelRange (α : Type) where
  start : α
  stop : α

namespace PixelRange

def length (p : PixelRange α) : α := p.stop - p.start

def span (p : PixelRange α) : α := abs p.length

/-- The pixel at a fraction of the way. -/
def lerp (p : PixelRange α) (fraction : α) : α := p.start + fraction * p.length

def isFinite (p : PixelRange α) : Bool := Scalar.isFinite p.start && Scalar.isFinite p.stop

end PixelRange

/-- The plot rectangle, in pixels. -/
structure Area (α : Type) where
  left : α
  top : α
  right : α
  bottom : α

namespace Area

def make (left top right bottom : α) : Result (Area α) := do
  check ([left, top, right, bottom].all isFinite) .areaEdges
  check (!(right ≤ left || bottom ≤ top)) .areaSize
  return ⟨left, top, right, bottom⟩

/-- What is left of a viewport inside the given margins. -/
def inset (viewport : Viewport) (left top right bottom : α) : Result (Area α) := do
  viewport.validate
  make left top (ofNat viewport.width - right) (ofNat viewport.height - bottom)

def width (a : Area α) : α := a.right - a.left

def height (a : Area α) : α := a.bottom - a.top

def center (a : Area α) : α × α := ((a.left + a.right) * 0.5, (a.top + a.bottom) * 0.5)

def contains (a : Area α) (x y : α) : Bool :=
  a.left ≤ x && x ≤ a.right && a.top ≤ y && y ≤ a.bottom

/-- The x axis runs left to right, the others bottom to top. -/
def pixels (a : Area α) : Axis → PixelRange α
  | .x => ⟨a.left, a.right⟩
  | _ => ⟨a.bottom, a.top⟩

end Area

end Whisker
