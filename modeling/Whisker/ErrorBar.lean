import Whisker.Frame
import Whisker.Record
import Whisker.Scale.Category
import Whisker.Scale.Radial
import Whisker.Style

/-!
# Error bars

The bounds of a record are mapped by the scale of their axis, and a stack of bounds makes bars: the entries of the two
sides are paired, the shorter side being repeated from its start. A bar is a segment between its two ends and a whisker
across each end. The bars of a stack are drawn from the outermost inward, and lines that cannot be drawn are left out of
the frame.
-/

namespace Whisker

open Scalar

/-- A scale of one of the two straight axes. -/
inductive AxisScale (α : Type) where
  | linear (s : LinearScale α)
  | category (s : CategoryScale α)

namespace AxisScale

variable {α : Type} [Scalar α]

def axis : AxisScale α → Axis
  | .linear s => s.axis
  | .category s => s.axis

def pixels : AxisScale α → PixelRange α
  | .linear s => s.pixels
  | .category s => s.pixels

def toPixel : AxisScale α → α → α
  | .linear s => s.toPixel
  | .category s => s.toPixel

def basePixel : AxisScale α → α
  | .linear s => s.basePixel
  | .category s => s.basePixel

end AxisScale

namespace ErrorBar

variable {α : Type} [Scalar α]

/-- The bounds of the scale's axis in pixels. At rest, where an animation starts, they lie on the base pixel. -/
def onScale (scale : AxisScale α) (atRest : Bool) (r : Record α) (pixels : PerAxis (Bounds α)) : PerAxis (Bounds α) :=
  let a := scale.axis
  let toPixel (v : α) : α := if atRest then scale.basePixel else scale.toPixel v
  pixels.set a ((r.reach.get a).bounds.map toPixel)

/-- The radial bounds as distances from the center. At rest they are zero if the chart grows. -/
def onRadius (scale : RadialScale α) (atRest grows : Bool) (r : Record α) : PerAxis (Bounds α) :=
  let toRadius (v : α) : α := if atRest && grows then 0 else scale.distance v
  (PerAxis.const Bounds.empty).set .r (r.reach.r.bounds.map toRadius)

end ErrorBar

namespace Bounds

variable {α : Type}

/-- Pairs two lists up to the length of the longer one; there is no pair if one of them is empty. -/
def pairUp (lower upper : List α) : List (α × α) :=
  (List.range (max lower.length upper.length)).filterMap fun i => do
    return (← lower[i % lower.length]?, ← upper[i % upper.length]?)

/-- The bars of a stack, innermost first; a missing side lies at the center. -/
def pairs (b : Bounds α) (center : α) : List (α × α) :=
  pairUp (b.lower.elim [center] Bound.entries) (b.upper.elim [center] Bound.entries)

end Bounds

end Whisker

namespace Whisker.ErrorBar

open Scalar

/-- Where an error bar is attached. A shape with a thickness has a width and a height. -/
structure Anchor (α : Type) where
  x : α
  y : α
  width : Option α
  height : Option α

/-- The sector that carries a radial error bar. -/
structure ArcAnchor (α : Type) where
  x : α
  y : α
  start : α
  stop : α
  outer : α

variable {α : Type} [Scalar α]

/-- The segment of a bar and its two whiskers, each from the first to the second point. -/
def barLines (bar : Style.OfBar α) (segment low high : (α × α) × (α × α)) : List (Line α) :=
  let line (ends : (α × α) × (α × α)) (width : α) (color : Color α) : Line α :=
    ⟨ends.1.1, ends.1.2, ends.2.1, ends.2.2, width, color⟩
  [line segment bar.lineWidth bar.color, line low bar.whiskerLineWidth bar.whiskerColor,
    line high bar.whiskerLineWidth bar.whiskerColor]

/-- The lines of a stack, given those of each of its bars. -/
def stackLines (bars : List (α × α)) (lines : Nat → α × α → List (Line α)) : List (Line α) :=
  (bars.mapIdx lines).reverse.flatten

/-- An upright bar at the anchor's `x`. -/
def vertical (a : Anchor α) (b : Bounds α) (style : Style α) : List (Line α) :=
  stackLines (b.pairs a.y) fun i (low, high) =>
    let bar := style.ofBar a.width i
    barLines bar ((a.x, low), (a.x, high)) ((a.x - bar.half, low), (a.x + bar.half, low))
      ((a.x - bar.half, high), (a.x + bar.half, high))

/-- A level bar at the anchor's `y`. -/
def horizontal (a : Anchor α) (b : Bounds α) (style : Style α) : List (Line α) :=
  stackLines (b.pairs a.x) fun i (low, high) =>
    let bar := style.ofBar a.height i
    barLines bar ((low, a.y), (high, a.y)) ((low, a.y - bar.half), (low, a.y + bar.half))
      ((high, a.y - bar.half), (high, a.y + bar.half))

/-- The level bar of the x bounds, then the upright bar of the y bounds. -/
def cartesian (a : Anchor α) (pixels : PerAxis (Bounds α)) (style : Style α) : List (Line α) :=
  (if pixels.x.isEmpty then [] else horizontal a pixels.x style)
    ++ (if pixels.y.isEmpty then [] else vertical a pixels.y style)

/-- A bar along the middle of a sector, with whiskers along the tangent. Bounds are distances from the center. -/
def radial [Circular α] (a : ArcAnchor α) (b : Bounds α) (style : Style α) : List (Line α) :=
  if b.isEmpty then []
  else
    let angle := (a.start + a.stop) / 2
    let sin := Circular.sin angle
    let cos := Circular.cos angle
    stackLines (b.pairs a.outer) fun i (low, high) =>
      let bar := style.ofBar none i
      let ex := -sin * bar.half
      let ey := cos * bar.half
      let across (p : α × α) : (α × α) × (α × α) := ((p.1 + ex, p.2 + ey), (p.1 - ex, p.2 - ey))
      let lower := (a.x + low * cos, a.y + low * sin)
      let upper := (a.x + high * cos, a.y + high * sin)
      barLines bar (lower, upper) (across lower) (across upper)

/-- Adds a line to the error bars if it can be drawn, and counts it. -/
def drawLine (drawn : Frame α × Nat) (l : Line α) : Frame α × Nat :=
  if l.isDrawable then (drawn.1.push .errorBars (.line l), drawn.2 + 1) else drawn

/-- Adds lines to the error bars of a frame; the number says how many could be drawn. -/
def draw (f : Frame α) (lines : List (Line α)) : Frame α × Nat := lines.foldl drawLine (f, 0)

end Whisker.ErrorBar
