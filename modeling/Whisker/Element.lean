import Whisker.Animation
import Whisker.ErrorBar

/-!
# Chart elements

An element is the mark of one record, a bar, a point or a sector, with the error bars it carries. It can be
hit, drawn and blended with another state of itself.
-/

namespace Whisker

open Scalar

/-- A dataset's position and a record's position in it. -/
structure ElementRef where
  dataset : Nat
  index : Nat
  deriving DecidableEq, Repr

structure Bar (α : Type) where
  x : α
  y : α
  /-- The pixel of the value axis from which the bar grows. -/
  base : α
  /-- The size along the index axis. -/
  thickness : α
  horizontal : Bool
  fill : Color α
  border : Color α
  borderWidth : α

structure Point (α : Type) where
  x : α
  y : α
  radius : α
  hoverRadius : α
  hitRadius : α
  fill : Color α
  border : Color α
  borderWidth : α

structure Sector (α : Type) where
  x : α
  y : α
  inner : α
  outer : α
  start : α
  stop : α
  fill : Color α
  border : Color α
  borderWidth : α

inductive Mark (α : Type) where
  | bar (b : Bar α)
  | point (p : Point α)
  | sector (s : Sector α)

structure Element (α : Type) where
  dataset : Nat
  index : Nat
  mark : Mark α
  errorBars : PerAxis (Bounds α)
  style : Style α

variable {α : Type} [Scalar α]

namespace Bar

def width (b : Bar α) : α := if b.horizontal then abs (b.x - b.base) else b.thickness

def height (b : Bar α) : α := if b.horizontal then b.thickness else abs (b.y - b.base)

/-- The rectangle from base to value. -/
def box (b : Bar α) : Area α :=
  let half := b.thickness / 2
  if b.horizontal then ⟨Scalar.min b.x b.base, b.y - half, Scalar.max b.x b.base, b.y + half⟩
  else ⟨b.x - half, Scalar.min b.y b.base, b.x + half, Scalar.max b.y b.base⟩

def rect (b : Bar α) : Rect α :=
  let box := b.box
  ⟨box.left, box.top, box.right - box.left, box.bottom - box.top, b.fill, b.border, b.borderWidth⟩

def anchor (b : Bar α) : ErrorBar.Anchor α := ⟨b.x, b.y, some b.width, some b.height⟩

def blend (b c : Bar α) (t : α) : Bar α where
  x := Blend.number b.x c.x t
  y := Blend.number b.y c.y t
  base := Blend.number b.base c.base t
  thickness := Blend.number b.thickness c.thickness t
  horizontal := c.horizontal
  fill := Blend.color b.fill c.fill t
  border := Blend.color b.border c.border t
  borderWidth := Blend.number b.borderWidth c.borderWidth t

end Bar

namespace Point

def circle (p : Point α) (hovered : Bool) : Circle α :=
  ⟨p.x, p.y, if hovered then p.hoverRadius else p.radius, p.fill, p.border, p.borderWidth⟩

def anchor (p : Point α) : ErrorBar.Anchor α := ⟨p.x, p.y, none, none⟩

def blend (p q : Point α) (t : α) : Point α where
  x := Blend.number p.x q.x t
  y := Blend.number p.y q.y t
  radius := Blend.number p.radius q.radius t
  hoverRadius := Blend.number p.hoverRadius q.hoverRadius t
  hitRadius := q.hitRadius
  fill := Blend.color p.fill q.fill t
  border := Blend.color p.border q.border t
  borderWidth := Blend.number p.borderWidth q.borderWidth t

end Point

namespace Sector

def wedge (s : Sector α) : Wedge α :=
  ⟨s.x, s.y, s.inner, s.outer, s.start, s.stop, s.fill, s.border, s.borderWidth⟩

def anchor (s : Sector α) : ErrorBar.ArcAnchor α := ⟨s.x, s.y, s.start, s.stop, s.outer⟩

def blend (s u : Sector α) (t : α) : Sector α where
  x := Blend.number s.x u.x t
  y := Blend.number s.y u.y t
  inner := Blend.number s.inner u.inner t
  outer := Blend.number s.outer u.outer t
  start := Blend.number s.start u.start t
  stop := Blend.number s.stop u.stop t
  fill := Blend.color s.fill u.fill t
  border := Blend.color s.border u.border t
  borderWidth := Blend.number s.borderWidth u.borderWidth t

variable [Circular α]

/-- The point halfway between the arcs and the sides. -/
def middle (s : Sector α) : α × α :=
  let angle := (s.start + s.stop) / 2
  let radius := (s.inner + s.outer) / 2
  (s.x + radius * Circular.cos angle, s.y + radius * Circular.sin angle)

def contains (s : Sector α) (x y : α) : Bool :=
  let dx := x - s.x
  let dy := y - s.y
  let distance := Circular.hypot dx dy
  if distance < s.inner || s.outer < distance then false
  else
    let span := s.stop - s.start
    if Circular.turn ≤ span then true else Circular.wrap (Circular.atan2 dy dx - s.start) ≤ span

end Sector

namespace Mark

def blend (m n : Mark α) (t : α) : Mark α :=
  match m, n with
  | .bar b, .bar c => .bar (b.blend c t)
  | .point p, .point q => .point (p.blend q t)
  | .sector s, .sector u => .sector (s.blend u t)
  | _, n => n

/-- The name of the kind of mark. -/
def kind : Mark α → String
  | .bar _ => "rectangleWithErrorBar"
  | .point _ => "pointWithErrorBar"
  | .sector _ => "arcWithErrorBar"

/-- The shape to be drawn, if it can be. A point needs a radius of a tenth, a sector an angle. -/
def shape? (m : Mark α) (hovered : Bool) : Option (Shape α) :=
  match m with
  | .bar b => if b.rect.validate.isOk then some (.rect b.rect) else none
  | .point p =>
    let c := p.circle hovered
    if c.validate.isOk && 0.1 ≤ c.radius then some (.circle c) else none
  | .sector s => if s.wedge.validate.isOk && s.start < s.stop then some (.wedge s.wedge) else none

variable [Circular α]

/-- Where the mark stands: the value end of a bar, the center of a point, the middle of a sector. -/
def center : Mark α → α × α
  | .bar b => (b.x, b.y)
  | .point p => (p.x, p.y)
  | .sector s => s.middle

def contains (m : Mark α) (x y : α) : Bool :=
  match m with
  | .bar b => b.box.contains x y
  | .point p => Circular.hypot (x - p.x) (y - p.y) ≤ p.radius + p.hitRadius
  | .sector s => s.contains x y

end Mark

namespace Element

def ref (e : Element α) : ElementRef := ⟨e.dataset, e.index⟩

def blend (e f : Element α) (t : α) : Element α where
  dataset := f.dataset
  index := f.index
  mark := e.mark.blend f.mark t
  errorBars := Blend.pixels e.errorBars f.errorBars t
  style := Blend.style e.style f.style t

variable [Circular α]

def center (e : Element α) : α × α := e.mark.center

def contains (e : Element α) (x y : α) : Bool := e.mark.contains x y

def distance (e : Element α) (x y : α) : α :=
  let (cx, cy) := e.center
  Circular.hypot (x - cx) (y - cy)

/-- The lines of the element's error bars, drawable or not. -/
def errorLines (e : Element α) : List (Line α) :=
  match e.mark with
  | .bar b => ErrorBar.cartesian b.anchor e.errorBars e.style
  | .point p => ErrorBar.cartesian p.anchor e.errorBars e.style
  | .sector s => ErrorBar.radial s.anchor e.errorBars.r e.style

/-- Adds the mark to the series and its error bars on top; the number says how many lines the error bars took. -/
def draw (e : Element α) (hovered : Bool) (f : Frame α) : Frame α × Nat :=
  ErrorBar.draw (f.pushAll .series (e.mark.shape? hovered).toList) e.errorLines

end Element

end Whisker
