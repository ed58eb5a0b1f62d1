import Whisker.Color
import Whisker.Geometry

/-!
# Shapes and frames

The six things that can be drawn, in pixels, and the rules that a shape has to keep. Angles run clockwise from the
positive x axis. A frame is a viewport and a stack of layers, painted in order. Within a layer polygons are painted
first, then rectangles, wedges, lines, circles and labels.
-/

namespace Whisker

open Scalar

variable {α : Type} [Scalar α]

structure Line (α : Type) where
  x1 : α
  y1 : α
  x2 : α
  y2 : α
  width : α
  color : Color α

namespace Line

def validate (l : Line α) : Result Unit := do
  check (isFinite l.x1 && isFinite l.y1 && isFinite l.x2 && isFinite l.y2) .lineCoordinates
  check (isPositive l.width) .lineWidth
  l.color.validate

def isDrawable (l : Line α) : Bool := l.validate.isOk

end Line

structure Rect (α : Type) where
  x : α
  y : α
  width : α
  height : α
  fill : Color α
  border : Color α
  borderWidth : α

def Rect.validate (r : Rect α) : Result Unit := do
  check (isFinite r.x && isFinite r.y) .rectOrigin
  check (isSize r.width && isSize r.height) .rectSize
  check (isSize r.borderWidth) .rectBorder
  r.fill.validate
  r.border.validate

structure Circle (α : Type) where
  x : α
  y : α
  radius : α
  fill : Color α
  border : Color α
  borderWidth : α

def Circle.validate (c : Circle α) : Result Unit := do
  check (isFinite c.x && isFinite c.y) .circleCenter
  check (isSize c.radius) .circleRadius
  check (isSize c.borderWidth) .circleBorder
  c.fill.validate
  c.border.validate

/-- A sector of a ring. -/
structure Wedge (α : Type) where
  x : α
  y : α
  inner : α
  outer : α
  start : α
  stop : α
  fill : Color α
  border : Color α
  borderWidth : α

def Wedge.validate (w : Wedge α) : Result Unit := do
  check ([w.x, w.y, w.inner, w.outer, w.start, w.stop].all isFinite) .wedgeGeometry
  check (!(w.inner < 0 || w.outer < w.inner)) .wedgeRadii
  check (isSize w.borderWidth) .wedgeBorder
  w.fill.validate
  w.border.validate

structure Polygon (α : Type) where
  points : List (α × α)
  fill : Color α

def Polygon.validate (p : Polygon α) : Result Unit := do
  check (3 ≤ p.points.length) .polygonSize
  check (p.points.all fun q => isFinite q.1 && isFinite q.2) .polygonPoints
  p.fill.validate

inductive Align where
  | left
  | center
  | right
  deriving DecidableEq, Repr

structure Label (α : Type) where
  text : String
  x : α
  y : α
  fontSize : α
  color : Color α
  align : Align
  /-- Clockwise, about the anchor. -/
  rotation : α

def Label.validate (l : Label α) : Result Unit := do
  check (!l.text.isEmpty) .textEmpty
  check (isFinite l.x && isFinite l.y && isFinite l.rotation) .textCoordinates
  check (isPositive l.fontSize) .fontSize
  l.color.validate

inductive Shape (α : Type) where
  | line (l : Line α)
  | rect (r : Rect α)
  | circle (c : Circle α)
  | wedge (w : Wedge α)
  | polygon (p : Polygon α)
  | label (l : Label α)

def Shape.validate : Shape α → Result Unit
  | .line l => l.validate
  | .rect r => r.validate
  | .circle c => c.validate
  | .wedge w => w.validate
  | .polygon p => p.validate
  | .label l => l.validate

end Whisker

namespace Whisker

inductive LayerKind where
  | background
  | grid
  | series
  | errorBars
  | axis
  deriving DecidableEq, Repr

namespace LayerKind

/-- All layers in paint order: error bars lie on the series, and the axes on both. -/
def all : List LayerKind := [.background, .grid, .series, .errorBars, .axis]

def name : LayerKind → String
  | .background => "Background"
  | .grid => "Grid"
  | .series => "Series"
  | .errorBars => "ErrorBars"
  | .axis => "Axis"

end LayerKind

structure Layer (α : Type) where
  kind : LayerKind
  polygons : List (Polygon α)
  rects : List (Rect α)
  wedges : List (Wedge α)
  lines : List (Line α)
  circles : List (Circle α)
  labels : List (Label α)

namespace Layer

variable {α : Type}

def empty (kind : LayerKind) : Layer α := ⟨kind, [], [], [], [], [], []⟩

def isEmpty (l : Layer α) : Bool :=
  l.polygons.isEmpty && l.rects.isEmpty && l.wedges.isEmpty && l.lines.isEmpty && l.circles.isEmpty && l.labels.isEmpty

def push (l : Layer α) : Shape α → Layer α
  | .line s => { l with lines := l.lines ++ [s] }
  | .rect s => { l with rects := l.rects ++ [s] }
  | .circle s => { l with circles := l.circles ++ [s] }
  | .wedge s => { l with wedges := l.wedges ++ [s] }
  | .polygon s => { l with polygons := l.polygons ++ [s] }
  | .label s => { l with labels := l.labels ++ [s] }

@[simp] theorem kind_push (l : Layer α) (s : Shape α) : (l.push s).kind = l.kind := by cases s <;> rfl

/-- The shapes in the order in which they are painted. -/
def shapes (l : Layer α) : List (Shape α) :=
  l.polygons.map .polygon ++ l.rects.map .rect ++ l.wedges.map .wedge ++ l.lines.map .line ++ l.circles.map .circle
    ++ l.labels.map .label

def validate [Scalar α] (l : Layer α) : Result Unit := l.shapes.forM Shape.validate

end Layer

structure Frame (α : Type) where
  viewport : Viewport
  layers : List (Layer α)

namespace Frame

variable {α : Type}

def empty (viewport : Viewport) : Frame α := ⟨viewport, LayerKind.all.map Layer.empty⟩

/-- Adds a shape to the first layer of a kind, or to a new one on top. -/
def pushTo (kind : LayerKind) (s : Shape α) : List (Layer α) → List (Layer α)
  | [] => [(Layer.empty kind).push s]
  | l :: ls => if l.kind = kind then l.push s :: ls else l :: pushTo kind s ls

def push (f : Frame α) (kind : LayerKind) (s : Shape α) : Frame α := { f with layers := pushTo kind s f.layers }

def pushAll (f : Frame α) (kind : LayerKind) (ss : List (Shape α)) : Frame α := ss.foldl (·.push kind ·) f

def layer? (f : Frame α) (kind : LayerKind) : Option (Layer α) := f.layers.find? (·.kind = kind)

def linesOf (f : Frame α) (kind : LayerKind) : List (Line α) := ((f.layer? kind).map Layer.lines).getD []

def lines (f : Frame α) : List (Line α) := f.layers.flatMap Layer.lines

def lineCount (f : Frame α) : Nat := f.lines.length

/-- The labels of all layers, lowest layer first. -/
def labels (f : Frame α) : List (Label α) := f.layers.flatMap Layer.labels

def labelCount (f : Frame α) : Nat := f.labels.length

def isEmpty (f : Frame α) : Bool := f.layers.all Layer.isEmpty

def validate [Scalar α] (f : Frame α) : Result Unit := do
  f.viewport.validate
  f.layers.forM Layer.validate

end Frame

end Whisker
