import Whisker.Chart
import Whisker.Element
import Whisker.Geometry
import Whisker.Scale.Category

/-!
# Layouts

A chart laid out on a canvas: its scales and, for each dataset that is shown, its records and their elements. The plot
rectangle is the canvas without the room that tick labels and titles need. The width of a text is estimated from its
characters.
-/

namespace Whisker

open Scalar

inductive Scales (α : Type) where
  | cartesian (x y : AxisScale α)
  | radial (s : RadialScale α)

/-- How the points of a dataset are joined. -/
structure LineStyle (α : Type) where
  color : Color α
  width : α
  /-- The color of the area under the line, if it is filled. -/
  fill : Option (Color α)
  /-- The pixel on which the area closes. -/
  fillBase : α

structure DatasetLayout (α : Type) where
  dataset : Nat
  records : List (Record α)
  elements : List (Element α)
  line : Option (LineStyle α)

structure Layout (α : Type) where
  viewport : Viewport
  scales : Scales α
  datasets : List (DatasetLayout α)

variable {α : Type} [Scalar α]

/-- The rectangle that the scales span. -/
def Scales.area : Scales α → Result (Area α)
  | .cartesian x y =>
    let p := x.pixels
    let q := y.pixels
    Area.make (Scalar.min p.start p.stop) (Scalar.min q.start q.stop) (Scalar.max p.start p.stop)
      (Scalar.max q.start q.stop)
  | .radial s => Area.make (s.center.1 - s.radius) (s.center.2 - s.radius) (s.center.1 + s.radius) (s.center.2 + s.radius)

namespace Layout

def elements (l : Layout α) : List (Element α) := l.datasets.flatMap DatasetLayout.elements

def elementCount (l : Layout α) : Nat := l.elements.length

/-- The element of a record. -/
def element? (l : Layout α) (ref : ElementRef) : Option (Element α) := do
  let d ← l.datasets.find? (·.dataset = ref.dataset)
  d.elements.find? (·.index = ref.index)

/-- A dataset that is shown, with its records. -/
structure Shown (α : Type) where
  index : Nat
  dataset : Dataset α
  records : List (Record α)

/-- The datasets that are shown, read in one way. -/
def shown (c : Chart α) (read : Dataset α → List (Record α)) : List (Shown α) :=
  c.visible.map fun (i, d) => ⟨i, d, read d⟩

/-- What an axis has to show of all datasets. -/
def extent (shown : List (Shown α)) (a : Axis) : Option (Extent α) :=
  Extent.merge (shown.map fun s => Extent.ofErrorBars s.records a)

def fillOf (d : Dataset α) : Color α := d.background.getD faint

def borderOf (d : Dataset α) : Color α := d.border.getD faint

def styleOf (c : Chart α) (d : Dataset α) : Style α := Style.resolve c.options.style d.style

end Layout

namespace Dataset

/-- The value axis holds the value, the other one the position; bounds lie on the value axis. -/
def categoryRecords (valueAxis : Axis) (d : Dataset α) : List (Record α) :=
  Record.attachAll valueAxis d.data 0 <| d.data.mapIdx fun i datum =>
    let value := (datum.values.get valueAxis).getD nan
    let position : α := ofNat i
    match valueAxis with
    | .x => .ofValues ⟨value, position, nan⟩
    | _ => .ofValues ⟨position, value, nan⟩

/-- Values and bounds on both straight axes. -/
def pointRecords (d : Dataset α) : List (Record α) :=
  Record.attachAll .y d.data 0 <| Record.attachAll .x d.data 0 <| d.data.map fun datum =>
    .ofValues ⟨datum.values.x.getD nan, datum.values.y.getD nan, nan⟩

/-- The radial value of a datum; `y` will do for it. -/
def radialValue (datum : Datum α) : α := (datum.values.r <|> datum.values.y).getD nan

def radialRecords (d : Dataset α) : List (Record α) :=
  Record.attachAll .r d.data 0 <| d.data.mapIdx fun i datum => .ofValues ⟨ofNat i, nan, radialValue datum⟩

end Dataset

/-- The width of a character in units of the font size. -/
def charWidth (c : Char) : α :=
  if '0' ≤ c ∧ c ≤ '9' then 0.62
  else if c = '.' ∨ c = ',' then 0.34
  else if c = '-' ∨ c = '+' ∨ c = '%' then 0.42
  else if c = ' ' then 0.33
  else 0.58

/-- An estimate of a text's width in pixels, never less than the font size. -/
def textWidth (text : String) (fontSize : α) : α :=
  let units := text.toList.foldl (fun w c => w + charWidth c) (0 : α)
  Scalar.max (units * fontSize) fontSize

def widest (texts : List String) (fontSize : α) : α :=
  (texts.map (textWidth · fontSize)).foldl Scalar.max 0

/-- Pixels between a tick label and the axis. -/
def labelGap : α := 10

namespace Area

/-- Room for a title, if one is shown. -/
def titleRoom (o : AxisOptions α) : α :=
  if o.title.display && !o.title.text.isEmpty then o.title.fontSize + 8 else 0

def leftRoom (o : AxisOptions α) (labels : List String) : α :=
  if o.display then
    (if o.ticks.display then 0 + (widest labels o.ticks.fontSize + labelGap) else 0) + titleRoom o
  else 0

def bottomRoom (o : AxisOptions α) : α :=
  if o.display then (if o.ticks.display then 0 + (o.ticks.fontSize + labelGap) else 0) + titleRoom o else 0

/-- The least margin. -/
def margin : α := 8

/-- The plot rectangle of a chart with straight axes, given the labels of its y axis. -/
def cartesian (viewport : Viewport) (axes : PerAxis (AxisOptions α)) (yLabels : List String) : Result (Area α) :=
  inset viewport (Scalar.max (leftRoom axes.y yLabels) margin) 12 16 (Scalar.max (bottomRoom axes.x) margin)

/-- The rectangle of a polar chart: the canvas without a margin, or all of it if it is too small for one. -/
def polar (viewport : Viewport) : Result (Area α) :=
  match inset viewport (margin : α) margin margin margin with
  | .ok a => .ok a
  | .error _ => inset viewport 0 0 0 0

/-- Categories run left to right, or top to bottom. -/
def categoryPixels (a : Area α) : Axis → PixelRange α
  | .x => ⟨a.left, a.right⟩
  | _ => ⟨a.top, a.bottom⟩

end Area

namespace Ticks

/-- The distance of the first two ticks, or 1 if there are fewer. -/
def spacing : List α → α
  | first :: second :: _ => second - first
  | _ => 1

/-- The labels that a value axis will probably show, before its length is known. -/
def preview [NumberText α] (extent : Option (Extent α)) (options : Scale.Options α) : List String :=
  let (low, high) := Scale.tickRange extent options
  let ticks := cover low high most
  ticks.map fun t => label t (spacing ticks)

end Ticks

end Whisker
