import Whisker.Layout

/-!
# Scenes

The frame of a layout: axes and grid first, then for each dataset its filled area, its line, its elements
and their error bars. What cannot be drawn is left out, except for the parts of an axis that the chart's
options alone decide.
-/

namespace Whisker

open Scalar

/-- Shapes with the layers they belong to, in the order in which they are added. -/
abbrev Placed (α : Type) := List (LayerKind × Shape α)

variable {α : Type} [Scalar α]

def Frame.place (f : Frame α) (shapes : Placed α) : Frame α := shapes.foldl (fun f s => f.push s.1 s.2) f

namespace Scene

structure Tick (α : Type) where
  pixel : α
  label : String

/-- Pixels that two category labels keep between them. -/
def categoryGap : α := 6

/-- How many pixels a category label takes along its axis. -/
def labelExtent (axis : Axis) (labels : List String) (fontSize : α) : α :=
  match axis with
  | .x => widest labels fontSize
  | _ => fontSize

/-- Every how many categories one is labelled. -/
def skipStep (axis : Axis) (labels : List String) (length fontSize : α) : Nat :=
  if labels.isEmpty || length ≤ 0 then 1
  else
    let fitting := toNat (Scalar.max (floor (length / (labelExtent axis labels fontSize + categoryGap))) 1)
    Nat.max ((labels.length + fitting - 1) / fitting) 1

/-- The ticks of a category axis: every `skipStep`-th label. -/
def categoryTicks (s : CategoryScale α) (fontSize : α) : List (Tick α) :=
  let labels := (List.range s.labels.length).filterMap s.tickLabel?
  let step := skipStep s.axis labels s.pixels.span fontSize
  (labels.zipIdx.filter fun (_, i) => i % step = 0).map fun (label, i) => ⟨s.indexPixel i, label⟩

variable [NumberText α]

def linearTicks (s : LinearScale α) : List (Tick α) :=
  s.ticks.map fun t => ⟨s.toPixel t, Ticks.label t (Ticks.spacing s.ticks)⟩

def ticks (s : AxisScale α) (o : AxisOptions α) : List (Tick α) :=
  match s with
  | .linear s => linearTicks s
  | .category s => categoryTicks s o.ticks.fontSize

/-- A grid line through a tick. -/
def gridLine (axis : Axis) (area : Area α) (g : Grid α) (t : Tick α) : Line α :=
  match axis with
  | .x => ⟨t.pixel, area.top, t.pixel, area.bottom, g.lineWidth, g.color⟩
  | _ => ⟨area.left, t.pixel, area.right, t.pixel, g.lineWidth, g.color⟩

def axisLine (axis : Axis) (area : Area α) (g : Grid α) : Line α :=
  match axis with
  | .x => ⟨area.left, area.bottom, area.right, area.bottom, g.lineWidth, g.color⟩
  | _ => ⟨area.left, area.top, area.left, area.bottom, g.lineWidth, g.color⟩

/-- Labels stand below the x axis and to the left of the y axis. -/
def tickText (axis : Axis) (area : Area α) (o : TickOptions α) (t : Tick α) : Label α :=
  match axis with
  | .x => ⟨t.label, t.pixel, area.bottom + o.fontSize + labelGap / 2, o.fontSize, o.color, .center, 0⟩
  | _ => ⟨t.label, area.left - labelGap / 2, t.pixel + o.fontSize / 3, o.fontSize, o.color, .right, 0⟩

/-- Titles stand at the edge of the canvas, the one of the y axis upright. -/
def titleText [Circular α] (axis : Axis) (viewport : Viewport) (area : Area α) (t : Title α) : Label α :=
  match axis with
  | .x => ⟨t.text, (area.left + area.right) / 2, ofNat viewport.height - t.fontSize / 2, t.fontSize, t.color, .center, 0⟩
  | _ => ⟨t.text, t.fontSize, (area.top + area.bottom) / 2, t.fontSize, t.color, .center, -(Circular.turn / 4)⟩

/-- The parts of a straight axis. -/
def axisShapes [Circular α] (viewport : Viewport) (area : Area α) (s : AxisScale α) (o : AxisOptions α) : Placed α :=
  if o.display then
    let ticks := ticks s o
    let grid := if o.grid.display then (ticks.map (gridLine s.axis area o.grid)).filter Line.isDrawable else []
    let texts := if o.ticks.display then
        ((ticks.filter (!·.label.isEmpty)).map (tickText s.axis area o.ticks)).filter fun l => l.validate.isOk
      else []
    let title := if o.title.display && !o.title.text.isEmpty then [titleText s.axis viewport area o.title] else []
    grid.map (.grid, .line ·) ++ [(.axis, .line (axisLine s.axis area o.grid))] ++ texts.map (.axis, .label ·)
      ++ title.map (.axis, .label ·)
  else []

/-- A ring for each tick at a positive distance, with the tick's value at its top. -/
def radialShapes (s : RadialScale α) (o : AxisOptions α) : Placed α :=
  if o.display then
    s.ticks.flatMap fun t =>
      let radius := s.distance t
      if isPositive radius then
        (if o.grid.display then
            [(.grid, .circle ⟨s.center.1, s.center.2, radius, .transparent, o.grid.color, o.grid.lineWidth⟩)]
          else [])
        ++ (if o.ticks.display then
            [(.axis, .label ⟨Ticks.label t (Ticks.spacing s.ticks), s.center.1,
              s.center.2 - radius + o.ticks.fontSize / 2, o.ticks.fontSize, o.ticks.color, .center, 0⟩)]
          else [])
      else []
  else []

/-- All axes of a layout. -/
def axes [Circular α] (options : ChartOptions α) (l : Layout α) : Result (Placed α) := do
  match l.scales with
  | .cartesian x y =>
    let area ← l.scales.area
    return axisShapes l.viewport area x options.axes.x ++ axisShapes l.viewport area y options.axes.y
  | .radial s => return radialShapes s options.axes.r

/-- The blocks of consecutive points that are finite. -/
def blocks : List (α × α) → List (List (α × α))
  | [] => []
  | p :: ps =>
    if isFinite p.1 && isFinite p.2 then
      match ps with
      | [] => [[p]]
      | q :: _ =>
        if isFinite q.1 && isFinite q.2 then
          match blocks ps with
          | b :: bs => (p :: b) :: bs
          | [] => [[p]]
        else [p] :: blocks ps
    else blocks ps

/-- A block closed on the base of the area. -/
def areaUnder (base : α) (fill : Color α) (block : List (α × α)) : Polygon α :=
  let closing := match block.head?, block.getLast? with
    | some first, some last => [(last.1, base), (first.1, base)]
    | _, _ => []
  ⟨block ++ closing, fill⟩

/-- The segments from each point of a block to the next. -/
def segments (style : LineStyle α) (block : List (α × α)) : List (Line α) :=
  List.zipWith (fun p q => ⟨p.1, p.2, q.1, q.2, style.width, style.color⟩) block block.tail

/-- The filled areas and then the line of a dataset; a point that is not finite breaks both. -/
def lineShapes (style : LineStyle α) (points : List (α × α)) : List (Shape α) :=
  let blocks := blocks points
  let areas := match style.fill with
    | some fill =>
      (((blocks.filter fun b => 2 ≤ b.length).map (areaUnder style.fillBase fill)).filter fun p => p.validate.isOk).map .polygon
    | none => []
  areas ++ ((blocks.flatMap (segments style)).filter Line.isDrawable).map .line

variable [Circular α]

/-- The line, the marks and the error bars of a dataset. -/
def drawDataset (hovered : Option ElementRef) (f : Frame α) (d : DatasetLayout α) : Frame α :=
  let f := match d.line with
    | some style => f.pushAll .series (lineShapes style (d.elements.map Element.center))
    | none => f
  d.elements.foldl (fun f e => (e.draw (hovered = some e.ref) f).1) f

/-- The frame of a layout. -/
def frame (options : ChartOptions α) (hovered : Option ElementRef) (l : Layout α) : Result (Frame α) := do
  let f := (Frame.empty l.viewport).place (← axes options l)
  let f := l.datasets.foldl (drawDataset hovered) f
  f.validate
  return f

end Scene

end Whisker
