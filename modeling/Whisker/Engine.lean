import Whisker.Chart.Codec
import Whisker.Registry
import Whisker.Renderer
import Whisker.Scene

/-!
# Engines

An engine holds a chart on a canvas with its layout, the element under the pointer and a renderer. Requests
run in a state monad that keeps the state also where a request fails, so what a failed request leaves behind
is part of its meaning.
-/

namespace Whisker

open Scalar

structure Engine (α : Type) where
  renderer : Renderer α
  registry : Registry
  chartType : ChartType
  chart : Chart α
  viewport : Viewport
  layout : Layout α
  hovered : Option ElementRef

namespace Layout

variable {α : Type} [Scalar α]

/-- Blends the entries that both lists have; what only the second has stays. -/
def blendAll {β : Type} (blend : β → β → β) : List β → List β → List β
  | x :: xs, y :: ys => blend x y :: blendAll blend xs ys
  | _, ys => ys

def blendLine (l m : LineStyle α) (t : α) : LineStyle α := { m with fillBase := Blend.number l.fillBase m.fillBase t }

def blendDataset (t : α) (d e : DatasetLayout α) : DatasetLayout α :=
  { e with
    elements := blendAll (·.blend · t) d.elements e.elements
    line := Blend.option (blendLine · · t) d.line e.line }

/-- The elements a fraction of the way between two layouts; all else is as in the second. -/
def blend (l m : Layout α) (t : α) : Layout α := { m with datasets := blendAll (blendDataset t) l.datasets m.datasets }

end Layout

namespace Engine

variable {α : Type} [Scalar α] [NumberText α] [Circular α]

/-- A new engine, in which nothing is rendered or hovered yet. -/
def start (renderer : Renderer α) (registry : Registry) (setup : Setup α) : Result (Engine α) := do
  setup.viewport.validate
  setup.chart.validate
  let chartType ← registry.resolve setup.chart.chartType
  let layout ← chartType.kind.layout setup.chart setup.viewport false
  return { renderer, registry, chartType, chart := setup.chart, viewport := setup.viewport, layout, hovered := none }

/-- The layout from which the animation starts. -/
def restLayout (e : Engine α) : Result (Layout α) := e.chartType.kind.layout e.chart e.viewport true

/-- The layout some milliseconds into the animation. -/
def animatedLayout (e : Engine α) (elapsed : α) : Result (Layout α) := do
  let animation := e.chart.options.animation
  if animation.isComplete elapsed then return e.layout
  return (← e.restLayout).blend e.layout (animation.progress (Scalar.max elapsed 0))

def frameOf (e : Engine α) (l : Layout α) : Result (Frame α) := Scene.frame e.chart.options e.hovered l

def frame (e : Engine α) : Result (Frame α) := e.frameOf e.layout

def animatedFrame (e : Engine α) (elapsed : α) : Result (Frame α) := do e.frameOf (← e.animatedLayout elapsed)

/-- The order of distances: `nan` lies above every number. -/
def nearer (a b : α) : Bool := a < b || (isNaN b && !isNaN a)

/-- The first of the elements at the least distance. -/
def nearest? (distance : Element α → α) : List (Element α) → Option (Element α)
  | [] => none
  | e :: es => some (es.foldl (fun best f => if nearer (distance f) (distance best) then f else best) e)

/-- The nearest of the elements that contain a point. -/
def elementAt? (e : Engine α) (x y : α) : Option ElementRef :=
  if isFinite x && isFinite y then
    (nearest? (·.distance x y) (e.layout.elements.filter (·.contains x y))).map Element.ref
  else none

def tooltip (e : Engine α) (ref : ElementRef) : Result String := e.chartType.kind.tooltip e.chart ref

def tooltipAt (e : Engine α) (x y : α) : Result (Option String) :=
  match e.elementAt? x y with
  | some ref => (e.tooltip ref).map some
  | none => .ok none

/-- A request to an engine. -/
abbrev Request (α : Type) := EStateM Error (Engine α)

/-- A computation that does not touch the engine. -/
def Request.ofResult {β : Type} : Result β → Request α β
  | .ok v => pure v
  | .error e => throw e

def setViewport (viewport : Viewport) : Request α Unit := do
  Request.ofResult viewport.validate
  let e ← get
  let layout ← Request.ofResult (e.chartType.kind.layout e.chart viewport false)
  modify ({ · with layout })
  modify ({ · with viewport })

/-- Replaces the chart; its type is looked up again. -/
def setChart (chart : Chart α) : Request α Unit := do
  Request.ofResult chart.validate
  let e ← get
  let chartType ← Request.ofResult (e.registry.resolve chart.chartType)
  let layout ← Request.ofResult (chartType.kind.layout chart e.viewport false)
  modify ({ · with chartType, chart, layout, hovered := none })

/-- Lays out a changed chart of the same type and keeps it. -/
def commit (chart : Chart α) : Request α Unit := do
  let e ← get
  let layout ← Request.ofResult (e.chartType.kind.layout chart e.viewport false)
  modify ({ · with layout })
  modify ({ · with chart, hovered := none })

/-- Replaces the data of a dataset. -/
def setData (i : Nat) (data : List (Datum α)) : Request α Unit := do
  let e ← get
  let dataset ← Request.ofResult (e.chart.dataset i)
  commit { e.chart with datasets := e.chart.datasets.set i { dataset with data } }

def pushDataset (dataset : Dataset α) : Request α Unit := do
  let e ← get
  let chart := { e.chart with datasets := e.chart.datasets ++ [dataset] }
  Request.ofResult chart.validate
  commit chart

/-- Lays out the chart again. -/
def update : Request α Unit := do
  let e ← get
  let layout ← Request.ofResult (e.chartType.kind.layout e.chart e.viewport false)
  modify ({ · with layout })

def hoverAt (x y : α) : Request α (Option ElementRef) := do
  let e ← get
  modify ({ · with hovered := e.elementAt? x y })
  return e.elementAt? x y

def clearHover : Request α Unit := modify ({ · with hovered := none })

/-- Hands a frame to the renderer. -/
def draw (frame : Result (Frame α)) : Request α Unit := do
  let e ← get
  let frame ← Request.ofResult frame
  let renderer ← Request.ofResult (e.renderer.render frame)
  modify ({ · with renderer })

def render : Request α Unit := do draw (← get).frame

def renderAnimated (elapsed : α) : Request α Unit := do draw ((← get).animatedFrame elapsed)

end Engine

end Whisker
