import Whisker.Animation
import Whisker.Scale.Linear
import Whisker.Style

/-!
# Chart descriptions

What a chart shows and how: its type, labels, datasets and options. `validate` states the rules that a
description has to keep; all else is decided by the layout.
-/

namespace Whisker

open Scalar

structure Title (α : Type) where
  display : Bool
  text : String
  color : Color α
  fontSize : α
  deriving BEq

structure TickOptions (α : Type) where
  display : Bool
  /-- The most characters of a category label that are shown. -/
  maxChars : Option Nat
  color : Color α
  fontSize : α
  deriving BEq

structure Grid (α : Type) where
  display : Bool
  color : Color α
  lineWidth : α
  deriving BEq

structure AxisOptions (α : Type) where
  display : Bool
  /-- Unset means as the chart type has it. -/
  beginAtZero : Option Bool
  min : Option α
  max : Option α
  title : Title α
  ticks : TickOptions α
  grid : Grid α
  deriving BEq

structure PointOptions (α : Type) where
  radius : α
  hoverRadius : α
  hitRadius : α
  borderWidth : α
  deriving BEq

structure BarOptions (α : Type) where
  /-- The share of a category's band that its bars take. -/
  categoryShare : α
  /-- The share of its slot that a bar takes. -/
  barShare : α
  borderWidth : α
  deriving BEq

structure SectorOptions (α : Type) where
  borderWidth : α
  borderColor : Color α
  deriving BEq

structure ChartOptions (α : Type) where
  /-- The axis of the categories; `y` lays bars on their side. -/
  indexAxis : Axis
  axes : PerAxis (AxisOptions α)
  point : PointOptions α
  bar : BarOptions α
  sector : SectorOptions α
  /-- Kept with the description; no legend is drawn. -/
  legend : Bool
  animation : Animation α
  fill : Option Bool
  style : Style.Overrides α
  deriving BEq

structure Dataset (α : Type) where
  label : Option String
  data : List (Datum α)
  background : Option (Color α)
  border : Option (Color α)
  borderWidth : Option α
  fill : Option Bool
  hidden : Bool
  style : Style.Overrides α
  deriving BEq

structure Chart (α : Type) where
  chartType : String
  labels : List String
  datasets : List (Dataset α)
  options : ChartOptions α
  deriving BEq

variable {α : Type} [Scalar α]

/-- The gray of texts. -/
def textColor : Color α := .ofBytes 102 102 102 1

/-- The color of fills, borders and grid lines that set none. -/
def faint : Color α := ⟨0, 0, 0, 0.1⟩

def Title.default : Title α := ⟨false, "", textColor, 12⟩

def TickOptions.default : TickOptions α := ⟨true, none, textColor, 12⟩

def Grid.default : Grid α := ⟨true, faint, 1⟩

def AxisOptions.default : AxisOptions α := ⟨true, none, none, none, .default, .default, .default⟩

/-- The radial axis starts at zero. -/
def AxisOptions.defaults : PerAxis (AxisOptions α) := ⟨.default, .default, { AxisOptions.default with beginAtZero := some true }⟩

def PointOptions.default : PointOptions α := ⟨3, 4, 1, 1⟩

def BarOptions.default : BarOptions α := ⟨0.8, 0.9, 0⟩

def SectorOptions.default : SectorOptions α := ⟨2, .white⟩

def ChartOptions.default : ChartOptions α :=
  ⟨.x, AxisOptions.defaults, .default, .default, .default, true, .default, none, .empty⟩

def Dataset.ofData (data : List (Datum α)) : Dataset α := ⟨none, data, none, none, none, none, false, .empty⟩

def AxisOptions.scale (o : AxisOptions α) (beginAtZero : Bool) : Scale.Options α :=
  ⟨o.beginAtZero.getD beginAtZero, o.min, o.max⟩

def isShare (x : α) : Bool := isPositive x && !(1 < x)

def PointOptions.validate (p : PointOptions α) : Result Unit := do
  check (isSize p.radius) (.pointOption "radius")
  check (isSize p.hoverRadius) (.pointOption "hoverRadius")
  check (isSize p.hitRadius) (.pointOption "hitRadius")
  check (isSize p.borderWidth) (.pointOption "borderWidth")

def BarOptions.validate (b : BarOptions α) : Result Unit := do
  check (isShare b.categoryShare) (.barOption "categoryPercentage")
  check (isShare b.barShare) (.barOption "barPercentage")
  check (isSize b.borderWidth) .barBorder

def ChartOptions.validate (o : ChartOptions α) : Result Unit := do
  check (o.indexAxis != .r) .indexAxis
  o.point.validate
  o.bar.validate
  o.animation.validate

/-- Names the dataset in which data are at fault. -/
def Error.inDataset (i : Nat) : Error → Error
  | .data fault => .data (.dataset i fault)
  | e => e

namespace Dataset

/-- The rules for the dataset at a position. -/
def validate (chart : Style.Overrides α) (i : Nat) (d : Dataset α) : Result Unit := do
  check (d.borderWidth.all isSize) (.datasetBorder i)
  if d.style.isEmpty then return
  ((Style.resolve chart d.style).validate).mapError (·.inDataset i)

end Dataset

namespace Chart

def validate (c : Chart α) : Result Unit := do
  check (!(Text.trim c.chartType.toList).isEmpty) .chartTypeEmpty
  c.options.validate
  (Style.resolve c.options.style .empty).validate
  c.datasets.zipIdx.forM fun (d, i) => d.validate c.options.style i

/-- The given labels, followed by positions up to the longest dataset. -/
def categoryLabels (c : Chart α) : List String :=
  let longest := (c.datasets.map (·.data.length)).foldl Nat.max 0
  c.labels ++ (List.range' c.labels.length (longest - c.labels.length)).map toString

/-- The datasets that are shown, with their positions. -/
def visible (c : Chart α) : List (Nat × Dataset α) :=
  (c.datasets.zipIdx.filter (!·.1.hidden)).map fun (d, i) => (i, d)

end Chart

end Whisker
