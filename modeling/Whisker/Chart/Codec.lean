import Whisker.Chart
import Whisker.Datum.Codec
import Whisker.Style.Codec

/-!
# Chart descriptions in JSON

Every option may be left out. A description is written with all options, in a fixed order, except those
that are unset. Depths count the brackets around a value.
-/

namespace Whisker

variable {α : Type} [Scalar α] [NumberText α]

/-- A member that is written only if it is set. -/
def Json.member? {β : Type} (name : String) (encode : β → Json) (v : Option β) : List (String × Json) :=
  (v.map fun v => (name, encode v)).toList

namespace Title

def ofJson? (v : Json) : Option (Title α) := do
  let f ← Json.fields? ["display", "text", "color", "fontSizePx"] v
  let d : Title α := default
  return { display := ← f.getD? "display" Json.bool? d.display
           text := ← f.getD? "text" Json.text? d.text
           color := ← f.getD? "color" Color.ofJson? d.color
           fontSize := ← f.getD? "fontSizePx" Json.number? d.fontSize }

def toJson (t : Title α) : Json :=
  .ofMembers [("display", .bool t.display), ("text", .ofText t.text), ("color", t.color.toJson),
    ("fontSizePx", Json.ofNumber t.fontSize)]

end Title

namespace TickOptions

def ofJson? (v : Json) : Option (TickOptions α) := do
  let f ← Json.fields? ["display", "labelMaxChars", "color", "fontSizePx"] v
  let d : TickOptions α := default
  return { display := ← f.getD? "display" Json.bool? d.display
           maxChars := ← f.get? "labelMaxChars" (Json.natBelow? UInt64.size)
           color := ← f.getD? "color" Color.ofJson? d.color
           fontSize := ← f.getD? "fontSizePx" Json.number? d.fontSize }

def toJson (t : TickOptions α) : Json :=
  .ofMembers <| [("display", .bool t.display)] ++ Json.member? "labelMaxChars" Json.ofNat t.maxChars
    ++ [("color", t.color.toJson), ("fontSizePx", Json.ofNumber t.fontSize)]

end TickOptions

namespace Grid

def ofJson? (v : Json) : Option (Grid α) := do
  let f ← Json.fields? ["display", "color", "lineWidth"] v
  let d : Grid α := default
  return { display := ← f.getD? "display" Json.bool? d.display
           color := ← f.getD? "color" Color.ofJson? d.color
           lineWidth := ← f.getD? "lineWidth" Json.number? d.lineWidth }

def toJson (g : Grid α) : Json :=
  .ofMembers [("display", .bool g.display), ("color", g.color.toJson), ("lineWidth", Json.ofNumber g.lineWidth)]

end Grid

namespace AxisOptions

def ofJson? (v : Json) : Option (AxisOptions α) := do
  let f ← Json.fields? ["display", "beginAtZero", "min", "max", "title", "ticks", "grid"] v
  let d : AxisOptions α := default
  return { display := ← f.getD? "display" Json.bool? d.display
           beginAtZero := ← f.get? "beginAtZero" Json.bool?
           min := ← f.get? "min" Json.number?
           max := ← f.get? "max" Json.number?
           title := ← f.getD? "title" Title.ofJson? d.title
           ticks := ← f.getD? "ticks" TickOptions.ofJson? d.ticks
           grid := ← f.getD? "grid" Grid.ofJson? d.grid }

def toJson (o : AxisOptions α) : Json :=
  .ofMembers <| [("display", .bool o.display)] ++ Json.member? "beginAtZero" Json.bool o.beginAtZero
    ++ Json.member? "min" Json.ofNumber o.min ++ Json.member? "max" Json.ofNumber o.max
    ++ [("title", o.title.toJson), ("ticks", o.ticks.toJson), ("grid", o.grid.toJson)]

def allOfJson? (v : Json) : Option (PerAxis (AxisOptions α)) := do
  let f ← Json.fields? ["x", "y", "r"] v
  let d : PerAxis (AxisOptions α) := defaults
  return ⟨← f.getD? "x" ofJson? d.x, ← f.getD? "y" ofJson? d.y, ← f.getD? "r" ofJson? d.r⟩

def allToJson (o : PerAxis (AxisOptions α)) : Json :=
  .ofMembers [("x", o.x.toJson), ("y", o.y.toJson), ("r", o.r.toJson)]

end AxisOptions

namespace PointOptions

def ofJson? (v : Json) : Option (PointOptions α) := do
  let f ← Json.fields? ["radius", "hoverRadius", "hitRadius", "borderWidth"] v
  let d : PointOptions α := default
  return { radius := ← f.getD? "radius" Json.number? d.radius
           hoverRadius := ← f.getD? "hoverRadius" Json.number? d.hoverRadius
           hitRadius := ← f.getD? "hitRadius" Json.number? d.hitRadius
           borderWidth := ← f.getD? "borderWidth" Json.number? d.borderWidth }

def toJson (p : PointOptions α) : Json :=
  .ofMembers [("radius", Json.ofNumber p.radius), ("hoverRadius", Json.ofNumber p.hoverRadius),
    ("hitRadius", Json.ofNumber p.hitRadius), ("borderWidth", Json.ofNumber p.borderWidth)]

end PointOptions

namespace BarOptions

def ofJson? (v : Json) : Option (BarOptions α) := do
  let f ← Json.fields? ["categoryPercentage", "barPercentage", "borderWidth"] v
  let d : BarOptions α := default
  return { categoryShare := ← f.getD? "categoryPercentage" Json.number? d.categoryShare
           barShare := ← f.getD? "barPercentage" Json.number? d.barShare
           borderWidth := ← f.getD? "borderWidth" Json.number? d.borderWidth }

def toJson (b : BarOptions α) : Json :=
  .ofMembers [("categoryPercentage", Json.ofNumber b.categoryShare), ("barPercentage", Json.ofNumber b.barShare),
    ("borderWidth", Json.ofNumber b.borderWidth)]

end BarOptions

namespace SectorOptions

def ofJson? (v : Json) : Option (SectorOptions α) := do
  let f ← Json.fields? ["borderWidth", "borderColor"] v
  let d : SectorOptions α := default
  return { borderWidth := ← f.getD? "borderWidth" Json.number? d.borderWidth
           borderColor := ← f.getD? "borderColor" Color.ofJson? d.borderColor }

def toJson (s : SectorOptions α) : Json :=
  .ofMembers [("borderWidth", Json.ofNumber s.borderWidth), ("borderColor", s.borderColor.toJson)]

end SectorOptions

namespace ChartOptions

def axisNames : List (String × Axis) := [("x", .x), ("y", .y), ("r", .r)]

def elementsOfJson? (v : Json) : Option (PointOptions α × BarOptions α × SectorOptions α) := do
  let f ← Json.fields? ["point", "bar", "arc"] v
  return (← f.getD? "point" PointOptions.ofJson? .default, ← f.getD? "bar" BarOptions.ofJson? .default,
    ← f.getD? "arc" SectorOptions.ofJson? .default)

def legendOfJson? (v : Json) : Option Bool := do (← Json.fields? ["display"] v).getD? "display" Json.bool? true

def pluginsOfJson? (v : Json) : Option Bool := do (← Json.fields? ["legend"] v).getD? "legend" legendOfJson? true

def fieldNames : List String := ["indexAxis", "scales", "elements", "plugins", "animation", "fill"]

def ofJson? (depth : Nat) (v : Json) : Option (ChartOptions α) := do
  let f ← Json.keptFields? α (depth + 1) fieldNames Style.Overrides.fieldNames v
  let (point, bar, sector) ← f.getD? "elements" elementsOfJson? (.default, .default, .default)
  return { indexAxis := ← f.getD? "indexAxis" (Json.choice? axisNames) .x
           axes := ← f.getD? "scales" AxisOptions.allOfJson? AxisOptions.defaults
           point, bar, sector
           legend := ← f.getD? "plugins" pluginsOfJson? true
           animation := ← f.getD? "animation" Animation.ofJson? .default
           fill := ← f.get? "fill" Json.bool?
           style := ← Style.Overrides.ofFields? f }

def toJson (o : ChartOptions α) : Json :=
  .ofMembers <| [("indexAxis", .ofText o.indexAxis.name), ("scales", AxisOptions.allToJson o.axes),
    ("elements", .ofMembers [("point", o.point.toJson), ("bar", o.bar.toJson), ("arc", o.sector.toJson)]),
    ("plugins", .ofMembers [("legend", .ofMembers [("display", .bool o.legend)])]),
    ("animation", o.animation.toJson)]
    ++ Json.member? "fill" Json.bool o.fill ++ o.style.toMembers

end ChartOptions

namespace Dataset

def fieldNames : List String := ["label", "data", "backgroundColor", "borderColor", "borderWidth", "fill", "hidden"]

def ofJson? (depth : Nat) (v : Json) : Option (Dataset α) := do
  let f ← Json.keptFields? α (depth + 1) fieldNames Style.Overrides.fieldNames v
  return { label := ← f.get? "label" Json.text?
           data := ← f.getD? "data" (Json.list? (Datum.ofJson? (depth + 2))) []
           background := ← f.get? "backgroundColor" Color.ofJson?
           border := ← f.get? "borderColor" Color.ofJson?
           borderWidth := ← f.get? "borderWidth" Json.number?
           fill := ← f.get? "fill" Json.bool?
           hidden := ← f.getD? "hidden" Json.bool? false
           style := ← Style.Overrides.ofFields? f }

def toJson (d : Dataset α) : Json :=
  .ofMembers <| Json.member? "label" Json.ofText d.label ++ [("data", .array (d.data.map Datum.toJson))]
    ++ Json.member? "backgroundColor" Color.toJson d.background ++ Json.member? "borderColor" Color.toJson d.border
    ++ Json.member? "borderWidth" Json.ofNumber d.borderWidth ++ Json.member? "fill" Json.bool d.fill
    ++ [("hidden", .bool d.hidden)] ++ d.style.toMembers

end Dataset

namespace Chart

def dataOfJson? (depth : Nat) (v : Json) : Option (List String × List (Dataset α)) := do
  let f ← Json.fields? ["labels", "datasets"] v
  return (← f.getD? "labels" (Json.list? Json.text?) [],
    ← f.getD? "datasets" (Json.list? (Dataset.ofJson? (depth + 2))) [])

def ofJson? (depth : Nat) (v : Json) : Option (Chart α) := do
  let f ← Json.fields? ["type", "data", "options"] v
  let chartType ← f.require? "type" Json.text?
  let (labels, datasets) ← f.getD? "data" (dataOfJson? (depth + 1)) ([], [])
  return { chartType, labels, datasets
           options := ← f.getD? "options" (ChartOptions.ofJson? (depth + 1)) .default }

def toJson (c : Chart α) : Json :=
  .ofMembers [("type", .ofText c.chartType),
    ("data", .ofMembers [("labels", .array (c.labels.map Json.ofText)), ("datasets", .array (c.datasets.map Dataset.toJson))]),
    ("options", c.options.toJson)]

/-- Reads a description and checks its rules. -/
def parse (text : String) : Result (Chart α) := do
  match (Json.parse? text).bind (ofJson? 0) with
  | some c => do
    c.validate
    return c
  | none => throw .json

def render (c : Chart α) : String := c.toJson.toPretty

end Chart

namespace Viewport

def ofJson? (v : Json) : Option Viewport := do
  let f ← Json.fields? ["width", "height"] v
  return ⟨← f.require? "width" (Json.natBelow? UInt32.size), ← f.require? "height" (Json.natBelow? UInt32.size)⟩

end Viewport

/-- A canvas and the chart on it. -/
structure Setup (α : Type) where
  viewport : Viewport
  chart : Chart α

namespace Setup

def ofJson? (v : Json) : Option (Setup α) := do
  let f ← Json.fields? ["viewport", "chart"] v
  return ⟨← f.require? "viewport" Viewport.ofJson?, ← f.require? "chart" (Chart.ofJson? 1)⟩

end Setup

end Whisker
