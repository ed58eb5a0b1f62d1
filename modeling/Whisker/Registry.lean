import Whisker.Layout.Kinds
import Whisker.Tooltip

/-!
# Chart types and their registry

A chart type has a name, a way of laying out and labelling, and the parts it needs: one kind of element and
some kinds of scales. A registry knows types and parts; a type can be used once its parts are known.
-/

namespace Whisker

open Scalar

/-- How a chart is laid out and labelled. -/
inductive ChartKind where
  | bar
  | line
  | scatter
  | polar
  deriving DecidableEq, Repr

structure ChartType where
  name : String
  kind : ChartKind
  element : String
  scales : List String
  deriving DecidableEq, Repr

namespace ChartType

def bar : ChartType := ⟨"barWithErrorBars", .bar, "rectangleWithErrorBar", ["category", "linear"]⟩

def line : ChartType := ⟨"lineWithErrorBars", .line, "pointWithErrorBar", ["category", "linear"]⟩

def scatter : ChartType := ⟨"scatterWithErrorBars", .scatter, "pointWithErrorBar", ["linear"]⟩

def polar : ChartType := ⟨"polarAreaWithErrorBars", .polar, "arcWithErrorBar", ["radialLinear"]⟩

def all : List ChartType := [bar, line, scatter, polar]

end ChartType

variable {α : Type} [Scalar α] [NumberText α]

/-- Lays out a chart; `atRest` asks for the state from which an animation starts. -/
def ChartKind.layout [Circular α] : ChartKind → Chart α → Viewport → (atRest : Bool) → Result (Layout α)
  | .bar => Layout.bar
  | .line => Layout.line
  | .scatter => Layout.scatter
  | .polar => Layout.polar

namespace Chart

def dataset (c : Chart α) (i : Nat) : Result (Dataset α) :=
  match c.datasets[i]? with
  | some d => .ok d
  | none => .error (.data (.noDataset i))

def datum (c : Chart α) (ref : ElementRef) : Result (Datum α) := do
  match (← c.dataset ref.dataset).data[ref.index]? with
  | some d => .ok d
  | none => .error (.data (.noRecord ref.dataset ref.index))

end Chart

/-- The text shown for a record. -/
def ChartKind.tooltip (kind : ChartKind) (c : Chart α) (ref : ElementRef) : Result String := do
  let d ← c.datum ref
  let value (a : Axis) : α := (d.values.get a).getD nan
  match kind with
  | .bar =>
    let a := Layout.barValueAxis c
    return Tooltip.bar (Tooltip.base (← c.dataset ref.dataset).label (value a)) d a
  | .line => return Tooltip.bar (Tooltip.base (← c.dataset ref.dataset).label (value .y)) d .y
  | .scatter => return Tooltip.scatter (NumberText.spelled (value .x)) (NumberText.spelled (value .y)) d
  | .polar => return Tooltip.polar (Tooltip.base c.categoryLabels[ref.index]? (Dataset.radialValue d)) d

structure Registry where
  /-- In order of first registration, each name once. -/
  types : List ChartType
  elements : List String
  scales : List String
  deriving DecidableEq, Repr

namespace Registry

def empty : Registry := ⟨[], [], []⟩

/-- Puts a type in the place of the one of its name, or at the end. -/
def insertType (t : ChartType) : List ChartType → List ChartType
  | [] => [t]
  | u :: us => if u.name = t.name then t :: us else u :: insertType t us

def insertId (id : String) (ids : List String) : List String := if ids.contains id then ids else ids ++ [id]

/-- Adds a type without its parts. -/
def addType (r : Registry) (t : ChartType) : Registry := { r with types := insertType t r.types }

def addElement (r : Registry) (id : String) : Registry := { r with elements := insertId id r.elements }

def addScale (r : Registry) (id : String) : Registry := { r with scales := insertId id r.scales }

/-- Adds a type with its parts. -/
def register (r : Registry) (t : ChartType) : Registry :=
  (t.scales.foldl addScale (r.addElement t.element)).addType t

def registerAll (r : Registry) : Registry := ChartType.all.foldl register r

def standard : Registry := empty.registerAll

def type? (r : Registry) (name : String) : Option ChartType := r.types.find? (·.name = name)

def names (r : Registry) : List String := r.types.map ChartType.name

/-- The type of a name, provided that all its parts are known. -/
def resolve (r : Registry) (name : String) : Result ChartType :=
  match r.type? name with
  | none => .error (.unknownType name)
  | some t =>
    if !r.elements.contains t.element then .error (.unregistered name .element t.element)
    else
      match t.scales.find? fun s => !r.scales.contains s with
      | some s => .error (.unregistered name .scale s)
      | none => .ok t

end Registry

end Whisker
