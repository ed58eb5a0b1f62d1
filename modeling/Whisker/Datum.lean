import Whisker.Geometry
import Whisker.NumberText

/-!
# Data as given

A datum holds a value and bounds on each axis, all of which may be missing. Bars and lines read the value axis, scatter
plots `x` and `y`, polar charts `r`. One side of an error bar is a single value or a stack of values, drawn as nested
bars: the first entry is the innermost.
-/

namespace Whisker

open Scalar

inductive Bound (α : Type) where
  | single (value : α)
  | stack (values : List α)
  deriving BEq

namespace Bound

variable {α : Type}

def entries : Bound α → List α
  | .single v => [v]
  | .stack vs => vs

def isStack : Bound α → Bool
  | .single _ => false
  | .stack _ => true

def map {β : Type} (f : α → β) : Bound α → Bound β
  | .single v => .single (f v)
  | .stack vs => .stack (vs.map f)

/-- The same entries, outermost first. -/
def reversed : Bound α → Bound α
  | .single v => .single v
  | .stack vs => .stack vs.reverse

@[simp] theorem entries_map {β : Type} (f : α → β) (b : Bound α) : (b.map f).entries = b.entries.map f := by
  cases b <;> rfl

variable [Scalar α]

/-- The smallest entry; `nan` if one is `nan`, and infinity if there is none. -/
def least (b : Bound α) : α :=
  b.entries.foldl (fun m v => if isNaN m || isNaN v then nan else Scalar.min m v) inf

/-- The largest entry; `nan` if one is `nan`, and minus infinity if there is none. -/
def greatest (b : Bound α) : α :=
  b.entries.foldl (fun m v => if isNaN m || isNaN v then nan else Scalar.max m v) (-inf)

/-- The entries joined by commas. -/
def text [NumberText α] (b : Bound α) : String :=
  ",".intercalate (b.entries.map NumberText.spelled)

end Bound

/-- The two sides of an error bar, each of which may be missing. -/
structure Bounds (α : Type) where
  lower : Option (Bound α)
  upper : Option (Bound α)
  deriving BEq

namespace Bounds

variable {α : Type}

def empty : Bounds α := ⟨none, none⟩

def isEmpty (b : Bounds α) : Bool := b.lower.isNone && b.upper.isNone

def map {β : Type} (f : α → β) (b : Bounds α) : Bounds β := ⟨b.lower.map (·.map f), b.upper.map (·.map f)⟩

end Bounds

structure Datum (α : Type) where
  values : PerAxis (Option α)
  bounds : PerAxis (Bounds α)
  deriving BEq

namespace Datum

variable {α : Type}

def empty : Datum α := ⟨.const none, .const Bounds.empty⟩

def setValue (d : Datum α) (a : Axis) (v : α) : Datum α := { d with values := d.values.set a (some v) }

def onAxis (a : Axis) (v : α) : Datum α := empty.setValue a v

def ofY (y : α) : Datum α := onAxis .y y

def ofXY (x y : α) : Datum α := (onAxis .x x).setValue .y y

def setLower (d : Datum α) (a : Axis) (b : Bound α) : Datum α :=
  { d with bounds := d.bounds.set a { d.bounds.get a with lower := some b } }

def setUpper (d : Datum α) (a : Axis) (b : Bound α) : Datum α :=
  { d with bounds := d.bounds.set a { d.bounds.get a with upper := some b } }

def setBounds (d : Datum α) (a : Axis) (lower upper : Bound α) : Datum α :=
  (d.setLower a lower).setUpper a upper

def hasBounds (d : Datum α) (a : Axis) : Bool := !(d.bounds.get a).isEmpty

end Datum

end Whisker
