import Whisker.Datum
import Whisker.Json.Decode

/-!
# Data in JSON

A datum is an object of values and bounds, a bare number for `y`, or `null`. It is kept whole before it
is taken apart, so every literal in it has to be readable.
-/

namespace Whisker

variable {α : Type} [Scalar α] [NumberText α]

namespace Bound

def ofJson? : Json → Option (Bound α)
  | .array items => (items.mapM Json.number?).map .stack
  | v => (Json.number? v).map .single

def toJson : Bound α → Json
  | .single v => Json.ofNumber v
  | .stack vs => .array (vs.map Json.ofNumber)

end Bound

namespace Datum

def fieldNames : List String := ["x", "y", "r", "xMin", "xMax", "yMin", "yMax", "rMin", "rMax"]

def ofFields? (f : Json.Fields) : Option (Datum α) := do
  let value (name : String) : Option (Option α) := f.get? name Json.number?
  let bound (name : String) : Option (Option (Bound α)) := f.get? name Bound.ofJson?
  return { values := ⟨← value "x", ← value "y", ← value "r"⟩
           bounds := ⟨⟨← bound "xMin", ← bound "xMax"⟩, ⟨← bound "yMin", ← bound "yMax"⟩,
             ⟨← bound "rMin", ← bound "rMax"⟩⟩ }

/-- Reads a datum that stands inside `depth` brackets. -/
def ofJson? (depth : Nat) (v : Json) : Option (Datum α) :=
  if Json.keepable α depth v then
    match v with
    | .null => some empty
    | .number _ => (Json.number? v).map ofY
    | _ => do ofFields? (← Json.fields? fieldNames v)
  else none

/-- The fields that are present, in order. -/
def toJson (d : Datum α) : Json :=
  let value (name : String) (v : Option α) := v.map fun v => (name, Json.ofNumber v)
  let bound (name : String) (b : Option (Bound α)) := b.map fun b => (name, b.toJson)
  Json.ofMembers <| [value "x" d.values.x, value "y" d.values.y, value "r" d.values.r,
    bound "xMin" d.bounds.x.lower, bound "xMax" d.bounds.x.upper,
    bound "yMin" d.bounds.y.lower, bound "yMax" d.bounds.y.upper,
    bound "rMin" d.bounds.r.lower, bound "rMax" d.bounds.r.upper].filterMap id

end Datum

end Whisker
