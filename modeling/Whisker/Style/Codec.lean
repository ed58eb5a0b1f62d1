import Whisker.Json.Decode
import Whisker.Style

/-!
# Error-bar style in JSON
-/

namespace Whisker

variable {α : Type} [Scalar α] [NumberText α]

namespace Color

def ofJson? (v : Json) : Option (Color α) := do (ofCss (← v.text?)).toOption

def toJson (c : Color α) : Json := .ofText c.toCss

end Color

namespace Setting

variable {β : Type}

/-- A value, a list of values, or an object that holds the list under `v`. -/
def ofJson? (decode : Json → Option β) : Json → Option (Setting β)
  | .array items => (items.mapM decode).map .each
  | .object members => do
    let f ← Json.fields? ["v"] (.object members)
    (f.require? "v" (Json.list? decode)).map .wrapped
  | v => (decode v).map .all

def toJson (encode : β → Json) : Setting β → Json
  | .all v => encode v
  | .each vs => .array (vs.map encode)
  | .wrapped vs => .ofMembers [("v", .array (vs.map encode))]

end Setting

namespace Style.Overrides

def fieldNames : List String :=
  ["errorBarLineWidth", "errorBarColor", "errorBarWhiskerLineWidth", "errorBarWhiskerRatio", "errorBarWhiskerSize",
    "errorBarWhiskerColor"]

def ofFields? (f : Json.Fields) : Option (Overrides α) := do
  let size (name : String) : Option (Option (Setting α)) := f.get? name (Setting.ofJson? Json.number?)
  let color (name : String) : Option (Option (Setting (Color α))) := f.get? name (Setting.ofJson? Color.ofJson?)
  return { lineWidth := ← size "errorBarLineWidth"
           color := ← color "errorBarColor"
           whiskerLineWidth := ← size "errorBarWhiskerLineWidth"
           whiskerRatio := ← size "errorBarWhiskerRatio"
           whiskerSize := ← size "errorBarWhiskerSize"
           whiskerColor := ← color "errorBarWhiskerColor" }

def ofJson? (v : Json) : Option (Overrides α) := do
  let f ← Json.fields? fieldNames v
  if f.given.all fun g => Json.keepable α 1 g.2 then ofFields? f else none

/-- The members for the options that are set. -/
def toMembers (o : Overrides α) : List (String × Json) :=
  let size (name : String) (s : Option (Setting α)) := s.map fun s => (name, s.toJson Json.ofNumber)
  let color (name : String) (s : Option (Setting (Color α))) := s.map fun s => (name, s.toJson Color.toJson)
  [size "errorBarLineWidth" o.lineWidth, color "errorBarColor" o.color,
    size "errorBarWhiskerLineWidth" o.whiskerLineWidth, size "errorBarWhiskerRatio" o.whiskerRatio,
    size "errorBarWhiskerSize" o.whiskerSize, color "errorBarWhiskerColor" o.whiskerColor].filterMap id

end Style.Overrides

end Whisker
