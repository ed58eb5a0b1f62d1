import Whisker.Datum

/-!
# Series from text

One entry per line that is not empty: a label, a value and, for error bars, how far the bar goes up and down, separated
by single spaces. A field that is missing or no number is `nan`. The text comes from a location, a web address or a
path. Only paths can be read; how is up to the caller, who supplies the text of a file or the reason why there is none.
-/

namespace Whisker

open Scalar

structure Series (α : Type) where
  entries : List (String × Datum α)

namespace Series

variable {α : Type}

def labels (s : Series α) : List String := s.entries.map Prod.fst

def data (s : Series α) : List (Datum α) := s.entries.map Prod.snd

@[simp] theorem length_labels (s : Series α) : s.labels.length = s.data.length := by simp [labels, data]

/-- Whether an entry has an error bar. -/
def hasErrorBars (s : Series α) : Bool := s.data.any (·.hasBounds .y)

/-- The fields of each line that is not empty. -/
def lines (text : List Char) : List (List (List Char)) :=
  ((Text.split '\n' text).filter (!·.isEmpty)).map (Text.split ' ')

def labelOf (fields : List (List Char)) : String := String.ofList (fields.headD [])

variable [Scalar α] [NumberText α]

def field (fields : List (List Char)) (i : Nat) : α :=
  match fields[i]? with
  | some cs => Numeral.leading cs
  | none => nan

/-- The factor that an argument gives; without one it is 1. -/
def factor : Option String → α
  | some s => if s.isEmpty then 1 else Numeral.leading s.toList
  | none => 1

/-- The nearest integer, halves up. -/
def roundUp (x : α) : α :=
  if !isFinite x then x
  else
    let low := floor x
    if 0.5 ≤ x - low then low + 1 else low

/-- Rounds to a number of places, halves up, after a nudge that makes `1.005` a half. -/
def roundPlaces (x : α) (places : Int) : α :=
  let power := powInt 10 places
  roundUp ((x + epsilon) * power) / power

/-- Places of the values with error bars. -/
def places : Int := 2

def plainDatum (scale : α) (fields : List (List Char)) : Datum α := .ofY (field fields 1 * scale)

def barDatum (scale : α) (fields : List (List Char)) : Datum α :=
  let value := field fields 1 * scale
  let plus := field fields 2 * scale
  let minus := field fields 3 * scale
  (Datum.ofY (roundPlaces value places)).setBounds .y (.single (roundPlaces (value - minus) places))
    (.single (roundPlaces (value + plus) places))

/-- Reads a text; `errorBars` says whether the third and fourth field of a line count. -/
def parse (errorBars : Bool) (scale : α) (text : String) : Series α :=
  ⟨(lines text.toList).map fun fields =>
    (labelOf fields, if errorBars then barDatum scale fields else plainDatum scale fields)⟩

end Series

inductive Source where
  | path (path : String)
  | url (url : String)
  deriving DecidableEq, Repr

/-- How a file's text is had. -/
abbrev FileReader := String → Except FileFault String

namespace Source

def ofLocation (location : String) : Source :=
  let cs := location.toList
  if "http://".toList.isPrefixOf cs || "https://".toList.isPrefixOf cs then .url location
  else .path (String.ofList ((Text.afterStart? "file://".toList cs).getD cs))

def text : Source → String
  | .path p => p
  | .url u => u

/-- The text at a source. -/
def read (files : FileReader) : Source → Result String
  | .path p => (files p).mapError .file
  | .url u => .error (.source u)

end Source

/-- Loads the series at a location, its numbers multiplied by a factor given as text. -/
def Series.load {α : Type} [Scalar α] [NumberText α] (files : FileReader) (location : String) (errorBars : Bool)
    (scale : Option String) : Result (Series α) := do
  return Series.parse errorBars (Series.factor scale) (← (Source.ofLocation location).read files)

end Whisker
