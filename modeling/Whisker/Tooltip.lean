import Whisker.Datum

/-!
# Tooltips

The text of an element without its bounds, and the ways in which charts add the bounds to it. The lower
entries of a stack are listed outermost first, so that the text reads from the widest interval inward.
-/

namespace Whisker.Tooltip

variable {α : Type} [Scalar α] [NumberText α]

/-- The value, after the name of the dataset if it has one. -/
def base (label : Option String) (value : α) : String :=
  match label with
  | some l => if l.isEmpty then NumberText.spelled value else l ++ ": " ++ NumberText.spelled value
  | none => NumberText.spelled value

/-- The two bounds of an axis; a missing one is the central value. -/
def boundsText? (d : Datum α) (a : Axis) : Option String :=
  if d.hasBounds a then
    let central := NumberText.spelled ((d.values.get a).getD Scalar.nan)
    let lower := (d.bounds.get a).lower.elim central fun b => b.reversed.text
    let upper := (d.bounds.get a).upper.elim central Bound.text
    some (lower ++ " .. " ++ upper)
  else none

/-- Adds the bounds of the value axis in round brackets. -/
def bar (base : String) (d : Datum α) (a : Axis) : String :=
  match boundsText? d a with
  | some b => base ++ " (" ++ b ++ ")"
  | none => base

/-- Adds the bounds of an axis in square brackets. -/
def bracketed (base : String) (d : Datum α) (a : Axis) : String :=
  match boundsText? d a with
  | some b => base ++ " [" ++ b ++ "]"
  | none => base

def scatter (x y : String) (d : Datum α) : String :=
  "(" ++ bracketed x d .x ++ ", " ++ bracketed y d .y ++ ")"

def polar (base : String) (d : Datum α) : String := bracketed base d .r

end Whisker.Tooltip
