import Whisker.Color

/-!
# Error-bar style

Each option of the style is one value for all bars of a stack or a list that the bars cycle through. A
chart and then a dataset may override options; what neither sets has its default.
-/

namespace Whisker

open Scalar

inductive Setting (β : Type) where
  | all (value : β)
  | each (values : List β)
  /-- The same list, given inside an object. -/
  | wrapped (values : List β)
  deriving BEq

namespace Setting

variable {β : Type}

def values : Setting β → List β
  | .all v => [v]
  | .each vs => vs
  | .wrapped vs => vs

/-- The value for the bar at a position of the stack; an empty list has none. -/
def at? (s : Setting β) (i : Nat) : Option β := s.values[i % s.values.length]?

end Setting

structure Style (α : Type) where
  lineWidth : Setting α
  color : Setting (Color α)
  whiskerLineWidth : Setting α
  whiskerRatio : Setting α
  whiskerSize : Setting α
  whiskerColor : Setting (Color α)

namespace Style

/-- The options that a chart or a dataset sets. -/
structure Overrides (α : Type) where
  lineWidth : Option (Setting α)
  color : Option (Setting (Color α))
  whiskerLineWidth : Option (Setting α)
  whiskerRatio : Option (Setting α)
  whiskerSize : Option (Setting α)
  whiskerColor : Option (Setting (Color α))
  deriving BEq

namespace Overrides

variable {α : Type}

def empty : Overrides α := ⟨none, none, none, none, none, none⟩

def isEmpty (o : Overrides α) : Bool :=
  o.lineWidth.isNone && o.color.isNone && o.whiskerLineWidth.isNone && o.whiskerRatio.isNone && o.whiskerSize.isNone
    && o.whiskerColor.isNone

end Overrides

/-- The style of one bar of a stack. -/
structure OfBar (α : Type) where
  lineWidth : α
  color : Color α
  whiskerLineWidth : α
  whiskerColor : Color α
  /-- Half the length of a whisker. -/
  half : α

variable {α : Type} [Scalar α]

def defaultColors : List (Color α) := [⟨44 / 255, 44 / 255, 44 / 255, 1⟩, ⟨31 / 255, 31 / 255, 31 / 255, 1⟩]

def default : Style α where
  lineWidth := .each [1, 3]
  color := .each defaultColors
  whiskerLineWidth := .each [1, 3]
  whiskerRatio := .each [0.2, 0.25]
  whiskerSize := .each [20, 24]
  whiskerColor := .each defaultColors

def apply (s : Style α) (o : Overrides α) : Style α where
  lineWidth := o.lineWidth.getD s.lineWidth
  color := o.color.getD s.color
  whiskerLineWidth := o.whiskerLineWidth.getD s.whiskerLineWidth
  whiskerRatio := o.whiskerRatio.getD s.whiskerRatio
  whiskerSize := o.whiskerSize.getD s.whiskerSize
  whiskerColor := o.whiskerColor.getD s.whiskerColor

def resolve (chart dataset : Overrides α) : Style α := (default.apply chart).apply dataset

def checkSizes (name : String) (s : Setting α) : Result Unit := do
  check (!s.values.isEmpty) (.styleEmpty name)
  check (s.values.all isSize) (.styleNegative name)

def checkColors (name : String) (s : Setting (Color α)) : Result Unit := do
  check (!s.values.isEmpty) (.styleEmpty name)
  s.values.forM Color.validate

def validate (s : Style α) : Result Unit := do
  checkSizes "errorBarLineWidth" s.lineWidth
  checkSizes "errorBarWhiskerLineWidth" s.whiskerLineWidth
  checkSizes "errorBarWhiskerRatio" s.whiskerRatio
  checkSizes "errorBarWhiskerSize" s.whiskerSize
  checkColors "errorBarColor" s.color
  checkColors "errorBarWhiskerColor" s.whiskerColor

/-- Half the length of the whiskers of a bar: a share of the thickness of what carries it, or a fixed size
where there is no thickness or no positive share. -/
def half (s : Style α) (thickness : Option α) (i : Nat) : α :=
  let ratio := (s.whiskerRatio.at? i).getD 0
  let fixed := (s.whiskerSize.at? i).getD 0 * 0.5
  match thickness with
  | some total => if 0 < ratio then total * ratio * 0.5 else fixed
  | none => fixed

/-- The style of the bar at a position of the stack. -/
def ofBar (s : Style α) (thickness : Option α) (i : Nat) : OfBar α where
  lineWidth := (s.lineWidth.at? i).getD 1
  color := (s.color.at? i).getD .black
  whiskerLineWidth := (s.whiskerLineWidth.at? i).getD 1
  whiskerColor := (s.whiskerColor.at? i).getD .black
  half := s.half thickness i

end Style

end Whisker
