import Whisker.Geometry

/-!
# Category scales

An axis of labels. With `banded` each label stands in the middle of its band, without it the first and
the last label touch the ends.
-/

namespace Whisker

open Scalar

structure CategoryScale (α : Type) where
  axis : Axis
  labels : List String
  pixels : PixelRange α
  banded : Bool
  /-- The most characters of a label that are shown. -/
  maxChars : Option Nat

namespace CategoryScale

variable {α : Type} [Scalar α]

def make (axis : Axis) (labels : List String) (pixels : PixelRange α) (banded : Bool) (maxChars : Option Nat) :
    Result (CategoryScale α) := do
  check pixels.isFinite .categoryPixels
  return ⟨axis, labels, pixels, banded, maxChars⟩

def shorten (maxChars : Option Nat) (label : String) : String :=
  match maxChars with
  | some n => String.ofList (label.toList.take n)
  | none => label

/-- The label at a position as it is shown. -/
def tickLabel? (s : CategoryScale α) (i : Nat) : Option String := s.labels[i]?.map (shorten s.maxChars)

/-- The index at the first pixel, and the number of bands. -/
def window (s : CategoryScale α) : α × α :=
  let count : α := ofNat (max s.labels.length 1)
  if s.banded then (-0.5, count) else (0, Scalar.max (count - 1) 1)

def bandWidth (s : CategoryScale α) : α := s.pixels.span / s.window.2

def toPixel (s : CategoryScale α) (value : α) : α :=
  if isFinite value then s.pixels.lerp ((value - s.window.1) / s.window.2) else nan

def indexPixel (s : CategoryScale α) (i : Nat) : α := s.toPixel (ofNat i)

def basePixel (s : CategoryScale α) : α := s.pixels.start

end CategoryScale

end Whisker
