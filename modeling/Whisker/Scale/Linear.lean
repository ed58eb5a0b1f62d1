import Whisker.Geometry
import Whisker.NumberText
import Whisker.Scalar

/-!
# Ticks, domains and linear scales

Ticks are steps of 1, 2, 5 or 10 times a power of ten that cover an interval, with texts rounded to the places of the
step. An extent of data, the options of the axis and the room for ticks decide the domain of a value axis: first the
range that has to be covered, then its ticks, then the explicit ends that override the outermost ticks. A linear scale
maps its domain to pixels. Values that are not finite have no pixel: they map to `nan`, so that a record without a value
passes through layout and is left out when drawn.
-/

namespace Whisker.Ticks

open Scalar

variable {α : Type} [Scalar α]

/-- Pixels that one tick should have to itself. -/
def spacingPixels : α := 40

def fewest : Nat := 2

def most : Nat := 11

/-- How many ticks fit an axis: one per `spacing` pixels, rounded up, kept between `lo` and `hi`. An axis
or a spacing without a positive size gets `lo`; limits in the wrong order give `none`. -/
def target? (span spacing : α) (lo hi : Nat) : Option Nat :=
  if !isFinite span || span ≤ 0 then some lo
  else if !isFinite spacing || spacing ≤ 0 then some lo
  else if hi < lo then none
  else some (min hi (max lo (toNat (ceil (span / spacing)))))

/-- Ticks for an axis of the given length. -/
def count (span : α) : Nat := (target? span spacingPixels fewest most).getD fewest

/-- The next step up among 1, 2, 5 and 10 times a power of ten. A range within a thousandth of an integer
is taken for that integer. -/
def niceStep (range : α) : α :=
  if !isFinite range || range ≤ 0 then 1
  else
    let rounded := round range
    let range := if abs (range - rounded) ≤ range / 1000 then rounded else range
    let magnitude : α := tenPow (decade range)
    let fraction := range / magnitude
    let nice : α := if fraction ≤ 1 then 1 else if fraction ≤ 2 then 2 else if fraction ≤ 5 then 5 else 10
    nice * magnitude

/-- Digits after the point that a step below one needs. -/
def places (step : α) : Int :=
  if !isFinite step || step ≤ 0 || 1 ≤ step then 0 else -decade step

def roundTo (value : α) (places : Int) : α :=
  let factor := powInt 10 places
  round (value * factor) / factor

/-- Evenly spaced ticks that cover `[low, high]`, or its two ends where there are none. Tick numbers are
64-bit words, so the limit on the steps starts again from zero where it would not fit one. -/
def cover (low high : α) (most : Nat) : List α :=
  if !isFinite low || !isFinite high || high ≤ low then [low, high]
  else
    let spaces := max most fewest - 1
    let span := high - low
    if !isFinite span then [low, high]
    else
      let step := niceStep (span / ofNat spaces)
      let first := floor (low / step) * step
      let last := ceil (high / step) * step
      let steps := round ((last - first) / step)
      if !isFinite steps || steps < 1 || ofNat ((spaces + 2) % UInt64.size) < steps then [low, high]
      else (List.range (toNat steps + 1)).map fun i => roundTo (first + ofNat i * step) (places step)

/-- The text of a tick on an axis whose ticks lie `step` apart. -/
def label [NumberText α] (value step : α) : String :=
  let rounded := roundTo value (places step)
  if rounded == 0 then "0" else NumberText.plain rounded

end Whisker.Ticks

namespace Whisker

open Scalar

/-- Two ends, in the order in which they were found. -/
structure Extent (α : Type) where
  low : α
  high : α

namespace Scale

structure Options (α : Type) where
  beginAtZero : Bool
  min : Option α
  max : Option α

def Options.default {α : Type} : Options α := ⟨false, none, none⟩

variable {α : Type} [Scalar α]

/-- The data's ends in order, or the unit interval if there is nothing finite to show. -/
def finiteRange : Option (Extent α) → α × α
  | some e => if isFinite e.low && isFinite e.high then (Scalar.min e.low e.high, Scalar.max e.low e.high) else (0, 1)
  | none => (0, 1)

/-- Moves the end nearer to zero onto zero. -/
def anchor (range : α × α) : α × α :=
  let (low, high) := range
  if low < 0 && high < 0 then (low, 0)
  else if 0 < low && 0 < high then (0, high)
  else (low, high)

/-- Half the width given to a range of a single value. -/
def flatOffset (value : α) : α :=
  if 9007199254740991 ≤ abs value then abs (value * 0.05) else 1

/-- The range that ticks have to cover. -/
def tickRange (extent : Option (Extent α)) (options : Options α) : α × α :=
  let range := finiteRange extent
  let (low, high) := if options.beginAtZero then anchor range else range
  let low := options.min.getD low
  let high := options.max.getD high
  if low == high then
    let offset := flatOffset high
    (if options.beginAtZero then low else low - offset, high + offset)
  else (low, high)

/-- Ticks for an axis of the given length, with the first and the last of them. -/
def ticksFor (extent : Option (Extent α)) (options : Options α) (length : α) : List α × α × α :=
  let (low, high) := tickRange extent options
  let ticks := Ticks.cover low high (Ticks.count length)
  (ticks, ticks.headD low, ticks.getLastD high)

/-- The ticks that lie in a domain. -/
def within (low high : α) (ticks : List α) : List α := ticks.filter fun t => low ≤ t && t ≤ high

end Scale

structure LinearScale (α : Type) where
  axis : Axis
  first : α
  last : α
  pixels : PixelRange α
  ticks : List α

namespace LinearScale

variable {α : Type} [Scalar α]

def make (axis : Axis) (first last : α) (pixels : PixelRange α) : Result (LinearScale α) := do
  check (isFinite (last - first) && !(first == last)) .scaleDomain
  check pixels.isFinite .scalePixels
  return ⟨axis, first, last, pixels, [first, last]⟩

/-- The domain of an axis: explicit ends win over the outermost ticks unless they coincide. -/
def domainOf (options : Scale.Options α) (first last : α) : α × α :=
  let start := options.min.getD first
  let stop := options.max.getD last
  if start == stop then (first, last) else (start, stop)

/-- The scale that shows an extent of data on a range of pixels. -/
def fit (axis : Axis) (extent : Option (Extent α)) (options : Scale.Options α) (pixels : PixelRange α) :
    Result (LinearScale α) := do
  let (ticks, first, last) := Scale.ticksFor extent options pixels.span
  let (low, high) := domainOf options first last
  let scale ← make axis low high pixels
  return { scale with ticks := Scale.within low high ticks }

/-- The value of the domain nearest to zero. -/
def baseValue (s : LinearScale α) : α :=
  if s.first < 0 && s.last < 0 then s.last
  else if 0 < s.first && 0 < s.last then s.first
  else 0

def toPixel (s : LinearScale α) (value : α) : α :=
  if isFinite value then s.pixels.lerp ((value - s.first) / (s.last - s.first)) else nan

def basePixel (s : LinearScale α) : α := s.toPixel s.baseValue

def toValue (s : LinearScale α) (pixel : α) : Result α := do
  check (isFinite pixel) .pixel
  check (!(s.pixels.length == 0)) .scaleEmpty
  return s.first + (pixel - s.pixels.start) / s.pixels.length * (s.last - s.first)

end LinearScale

end Whisker
