import Whisker.Geometry
import Whisker.Scale.Linear

/-!
# Radial scales

Distances from a center, for charts in polar coordinates.
-/

namespace Whisker

open Scalar

structure RadialScale (α : Type) where
  center : α × α
  /-- The radius that the domain spans. -/
  radius : α
  first : α
  last : α
  ticks : List α

namespace RadialScale

variable {α : Type} [Scalar α]

def make (center : α × α) (radius first last : α) : Result (RadialScale α) := do
  check (isFinite center.1 && isFinite center.2) .radialCenter
  check (isSize radius) .radialRadius
  check (isFinite (last - first) && !(first == last)) .scaleDomain
  return ⟨center, radius, first, last, [first, last]⟩

/-- The largest circle in an area that leaves `padding` pixels free. -/
def radiusIn (area : Area α) (padding : α) : α :=
  Scalar.max (Scalar.min area.width area.height * 0.5 - Scalar.max padding 0) 0

/-- The domain of an axis: explicit ends win over the outermost ticks unless both are given and coincide. -/
def domainOf (options : Scale.Options α) (first last : α) : α × α :=
  match options.min, options.max with
  | some start, some stop => if start == stop then (first, last) else (start, stop)
  | start, stop => (start.getD first, stop.getD last)

def fit (area : Area α) (padding : α) (extent : Option (Extent α)) (options : Scale.Options α) :
    Result (RadialScale α) := do
  let radius := radiusIn area padding
  let (ticks, first, last) := Scale.ticksFor extent options radius
  let (low, high) := domainOf options first last
  let scale ← make area.center radius low high
  return { scale with ticks := Scale.within low high ticks }

def distance (s : RadialScale α) (value : α) : α :=
  if isFinite value then (value - s.first) * s.radius / (s.last - s.first) else nan

end RadialScale

end Whisker
