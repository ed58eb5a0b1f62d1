import Whisker.Datum
import Whisker.Scale.Linear

/-!
# Records and their extents

A record is a datum made ready for plotting: an axis without a value holds `nan`, and the bounds of an
axis carry their outermost entries. The extent of many records decides what an axis has to show.
-/

namespace Whisker

open Scalar

/-- Bounds on one axis with how far they reach; a missing side reaches to the central value. -/
structure Reach (α : Type) where
  bounds : Bounds α
  lowest : α
  highest : α

structure Record (α : Type) where
  values : PerAxis α
  reach : PerAxis (Reach α)

/-- Which number of a record an extent is taken of. -/
inductive Measure where
  | value
  | lowest
  | highest
  deriving DecidableEq, Repr

variable {α : Type} [Scalar α]

namespace Reach

def central (v : α) : Reach α := ⟨Bounds.empty, v, v⟩

/-- The reach of bounds around a central value. -/
def around (v : α) (b : Bounds α) : Reach α :=
  ⟨b, b.lower.elim v Bound.least, b.upper.elim v Bound.greatest⟩

instance : BEq (Reach α) :=
  ⟨fun a b => a.bounds == b.bounds && same a.lowest b.lowest && same a.highest b.highest⟩

end Reach

namespace Record

/-- A record without bounds. -/
def ofValues (values : PerAxis α) : Record α := ⟨values, values.map Reach.central⟩

/-- Sets a central value; an axis without bounds reaches to it. -/
def setValue (r : Record α) (a : Axis) (v : α) : Record α :=
  { values := r.values.set a v
    reach := if (r.reach.get a).bounds.isEmpty then r.reach.set a (.central v) else r.reach }

def read (r : Record α) (a : Axis) : Measure → α
  | .value => r.values.get a
  | .lowest => (r.reach.get a).lowest
  | .highest => (r.reach.get a).highest

/-- Takes the bounds of an axis over from a datum. -/
def attach (a : Axis) (d : Datum α) (r : Record α) : Record α :=
  { r with reach := r.reach.set a (.around (r.values.get a) (d.bounds.get a)) }

/-- Two records agree where both have no value on an axis, too. -/
instance : BEq (Record α) :=
  ⟨fun p q => same p.values.x q.values.x && same p.values.y q.values.y && same p.values.r q.values.r
    && p.reach.x == q.reach.x && p.reach.y == q.reach.y && p.reach.r == q.reach.r⟩

/-- Attaches the bounds of the data from position `start` on; positions are counted in 64 bits. -/
def attachAll (a : Axis) (data : List (Datum α)) (start : UInt64) (rs : List (Record α)) : List (Record α) :=
  rs.mapIdx fun i r =>
    match data[(start + i.toUInt64).toNat]? with
    | some d => r.attach a d
    | none => r

end Record

namespace Extent

/-- The smallest extent with two given ones. -/
def union (e f : Extent α) : Extent α := ⟨Scalar.min e.low f.low, Scalar.max e.high f.high⟩

def extend (acc : Option (Extent α)) (e : Extent α) : Option (Extent α) :=
  match acc with
  | none => some e
  | some f => some (f.union e)

def merge (extents : List (Option (Extent α))) : Option (Extent α) :=
  (extents.filterMap id).foldl extend none

/-- The smallest and the largest finite number. -/
def ofValues (vs : List α) : Option (Extent α) :=
  (vs.filter isFinite).foldl (fun acc v => extend acc ⟨v, v⟩) none

def ofRecords (rs : List (Record α)) (a : Axis) (m : Measure) : Option (Extent α) :=
  ofValues (rs.map (·.read a m))

/-- From the lowest lower end to the highest upper end of all error bars. -/
def ofErrorBars (rs : List (Record α)) (a : Axis) : Option (Extent α) :=
  match ofRecords rs a .lowest, ofRecords rs a .highest with
  | some e, some f => some ⟨e.low, f.high⟩
  | some e, none => some ⟨e.low, e.low⟩
  | none, some f => some ⟨f.high, f.high⟩
  | none, none => none

end Extent

end Whisker
