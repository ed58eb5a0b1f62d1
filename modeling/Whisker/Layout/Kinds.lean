import Whisker.Layout

/-!
# The four kinds of layout

The bars of a category share its band: each shown dataset has a slot of equal size, in order. Bars are upright, or lie
on their side if the categories run along the y axis. Lines join points on a category axis, and scatter plots have their
points on two value axes. In a polar chart each dataset shares the full turn equally among its records that have a
value; the radius of a sector is its value.
-/

namespace Whisker.Layout

open Scalar

variable {α : Type} [Scalar α]

/-- Whether bars lie on their side. -/
def isHorizontal (c : Chart α) : Bool := c.options.indexAxis = .y

/-- The axis on which a bar chart shows values. -/
def barValueAxis (c : Chart α) : Axis := if isHorizontal c then .x else .y

def barIndexAxis (c : Chart α) : Axis := if isHorizontal c then .y else .x

/-- The sizes that all bars of a chart share. -/
structure BarSlots (α : Type) where
  group : α
  slot : α
  thickness : α

/-- Shares the band of a category among some datasets. -/
def BarSlots.make (options : BarOptions α) (band : α) (datasets : Nat) : BarSlots α :=
  let group := band * options.categoryShare
  let slot := group / ofNat (Nat.max datasets 1)
  ⟨group, slot, slot * options.barShare⟩

/-- The pixel of a bar on the index axis. -/
def BarSlots.pixel (s : BarSlots α) (category : CategoryScale α) (index slot : Nat) : α :=
  category.indexPixel index - s.group / 2 + s.slot * (ofNat slot + 0.5)

def barElement (c : Chart α) (category : CategoryScale α) (values : LinearScale α) (slots : BarSlots α) (atRest : Bool)
    (slot : Nat) (s : Shown α) (index : Nat) (r : Record α) : Element α :=
  let horizontal := isHorizontal c
  let base := values.basePixel
  let along := slots.pixel category index slot
  let value := if atRest then base else values.toPixel (r.values.get (barValueAxis c))
  { dataset := s.index
    index
    mark := .bar
      { x := if horizontal then value else along
        y := if horizontal then along else value
        base
        thickness := slots.thickness
        horizontal
        fill := fillOf s.dataset
        border := borderOf s.dataset
        borderWidth := s.dataset.borderWidth.getD c.options.bar.borderWidth }
    errorBars := ErrorBar.onScale (.linear values) atRest r (.const .empty)
    style := styleOf c s.dataset }

def bar [NumberText α] (c : Chart α) (viewport : Viewport) (atRest : Bool) : Result (Layout α) := do
  viewport.validate
  let horizontal := isHorizontal c
  let valueAxis := barValueAxis c
  let indexAxis := barIndexAxis c
  let shown := shown c (Dataset.categoryRecords valueAxis)
  let extent := extent shown valueAxis
  let options := (c.options.axes.get valueAxis).scale true
  let maxChars := (c.options.axes.get indexAxis).ticks.maxChars
  let labels := c.categoryLabels
  let yLabels := if horizontal then labels.map (CategoryScale.shorten maxChars) else Ticks.preview extent options
  let area ← Area.cartesian viewport c.options.axes yLabels
  let category ← CategoryScale.make indexAxis labels (area.categoryPixels indexAxis) true maxChars
  let values ← LinearScale.fit valueAxis extent options (area.pixels valueAxis)
  let slots := BarSlots.make c.options.bar category.bandWidth shown.length
  return {
    viewport
    scales := if horizontal then .cartesian (.linear values) (.category category)
      else .cartesian (.category category) (.linear values)
    datasets := shown.mapIdx fun slot s =>
      { dataset := s.index
        records := s.records
        elements := s.records.mapIdx (barElement c category values slots atRest slot s)
        line := none } }

/-- The mark of a point at a place. -/
def pointMark (c : Chart α) (d : Dataset α) (x y : α) : Mark α :=
  let p := c.options.point
  .point ⟨x, y, p.radius, p.hoverRadius, p.hitRadius, fillOf d, borderOf d, p.borderWidth⟩

/-- The width of a line that sets none. -/
def lineWidth : α := 3

def lineStyle (c : Chart α) (d : Dataset α) (base : α) : LineStyle α :=
  let filled := (d.fill <|> c.options.fill).getD false
  ⟨borderOf d, d.borderWidth.getD lineWidth, if filled then some (fillOf d) else none, base⟩

def lineElement (c : Chart α) (category : CategoryScale α) (values : LinearScale α) (atRest : Bool) (s : Shown α)
    (index : Nat) (r : Record α) : Element α where
  dataset := s.index
  index
  mark := pointMark c s.dataset (category.indexPixel index)
    (if atRest then values.basePixel else values.toPixel r.values.y)
  errorBars := ErrorBar.onScale (.linear values) atRest r (.const .empty)
  style := styleOf c s.dataset

def line [NumberText α] (c : Chart α) (viewport : Viewport) (atRest : Bool) : Result (Layout α) := do
  viewport.validate
  let shown := shown c (Dataset.categoryRecords .y)
  let extent := extent shown .y
  let options := c.options.axes.y.scale false
  let area ← Area.cartesian viewport c.options.axes (Ticks.preview extent options)
  let category ← CategoryScale.make .x c.categoryLabels (area.categoryPixels .x) false c.options.axes.x.ticks.maxChars
  let values ← LinearScale.fit .y extent options (area.pixels .y)
  return {
    viewport
    scales := .cartesian (.category category) (.linear values)
    datasets := shown.map fun s =>
      { dataset := s.index
        records := s.records
        elements := s.records.mapIdx (lineElement c category values atRest s)
        line := some (lineStyle c s.dataset values.basePixel) } }

def scatterElement (c : Chart α) (x y : LinearScale α) (atRest : Bool) (s : Shown α) (index : Nat) (r : Record α) :
    Element α where
  dataset := s.index
  index
  mark := pointMark c s.dataset (x.toPixel r.values.x) (if atRest then y.basePixel else y.toPixel r.values.y)
  errorBars := ErrorBar.onScale (.linear y) atRest r (ErrorBar.onScale (.linear x) atRest r (.const .empty))
  style := styleOf c s.dataset

def scatter [NumberText α] (c : Chart α) (viewport : Viewport) (atRest : Bool) : Result (Layout α) := do
  viewport.validate
  let shown := shown c Dataset.pointRecords
  let xOptions := c.options.axes.x.scale false
  let yOptions := c.options.axes.y.scale false
  let area ← Area.cartesian viewport c.options.axes (Ticks.preview (extent shown .y) yOptions)
  let x ← LinearScale.fit .x (extent shown .x) xOptions (area.pixels .x)
  let y ← LinearScale.fit .y (extent shown .y) yOptions (area.pixels .y)
  return {
    viewport
    scales := .cartesian (.linear x) (.linear y)
    datasets := shown.map fun s =>
      { dataset := s.index
        records := s.records
        elements := s.records.mapIdx (scatterElement c x y atRest s)
        line := none } }

variable [Circular α]

/-- The angle at which the first sector starts: straight up. -/
def startAngle : α := -(Circular.turn / 4)

/-- The angle of each sector. -/
def sectorAngle (rs : List (Record α)) : α :=
  match (rs.filter fun r => !isNaN r.values.r).length with
  | 0 => 0
  | n => Circular.turn / ofNat n

/-- Where each sector starts and ends, one after the other; a record without a value has no angle. -/
def sweeps (angle cursor : α) : List (Record α) → List (α × α)
  | [] => []
  | r :: rs =>
    let stop := cursor + if isNaN r.values.r then 0 else angle
    (cursor, stop) :: sweeps angle stop rs

/-- Pixels left free around the largest circle. -/
def radialPadding : α := 10

def sectorElement (c : Chart α) (scale : RadialScale α) (atRest : Bool) (s : Shown α) (index : Nat) (r : Record α)
    (sweep : α × α) : Element α :=
  let animation := c.options.animation
  let options := c.options.sector
  let sweep := if atRest && animation.rotates then (startAngle, startAngle) else sweep
  { dataset := s.index
    index
    mark := .sector
      { x := scale.center.1
        y := scale.center.2
        inner := 0
        outer := if atRest && animation.grows then 0 else scale.distance r.values.r
        start := sweep.1
        stop := sweep.2
        fill := fillOf s.dataset
        border := s.dataset.border.getD options.borderColor
        borderWidth := s.dataset.borderWidth.getD options.borderWidth }
    errorBars := ErrorBar.onRadius scale atRest animation.grows r
    style := styleOf c s.dataset }

def polar (c : Chart α) (viewport : Viewport) (atRest : Bool) : Result (Layout α) := do
  viewport.validate
  let shown := shown c Dataset.radialRecords
  let area ← Area.polar viewport
  let scale ← RadialScale.fit area radialPadding (extent shown .r) (c.options.axes.r.scale true)
  return {
    viewport
    scales := .radial scale
    datasets := shown.map fun s =>
      let sweeps := sweeps (sectorAngle s.records) startAngle s.records
      { dataset := s.index
        records := s.records
        elements := (s.records.zip sweeps).mapIdx fun i (r, sweep) => sectorElement c scale atRest s i r sweep
        line := none } }

end Whisker.Layout
