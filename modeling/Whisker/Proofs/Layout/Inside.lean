import Whisker.Proofs.Record
import Whisker.Proofs.Scale.Domain

/-!
# Everything lies inside the plot

In exact arithmetic, where the axes of values have no explicit ends and every value lies between its bounds,
a layout puts nothing outside: values, bases and bounds have pixels between the ends of their scale, and radii
lie between zero and the radius of the plot. The chain is: the reach of a record encloses it, the extent of all
records encloses each reach, the ticks enclose the extent, and a scale maps its domain into its range.
-/

namespace Whisker

open Exact

section

variable {α : Type}

/-- The places of a mark along an axis: where its value stands and where a bar starts, or the radius of a sector. -/
def Mark.along (a : Axis) : Mark α → List α
  | .bar b =>
    match a, b.horizontal with
    | .x, true => [b.x, b.base]
    | .x, false => [b.x]
    | .y, true => [b.y]
    | .y, false => [b.y, b.base]
    | .r, _ => []
  | .point p =>
    match a with
    | .x => [p.x]
    | .y => [p.y]
    | .r => []
  | .sector s =>
    match a with
    | .r => [s.outer]
    | _ => []

def Element.along (a : Axis) (e : Element α) : List α := e.mark.along a ++ (e.errorBars.get a).entries

variable [Scalar α]

/-- The base and all places of some elements along an axis of values lie between the ends of its range. -/
def AxisScale.Holds (a : Axis) (es : List (Element α)) : AxisScale α → Prop
  | .linear s => s.pixels.Contains s.basePixel ∧ ∀ e ∈ es, ∀ p ∈ e.along a, s.pixels.Contains p
  | .category _ => True

def Scales.Hold (es : List (Element α)) : Scales α → Prop
  | .cartesian x y => x.Holds .x es ∧ y.Holds .y es
  | .radial s => ∀ e ∈ es, ∀ p ∈ e.along .r, 0 ≤ p ∧ p ≤ s.radius

def Scales.valueAxes : Scales α → List Axis
  | .cartesian (.linear _) (.linear _) => [.x, .y]
  | .cartesian (.linear _) (.category _) => [.x]
  | .cartesian (.category _) (.linear _) => [.y]
  | .cartesian (.category _) (.category _) => []
  | .radial _ => [.r]

def ChartKind.valueAxes (c : Chart α) : ChartKind → List Axis
  | .bar => [Layout.barValueAxis c]
  | .line => [.y]
  | .scatter => [.x, .y]
  | .polar => [.r]

/-- The value that a chart reads from a datum; `nan` if there is none. -/
def Datum.central (d : Datum α) : Axis → α
  | .r => Dataset.radialValue d
  | a => (d.values.get a).getD Scalar.nan

/-- No explicit ends on the axes of values, and in every dataset that is shown finite values between their bounds. -/
structure ChartKind.Plots (kind : ChartKind) (c : Chart α) : Prop where
  free : ∀ a ∈ kind.valueAxes c, (c.options.axes.get a).min = none ∧ (c.options.axes.get a).max = none
  length : ∀ d ∈ c.datasets, d.hidden = false → d.data.length ≤ UInt64.size
  enclosed : ∀ d ∈ c.datasets, d.hidden = false → ∀ datum ∈ d.data, ∀ a ∈ kind.valueAxes c,
    (datum.bounds.get a).Encloses (datum.central a)

end

/-- What the extent covers lies in a domain that contains the extent. -/
theorem Extent.Covers.between {e : Option (Extent Exact)} {t low high : ℚ} (h : Covers e t)
    (hdomain : ∀ u w : ℚ, e = some ⟨finite u, finite w⟩ → low ≤ u ∧ w ≤ high) : low ≤ t ∧ t ≤ high := by
  obtain ⟨u, w, he, hut, htw⟩ := h
  obtain ⟨hu, hw⟩ := hdomain u w he
  exact ⟨hu.trans hut, htw.trans hw⟩

namespace LinearScale

/-- The range has room for the base, the value of a record and its bounds. -/
structure Shows (s : LinearScale Exact) (a : Axis) (r : Record Exact) : Prop where
  base : s.pixels.Contains s.basePixel
  value : s.pixels.Contains (s.toPixel (r.values.get a))
  bounds : ∀ x ∈ (r.reach.get a).bounds.entries, s.pixels.Contains (s.toPixel x)

variable {a : Axis} {options : Scale.Options Exact} {pixels : PixelRange Exact} {s : LinearScale Exact}

/-- A scale fitted to the extent of some records shows them. -/
theorem shows_of_fit {shown : List (Layout.Shown Exact)} (hfree : options.min = none ∧ options.max = none)
    (h : fit a (Layout.extent shown a) options pixels = .ok s) {d : Layout.Shown Exact} (hd : d ∈ shown)
    {r : Record Exact} (hr : r ∈ d.records) (henclosed : r.Enclosed a) : s.Shows a r := by
  obtain ⟨low, high, hfitted, hdomain⟩ := fitted_of_fit hfree.1 hfree.2 h
  have hcontains : ∀ x, x = r.values.get a ∨ x ∈ (r.reach.get a).bounds.entries →
      s.pixels.Contains (s.toPixel x) := by
    intro x hx
    obtain ⟨t, rfl, hcovers⟩ := Layout.covers_extent hd hr henclosed x hx
    obtain ⟨hlow, hhigh⟩ := hcovers.between hdomain
    exact hfitted.contains_toPixel hlow hhigh
  exact ⟨hfitted.contains_basePixel, hcontains _ (.inl rfl), fun x hx => hcontains x (.inr hx)⟩

/-- The base of a fitted scale has a pixel in the range. -/
theorem contains_base {extent : Option (Extent Exact)} (hfree : options.min = none ∧ options.max = none)
    (h : fit a extent options pixels = .ok s) : s.pixels.Contains s.basePixel := by
  obtain ⟨_, _, hfitted, _⟩ := fitted_of_fit hfree.1 hfree.2 h
  exact hfitted.contains_basePixel

namespace Shows

variable {r : Record Exact} (h : s.Shows a r)

include h

theorem pixel (atRest : Bool) : s.pixels.Contains (if atRest then s.basePixel else s.toPixel (r.values.get a)) := by
  cases atRest with
  | true => exact h.base
  | false => exact h.value

theorem errorBar (ha : s.axis = a) {atRest : Bool} {ps : PerAxis (Bounds Exact)} :
    ∀ p ∈ ((ErrorBar.onScale (.linear s) atRest r ps).get a).entries, s.pixels.Contains p := by
  subst ha
  simp only [ErrorBar.onScale, AxisScale.axis, PerAxis.get_set_same, Bounds.entries_map, List.mem_map]
  rintro p ⟨x, hx, rfl⟩
  cases atRest with
  | true => exact h.base
  | false => exact h.bounds x hx

end Shows

end LinearScale

namespace RadialScale

/-- The plot has room for the radius and the radial bounds of a record. -/
structure Shows (s : RadialScale Exact) (r : Record Exact) : Prop where
  center : 0 ≤ s.radius
  value : 0 ≤ s.distance r.values.r ∧ s.distance r.values.r ≤ s.radius
  bounds : ∀ x ∈ r.reach.r.bounds.entries, 0 ≤ s.distance x ∧ s.distance x ≤ s.radius

/-- A fitted radial scale shows the enclosed records that it was fitted to. -/
theorem shows_of_fit {area : Area Exact} {padding : Exact} {options : Scale.Options Exact}
    {s : RadialScale Exact} {shown : List (Layout.Shown Exact)} (hfree : options.min = none ∧ options.max = none)
    (h : fit area padding (Layout.extent shown .r) options = .ok s) {d : Layout.Shown Exact} (hd : d ∈ shown)
    {r : Record Exact} (hr : r ∈ d.records) (henclosed : r.Enclosed .r) : s.Shows r := by
  obtain ⟨low, high, size, hfitted, hdomain⟩ := fitted_of_fit hfree.1 hfree.2 h
  have hbetween : ∀ x, x = r.values.r ∨ x ∈ r.reach.r.bounds.entries → 0 ≤ s.distance x ∧ s.distance x ≤ s.radius := by
    intro x hx
    obtain ⟨t, rfl, hcovers⟩ := Layout.covers_extent hd hr henclosed x hx
    obtain ⟨hlow, hhigh⟩ := hcovers.between hdomain
    exact hfitted.distance_between hlow hhigh
  refine ⟨?_, hbetween _ (.inl rfl), fun x hx => hbetween x (.inr hx)⟩
  rw [hfitted.radius, literal_eq, Nat.cast_zero, finite_le]
  exact hfitted.nonneg

namespace Shows

variable {s : RadialScale Exact} {r : Record Exact} (h : s.Shows r) (atRest grows : Bool)

include h

/-- Distances stay within the radius, also where the chart grows from the center. -/
theorem distance {x : Exact} (hx : 0 ≤ s.distance x ∧ s.distance x ≤ s.radius) :
    0 ≤ (if atRest && grows then 0 else s.distance x) ∧ (if atRest && grows then 0 else s.distance x) ≤ s.radius := by
  split
  · exact ⟨by decide, h.center⟩
  · exact hx

theorem errorBar : ∀ p ∈ ((ErrorBar.onRadius s atRest grows r).get .r).entries, 0 ≤ p ∧ p ≤ s.radius := by
  simp only [ErrorBar.onRadius, PerAxis.get_set_same, Bounds.entries_map, List.mem_map]
  rintro p ⟨x, hx, rfl⟩
  exact h.distance atRest grows (h.bounds x hx)

end Shows

end RadialScale

/-- On a straight axis the central value is the one given. -/
theorem Datum.central_straight {a : Axis} (ha : a = .x ∨ a = .y) (d : Datum Exact) :
    d.central a = (d.values.get a).getD Scalar.nan := by
  rcases ha with rfl | rfl <;> rfl

namespace Layout

variable {c : Chart Exact} {v : Viewport} {atRest : Bool} {l : Layout Exact}

/-- Where reading a dataset puts bounds around its values, all records shown are enclosed. -/
theorem enclosed_of_plots {kind : ChartKind} {a : Axis} {read : Dataset Exact → List (Record Exact)}
    (hc : kind.Plots c) (ha : a ∈ kind.valueAxes c)
    (hread : ∀ {d : Dataset Exact}, d.data.length ≤ UInt64.size →
      (∀ datum ∈ d.data, (datum.bounds.get a).Encloses (datum.central a)) → ∀ r ∈ read d, r.Enclosed a)
    {s : Shown Exact} (hs : s ∈ shown c read) {i : ℕ} {r : Record Exact} (hr : s.records[i]? = some r) :
    r ∈ s.records ∧ r.Enclosed a := by
  have hr := List.mem_of_getElem? hr
  obtain ⟨⟨k, d⟩, hd, rfl⟩ := List.mem_map.1 hs
  obtain ⟨hd, hshown⟩ := Chart.mem_visible.1 hd
  have hd := List.mem_of_getElem? hd
  exact ⟨hr, hread (hc.length d hd hshown) (fun datum hdatum => hc.enclosed d hd hshown datum hdatum a ha) r hr⟩

/-- Data enclosed by their bounds make enclosed records. -/
theorem enclosed_categories {a : Axis} (ha : a = .x ∨ a = .y) {d : Dataset Exact} (hfits : d.data.length ≤ UInt64.size)
    (h : ∀ datum ∈ d.data, (datum.bounds.get a).Encloses (datum.central a)) : ∀ r ∈ d.categoryRecords a, r.Enclosed a :=
  Dataset.enclosed_categoryRecords hfits ha fun datum hdatum => Datum.central_straight ha datum ▸ h datum hdatum

theorem enclosed_points {a : Axis} (ha : a = .x ∨ a = .y) {d : Dataset Exact} (hfits : d.data.length ≤ UInt64.size)
    (h : ∀ datum ∈ d.data, (datum.bounds.get a).Encloses (datum.central a)) : ∀ r ∈ d.pointRecords, r.Enclosed a :=
  Dataset.enclosed_pointRecords hfits ha fun datum hdatum => Datum.central_straight ha datum ▸ h datum hdatum

/-- The elements of a bar layout lie inside the plot. -/
theorem bar_inside (hc : ChartKind.bar.Plots c) (h : bar c v atRest = .ok l) :
    l.scales.valueAxes = ChartKind.bar.valueAxes c ∧ l.scales.Hold l.elements := by
  obtain ⟨area, category, values, slots, _, hfit, hscales, hl⟩ := bar_eq_ok h
  have hvalue : barValueAxis c ∈ ChartKind.bar.valueAxes c := List.mem_singleton_self _
  have haxis : values.axis = barValueAxis c := (LinearScale.fit_eq_ok hfit).1
  have hstraight : barValueAxis c = .x ∨ barValueAxis c = .y := by
    unfold barValueAxis
    split <;> simp
  have hholds : (AxisScale.linear values).Holds (barValueAxis c) l.elements := by
    refine ⟨LinearScale.contains_base (hc.free _ hvalue) hfit, fun e he => ?_⟩
    obtain ⟨s, hs, i, r, hr, slot, rfl⟩ := hl.exists_record he
    obtain ⟨hr, henclosed⟩ := enclosed_of_plots hc hvalue (enclosed_categories hstraight) hs hr
    have hshows := LinearScale.shows_of_fit (hc.free _ hvalue) hfit hs hr henclosed
    rw [Element.along, List.forall_mem_append]
    refine ⟨?_, hshows.errorBar haxis⟩
    -- The value of a bar is its `x` or its `y`, the other one is its slot.
    have hmark : (barElement c category values slots atRest slot s i r).mark.along (barValueAxis c) =
        [if atRest then values.basePixel else values.toPixel (r.values.get (barValueAxis c)), values.basePixel] := by
      cases hh : isHorizontal c <;> simp [barElement, Mark.along, barValueAxis, hh]
    rw [hmark, List.forall_mem_cons]
    exact ⟨hshows.pixel atRest, List.forall_mem_singleton.2 hshows.base⟩
  rw [hscales]
  cases hh : isHorizontal c with
  | true =>
    simp only [barValueAxis, hh, if_true] at hholds
    exact ⟨by simp [Scales.valueAxes, ChartKind.valueAxes, barValueAxis, hh], hholds, trivial⟩
  | false =>
    simp only [barValueAxis, hh, Bool.false_eq_true, if_false] at hholds
    exact ⟨by simp [Scales.valueAxes, ChartKind.valueAxes, barValueAxis, hh], trivial, hholds⟩

theorem line_inside (hc : ChartKind.line.Plots c) (h : line c v atRest = .ok l) :
    l.scales.valueAxes = ChartKind.line.valueAxes c ∧ l.scales.Hold l.elements := by
  obtain ⟨area, category, values, _, hfit, hscales, hl⟩ := line_eq_ok h
  have hvalue : Axis.y ∈ ChartKind.line.valueAxes c := List.mem_singleton_self _
  have haxis : values.axis = .y := (LinearScale.fit_eq_ok hfit).1
  rw [hscales]
  refine ⟨rfl, trivial, LinearScale.contains_base (hc.free _ hvalue) hfit, fun e he => ?_⟩
  obtain ⟨s, hs, i, r, hr, rfl⟩ := hl.exists_record he
  obtain ⟨hr, henclosed⟩ := enclosed_of_plots hc hvalue (enclosed_categories (.inr rfl)) hs hr
  have hshows := LinearScale.shows_of_fit (hc.free _ hvalue) hfit hs hr henclosed
  rw [Element.along, List.forall_mem_append]
  exact ⟨List.forall_mem_singleton.2 (hshows.pixel atRest), hshows.errorBar haxis⟩

theorem scatter_inside (hc : ChartKind.scatter.Plots c) (h : scatter c v atRest = .ok l) :
    l.scales.valueAxes = ChartKind.scatter.valueAxes c ∧ l.scales.Hold l.elements := by
  obtain ⟨area, x, y, hxfit, hyfit, hscales, hl⟩ := scatter_eq_ok h
  have hx : Axis.x ∈ ChartKind.scatter.valueAxes c := List.mem_cons_self
  have hy : Axis.y ∈ ChartKind.scatter.valueAxes c := List.mem_cons_of_mem _ (List.mem_singleton_self _)
  have hxaxis : x.axis = .x := (LinearScale.fit_eq_ok hxfit).1
  have hyaxis : (AxisScale.linear y).axis = .y := (LinearScale.fit_eq_ok hyfit).1
  rw [hscales]
  refine ⟨rfl, ⟨LinearScale.contains_base (hc.free _ hx) hxfit, fun e he => ?_⟩,
    LinearScale.contains_base (hc.free _ hy) hyfit, fun e he => ?_⟩
  · obtain ⟨s, hs, i, r, hr, rfl⟩ := hl.exists_record he
    obtain ⟨hr, henclosed⟩ := enclosed_of_plots hc hx (enclosed_points (.inl rfl)) hs hr
    have hshows := LinearScale.shows_of_fit (hc.free _ hx) hxfit hs hr henclosed
    have hother := ErrorBar.get_onScale_other hyaxis (b := .x) (by decide) atRest r
      (ErrorBar.onScale (.linear x) atRest r (.const .empty))
    rw [Element.along, List.forall_mem_append]
    refine ⟨List.forall_mem_singleton.2 hshows.value, ?_⟩
    rw [scatterElement, hother]
    exact hshows.errorBar hxaxis
  · obtain ⟨s, hs, i, r, hr, rfl⟩ := hl.exists_record he
    obtain ⟨hr, henclosed⟩ := enclosed_of_plots hc hy (enclosed_points (.inr rfl)) hs hr
    have hshows := LinearScale.shows_of_fit (hc.free _ hy) hyfit hs hr henclosed
    rw [Element.along, List.forall_mem_append]
    exact ⟨List.forall_mem_singleton.2 (hshows.pixel atRest), hshows.errorBar hyaxis⟩

theorem polar_inside [Circular Exact] (hc : ChartKind.polar.Plots c) (h : polar c v atRest = .ok l) :
    l.scales.valueAxes = ChartKind.polar.valueAxes c ∧ l.scales.Hold l.elements := by
  obtain ⟨area, scale, hfit, hscales, hl⟩ := polar_eq_ok h
  have hvalue : Axis.r ∈ ChartKind.polar.valueAxes c := List.mem_singleton_self _
  rw [hscales]
  refine ⟨rfl, fun e he => ?_⟩
  obtain ⟨s, hs, i, r, hr, sweep, rfl⟩ := hl.exists_record he
  obtain ⟨hr, henclosed⟩ := enclosed_of_plots hc hvalue Dataset.enclosed_radialRecords hs hr
  have hshows := RadialScale.shows_of_fit (hc.free _ hvalue) hfit hs hr henclosed
  rw [Element.along, List.forall_mem_append]
  exact ⟨List.forall_mem_singleton.2 (hshows.distance atRest c.options.animation.grows hshows.value),
    hshows.errorBar atRest c.options.animation.grows⟩

end Layout

/-- In exact arithmetic, if the axes of values have no explicit ends and every value lies between its bounds, a layout
at rest or settled has all value pixels, base pixels and error bars between the ends of their scale, and all radii
between zero and the radius of the plot. -/
theorem ChartKind.layout_stays_inside_plot [Circular Exact] (kind : ChartKind) {c : Chart Exact} {v : Viewport}
    {atRest : Bool} {l : Layout Exact} (hc : kind.Plots c) (h : kind.layout c v atRest = .ok l) :
    l.scales.valueAxes = kind.valueAxes c ∧ l.scales.Hold l.elements := by
  cases kind with
  | bar => exact Layout.bar_inside hc h
  | line => exact Layout.line_inside hc h
  | scatter => exact Layout.scatter_inside hc h
  | polar => exact Layout.polar_inside hc h

/-- A bar that lies on its side, with a stack of bounds below its value and one bound above. -/
def leaningChart : Chart Exact :=
  ⟨"barWithErrorBars", [], [.ofData [(Datum.onAxis .x 3).setBounds .x (.stack [2, -1]) (.single 5)]],
    { ChartOptions.default with indexAxis := .y }⟩

/-- Angles counted in quarters of a turn, exact for directions along the axes. -/
@[reducible] def quarterTurns : Circular Exact where
  turn := 4
  sin t := if t = 1 then 1 else if t = 3 then -1 else 0
  cos t := if t = 0 then 1 else if t = 2 then -1 else 0
  atan2 y x := if 0 < y then 1 else if y < 0 then 3 else if x < 0 then 2 else 0
  hypot x y := Scalar.max (Scalar.abs x) (Scalar.abs y)
  wrap t := t - 4 * Scalar.floor (t / 4)

theorem leaning_bar_stays_inside :
    ∃ l, @ChartKind.layout Exact _ _ quarterTurns .bar leaningChart ⟨300, 200⟩ false = .ok l ∧
      l.scales.valueAxes = [.x] ∧ l.scales.Hold l.elements := by
  have hplots : ChartKind.bar.Plots leaningChart := by
    refine ⟨by decide, by decide, ?_⟩
    intro d hd _ datum hdatum a ha
    cases List.mem_singleton.1 hd
    cases List.mem_singleton.1 hdatum
    cases List.mem_singleton.1 ha
    refine ⟨rfl, ?_, ?_⟩
    · rintro s ⟨⟩
      decide
    · rintro s ⟨⟩
      decide
  have hs : (@ChartKind.layout Exact _ _ quarterTurns .bar leaningChart ⟨300, 200⟩ false).isOk = true := by
    decide +kernel
  obtain ⟨l, hl⟩ := isOk_iff_exists.1 hs
  exact ⟨l, hl, @ChartKind.layout_stays_inside_plot quarterTurns .bar _ _ _ _ hplots hl⟩

end Whisker
