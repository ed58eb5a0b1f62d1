import Whisker.Proofs.Scale.Fit
import Whisker.Registry

/-!
# The scales of a layout

The scales of a layout follow from the chart and the canvas: they are the same at rest and settled, and they
span the plot rectangle. Straight axes divide one between them, a radial axis lies at the center of one.
-/

namespace Whisker

variable {α : Type} [Scalar α]

/-- A category scale is made of what it is given. -/
theorem CategoryScale.make_eq_ok {axis : Axis} {labels : List String} {pixels : PixelRange α} {banded : Bool}
    {maxChars : Option Nat} {s : CategoryScale α} (h : make axis labels pixels banded maxChars = .ok s) :
    s = ⟨axis, labels, pixels, banded, maxChars⟩ := by
  obtain ⟨_, h⟩ := seq_eq_ok.1 h
  cases h
  rfl

/-- A fitted linear scale keeps its axis and its pixels. -/
theorem LinearScale.fit_eq_ok {axis : Axis} {extent : Option (Extent α)} {options : Scale.Options α}
    {pixels : PixelRange α} {s : LinearScale α} (h : fit axis extent options pixels = .ok s) :
    s.axis = axis ∧ s.pixels = pixels := by
  obtain ⟨-, -, rfl⟩ := fit_iff.1 h
  exact ⟨rfl, rfl⟩

/-- A fitted radial scale keeps the center of its area, which is finite. -/
theorem RadialScale.fit_eq_ok {area : Area α} {padding : α} {extent : Option (Extent α)} {options : Scale.Options α}
    {s : RadialScale α} (h : fit area padding extent options = .ok s) :
    s.center = area.center ∧ Scalar.isFinite s.center.1 = true ∧ Scalar.isFinite s.center.2 = true := by
  obtain ⟨hcenter, -, -, rfl⟩ := fit_iff.1 h
  exact ⟨rfl, hcenter⟩

inductive Scales.Span (v : Viewport) (axes : PerAxis (AxisOptions α)) : Scales α → Prop
  /-- Straight axes have the sides of the plot rectangle; the y axis may run up or down. -/
  | cartesian {x y : AxisScale α} {area : Area α} {yLabels : List String}
      (inset : Area.cartesian v axes yLabels = .ok area) (xAxis : x.axis = .x) (yAxis : y.axis = .y)
      (across : x.pixels = ⟨area.left, area.right⟩)
      (along : y.pixels = ⟨area.bottom, area.top⟩ ∨ y.pixels = ⟨area.top, area.bottom⟩) : Span v axes (.cartesian x y)
  | radial {s : RadialScale α} {area : Area α} (inset : Area.polar v = .ok area) (center : s.center = area.center)
      (finite : Scalar.isFinite s.center.1 = true ∧ Scalar.isFinite s.center.2 = true) : Span v axes (.radial s)

section

variable [NumberText α]

/-- How the labels of a y axis were foreseen: as its categories, or as those of a longest axis for the same data. -/
inductive AxisScale.Foreseen (o : AxisOptions α) (labels : List String) : AxisScale α → Prop
  | category {s : CategoryScale α} (eq : labels = s.labels.map (CategoryScale.shorten s.maxChars)) :
      Foreseen o labels (.category s)
  | linear {s : LinearScale α} {extent : Option (Extent α)} {beginAtZero : Bool}
      (fit : LinearScale.fit .y extent (o.scale beginAtZero) s.pixels = .ok s)
      (eq : labels = Ticks.preview extent (o.scale beginAtZero)) : Foreseen o labels (.linear s)

/-- Straight axes around a plot rectangle that leaves room for some labels of the y axis. -/
inductive Scales.Straight (v : Viewport) (axes : PerAxis (AxisOptions α)) (yLabels : List String) : Scales α → Prop
  | cartesian {x y : AxisScale α} {area : Area α} (inset : Area.cartesian v axes yLabels = .ok area) (xAxis : x.axis = .x)
      (yAxis : y.axis = .y) (across : x.pixels = ⟨area.left, area.right⟩)
      (along : y.pixels = ⟨area.bottom, area.top⟩ ∨ y.pixels = ⟨area.top, area.bottom⟩)
      (foreseen : y.Foreseen axes.y yLabels) : Straight v axes yLabels (.cartesian x y)

/-- Straight scales span the plot area. -/
theorem Scales.Straight.span {v : Viewport} {axes : PerAxis (AxisOptions α)} {yLabels : List String} {scales : Scales α}
    (h : scales.Straight v axes yLabels) : scales.Span v axes := by
  obtain ⟨hinset, hx, hy, hacross, halong, -⟩ := h
  exact .cartesian hinset hx hy hacross halong

/-- The labels of a fitted scale are foreseen from its extent and its options. -/
theorem AxisScale.foreseen_of_fit {o : AxisOptions α} {extent : Option (Extent α)} {beginAtZero : Bool}
    {pixels : PixelRange α} {s : LinearScale α} (h : LinearScale.fit .y extent (o.scale beginAtZero) pixels = .ok s) :
    (AxisScale.linear s).Foreseen o (Ticks.preview extent (o.scale beginAtZero)) := by
  have hpixels := (LinearScale.fit_eq_ok h).2
  exact .linear (hpixels ▸ h) rfl

end

namespace Layout

def ground (l : Layout α) : Viewport × Scales α := (l.viewport, l.scales)

omit [Scalar α] in
/-- What later steps do not change can be compared step by step. -/
theorem map_bind_congr {β γ δ : Type} {x : Result β} {f g : β → Result γ} {p : γ → δ}
    (h : ∀ v, (f v).map p = (g v).map p) : (x >>= f).map p = (x >>= g).map p := by
  cases x with
  | error err => rfl
  | ok v => exact h v

omit [Scalar α] in
theorem map_ground_return (v : Viewport) (s : Scales α) (ds : List (DatasetLayout α)) :
    (pure ⟨v, s, ds⟩ : Result (Layout α)).map ground = .ok (v, s) := rfl

variable [NumberText α]

theorem bar_ground_rest (c : Chart α) (v : Viewport) : (bar c v true).map ground = (bar c v false).map ground := by
  unfold bar
  refine map_bind_congr fun _ => map_bind_congr fun area => map_bind_congr fun category => map_bind_congr fun values => ?_
  simp only [map_ground_return]

theorem line_ground_rest (c : Chart α) (v : Viewport) : (line c v true).map ground = (line c v false).map ground := by
  unfold line
  refine map_bind_congr fun _ => map_bind_congr fun area => map_bind_congr fun category => map_bind_congr fun values => ?_
  simp only [map_ground_return]

theorem scatter_ground_rest (c : Chart α) (v : Viewport) :
    (scatter c v true).map ground = (scatter c v false).map ground := by
  unfold scatter
  refine map_bind_congr fun _ => map_bind_congr fun area => map_bind_congr fun x => map_bind_congr fun y => ?_
  simp only [map_ground_return]

omit [NumberText α] in
theorem polar_ground_rest [Circular α] (c : Chart α) (v : Viewport) :
    (polar c v true).map ground = (polar c v false).map ground := by
  unfold polar
  refine map_bind_congr fun _ => map_bind_congr fun area => map_bind_congr fun scale => ?_
  simp only [map_ground_return]

def barForeseen (c : Chart α) : List String :=
  if isHorizontal c then c.categoryLabels.map (CategoryScale.shorten c.options.axes.y.ticks.maxChars)
  else Ticks.preview (extent (shown c (Dataset.categoryRecords .y)) .y) (c.options.axes.y.scale true)

def lineForeseen (c : Chart α) : List String :=
  Ticks.preview (extent (shown c (Dataset.categoryRecords .y)) .y) (c.options.axes.y.scale false)

def scatterForeseen (c : Chart α) : List String :=
  Ticks.preview (extent (shown c Dataset.pointRecords) .y) (c.options.axes.y.scale false)

/-- The axes of a bar layout span its plot area. -/
theorem bar_straight {c : Chart α} {v : Viewport} {atRest : Bool} {l : Layout α} (h : bar c v atRest = .ok l) :
    l.viewport = v ∧ l.scales.Straight v c.options.axes (barForeseen c) := by
  obtain ⟨_, h⟩ := seq_eq_ok.1 h
  obtain ⟨area, harea, h⟩ := bind_eq_ok.1 h
  obtain ⟨category, hcategory, h⟩ := bind_eq_ok.1 h
  obtain ⟨values, hvalues, h⟩ := bind_eq_ok.1 h
  cases h
  refine ⟨rfl, ?_⟩
  obtain rfl := CategoryScale.make_eq_ok hcategory
  obtain ⟨hva, hvp⟩ := LinearScale.fit_eq_ok hvalues
  unfold barForeseen
  cases hh : isHorizontal c with
  | true =>
    simp only [barIndexAxis, barValueAxis, hh, if_true] at harea hva hvp ⊢
    exact .cartesian harea hva rfl hvp (.inr rfl) (.category rfl)
  | false =>
    simp only [barIndexAxis, barValueAxis, hh, Bool.false_eq_true, if_false] at harea hva hvp hvalues ⊢
    exact .cartesian harea rfl hva rfl (.inl hvp) (AxisScale.foreseen_of_fit hvalues)

theorem line_straight {c : Chart α} {v : Viewport} {atRest : Bool} {l : Layout α} (h : line c v atRest = .ok l) :
    l.viewport = v ∧ l.scales.Straight v c.options.axes (lineForeseen c) := by
  obtain ⟨_, h⟩ := seq_eq_ok.1 h
  obtain ⟨area, harea, h⟩ := bind_eq_ok.1 h
  obtain ⟨category, hcategory, h⟩ := bind_eq_ok.1 h
  obtain ⟨values, hvalues, h⟩ := bind_eq_ok.1 h
  cases h
  obtain rfl := CategoryScale.make_eq_ok hcategory
  obtain ⟨hva, hvp⟩ := LinearScale.fit_eq_ok hvalues
  exact ⟨rfl, .cartesian harea rfl hva rfl (.inl hvp) (AxisScale.foreseen_of_fit hvalues)⟩

theorem scatter_straight {c : Chart α} {v : Viewport} {atRest : Bool} {l : Layout α} (h : scatter c v atRest = .ok l) :
    l.viewport = v ∧ l.scales.Straight v c.options.axes (scatterForeseen c) := by
  obtain ⟨_, h⟩ := seq_eq_ok.1 h
  obtain ⟨area, harea, h⟩ := bind_eq_ok.1 h
  obtain ⟨x, hx, h⟩ := bind_eq_ok.1 h
  obtain ⟨y, hy, h⟩ := bind_eq_ok.1 h
  cases h
  obtain ⟨hxa, hxp⟩ := LinearScale.fit_eq_ok hx
  obtain ⟨hya, hyp⟩ := LinearScale.fit_eq_ok hy
  exact ⟨rfl, .cartesian harea hxa hya hxp (.inl hyp) (AxisScale.foreseen_of_fit hy)⟩

omit [NumberText α] in
theorem polar_span [Circular α] {c : Chart α} {v : Viewport} {atRest : Bool} {l : Layout α}
    (h : polar c v atRest = .ok l) : l.viewport = v ∧ l.scales.Span v c.options.axes := by
  obtain ⟨_, h⟩ := seq_eq_ok.1 h
  obtain ⟨area, harea, h⟩ := bind_eq_ok.1 h
  obtain ⟨scale, hscale, h⟩ := bind_eq_ok.1 h
  cases h
  obtain ⟨hcenter, hfinite⟩ := RadialScale.fit_eq_ok hscale
  exact ⟨rfl, .radial harea hcenter hfinite⟩

end Layout

/-- A chart is laid out at rest if and only if it is laid out settled, with the same scales. -/
theorem ChartKind.ground_rest [NumberText α] [Circular α] (kind : ChartKind) (c : Chart α) (v : Viewport) :
    (kind.layout c v true).map Layout.ground = (kind.layout c v false).map Layout.ground := by
  cases kind with
  | bar => exact Layout.bar_ground_rest c v
  | line => exact Layout.line_ground_rest c v
  | scatter => exact Layout.scatter_ground_rest c v
  | polar => exact Layout.polar_ground_rest c v

/-- The labels that a chart leaves room for beside its y axis, before its axes are fitted. -/
def ChartKind.foreseen [NumberText α] : ChartKind → Chart α → List String
  | .bar, c => Layout.barForeseen c
  | .line, c => Layout.lineForeseen c
  | .scatter, c => Layout.scatterForeseen c
  | .polar, _ => []

/-- The axes of every layout but the polar one are straight, with the labels foreseen. -/
theorem ChartKind.layout_straight [NumberText α] [Circular α] {kind : ChartKind} (hkind : kind ≠ .polar) {c : Chart α}
    {v : Viewport} {atRest : Bool} {l : Layout α} (h : kind.layout c v atRest = .ok l) :
    l.viewport = v ∧ l.scales.Straight v c.options.axes (kind.foreseen c) := by
  cases kind with
  | bar => exact Layout.bar_straight h
  | line => exact Layout.line_straight h
  | scatter => exact Layout.scatter_straight h
  | polar => exact absurd rfl hkind

/-- A layout is on the canvas it was made for, and its scales span a rectangle of it. -/
theorem ChartKind.layout_span [NumberText α] [Circular α] {kind : ChartKind} {c : Chart α} {v : Viewport} {atRest : Bool}
    {l : Layout α} (h : kind.layout c v atRest = .ok l) : l.viewport = v ∧ l.scales.Span v c.options.axes := by
  by_cases hkind : kind = .polar
  · subst hkind
    exact Layout.polar_span h
  · exact (layout_straight hkind h).imp_right Scales.Straight.span

end Whisker
