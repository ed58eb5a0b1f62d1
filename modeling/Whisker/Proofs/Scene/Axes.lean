import Whisker.Proofs.Layout.Area
import Whisker.Proofs.Layout.Scales
import Whisker.Proofs.Scene.Drawing

/-!
# Which axes can be drawn

Grid lines and tick labels of a straight axis are left out if they cannot be drawn, but its own line and its
title are not, and neither are the rings and labels of a radial axis. So the options of the axes decide
whether a layout has a frame: line widths, font sizes and colors. The places of these parts are always finite
on a canvas whose sides fit 32 bits.
-/

namespace Whisker

open Scalar

variable {α : Type} [Scalar α]

/-- A line drawn with these options is valid wherever it lies. -/
def Grid.strokes (g : Grid α) : Bool := isPositive g.lineWidth && g.color.validate.isOk

/-- A grid has lines that can be drawn if its width is positive and its color valid. -/
theorem Grid.strokes_iff (g : Grid α) :
    g.strokes = true ↔ isPositive g.lineWidth = true ∧ g.color.validate = .ok () := by
  rw [strokes, Bool.and_eq_true, isOk_iff]

def Grid.outlines (g : Grid α) : Bool := isSize g.lineWidth && g.color.validate.isOk

/-- A grid has rings that can be drawn if its width is a size and its color valid. -/
theorem Grid.outlines_iff (g : Grid α) :
    g.outlines = true ↔ isSize g.lineWidth = true ∧ g.color.validate = .ok () := by
  rw [outlines, Bool.and_eq_true, isOk_iff]

def isLegible (fontSize : α) (color : Color α) : Bool := isPositive fontSize && color.validate.isOk

/-- A text is legible if its size is positive and its color valid. -/
theorem isLegible_iff (fontSize : α) (color : Color α) :
    isLegible fontSize color = true ↔ isPositive fontSize = true ∧ color.validate = .ok () := by
  rw [isLegible, Bool.and_eq_true, isOk_iff]

def Title.isShown (t : Title α) : Bool := t.display && !t.text.isEmpty

/-- A straight axis with these options can be drawn. -/
def AxisOptions.isDrawable (o : AxisOptions α) : Bool :=
  !o.display || (o.grid.strokes && (!o.title.isShown || isLegible o.title.fontSize o.title.color))

def AxisOptions.isRingDrawable (o : AxisOptions α) : Bool :=
  (!o.grid.display || o.grid.outlines) && (!o.ticks.display || isLegible o.ticks.fontSize o.ticks.color)

def RadialScale.ringed (s : RadialScale α) : List α := s.ticks.filter fun t => isPositive (s.distance t)

/-- The axes of the scales can be drawn with their options. -/
def Scales.isDrawable (axes : PerAxis (AxisOptions α)) : Scales α → Bool
  | .cartesian _ _ => axes.x.isDrawable && axes.y.isDrawable
  | .radial s => !axes.r.display || s.ringed.isEmpty || axes.r.isRingDrawable

/-- What the check of a line asks for. -/
theorem Line.validate_eq_ok (l : Line α) :
    l.validate = .ok () ↔ (isFinite l.x1 && isFinite l.y1 && isFinite l.x2 && isFinite l.y2) = true ∧
      isPositive l.width = true ∧ l.color.validate = .ok () := by
  simp only [validate, seq_eq_ok, check_eq_ok]

theorem Label.validate_eq_ok (l : Label α) :
    l.validate = .ok () ↔ l.text.isEmpty = false ∧ (isFinite l.x && isFinite l.y && isFinite l.rotation) = true ∧
      isPositive l.fontSize = true ∧ l.color.validate = .ok () := by
  simp only [validate, seq_eq_ok, check_eq_ok, Bool.not_eq_true']

theorem Circle.validate_eq_ok (c : Circle α) :
    c.validate = .ok () ↔ (isFinite c.x && isFinite c.y) = true ∧ isSize c.radius = true ∧
      isSize c.borderWidth = true ∧ c.fill.validate = .ok () ∧ c.border.validate = .ok () := by
  simp only [validate, seq_eq_ok, check_eq_ok]

namespace Frame

omit [Scalar α] in
/-- Placing shapes adds them to those of the frame. -/
theorem mem_shapes_place (f : Frame α) (shapes : Placed α) (s : Shape α) :
    s ∈ (f.place shapes).shapes ↔ s ∈ f.shapes ∨ ∃ p ∈ shapes, p.2 = s := by
  induction shapes generalizing f with
  | nil => simp [place]
  | cons p shapes ih =>
    change s ∈ ((f.push p.1 p.2).place shapes).shapes ↔ _
    rw [ih, mem_shapes_push, List.exists_mem_cons_iff, or_assoc, eq_comm]

omit [Scalar α] in
theorem viewport_place (f : Frame α) (shapes : Placed α) : (f.place shapes).viewport = f.viewport := by
  induction shapes generalizing f with
  | nil => rfl
  | cons p shapes ih => exact ih (f.push p.1 p.2)

/-- A new frame is valid exactly if its viewport and all that is placed on it are. -/
theorem validate_place_empty (v : Viewport) (shapes : Placed α) :
    ((empty v).place shapes).validate = .ok () ↔ v.validate = .ok () ∧ ∀ p ∈ shapes, p.2.validate = .ok () := by
  rw [validate_eq_ok, viewport_place]
  simp only [mem_shapes_place, shapes_empty, List.not_mem_nil, false_or]
  refine and_congr_right fun _ => ?_
  constructor
  · intro h p hp
    exact h p.2 ⟨p, hp, rfl⟩
  · rintro h s ⟨p, hp, rfl⟩
    exact h p hp

end Frame

namespace Scene

variable [NumberText α] [Circular α]

/-- A straight axis can only fail by its own line and its title. -/
theorem forall_mem_axisShapes (v : Viewport) (area : Area α) (s : AxisScale α) (o : AxisOptions α) :
    (∀ p ∈ axisShapes v area s o, p.2.validate = .ok ()) ↔
      (o.display = true → (axisLine s.axis area o.grid).validate = .ok () ∧
        (o.title.isShown = true → (titleText s.axis v area o.title).validate = .ok ())) := by
  have hgrid : ∀ l ∈ (if o.grid.display then ((ticks s o).map (gridLine s.axis area o.grid)).filter Line.isDrawable
      else []), l.validate = .ok () := by
    split
    · exact ErrorBar.drawable_filter _
    · exact fun _ h => nomatch h
  have htexts : ∀ l ∈ (if o.ticks.display then (((ticks s o).filter (!·.label.isEmpty)).map
      (tickText s.axis area o.ticks)).filter fun l => l.validate.isOk else []), l.validate = .ok () := by
    split
    · exact fun l hl => isOk_iff.1 (List.mem_filter.1 hl).2
    · exact fun _ h => nomatch h
  unfold axisShapes
  cases o.display with
  | false => simp
  | true =>
    simp only [if_true, List.forall_mem_append, List.forall_mem_map, List.forall_mem_singleton, Shape.validate,
      forall_const]
    constructor
    · rintro ⟨⟨⟨_, hline⟩, _⟩, htitle⟩
      refine ⟨hline, fun hshown => htitle _ ?_⟩
      rw [Title.isShown] at hshown
      rw [if_pos hshown]
      exact List.mem_singleton_self _
    · rintro ⟨hline, htitle⟩
      refine ⟨⟨⟨hgrid, hline⟩, htexts⟩, fun l hl => ?_⟩
      split at hl
      · rename_i hshown
        rw [List.mem_singleton.1 hl]
        exact htitle hshown
      · cases hl

def ring (s : RadialScale α) (g : Grid α) (t : α) : Circle α :=
  ⟨s.center.1, s.center.2, s.distance t, .transparent, g.color, g.lineWidth⟩

def ringLabel (s : RadialScale α) (o : TickOptions α) (t : α) : Label α :=
  ⟨Ticks.label t (Ticks.spacing s.ticks), s.center.1, s.center.2 - s.distance t + o.fontSize / 2, o.fontSize, o.color,
    .center, 0⟩

omit [Circular α] in
/-- A radial axis can fail by each of its rings and their labels. -/
theorem forall_mem_radialShapes (s : RadialScale α) (o : AxisOptions α) :
    (∀ p ∈ radialShapes s o, p.2.validate = .ok ()) ↔
      (o.display = true → ∀ t ∈ s.ringed, (o.grid.display = true → (ring s o.grid t).validate = .ok ()) ∧
        (o.ticks.display = true → (ringLabel s o.ticks t).validate = .ok ())) := by
  unfold radialShapes
  cases o.display with
  | false => simp
  | true =>
    simp only [if_true, forall_const, List.forall_mem_flatMap, RadialScale.ringed, List.mem_filter, and_imp]
    refine forall_congr' fun t => forall_congr' fun _ => ?_
    cases isPositive (s.distance t) with
    | false => simp
    | true => cases o.grid.display <;> cases o.ticks.display <;> simp [Shape.validate, ring, ringLabel]

end Scene

namespace Decimal

theorem positional_ne_nil (d : Decimal) : d.positional.1 ≠ [] := by
  have hdigits : digits d.coefficient ≠ [] := Nat.toDigits_ne_nil
  unfold positional
  dsimp only
  split
  · exact List.append_ne_nil_of_left_ne_nil hdigits _
  · split
    · intro h
      have hlength := congrArg List.length h
      rw [List.length_take, List.length_nil] at hlength
      omega
    · exact List.cons_ne_nil _ _

theorem join_positional_ne_nil (d : Decimal) : join d.positional ≠ [] := by
  unfold join
  split
  · exact positional_ne_nil d
  · exact List.append_ne_nil_of_left_ne_nil (positional_ne_nil d) _

end Decimal

namespace Binary

/-- The foot of a canvas less half a font is in range. -/
theorem isFinite_foot {n : ℕ} (hn : n < 2 ^ 32) {fontSize : Float} (h : isPositive fontSize = true) :
    (ofNat n - fontSize / ofNat 2 : Float).isFinite = true := by
  obtain ⟨hf, hv⟩ := value_ofNat (n := n) (by omega)
  obtain ⟨hhf, hhv, _⟩ := half_of_isPositive h
  exact (computes_sub_of_nonneg hf hhf (by rw [hv]; positivity) hhv).finite

/-- So is the top of a ring plus half a font, however large the ring. -/
theorem isFinite_ringTop {y radius fontSize : Float} (hy : y.isFinite = true) (hlow : 0 ≤ value y) (hhigh : value y ≤ 2 ^ 33)
    (hradius : isPositive radius = true) (h : isPositive fontSize = true) :
    (y - radius + fontSize / ofNat 2).isFinite = true := by
  obtain ⟨hrf, hrv⟩ := (isPositive_iff radius).1 hradius
  obtain ⟨hhf, hhv, hhl⟩ := half_of_isPositive h
  have hc := computes_sub_of_nonneg hy hrf hlow hrv.le
  -- The ring's top does not pass its center, which leaves room for half a font.
  have htop : value (y - radius) ≤ value y := hc.rounds.le (onGrid_value y) (by linarith)
  have hlarge := two_pow_le_largest (k := 34) (by decide)
  have hsub := (abs_le.1 (abs_value_le (y - radius))).1
  exact (computes_add hc.finite hhf (abs_le.2 ⟨by linarith, by linarith⟩)).finite

theorem isEmpty_plain (x : Float) : (plain x).isEmpty = false := by
  have hofList {cs : List Char} (h : cs ≠ []) : (String.ofList cs).isEmpty = false := by
    simpa using h
  have hsigned {negative : Bool} {cs : List Char} (h : cs ≠ []) : Decimal.signed negative cs ≠ [] := by
    cases negative with
    | false => exact h
    | true => exact List.cons_ne_nil _ _
  unfold plain
  cases decode x with
  | notANumber => rfl
  | infinite negative => cases negative <;> rfl
  | finite p =>
    refine hofList (hsigned ?_)
    cases decimal? .larger p with
    | none => exact List.cons_ne_nil _ _
    | some d => exact Decimal.join_positional_ne_nil d

end Binary

theorem Ticks.isEmpty_label (t step : Float) : (label t step).isEmpty = false := by
  unfold label
  dsimp only
  split
  · rfl
  · exact Binary.isEmpty_plain _

namespace Scene

open Area

/-- The line of an axis has finite ends, so that its options decide. -/
theorem validate_axisLine {v : Viewport} {area : Area Float} (h : area.OnCanvas v) (axis : Axis) (g : Grid Float) :
    (axisLine axis area g).validate = .ok () ↔ g.strokes = true := by
  have hl : isFinite area.left = true := h.across.finite.1
  have hr : isFinite area.right = true := h.across.finite.2
  have ht : isFinite area.top = true := h.along.finite.1
  have hb : isFinite area.bottom = true := h.along.finite.2
  rw [Line.validate_eq_ok, Grid.strokes_iff]
  cases axis with
  | x => simp only [axisLine, hl, hr, hb, Bool.and_self, true_and]
  | y => simp only [axisLine, hl, ht, hb, Bool.and_self, true_and]
  | r => simp only [axisLine, hl, ht, hb, Bool.and_self, true_and]

/-- A title that can be read stands at a finite place. -/
theorem validate_titleText {v : Viewport} (hv : v.Fits) {area : Area Float} (h : area.OnCanvas v) (axis : Axis)
    {t : Title Float} (ht : t.text.isEmpty = false) :
    (titleText axis v area t).validate = .ok () ↔ isLegible t.fontSize t.color = true := by
  have hquarter : isFinite (-(Circular.turn / ofNat 4) : Float) = true := by decide
  have hsize : (titleText axis v area t).fontSize = t.fontSize := by cases axis <;> rfl
  have hcolor : (titleText axis v area t).color = t.color := by cases axis <;> rfl
  have htext : (titleText axis v area t).text = t.text := by cases axis <;> rfl
  rw [Label.validate_eq_ok, isLegible_iff, hsize, hcolor, htext]
  constructor
  · rintro ⟨_, _, hlegible⟩
    exact hlegible
  · intro hlegible
    refine ⟨ht, ?_, hlegible⟩
    rw [Bool.and_eq_true, Bool.and_eq_true]
    cases axis with
    | x => exact ⟨⟨h.across.isFinite_middle hv.1, Binary.isFinite_foot hv.2 hlegible.1⟩, Binary.isFinite_zero⟩
    | y => exact ⟨⟨((Binary.isPositive_iff _).1 hlegible.1).1, h.along.isFinite_middle hv.2⟩, hquarter⟩
    | r => exact ⟨⟨((Binary.isPositive_iff _).1 hlegible.1).1, h.along.isFinite_middle hv.2⟩, hquarter⟩

/-- On a canvas the shapes of an axis can be drawn exactly if its options can. -/
theorem forall_mem_axisShapes_iff {v : Viewport} (hv : v.Fits) {area : Area Float} (h : area.OnCanvas v)
    (s : AxisScale Float) (o : AxisOptions Float) :
    (∀ p ∈ axisShapes v area s o, p.2.validate = .ok ()) ↔ o.isDrawable = true := by
  rw [forall_mem_axisShapes, validate_axisLine h, AxisOptions.isDrawable]
  cases o.display with
  | false => simp
  | true =>
    cases hshown : o.title.isShown with
    | false => simp
    | true =>
      have htext : o.title.text.isEmpty = false := by
        rw [Title.isShown, Bool.and_eq_true, Bool.not_eq_true'] at hshown
        exact hshown.2
      rw [validate_titleText hv h s.axis htext]
      simp

/-- The center of a polar chart is finite and on its canvas. -/
structure Centered (s : RadialScale Float) : Prop where
  finite : isFinite s.center.1 = true ∧ isFinite s.center.2 = true
  low : 0 ≤ Binary.value s.center.2
  high : Binary.value s.center.2 ≤ 2 ^ 33

variable {s : RadialScale Float} {t : Float}

/-- A ring is valid if its outline is. -/
theorem validate_ring (h : Centered s) (ht : t ∈ s.ringed) (g : Grid Float) :
    (ring s g t).validate = .ok () ↔ g.outlines = true := by
  have hradius : isPositive (s.distance t) = true := (List.mem_filter.1 ht).2
  have htransparent : Color.validate (.transparent : Color Float) = .ok () := isOk_iff.1 (by decide)
  rw [Circle.validate_eq_ok, Grid.outlines_iff]
  simp only [ring, h.finite, Bool.and_self, Binary.isSize_of_isPositive hradius, htransparent, true_and]

/-- The label of a ring is valid if it can be read. -/
theorem validate_ringLabel (h : Centered s) (ht : t ∈ s.ringed) (o : TickOptions Float) :
    (ringLabel s o t).validate = .ok () ↔ isLegible o.fontSize o.color = true := by
  have hradius : isPositive (s.distance t) = true := (List.mem_filter.1 ht).2
  rw [Label.validate_eq_ok, isLegible_iff]
  constructor
  · rintro ⟨_, _, hlegible⟩
    exact hlegible
  · intro hlegible
    refine ⟨Ticks.isEmpty_label _ _, ?_, hlegible⟩
    rw [Bool.and_eq_true, Bool.and_eq_true]
    exact ⟨⟨h.finite.1, Binary.isFinite_ringTop h.finite.2 h.low h.high hradius hlegible.1⟩, Binary.isFinite_zero⟩

/-- The rings and their texts can be drawn exactly if they are hidden or missing, or their options can. -/
theorem forall_mem_radialShapes_iff (h : Centered s) (o : AxisOptions Float) :
    (∀ p ∈ radialShapes s o, p.2.validate = .ok ()) ↔
      (!o.display || s.ringed.isEmpty || o.isRingDrawable) = true := by
  have hring : ∀ t ∈ s.ringed, ((o.grid.display = true → (ring s o.grid t).validate = .ok ()) ∧
      (o.ticks.display = true → (ringLabel s o.ticks t).validate = .ok ()) ↔ o.isRingDrawable = true) := by
    intro t ht
    rw [validate_ring h ht, validate_ringLabel h ht, AxisOptions.isRingDrawable]
    cases o.grid.display <;> cases o.ticks.display <;> simp
  rw [forall_mem_radialShapes]
  cases o.display with
  | false => simp
  | true =>
    simp only [forall_const]
    rw [forall₂_congr hring]
    cases s.ringed with
    | nil => simp
    | cons t ts =>
      change (∀ u ∈ t :: ts, o.isRingDrawable = true) ↔ o.isRingDrawable = true
      exact ⟨fun hall => hall t List.mem_cons_self, fun hdrawable _ _ => hdrawable⟩

/-- The axes take their rectangle from the scales, and get the one the scales were made for. -/
theorem axes_cartesian {options : ChartOptions Float} {v : Viewport} (hfits : v.Fits) {x y : AxisScale Float}
    {area : Area Float} {yLabels : List String} (hinset : Area.cartesian v options.axes yLabels = .ok area)
    (hacross : x.pixels = ⟨area.left, area.right⟩)
    (halong : y.pixels = ⟨area.bottom, area.top⟩ ∨ y.pixels = ⟨area.top, area.bottom⟩)
    (datasets : List (DatasetLayout Float)) :
    axes options ⟨v, .cartesian x y, datasets⟩ =
      .ok (axisShapes v area x options.axes.x ++ axisShapes v area y options.axes.y) := by
  have harea : (Scales.cartesian x y).area = .ok area :=
    (onCanvas_cartesian hfits hinset).area_scales (make_of_inset hinset) hacross halong
  simp only [axes, harea]
  rfl

/-- A layout that spans its canvas has a frame exactly if its axes can be drawn with their options. -/
theorem frame_isOk_iff_isDrawable {options : ChartOptions Float} {l : Layout Float} (hovered : Option ElementRef)
    (hv : l.viewport.validate = .ok ()) (hfits : l.viewport.Fits) (hspan : l.scales.Span l.viewport options.axes) :
    (frame options hovered l).isOk = true ↔ l.scales.isDrawable options.axes = true := by
  have haxes {shapes : Placed Float} (h : axes options l = .ok shapes) :
      (frame options hovered l).isOk = true ↔ ∀ p ∈ shapes, p.2.validate = .ok () := by
    rw [frame_isOk_iff, axesFrame_of_axes h]
    constructor
    · rintro ⟨g, hg, hvalid⟩
      cases hg
      exact ((Frame.validate_place_empty _ _).1 hvalid).2
    · intro h
      exact ⟨_, rfl, (Frame.validate_place_empty _ _).2 ⟨hv, h⟩⟩
  obtain ⟨v, scales, datasets⟩ := l
  cases hspan with
  | @cartesian x y area yLabels hinset hx hy hacross halong =>
    have hcanvas := onCanvas_cartesian hfits hinset
    rw [haxes (axes_cartesian hfits hinset hacross halong datasets), List.forall_mem_append, forall_mem_axisShapes_iff hfits hcanvas, forall_mem_axisShapes_iff hfits hcanvas,
      Scales.isDrawable, Bool.and_eq_true]
  | @radial s area hinset hcenter hfinite =>
    have hcanvas := onCanvas_polar hfits hinset
    have hcentered : Centered s := by
      obtain ⟨hlow, hhigh⟩ := hcanvas.along.center hfits.2
      exact ⟨hfinite, hcenter ▸ hlow, hcenter ▸ hhigh⟩
    rw [haxes rfl, forall_mem_radialShapes_iff hcentered, Scales.isDrawable]

end Scene

end Whisker
