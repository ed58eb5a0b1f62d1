import Whisker.Proofs.Engine.Runs
import Whisker.Proofs.Scene.Axes

/-!
# Frames of an engine

In a reachable engine every instant of the animation has a layout, on the scales of the settled one. Since
only axes can be at fault in a frame, either all instants can be drawn or none; and which of the two it is
can be read off the options of the axes.
-/

namespace Whisker

variable {α : Type} [Scalar α] [NumberText α] [Circular α]

/-- Axes are drawn from viewport and scales. -/
theorem Scene.axesFrame_congr (options : ChartOptions α) {l m : Layout α} (h : l.ground = m.ground) :
    axesFrame options l = axesFrame options m := by
  obtain ⟨hviewport, hscales⟩ := Prod.ext_iff.1 h
  simp only [Layout.ground] at hviewport hscales
  simp only [axesFrame, axes, hviewport, hscales]

namespace Engine

/-- An engine always has a layout at rest, since layouts at rest fail only where settled ones do. -/
theorem Coherent.restLayout {e : Engine α} (h : e.Coherent) : ∃ l, e.restLayout = .ok l := by
  have hg := e.chartType.kind.ground_rest e.chart e.viewport
  rw [h.layout] at hg
  unfold Engine.restLayout
  cases hr : e.chartType.kind.layout e.chart e.viewport true with
  | error err =>
    rw [hr] at hg
    cases hg
  | ok l => exact ⟨l, rfl⟩

/-- Every instant has a layout, whatever the number that stands for it. -/
theorem Coherent.animatedLayout {e : Engine α} (h : e.Coherent) (elapsed : α) :
    ∃ l, e.animatedLayout elapsed = .ok l ∧ l.ground = e.layout.ground := by
  obtain ⟨r, hr⟩ := h.restLayout
  unfold Engine.animatedLayout
  by_cases hc : e.chart.options.animation.isComplete elapsed = true
  · exact ⟨e.layout, by simp only [hc, if_true]; rfl, rfl⟩
  · refine ⟨r.blend e.layout (e.chart.options.animation.progress (Scalar.max elapsed 0)), ?_, rfl⟩
    simp only [hc, hr]
    rfl

/-- Whether a frame is made depends on the axes, and these are settled at every instant. -/
theorem Coherent.animatedFrame_isOk {e : Engine α} (h : e.Coherent) (elapsed : α) :
    (e.animatedFrame elapsed).isOk = true ↔ e.frame.isOk = true := by
  obtain ⟨l, hl, hg⟩ := h.animatedLayout elapsed
  have hf : e.animatedFrame elapsed = e.frameOf l := by
    unfold animatedFrame
    rw [hl]
    rfl
  rw [hf, frameOf, frame, frameOf, Scene.frame_isOk_iff, Scene.frame_isOk_iff, Scene.axesFrame_congr _ hg]

end Engine

open Engine in
/-- Whatever numbers a layout holds, it has a valid frame as soon as the frame of its axes alone is valid, and what
is drawn over the axes of any frame is valid. So in a reachable engine the frame of each instant of the animation
succeeds or fails with the settled one. -/
theorem only_axes_invalidate_frame :
    (∀ (options : ChartOptions α) (hovered : Option ElementRef) (l : Layout α) (axes : Placed α),
      l.viewport.isValid = true → Scene.axes options l = .ok axes →
      ((Frame.empty l.viewport).place axes).validate = .ok () →
      ∃ f, Scene.frame options hovered l = .ok f ∧ f.validate = .ok ()) ∧
    (∀ (hovered : Option ElementRef) (f : Frame α) (d : DatasetLayout α), f.AddsValid (Scene.drawDataset hovered f d)) ∧
    ∀ (e : Engine α) (elapsed : α), e.Reachable → ((e.animatedFrame elapsed).isOk = true ↔ e.frame.isOk = true) := by
  refine ⟨fun options hovered l axes _ haxes hvalid => ?_, Scene.addsValid_drawDataset, fun e elapsed h =>
    h.coherent.animatedFrame_isOk elapsed⟩
  obtain ⟨f, hf⟩ := isOk_iff_exists.1
    ((Scene.frame_isOk_iff options hovered l).2 ⟨_, Scene.axesFrame_of_axes haxes, hvalid⟩)
  obtain ⟨_, _, _, hv⟩ := Scene.frame_eq_ok.1 hf
  exact ⟨f, hf, hv⟩

/-- A layout with a line of no width, filled with no color down to no pixel. -/
def Layout.blurred (l : Layout Float) : Layout Float :=
  { l with datasets := l.datasets.map fun d =>
      { d with line := some ⟨.black, Scalar.nan, some ⟨-1, 2, Scalar.inf, Scalar.nan⟩, Scalar.inf⟩ } }

open Engine in
/-- The layout with no coordinate left still has a frame, which is valid. -/
theorem blurred_layout_has_frame :
    ∃ e : Engine Float, e.Reachable ∧ (e.animatedFrame Scalar.nan).isOk = true ∧
      ∃ f, Scene.frame e.chart.options none e.layout.blurred = .ok f ∧ f.validate = .ok () := by
  have hs : (start .counting .standard ⟨⟨300, 200⟩, plainChart⟩).toOption.map (fun e =>
      (e.frame.isOk, e.layout.blurred.viewport.isValid, (Scene.axes e.chart.options e.layout.blurred).toOption.map fun axes =>
        ((Frame.empty e.layout.blurred.viewport).place axes).validate.isOk)) = some (true, true, some true) := by
    decide +kernel
  obtain ⟨e, he, hparts⟩ := Option.map_eq_some_iff.1 hs
  obtain ⟨hframe, hparts⟩ := Prod.mk.inj hparts
  obtain ⟨hviewport, haxes⟩ := Prod.mk.inj hparts
  obtain ⟨axes, haxes, hvalid⟩ := Option.map_eq_some_iff.1 haxes
  have hr : e.Reachable := .start (toOption_eq_some.1 he)
  obtain ⟨hlayout, _, hanimated⟩ := only_axes_invalidate_frame (α := Float)
  exact ⟨e, hr, (hanimated e Scalar.nan hr).2 hframe,
    hlayout _ none _ axes hviewport (toOption_eq_some.1 haxes) (isOk_iff.1 hvalid)⟩

namespace Engine

/-- On a canvas whose sides fit 32 bits the chart that an engine holds can be drawn exactly if the lines, titles, rings
and ring labels of its axes have sizes and colors that can be drawn. -/
theorem chart_renders_iff_axes_drawable (e : Engine Float) (h : e.Reachable) (hfits : e.viewport.Fits) :
    e.frame.isOk = true ↔ e.layout.scales.isDrawable e.chart.options.axes = true := by
  have hc := h.coherent
  obtain ⟨hviewport, hspan⟩ := ChartKind.layout_span hc.layout
  rw [← hviewport] at hfits hspan
  have hvalid := hc.viewport
  rw [← hviewport] at hvalid
  exact Scene.frame_isOk_iff_isDrawable e.hovered hvalid hfits hspan

theorem plain_chart_renders :
    ∃ e : Engine Float, e.Reachable ∧ e.viewport.Fits ∧ e.layout.scales.isDrawable e.chart.options.axes = true ∧
      e.frame.isOk = true := by
  have hs : (start .counting .standard ⟨⟨300, 200⟩, plainChart⟩).toOption.map (fun e =>
      (e.viewport, e.layout.scales.isDrawable e.chart.options.axes)) = some (⟨300, 200⟩, true) := by decide +kernel
  obtain ⟨e, he, hparts⟩ := Option.map_eq_some_iff.1 hs
  obtain ⟨hviewport, hdrawable⟩ := Prod.mk.inj hparts
  have hr : e.Reachable := .start (toOption_eq_some.1 he)
  have hfits : e.viewport.Fits := by
    rw [hviewport]
    exact ⟨by decide, by decide⟩
  exact ⟨e, hr, hfits, hdrawable, (chart_renders_iff_axes_drawable e hr hfits).2 hdrawable⟩

/-- The plain chart without a grid on its x axis, whose lines have no width. -/
def hairlessChart : Chart Float :=
  { plainChart with options := { plainChart.options with axes :=
      { plainChart.options.axes with x := { plainAxis with grid := { Grid.default with display := false, lineWidth := 0 } } } } }

/-- An engine accepts this chart and cannot draw it: the line of the x axis is not left out. -/
theorem accepted_chart_without_frame :
    ∃ e : Engine Float, e.Reachable ∧ e.viewport.Fits ∧ e.chart.validate = .ok () ∧ e.frame.isOk = false := by
  have hs : (start .counting .standard ⟨⟨300, 200⟩, hairlessChart⟩).toOption.map (fun e =>
      (e.viewport, e.frame.isOk)) = some (⟨300, 200⟩, false) := by decide +kernel
  obtain ⟨e, he, hparts⟩ := Option.map_eq_some_iff.1 hs
  obtain ⟨hviewport, hframe⟩ := Prod.mk.inj hparts
  have hr : e.Reachable := .start (toOption_eq_some.1 he)
  refine ⟨e, hr, ?_, hr.coherent.chart, hframe⟩
  rw [hviewport]
  exact ⟨by decide, by decide⟩

end Engine

end Whisker
