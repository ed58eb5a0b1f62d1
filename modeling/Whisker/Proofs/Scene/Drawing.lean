import Whisker.Proofs.Frame
import Whisker.Scene

/-!
# Drawing adds valid shapes only

Elements, error bars and lines of a layout may hold any numbers: what cannot be drawn is left out, part by
part. So whether a layout has a frame is decided by its axes alone.
-/

namespace Whisker

variable {α : Type} [Scalar α]

namespace ErrorBar

abbrev Drawable (ls : List (Line α)) : Prop := ∀ l ∈ ls, l.validate = .ok ()

theorem drawable_filter (ls : List (Line α)) : Drawable (ls.filter Line.isDrawable) := by
  intro l hl
  exact isOk_iff.1 (List.mem_filter.1 hl).2

theorem addsValid_drawLine (drawn : Frame α × Nat) (l : Line α) : drawn.1.AddsValid (drawLine drawn l).1 := by
  unfold drawLine
  split
  · next h => exact .push drawn.1 .errorBars (isOk_iff.1 h)
  · exact .refl drawn.1

/-- A line is added only if it can be drawn, so the lines may hold any numbers. -/
theorem addsValid_draw (f : Frame α) (ls : List (Line α)) : f.AddsValid (draw f ls).1 := by
  have h (drawn : Frame α × Nat) : drawn.1.AddsValid (ls.foldl drawLine drawn).1 := by
    induction ls generalizing drawn with
    | nil => exact .refl drawn.1
    | cons l ls ih => exact (addsValid_drawLine drawn l).trans (ih (drawLine drawn l))
  exact h (f, 0)

end ErrorBar

/-- The shape of a mark is valid where there is one. -/
theorem Mark.validate_of_shape? {m : Mark α} {hovered : Bool} {s : Shape α} (h : m.shape? hovered = some s) :
    s.validate = .ok () := by
  cases m with
  | bar b =>
    simp only [shape?, Option.ite_none_right_eq_some, isOk_iff] at h
    obtain ⟨hv, hs⟩ := h
    cases hs
    exact hv
  | point p =>
    simp only [shape?, Option.ite_none_right_eq_some, Bool.and_eq_true, isOk_iff] at h
    obtain ⟨⟨hv, _⟩, hs⟩ := h
    cases hs
    exact hv
  | sector s =>
    simp only [shape?, Option.ite_none_right_eq_some, Bool.and_eq_true, isOk_iff] at h
    obtain ⟨⟨hv, _⟩, hs⟩ := h
    cases hs
    exact hv

variable [Circular α]

theorem Element.addsValid_draw (e : Element α) (hovered : Bool) (f : Frame α) : f.AddsValid (e.draw hovered f).1 := by
  refine (Frame.AddsValid.pushAll f .series fun s hs => ?_).trans (ErrorBar.addsValid_draw _ _)
  exact Mark.validate_of_shape? (Option.mem_toList.1 hs)

namespace Scene

omit [Circular α] in
/-- The shapes of a line are valid. -/
theorem validate_of_mem_lineShapes {style : LineStyle α} {points : List (α × α)} {s : Shape α}
    (h : s ∈ lineShapes style points) : s.validate = .ok () := by
  rcases List.mem_append.1 h with h | h
  · split at h
    · obtain ⟨p, hp, rfl⟩ := List.mem_map.1 h
      exact isOk_iff.1 (List.mem_filter.1 hp).2
    · cases h
  · obtain ⟨l, hl, rfl⟩ := List.mem_map.1 h
    exact ErrorBar.drawable_filter _ l hl

/-- Drawing a dataset adds valid shapes only. -/
theorem addsValid_drawDataset (hovered : Option ElementRef) (f : Frame α) (d : DatasetLayout α) :
    f.AddsValid (drawDataset hovered f d) := by
  unfold drawDataset
  have helements (g : Frame α) :
      g.AddsValid (d.elements.foldl (fun f e => (e.draw (hovered = some e.ref) f).1) g) :=
    .foldl (fun f e => e.addsValid_draw (hovered = some e.ref) f) d.elements g
  cases d.line with
  | none => exact helements f
  | some style => exact (Frame.AddsValid.pushAll f .series fun _ => validate_of_mem_lineShapes).trans (helements _)

variable [NumberText α]

def axesFrame (options : ChartOptions α) (l : Layout α) : Result (Frame α) := do
  return (Frame.empty l.viewport).place (← axes options l)

/-- Axes that succeed are drawn first, on an empty frame. -/
theorem axesFrame_of_axes {options : ChartOptions α} {l : Layout α} {shapes : Placed α} (h : axes options l = .ok shapes) :
    axesFrame options l = .ok ((Frame.empty l.viewport).place shapes) := by
  rw [axesFrame, h]
  rfl

/-- A frame is made of axes and datasets, in this order, and only if it is valid. -/
theorem frame_eq_ok {options : ChartOptions α} {hovered : Option ElementRef} {l : Layout α} {f : Frame α} :
    frame options hovered l = .ok f ↔
      ∃ g, axesFrame options l = .ok g ∧ l.datasets.foldl (drawDataset hovered) g = f ∧ f.validate = .ok () := by
  unfold frame axesFrame
  cases axes options l with
  | error err =>
    constructor
    · intro h
      cases h
    · rintro ⟨g, hg, _⟩
      cases hg
  | ok placed =>
    change ((_ : Result Unit) >>= fun _ => pure _) = .ok f ↔ _
    rw [seq_eq_ok, return_eq_ok]
    constructor
    · rintro ⟨hv, rfl⟩
      exact ⟨_, rfl, rfl, hv⟩
    · rintro ⟨g, hg, rfl, hv⟩
      cases hg
      exact ⟨hv, rfl⟩

/-- A layout has a frame exactly if its axes do: nothing that is drawn over them can be at fault. -/
theorem frame_isOk_iff (options : ChartOptions α) (hovered : Option ElementRef) (l : Layout α) :
    (frame options hovered l).isOk = true ↔ ∃ g, axesFrame options l = .ok g ∧ g.validate = .ok () := by
  rw [isOk_iff_exists]
  have hd (g : Frame α) : g.AddsValid (l.datasets.foldl (drawDataset hovered) g) :=
    .foldl (addsValid_drawDataset hovered) l.datasets g
  constructor
  · rintro ⟨f, hf⟩
    obtain ⟨g, hg, rfl, hv⟩ := frame_eq_ok.1 hf
    exact ⟨g, hg, (hd g).validate_iff.1 hv⟩
  · rintro ⟨g, hg, hv⟩
    exact ⟨_, frame_eq_ok.2 ⟨g, hg, rfl, (hd g).validate_iff.2 hv⟩⟩

end Scene

end Whisker
