import Whisker.Proofs.Element.Drawing
import Whisker.Proofs.Frame.Pushes
import Whisker.Proofs.Scene.Drawing

/-!
# Frames without their points

The element under the pointer is told to draw itself as hovered, and only a point listens: it has another radius. So
with the circles of the series erased, drawing can be told without what is hovered, and so can the error for which a
layout has no frame.
-/

namespace Whisker

variable {α : Type}

/-- The layer without its circles, if it is the series. -/
def Layer.withoutPoints (l : Layer α) : Layer α := if l.kind = .series then { l with circles := [] } else l

/-- The frame without the circles of its series. -/
def Frame.withoutPoints (f : Frame α) : Frame α := { f with layers := f.layers.map Layer.withoutPoints }

namespace Layer

@[simp] theorem kind_withoutPoints (l : Layer α) : l.withoutPoints.kind = l.kind := by
  unfold withoutPoints
  split <;> rfl

/-- Leaving out circles commutes with adding any other shape. -/
theorem withoutPoints_push (l : Layer α) {s : Shape α} (h : s.circle? = none) :
    (l.push s).withoutPoints = l.withoutPoints.push s := by
  cases s with
  | circle c => simp [Shape.circle?] at h
  | _ => by_cases hl : l.kind = .series <;> simp [withoutPoints, push, hl]

/-- A circle added to the series is left out again. -/
theorem withoutPoints_push_circle {l : Layer α} (h : l.kind = .series) (c : Circle α) :
    (l.push (.circle c)).withoutPoints = l.withoutPoints := by
  simp [withoutPoints, push, h]

end Layer

namespace Frame

theorem withoutPoints_push (f : Frame α) (kind : LayerKind) {s : Shape α} (h : s.circle? = none) :
    (f.push kind s).withoutPoints = f.withoutPoints.push kind s := by
  have hempty : (Layer.empty kind : Layer α).withoutPoints = .empty kind := by cases kind <;> rfl
  have hlayers (ls : List (Layer α)) :
      (pushTo kind s ls).map Layer.withoutPoints = pushTo kind s (ls.map Layer.withoutPoints) := by
    induction ls with
    | nil => simp [pushTo, Layer.withoutPoints_push _ h, hempty]
    | cons l ls ih => by_cases hl : l.kind = kind <;> simp [pushTo, hl, ih, Layer.withoutPoints_push _ h]
  simp [withoutPoints, push, hlayers]

theorem withoutPoints_pushAll (f : Frame α) (kind : LayerKind) {ss : List (Shape α)} (h : ∀ s ∈ ss, s.circle? = none) :
    (f.pushAll kind ss).withoutPoints = f.withoutPoints.pushAll kind ss := by
  induction ss generalizing f with
  | nil => rfl
  | cons s ss ih =>
    obtain ⟨hs, hss⟩ := List.forall_mem_cons.1 h
    change ((f.push kind s).pushAll kind ss).withoutPoints = (f.withoutPoints.push kind s).pushAll kind ss
    rw [ih _ hss, withoutPoints_push f kind hs]

/-- A circle goes unseen, unless it makes the series. -/
theorem withoutPoints_push_circle {f : Frame α} (h : .series ∈ f.kinds) (c : Circle α) :
    (f.push .series (.circle c)).withoutPoints = f.withoutPoints := by
  have hlayers (ls : List (Layer α)) (hls : .series ∈ ls.map Layer.kind) :
      (pushTo .series (.circle c) ls).map Layer.withoutPoints = ls.map Layer.withoutPoints := by
    induction ls with
    | nil => cases hls
    | cons l ls ih =>
      by_cases hl : l.kind = .series
      · simp [pushTo, hl, Layer.withoutPoints_push_circle hl]
      · have hrest : .series ∈ ls.map Layer.kind := by simpa [Ne.symm hl] using hls
        simp [pushTo, hl, ih hrest]
  simp [withoutPoints, push, hlayers f.layers h]

end Frame

variable [Scalar α]

namespace Mark

def isPoint : Mark α → Bool
  | .point _ => true
  | _ => false

/-- Only points look at whether they are hovered. -/
theorem shape?_congr {m : Mark α} (h : m.isPoint = false) (a b : Bool) : m.shape? a = m.shape? b := by
  cases m with
  | point p => cases h
  | _ => rfl

def steadyShape? (m : Mark α) : Option (Shape α) := if m.isPoint then none else m.shape? false

theorem circle?_steadyShape? {m : Mark α} {s : Shape α} (h : m.steadyShape? = some s) : s.circle? = none := by
  cases m with
  | bar b =>
    simp only [steadyShape?, isPoint, shape?, Bool.false_eq_true, if_false, Option.ite_none_right_eq_some, Option.some.injEq] at h
    exact h.2 ▸ rfl
  | point p => simp [steadyShape?, isPoint] at h
  | sector s =>
    simp only [steadyShape?, isPoint, shape?, Bool.false_eq_true, if_false, Option.ite_none_right_eq_some, Option.some.injEq] at h
    exact h.2 ▸ rfl

end Mark

variable [Circular α]

namespace Element

/-- Draws an element that is no point, and of a point only the error bars. -/
def drawSteady (f : Frame α) (e : Element α) : Frame α :=
  (f.pushAll .series e.mark.steadyShape?.toList).pushAll .errorBars (e.listing.map .line)

theorem mem_kinds_draw {f : Frame α} {kind : LayerKind} (h : kind ∈ f.kinds) (e : Element α) (hovered : Bool) :
    kind ∈ (e.draw hovered f).1.kinds := by
  rw [draw_eq]
  exact Frame.mem_kinds_pushAll (Frame.mem_kinds_pushAll h .series _) .errorBars _

/-- Apart from circles drawing an element does not depend on what is hovered. -/
theorem withoutPoints_draw {f : Frame α} (h : .series ∈ f.kinds) (e : Element α) (hovered : Bool) :
    (e.draw hovered f).1.withoutPoints = drawSteady f.withoutPoints e := by
  have hlines : ∀ s ∈ e.listing.map Shape.line, s.circle? = none := by
    intro s hs
    obtain ⟨l, -, rfl⟩ := List.mem_map.1 hs
    rfl
  have hmark : (f.pushAll .series (e.mark.shape? hovered).toList).withoutPoints =
      f.withoutPoints.pushAll .series e.mark.steadyShape?.toList := by
    cases hpoint : e.mark.isPoint with
    | true =>
      -- A point adds a circle or nothing.
      have hnone : e.mark.steadyShape? = none := by simp [Mark.steadyShape?, hpoint]
      cases hm : e.mark with
      | point p =>
        rw [hm] at hnone
        simp only [hnone, Mark.shape?]
        split
        · exact Frame.withoutPoints_push_circle h _
        · rfl
      | bar b => simp [hm, Mark.isPoint] at hpoint
      | sector s => simp [hm, Mark.isPoint] at hpoint
    | false =>
      have hsteady : e.mark.steadyShape? = e.mark.shape? hovered := by
        simp only [Mark.steadyShape?, hpoint, Bool.false_eq_true, if_false]
        exact Mark.shape?_congr hpoint false hovered
      rw [← hsteady]
      exact f.withoutPoints_pushAll .series fun s hs => Mark.circle?_steadyShape? (Option.mem_toList.1 hs)
  rw [draw_eq, drawSteady, Frame.withoutPoints_pushAll _ _ hlines, hmark]

theorem validate_draw (e : Element α) (hovered : Bool) (f : Frame α) : (e.draw hovered f).1.validate = f.validate := by
  rw [draw_eq, Frame.validate_pushAll, Frame.validate_pushAll]
  · exact fun s hs => Mark.validate_of_shape? (Option.mem_toList.1 hs)
  · intro s hs
    obtain ⟨l, hl, rfl⟩ := List.mem_map.1 hs
    rw [← filter_errorLines] at hl
    exact ErrorBar.drawable_filter _ l hl

end Element

namespace Scene

def lineOf (d : DatasetLayout α) : List (Shape α) := d.line.elim [] fun style => lineShapes style (d.elements.map Element.center)

/-- A dataset is drawn as its line and then its elements. -/
theorem drawDataset_eq (hovered : Option ElementRef) (f : Frame α) (d : DatasetLayout α) :
    drawDataset hovered f d =
      d.elements.foldl (fun f e => (e.draw (hovered = some e.ref) f).1) (f.pushAll .series (lineOf d)) := by
  unfold drawDataset lineOf
  cases d.line <;> rfl

omit [Circular α] in
/-- The shapes of a line are no circles. -/
theorem circle?_of_mem_lineShapes {style : LineStyle α} {points : List (α × α)} {s : Shape α}
    (h : s ∈ lineShapes style points) : s.circle? = none := by
  rcases List.mem_append.1 h with h | h
  · split at h
    · obtain ⟨p, -, rfl⟩ := List.mem_map.1 h
      rfl
    · cases h
  · obtain ⟨l, -, rfl⟩ := List.mem_map.1 h
    rfl

theorem circle?_of_mem_lineOf {d : DatasetLayout α} {s : Shape α} (h : s ∈ lineOf d) : s.circle? = none := by
  unfold lineOf at h
  cases hline : d.line with
  | none => simp [hline] at h
  | some style => exact circle?_of_mem_lineShapes (by simpa [hline] using h)

theorem validate_of_mem_lineOf {d : DatasetLayout α} {s : Shape α} (h : s ∈ lineOf d) : s.validate = .ok () := by
  unfold lineOf at h
  cases hline : d.line with
  | none => simp [hline] at h
  | some style => exact validate_of_mem_lineShapes (by simpa [hline] using h)

/-- Draws a dataset but for its points. -/
def drawSteadily (f : Frame α) (d : DatasetLayout α) : Frame α :=
  d.elements.foldl Element.drawSteady (f.pushAll .series (lineOf d))

variable (hovered : Option ElementRef)

/-- Apart from circles drawing elements does not depend on what is hovered. -/
theorem withoutPoints_drawElements {f : Frame α} (h : .series ∈ f.kinds) (es : List (Element α)) :
    .series ∈ (es.foldl (fun f e => (e.draw (hovered = some e.ref) f).1) f).kinds ∧
      (es.foldl (fun f e => (e.draw (hovered = some e.ref) f).1) f).withoutPoints =
        es.foldl Element.drawSteady f.withoutPoints := by
  induction es generalizing f with
  | nil => exact ⟨h, rfl⟩
  | cons e es ih =>
    simp only [List.foldl_cons]
    rw [← Element.withoutPoints_draw h e (hovered = some e.ref)]
    exact ih (Element.mem_kinds_draw h e _)

/-- Apart from circles drawing datasets does not depend on what is hovered. -/
theorem withoutPoints_drawDatasets {f : Frame α} (h : .series ∈ f.kinds) (ds : List (DatasetLayout α)) :
    (ds.foldl (drawDataset hovered) f).withoutPoints = ds.foldl drawSteadily f.withoutPoints := by
  induction ds generalizing f with
  | nil => rfl
  | cons d ds ih =>
    have hline := Frame.mem_kinds_pushAll h .series (lineOf d)
    obtain ⟨hkinds, hd⟩ := withoutPoints_drawElements hovered hline d.elements
    rw [← drawDataset_eq] at hkinds hd
    rw [List.foldl_cons, List.foldl_cons, ih hkinds, hd,
      Frame.withoutPoints_pushAll f .series fun s hs => circle?_of_mem_lineOf hs]
    rfl

/-- Drawing datasets does not change whether a frame is valid. -/
theorem validate_drawDatasets (f : Frame α) (ds : List (DatasetLayout α)) :
    (ds.foldl (drawDataset hovered) f).validate = f.validate := by
  have helements (es : List (Element α)) (g : Frame α) :
      (es.foldl (fun f e => (e.draw (hovered = some e.ref) f).1) g).validate = g.validate := by
    induction es generalizing g with
    | nil => rfl
    | cons e es ih => exact (ih _).trans (e.validate_draw _ g)
  induction ds generalizing f with
  | nil => rfl
  | cons d ds ih =>
    rw [List.foldl_cons, ih, drawDataset_eq, helements, Frame.validate_pushAll f .series fun s hs => validate_of_mem_lineOf hs]

variable [NumberText α]

/-- The frame of the axes has the layer of the series. -/
theorem series_mem_axesFrame {options : ChartOptions α} {l : Layout α} {g : Frame α} (h : axesFrame options l = .ok g) :
    .series ∈ g.kinds := by
  obtain ⟨placed, -, h⟩ := bind_eq_ok.1 h
  cases h
  rw [Frame.kinds_place, Frame.kinds_empty]
  exact List.mem_append_left _ (by decide)

/-- A layout has no frame for a reason that lies in its axes; what is drawn over them comes in later. -/
theorem frame_eq (options : ChartOptions α) (l : Layout α) :
    frame options hovered l = (do
      let g ← axesFrame options l
      g.validate
      return l.datasets.foldl (drawDataset hovered) g) := by
  unfold frame axesFrame
  cases axes options l with
  | error err => rfl
  | ok placed =>
    change ((_ : Frame α).validate >>= fun _ => pure _) = ((_ : Frame α).validate >>= fun _ => pure _)
    rw [validate_drawDatasets]

/-- Without the points of its series a frame is drawn from the layout alone. -/
theorem withoutPoints_frame (options : ChartOptions α) (l : Layout α) :
    (frame options hovered l).map Frame.withoutPoints = (do
      let g ← axesFrame options l
      g.validate
      return l.datasets.foldl drawSteadily g.withoutPoints) := by
  rw [frame_eq]
  cases hg : axesFrame options l with
  | error err => rfl
  | ok g =>
    change Except.map _ (g.validate >>= fun _ => pure _) = (g.validate >>= fun _ => pure _)
    rw [← withoutPoints_drawDatasets hovered (series_mem_axesFrame hg)]
    cases g.validate <;> rfl

omit hovered in
/-- A layout without points has the same frame whatever is hovered. -/
theorem frame_congr {l : Layout α} (h : ∀ e ∈ l.elements, e.mark.isPoint = false) (options : ChartOptions α)
    (a b : Option ElementRef) : frame options a l = frame options b l := by
  have hdraw : ∀ d ∈ l.datasets, ∀ f : Frame α, drawDataset a f d = drawDataset b f d := by
    intro d hd f
    rw [drawDataset_eq, drawDataset_eq]
    refine List.foldl_ext _ _ _ fun f e he => ?_
    rw [Element.draw, Element.draw, Mark.shape?_congr (h e (List.mem_flatMap.2 ⟨d, hd, he⟩))]
  rw [frame_eq, frame_eq]
  congr 1
  funext g
  rw [List.foldl_ext _ _ _ fun f d hd => hdraw d hd f]

end Scene

end Whisker
