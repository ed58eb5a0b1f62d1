import Whisker.Proofs.Engine.Styles
import Whisker.Proofs.Scalar.Order
import Whisker.Proofs.Scene.Axes
import Whisker.Proofs.Scene.Hover

/-!
# What a hovered point changes in a frame

The circles of the series are the points that are drawn. A circle can appear or vanish with its radius, but where both
radii of a point can be drawn, being hovered only resizes it. Charts of bars and sectors have no points, at no instant
of their animation, so their frames do not tell what is hovered.
-/

namespace Whisker

open Scalar (isFinite isSize)

variable {α : Type} [Scalar α] [Circular α] [NumberText α]

namespace Scene

variable (hovered : Option ElementRef)

def circle? (e : Element α) : Option (Circle α) := (e.mark.shape? (hovered = some e.ref)).bind Shape.circle?

omit [NumberText α] in
theorem circles_drawElements (f : Frame α) (es : List (Element α)) :
    ((es.foldl (fun f e => (e.draw (hovered = some e.ref) f).1) f).contents .series).circles =
      (f.contents .series).circles ++ es.filterMap (circle? hovered) := by
  induction es generalizing f with
  | nil => simp
  | cons e es ih =>
    have hstep : ((e.draw (hovered = some e.ref) f).1.contents .series).circles =
        (f.contents .series).circles ++ (circle? hovered e).toList := by
      rw [Element.series_draw, Layer.pushAll_eq_extended, circle?]
      cases e.mark.shape? (hovered = some e.ref) with
      | none => rfl
      | some s => cases s <;> rfl
    rw [List.foldl_cons, ih, hstep, List.append_assoc]
    cases hc : circle? hovered e <;> simp [hc]

omit [NumberText α] in
/-- Drawing datasets adds the circles of all their elements, in order. -/
theorem circles_drawDatasets (f : Frame α) (ds : List (DatasetLayout α)) :
    ((ds.foldl (drawDataset hovered) f).contents .series).circles =
      (f.contents .series).circles ++ (ds.flatMap DatasetLayout.elements).filterMap (circle? hovered) := by
  induction ds generalizing f with
  | nil => simp
  | cons d ds ih =>
    have hline : (lineOf d).filterMap Shape.circle? = [] :=
      List.filterMap_eq_nil_iff.2 fun s hs => circle?_of_mem_lineOf hs
    rw [List.foldl_cons, ih, drawDataset_eq, circles_drawElements, Frame.contents_pushAll, Layer.pushAll_eq_extended]
    simp [Layer.extended, hline]

/-- Axes stay below and above the series. -/
theorem not_series_of_mem_axes {options : ChartOptions α} {l : Layout α} {placed : Placed α} (h : axes options l = .ok placed) :
    ∀ s ∈ placed, s.1 ≠ .series := by
  have hstraight (area : Area α) (s : AxisScale α) (o : AxisOptions α) :
      ∀ p ∈ axisShapes l.viewport area s o, p.1 ≠ .series := by
    intro p hp
    unfold axisShapes at hp
    split at hp
    · simp only [List.mem_append, List.mem_map, List.mem_singleton] at hp
      obtain ((⟨_, -, rfl⟩ | rfl) | ⟨_, -, rfl⟩) | ⟨_, -, rfl⟩ := hp <;> exact nofun
    · cases hp
  unfold axes at h
  cases hscales : l.scales with
  | cartesian x y =>
    rw [hscales] at h
    obtain ⟨area, -, h⟩ := bind_eq_ok.1 h
    cases h
    exact List.forall_mem_append.2 ⟨hstraight area x _, hstraight area y _⟩
  | radial s =>
    rw [hscales] at h
    cases h
    intro p hp
    simp only [radialShapes] at hp
    split at hp
    · obtain ⟨t, -, hp⟩ := List.mem_flatMap.1 hp
      split at hp
      · rcases List.mem_append.1 hp with hp | hp <;> split at hp <;> simp_all
      · cases hp
    · cases hp

/-- The circles of a frame's series are the points that are drawn, in the order of the elements. -/
theorem circles_frame {options : ChartOptions α} {l : Layout α} {f : Frame α} (h : frame options hovered l = .ok f) :
    (f.contents .series).circles = l.elements.filterMap (circle? hovered) := by
  obtain ⟨g, hg, rfl, -⟩ := frame_eq_ok.1 h
  obtain ⟨placed, hplaced, hg⟩ := bind_eq_ok.1 hg
  cases hg
  have hnone : shapesFor .series placed = [] := by
    simpa [shapesFor] using not_series_of_mem_axes hplaced
  rw [circles_drawDatasets, Frame.contents_place, hnone]
  rfl

end Scene

/-- A point of this radius is drawn, if nothing else about it is at fault. -/
def IsVisibleRadius (r : α) : Prop := isFinite r = true ∧ 0.1 ≤ r

structure Point.IsSized (p : Point α) : Prop where
  radius : IsVisibleRadius p.radius
  hoverRadius : IsVisibleRadius p.hoverRadius

def Point.isPlaced (p : Point α) : Bool :=
  isFinite p.x && isFinite p.y && isSize p.borderWidth && p.fill.validate.isOk && p.border.validate.isOk

def Mark.point? : Mark α → Option (Point α)
  | .point p => some p
  | _ => none

/-- The circle of an element is that of its point, which has its hover radius if and only if it is hovered. -/
def Element.IsMarkedBy (hovered : Option ElementRef) (e : Element α) (c : Circle α) : Prop :=
  ∃ p, e.mark = .point p ∧
    c = ⟨p.x, p.y, if hovered = some e.ref then p.hoverRadius else p.radius, p.fill, p.border, p.borderWidth⟩

def Element.isMarked (e : Element α) : Bool :=
  match e.mark with
  | .point p => p.isPlaced
  | _ => false

theorem IsVisibleRadius.isSize {r : Float} (h : IsVisibleRadius r) : isSize r = true := by
  obtain ⟨hr, hle⟩ := h
  change Scalar.ofDecimal 1 1 ≤ r at hle
  have htenth : Scalar.isPositive (Scalar.ofDecimal 1 1 : Float) = true := by decide +kernel
  obtain ⟨hfinite, hpos⟩ := (Binary.isPositive_iff _).1 htenth
  have hvalue := (Binary.le_iff_value hfinite hr).1 hle
  exact Binary.isSize_of_isPositive ((Binary.isPositive_iff r).2 ⟨hr, hpos.trans_le hvalue⟩)

/-- With visible radii a point is drawn exactly if its center is finite, hovered or not. -/
theorem Point.IsSized.shape?_eq {p : Point Float} (h : p.IsSized) (hovered : Bool) :
    (Mark.point p).shape? hovered = if p.isPlaced then some (.circle (p.circle hovered)) else none := by
  have hradius : IsVisibleRadius (p.circle hovered).radius := by
    cases hovered
    · exact h.radius
    · exact h.hoverRadius
  have hvalid : (p.circle hovered).validate.isOk = p.isPlaced := by
    rw [Bool.eq_iff_iff, isOk_iff, Circle.validate_eq_ok, hradius.isSize, Point.isPlaced]
    simp [Point.circle, isOk_iff, and_assoc]
  simp only [Mark.shape?, hvalid, hradius.2, decide_true, Bool.and_true]

namespace Scene

variable (hovered : Option ElementRef) {e : Element Float}

/-- A marked element has a circle, at its own place and with the radius that hovering chooses. -/
theorem circle?_of_isMarked (h : ∀ p, e.mark = .point p → p.IsSized) (hmarked : e.isMarked = true) :
    ∃ c, circle? hovered e = some c ∧ e.IsMarkedBy hovered c := by
  cases hm : e.mark with
  | point p =>
    have hplaced : p.isPlaced = true := by simpa [Element.isMarked, hm] using hmarked
    refine ⟨p.circle (hovered = some e.ref), ?_, p, hm, by simp [Point.circle]⟩
    rw [circle?, hm, (h p hm).shape?_eq, if_pos hplaced]
    rfl
  | bar b => simp [Element.isMarked, hm] at hmarked
  | sector s => simp [Element.isMarked, hm] at hmarked

/-- Every other element adds no circle. -/
theorem circle?_of_not_isMarked (h : ∀ p, e.mark = .point p → p.IsSized) (hmarked : e.isMarked = false) :
    circle? hovered e = none := by
  cases hm : e.mark with
  | point p =>
    have hplaced : p.isPlaced = false := by simpa [Element.isMarked, hm] using hmarked
    rw [circle?, hm, (h p hm).shape?_eq, hplaced]
    rfl
  | bar b =>
    simp only [circle?, hm, Mark.shape?]
    split <;> rfl
  | sector s =>
    simp only [circle?, hm, Mark.shape?]
    split <;> rfl

/-- Where all points are sized, the same ones are drawn whatever is hovered. -/
theorem forall₂_circles {es : List (Element Float)} (h : ∀ e ∈ es, ∀ p, e.mark = .point p → p.IsSized) :
    List.Forall₂ (Element.IsMarkedBy hovered) (es.filter Element.isMarked) (es.filterMap (circle? hovered)) := by
  induction es with
  | nil => exact .nil
  | cons e es ih =>
    obtain ⟨he, hes⟩ := List.forall_mem_cons.1 h
    cases hmarked : e.isMarked with
    | true =>
      obtain ⟨c, hc, hmark⟩ := circle?_of_isMarked hovered he hmarked
      rw [List.filter_cons_of_pos hmarked, List.filterMap_cons_some hc]
      exact .cons hmark (ih hes)
    | false =>
      rw [List.filter_cons_of_neg (by simp [hmarked]), List.filterMap_cons_none (circle?_of_not_isMarked hovered he hmarked)]
      exact ih hes

end Scene

omit [Circular α] [NumberText α] in
theorem Mark.isPoint_blend (m : Mark α) {n : Mark α} (h : n.isPoint = false) (t : α) : (m.blend n t).isPoint = false := by
  cases n with
  | point p => cases h
  | bar b => cases m <;> rfl
  | sector s => cases m <;> rfl

/-- Bars and sectors are no points. -/
theorem ChartKind.isPoint_of_layout {kind : ChartKind} (hkind : kind = .bar ∨ kind = .polar) {c : Chart α} {v : Viewport}
    {atRest : Bool} {l : Layout α} (h : kind.layout c v atRest = .ok l) : ∀ e ∈ l.elements, e.mark.isPoint = false := by
  intro e he
  rcases hkind with rfl | rfl
  · obtain ⟨_, _, _, _, _, _, _, hl⟩ := Layout.bar_eq_ok h
    obtain ⟨_, _, _, _, _, _, rfl⟩ := hl.exists_record he
    rfl
  · obtain ⟨_, _, _, _, hl⟩ := Layout.polar_eq_ok h
    obtain ⟨_, _, _, _, _, _, rfl⟩ := hl.exists_record he
    rfl

namespace Engine

/-- Nor are they on the way from one state to another. -/
theorem Coherent.isPoint_of_animatedLayout {e : Engine α} (h : e.Coherent)
    (hkind : e.chartType.kind = .bar ∨ e.chartType.kind = .polar) {elapsed : α} {l : Layout α}
    (hl : e.animatedLayout elapsed = .ok l) : ∀ m ∈ l.elements, m.mark.isPoint = false := by
  intro m hm
  rcases animatedLayout_cases hl with rfl | ⟨rest, t, hrest, rfl⟩
  · exact ChartKind.isPoint_of_layout hkind h.layout m hm
  · obtain ⟨f, g, hg, -, rfl⟩ := Layout.exists_of_mem_blend (h.skeleton_restLayout hrest) hm
    exact f.mark.isPoint_blend (ChartKind.isPoint_of_layout hkind h.layout g hg) t

/-- The frame of a layout in an engine in which something is hovered, or nothing. -/
def frameHovering (e : Engine α) (hovered : Option ElementRef) (l : Layout α) : Result (Frame α) :=
  ({ e with hovered } : Engine α).frameOf l

/-- Whatever two things are hovered, the frames of a layout are the same but for the circles of the series, or there is none
for the same reason; and an element takes as many error bar lines. They are the same altogether for a layout without
points, which those of bar and polar charts are at rest, settled and in between. Where the points of a layout have radii
that can both be drawn, the same ones are drawn in any frame of it, and only the radii tell which is hovered. -/
theorem hover_changes_points_only (e : Engine Float) (a b : Option ElementRef) (l : Layout Float) :
    (e.frameHovering a l).map Frame.withoutPoints = (e.frameHovering b l).map Frame.withoutPoints ∧
    (∀ (m : Element Float) (f : Frame Float), (m.draw true f).2 = (m.draw false f).2) ∧
    ((∀ m ∈ l.elements, m.mark.isPoint = false) → e.frameHovering a l = e.frameHovering b l) ∧
    (∀ (kind : ChartKind) (c : Chart Float) (v : Viewport) (atRest : Bool), kind = .bar ∨ kind = .polar →
      kind.layout c v atRest = .ok l → e.frameHovering a l = e.frameHovering b l) ∧
    (∀ elapsed, e.Reachable → e.chartType.kind = .bar ∨ e.chartType.kind = .polar → e.animatedLayout elapsed = .ok l →
      e.frameHovering a l = e.frameHovering b l) ∧
    ((∀ m ∈ l.elements, ∀ p, m.mark = .point p → p.IsSized) →
      ∃ marked : List (Element Float), marked.Sublist l.elements ∧ ∀ hovered f, e.frameHovering hovered l = .ok f →
        List.Forall₂ (Element.IsMarkedBy hovered) marked (f.contents .series).circles) := by
  have hcongr (h : ∀ m ∈ l.elements, m.mark.isPoint = false) : e.frameHovering a l = e.frameHovering b l :=
    Scene.frame_congr h e.chart.options a b
  refine ⟨?_, fun m f => ?_, hcongr, fun kind c v atRest hkind hl => ?_, fun elapsed hr hkind hl => ?_, fun hsized => ?_⟩
  · change (Scene.frame e.chart.options a l).map _ = (Scene.frame e.chart.options b l).map _
    rw [Scene.withoutPoints_frame, Scene.withoutPoints_frame]
  · rw [Element.draw_eq, Element.draw_eq]
  · exact hcongr (ChartKind.isPoint_of_layout hkind hl)
  · exact hcongr (hr.coherent.isPoint_of_animatedLayout hkind hl)
  · refine ⟨l.elements.filter Element.isMarked, List.filter_sublist, fun hovered f hf => ?_⟩
    rw [Scene.circles_frame hovered hf]
    exact Scene.forall₂_circles hovered hsized

/-- The one point of a plain chart has its other radius when it is hovered. -/
theorem hovered_point_is_resized :
    ∃ (e : Engine Float) (f g : Frame Float) (p : Point Float) (c d : Circle Float), e.Reachable ∧
      (∀ m ∈ e.layout.elements, ∀ p, m.mark = .point p → p.IsSized) ∧
      e.frameHovering none e.layout = .ok f ∧ e.frameHovering (some ⟨0, 0⟩) e.layout = .ok g ∧ f.withoutPoints = g.withoutPoints ∧
      (f.contents .series).circles = [c] ∧ (g.contents .series).circles = [d] ∧ c.radius = p.radius ∧ d.radius = p.hoverRadius := by
  have hs : (start .counting .standard ⟨⟨300, 200⟩, plainChart⟩).toOption.map (fun e =>
      (e.layout.elements.all fun m => m.mark.point?.all fun p =>
          isFinite p.radius && 0.1 ≤ p.radius && isFinite p.hoverRadius && 0.1 ≤ p.hoverRadius,
        e.layout.elements.map Element.ref, (e.frameHovering none e.layout).toOption.map fun f => (f.contents .series).circles.length,
        (e.frameHovering (some ⟨0, 0⟩) e.layout).isOk)) = some (true, [⟨0, 0⟩], some 1, true) := by decide +kernel
  obtain ⟨e, he, hparts⟩ := Option.map_eq_some_iff.1 hs
  obtain ⟨hsized, hparts⟩ := Prod.mk.inj hparts
  obtain ⟨hrefs, hparts⟩ := Prod.mk.inj hparts
  obtain ⟨hf, hg⟩ := Prod.mk.inj hparts
  obtain ⟨f, hf, hlength⟩ := Option.map_eq_some_iff.1 hf
  obtain ⟨g, hg⟩ := isOk_iff_exists.1 hg
  have hf := toOption_eq_some.1 hf
  have hsized : ∀ m ∈ e.layout.elements, ∀ p, m.mark = .point p → p.IsSized := by
    intro m hm p hp
    have hall := List.all_eq_true.1 hsized m hm
    simp only [hp, Mark.point?, Option.all_some, Bool.and_eq_true, decide_eq_true_eq] at hall
    obtain ⟨⟨⟨hfinite, hlarge⟩, hhoverFinite⟩, hhoverLarge⟩ := hall
    exact ⟨⟨hfinite, hlarge⟩, ⟨hhoverFinite, hhoverLarge⟩⟩
  obtain ⟨hsame, -, -, -, -, hmarks⟩ := hover_changes_points_only e none (some ⟨0, 0⟩) e.layout
  rw [hf, hg] at hsame
  obtain ⟨marked, hmarked, hmarks⟩ := hmarks hsized
  have hfmarks := hmarks none f hf
  have hgmarks := hmarks (some ⟨0, 0⟩) g hg
  -- One circle is the mark of one element, in the other frame as well.
  obtain ⟨c, hc⟩ := List.length_eq_one_iff.1 hlength
  rw [hc] at hfmarks
  obtain ⟨m, rest, ⟨p, hp, rfl⟩, hrest, rfl⟩ := List.forall₂_cons_right_iff.1 hfmarks
  obtain rfl := List.forall₂_nil_right_iff.1 hrest
  obtain ⟨d, rest, ⟨q, hq, rfl⟩, hrest, hd⟩ := List.forall₂_cons_left_iff.1 hgmarks
  obtain rfl := List.forall₂_nil_left_iff.1 hrest
  obtain rfl := Mark.point.inj (hp.symm.trans hq)
  have href : m.ref = ⟨0, 0⟩ := by
    have hmem : m.ref ∈ e.layout.elements.map Element.ref := List.mem_map_of_mem (hmarked.subset List.mem_cons_self)
    rw [hrefs] at hmem
    exact List.mem_singleton.1 hmem
  exact ⟨e, f, g, p, _, _, .start (toOption_eq_some.1 he), hsized, hf, hg, Except.ok.inj hsame, hc, hd, rfl, by simp [href]⟩

end Engine

end Whisker
