import Mathlib.Data.List.Forall2
import Whisker.Proofs.Element.Drawing
import Whisker.Proofs.Scene.Blocks

/-!
# What the line of a dataset adds to the series

If its stroke can be drawn, a line loses no segment of its blocks, and where it is filled every block of two points or
more gets its area: whatever is left out elsewhere because it is not finite was left out with the gaps. The elements
that are drawn afterwards add neither lines nor polygons to the series.
-/

namespace Whisker

open Scalar (isFinite isPositive)

variable {α : Type} [Scalar α]

namespace LineStyle

/-- The stroke can be drawn: it has a positive width and a valid color. -/
structure Strokes (style : LineStyle α) : Prop where
  width : isPositive style.width = true
  color : style.color.validate = .ok ()

/-- The area under the line is filled: it has a valid color, and a finite base to close on. -/
structure Fills (style : LineStyle α) (fill : Color α) : Prop where
  color : style.fill = some fill
  valid : fill.validate = .ok ()
  base : isFinite style.fillBase = true

end LineStyle

namespace Scene

variable {points : List (α × α)} {style : LineStyle α} {fill : Color α}

/-- With a sound stroke every joint of solid points is drawn. -/
theorem isDrawable_segment (h : style.Strokes) {joint : (α × α) × (α × α)} (hjoint : joint ∈ joints points) :
    (segment style joint).isDrawable = true := by
  have hsolid := (List.mem_filter.1 hjoint).2
  simp only [isSolid, Bool.and_eq_true] at hsolid
  simp [Line.isDrawable, Line.validate, segment, h.width, h.color, hsolid]

theorem IsBlock.le_length {i j : ℕ} (h : IsBlock points i j) : j ≤ points.length := by
  have hlt := h.nonempty
  have hlast := (h.solid (j - 1) (by omega) (by omega)).lt_length
  omega

theorem length_cut {i j : ℕ} (h : IsBlock points i j) : (cut points (i, j)).length = j - i := by
  rw [cut, List.extract_eq_take_drop, List.length_take, List.length_drop]
  exact min_eq_left (Nat.sub_le_sub_right h.le_length i)

omit [Scalar α] in
theorem getElem?_cut {i j k : ℕ} (hk : k < j - i) : (cut points (i, j))[k]? = points[i + k]? := by
  rw [cut, List.extract_eq_take_drop, List.getElem?_take_of_lt hk, List.getElem?_drop]

/-- All points of a block are solid. -/
theorem isSolid_of_mem_cut {i j : ℕ} (h : IsBlock points i j) {p : α × α} (hp : p ∈ cut points (i, j)) :
    isSolid p = true := by
  obtain ⟨k, hk⟩ := List.mem_iff_getElem?.1 hp
  have hlt : k < j - i := length_cut h ▸ (List.getElem?_eq_some_iff.1 hk).1
  obtain ⟨q, hq, hsolid⟩ := h.solid (i + k) (Nat.le_add_right i k) (by omega)
  rw [getElem?_cut hlt, hq] at hk
  exact Option.some.inj hk ▸ hsolid

/-- A polygon follows the points of a span and closes on the base, below the last of them and then below the first. -/
def Outlines (points : List (α × α)) (base : α) (fill : Color α) (span : ℕ × ℕ) (area : Polygon α) : Prop :=
  ∃ first last, points[span.1]? = some first ∧ points[span.2 - 1]? = some last ∧
    area = ⟨cut points span ++ [(last.1, base), (first.1, base)], fill⟩

/-- The area under a block outlines it. -/
theorem outlines_areaUnder {i j : ℕ} (h : IsBlock points i j) (base : α) (fill : Color α) :
    Outlines points base fill (i, j) (areaUnder base fill (cut points (i, j))) := by
  have hlt := h.nonempty
  obtain ⟨first, hfirst, -⟩ := h.solid i le_rfl hlt
  obtain ⟨last, hlast, -⟩ := h.solid (j - 1) (by omega) (by omega)
  have hhead : (cut points (i, j)).head? = some first := by
    rw [List.head?_eq_getElem?, getElem?_cut (by omega), Nat.add_zero, hfirst]
  have hend : (cut points (i, j)).getLast? = some last := by
    rw [List.getLast?_eq_getElem?, length_cut h, getElem?_cut (by omega), ← hlast]
    congr 1
    omega
  refine ⟨first, last, hfirst, hlast, ?_⟩
  rw [areaUnder, hhead, hend]

/-- The area under a block is valid as soon as its color and its base are. -/
theorem validate_areaUnder {base : α} {i j : ℕ} (h : IsBlock points i j) (htwo : i + 2 ≤ j) :
    (areaUnder base fill (cut points (i, j))).validate = .ok () ↔ fill.validate = .ok () ∧ isFinite base = true := by
  obtain ⟨first, last, hfirst, hlast, heq⟩ := outlines_areaUnder h base fill
  have hfinite (k : ℕ) (hk : i ≤ k) (hkj : k < j) {p : α × α} (hp : points[k]? = some p) : isFinite p.1 = true := by
    obtain ⟨q, hq, hsolid⟩ := h.solid k hk hkj
    obtain rfl := Option.some.inj (hp.symm.trans hq)
    exact (Bool.and_eq_true_iff.1 hsolid).1
  have hcut : (cut points (i, j)).all (fun q => isFinite q.1 && isFinite q.2) = true :=
    List.all_eq_true.2 fun p hp => isSolid_of_mem_cut h hp
  have hsize : 3 ≤ (cut points (i, j)).length + 2 := by
    rw [length_cut h]
    omega
  rw [heq, Polygon.validate]
  simp [hcut, hsize, hfinite i le_rfl h.nonempty hfirst, hfinite (j - 1) (by omega) (by omega) hlast, and_comm]

def areas (style : LineStyle α) (points : List (α × α)) : List (Polygon α) :=
  style.fill.elim [] fun fill =>
    (((blocks points).filter fun b => 2 ≤ b.length).map (areaUnder style.fillBase fill)).filter fun p => p.validate.isOk

def IsWide (points : List (α × α)) (i j : ℕ) : Prop := IsBlock points i j ∧ i + 2 ≤ j

/-- Blocks of two points or more come from spans in order. -/
theorem exists_wideSpans (points : List (α × α)) :
    ∃ spans, Spans (IsWide points) spans ∧ ((blocks points).filter fun b => 2 ≤ b.length) = spans.map (cut points) := by
  obtain ⟨spans, hspans, hblocks⟩ := exists_spans points
  refine ⟨spans.filter fun s => s.1 + 2 ≤ s.2, ⟨hspans.ordered.filter _, fun i j => ?_⟩, ?_⟩
  · rw [List.mem_filter, hspans.mem_iff, decide_eq_true_iff, IsWide]
  · rw [hblocks, List.filter_map]
    congr 1
    refine List.filter_congr fun ⟨i, j⟩ hspan => decide_eq_decide.2 ?_
    have h := (hspans.mem_iff i j).1 hspan
    have hlt := h.nonempty
    rw [length_cut h]
    omega

/-- With a sound fill each wide block has its area. -/
theorem areas_of_fills (h : style.Fills fill) (points : List (α × α)) :
    ∃ spans, Spans (IsWide points) spans ∧ List.Forall₂ (Outlines points style.fillBase fill) spans (areas style points) := by
  obtain ⟨spans, hspans, hblocks⟩ := exists_wideSpans points
  have hvalid : ∀ p ∈ (spans.map (cut points)).map (areaUnder style.fillBase fill), p.validate.isOk = true := by
    simp only [List.forall_mem_map, isOk_iff]
    rintro ⟨i, j⟩ hspan
    obtain ⟨hblock, htwo⟩ := (hspans.mem_iff i j).1 hspan
    exact (validate_areaUnder hblock htwo).2 ⟨h.valid, h.base⟩
  refine ⟨spans, hspans, ?_⟩
  rw [areas, h.color, Option.elim_some, hblocks, List.filter_eq_self.2 hvalid, List.map_map, List.forall₂_map_right_iff]
  refine List.forall₂_same.2 ?_
  rintro ⟨i, j⟩ hspan
  exact outlines_areaUnder ((hspans.mem_iff i j).1 hspan).1 style.fillBase fill

theorem areas_of_not_fills (h : ¬∃ fill, style.Fills fill) (points : List (α × α)) : areas style points = [] := by
  cases hfill : style.fill with
  | none => rw [areas, hfill, Option.elim_none]
  | some fill =>
    obtain ⟨spans, hspans, hblocks⟩ := exists_wideSpans points
    rw [areas, hfill, Option.elim_some, hblocks, List.filter_eq_nil_iff]
    simp only [List.forall_mem_map, isOk_iff]
    rintro ⟨i, j⟩ hspan hvalid
    obtain ⟨hblock, htwo⟩ := (hspans.mem_iff i j).1 hspan
    obtain ⟨hcolor, hbase⟩ := (validate_areaUnder hblock htwo).1 hvalid
    exact h ⟨fill, hfill, hcolor, hbase⟩

/-- A line consists of its areas, then its segments. -/
theorem lineShapes_eq (h : style.Strokes) (points : List (α × α)) :
    lineShapes style points = (areas style points).map .polygon ++ ((joints points).map (segment style)).map .line := by
  have hdrawable : ∀ l ∈ (joints points).map (segment style), l.isDrawable = true :=
    List.forall_mem_map.2 fun joint hjoint => isDrawable_segment h hjoint
  rw [lineShapes, flatMap_segments, List.filter_eq_self.2 hdrawable]
  congr 1
  unfold areas
  cases style.fill <;> rfl

end Scene

/-- A layer has the lines and the polygons of another one, whatever else was added. -/
def Layer.SameLines (l m : Layer α) : Prop := m.lines = l.lines ∧ m.polygons = l.polygons

variable [Circular α]

namespace Scene

omit [Circular α] in
theorem sameLines_pushAll_mark (l : Layer α) (m : Mark α) (hovered : Bool) :
    l.SameLines (l.pushAll (m.shape? hovered).toList) := by
  cases m with
  | bar b =>
    rw [Mark.shape?]
    split <;> exact ⟨rfl, rfl⟩
  | point p =>
    simp only [Mark.shape?]
    split <;> exact ⟨rfl, rfl⟩
  | sector s =>
    rw [Mark.shape?]
    split <;> exact ⟨rfl, rfl⟩

/-- Drawing elements leaves the lines of the series as they are. -/
theorem sameLines_drawElements (hovered : Option ElementRef) (elements : List (Element α)) (f : Frame α) :
    (f.contents .series).SameLines
      ((elements.foldl (fun f e => (e.draw (hovered = some e.ref) f).1) f).contents .series) := by
  induction elements generalizing f with
  | nil => exact ⟨rfl, rfl⟩
  | cons e elements ih =>
    obtain ⟨hlines, hpolygons⟩ := ih (e.draw (hovered = some e.ref) f).1
    rw [Element.series_draw] at hlines hpolygons
    obtain ⟨hsame, hsame'⟩ := sameLines_pushAll_mark (f.contents .series) e.mark (hovered = some e.ref)
    exact ⟨hlines.trans hsame, hpolygons.trans hsame'⟩

/-- A dataset with a line that can be drawn adds to the lines of the series the segments between neighbours that are both
finite, in order and no others. Where the line is filled it adds a polygon for each block of two finite points or
more that neither starts nor ends next to another finite point, and otherwise none. -/
theorem line_draws_segments_and_areas {d : DatasetLayout α} {style : LineStyle α} (hline : d.line = some style) (h : style.Strokes)
    (hovered : Option ElementRef) (f : Frame α) :
    let points := d.elements.map Element.center
    let before := f.contents .series
    let after := (drawDataset hovered f d).contents .series
    after.lines = before.lines ++ (joints points).map (segment style) ∧
      (∀ fill, style.Fills fill → ∃ spans areas, Spans (IsWide points) spans ∧
        List.Forall₂ (Outlines points style.fillBase fill) spans areas ∧ after.polygons = before.polygons ++ areas) ∧
      ((¬∃ fill, style.Fills fill) → after.polygons = before.polygons) := by
  intro points before after
  have hdraw : after = (d.elements.foldl (fun f e => (e.draw (hovered = some e.ref) f).1)
      (f.pushAll .series (lineShapes style points))).contents .series := by
    simp only [after, drawDataset, hline, points]
  obtain ⟨hlines, hpolygons⟩ := sameLines_drawElements hovered d.elements (f.pushAll .series (lineShapes style points))
  rw [← hdraw, Frame.contents_pushAll, lineShapes_eq h, Layer.pushAll_append, Layer.pushAll_lines, Layer.pushAll_polygons]
    at hlines hpolygons
  refine ⟨hlines, fun fill hfill => ?_, fun hnone => ?_⟩
  · obtain ⟨spans, hspans, houtlines⟩ := areas_of_fills hfill points
    exact ⟨spans, areas style points, hspans, houtlines, hpolygons⟩
  · exact hpolygons.trans (by rw [areas_of_not_fills hnone, List.append_nil])

/-- Two points, a gap and two points more, one of them beside the canvas. -/
def partedLine : DatasetLayout Float where
  dataset := 0
  records := []
  elements := [(0, 10), (10, 20), (20, Scalar.nan), (30, 15), (-40, 25)].mapIdx fun i (x, y) =>
    ⟨0, i, .point ⟨x, y, 3, 4, 1, .white, .black, 1⟩, .const .empty, .default⟩
  line := some ⟨.black, 2, some .white, 50⟩

theorem parted_line_is_drawn :
    let points := partedLine.elements.map Element.center
    let after := (drawDataset none (.empty ⟨60, 50⟩) partedLine).contents .series
    (∃ style, partedLine.line = some style ∧ style.Strokes ∧ style.Fills .white ∧
      after.lines = (joints points).map (segment style)) ∧ (joints points).length = 2 ∧
      ∃ spans, Spans (IsWide points) spans ∧ List.Forall₂ (Outlines points 50 .white) spans after.polygons := by
  intro points after
  have hstrokes : (LineStyle.mk .black 2 (some .white) 50 : LineStyle Float).Strokes :=
    ⟨by decide +kernel, isOk_iff.1 (by decide +kernel)⟩
  have hfills : (LineStyle.mk .black 2 (some .white) 50 : LineStyle Float).Fills .white :=
    ⟨rfl, isOk_iff.1 (by decide +kernel), by decide +kernel⟩
  obtain ⟨hlines, hareas, -⟩ := line_draws_segments_and_areas (d := partedLine) rfl hstrokes none (.empty ⟨60, 50⟩)
  obtain ⟨spans, areas, hspans, houtlines, hpolygons⟩ := hareas .white hfills
  refine ⟨⟨_, rfl, hstrokes, hfills, hlines⟩, by decide +kernel, spans, hspans, ?_⟩
  have hpolygons : after.polygons = areas := hpolygons
  exact hpolygons ▸ houtlines

end Scene

end Whisker
