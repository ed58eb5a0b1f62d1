import Whisker.Proofs.Layout.Elements

/-!
# Hidden datasets

Hidden datasets stay in the list, where they count for positions and, by their lengths, for category labels. A layout
sees a chart only through its options, the datasets that are shown with their positions, and the category labels. So
two charts that agree on these have one layout, whatever their hidden datasets hold.
-/

namespace Whisker

variable {α : Type}

namespace Chart

/-- What a layout sees of a chart. -/
structure View (α : Type) where
  options : ChartOptions α
  visible : List (Nat × Dataset α)
  labels : List String

def view (c : Chart α) : View α := ⟨c.options, c.visible, c.categoryLabels⟩

/-- Two datasets at one position: both are hidden, or both are shown and are the same. -/
def Interchangeable (d d' : Dataset α) : Prop := d.hidden = d'.hidden ∧ (d.hidden = false → d = d')

/-- Two charts that differ at most in hidden datasets, and in how their labels come about. -/
structure AgreesOnShown (c c' : Chart α) : Prop where
  chartType : c.chartType = c'.chartType
  options : c.options = c'.options
  /-- There are as many datasets, position by position with the same flag and, where it is not set, the same content. -/
  datasets : List.Forall₂ Interchangeable c.datasets c'.datasets
  labels : c.categoryLabels = c'.categoryLabels

/-- The same datasets are shown at the same positions. -/
theorem AgreesOnShown.visible {c c' : Chart α} (h : c.AgreesOnShown c') : c.visible = c'.visible := by
  -- The positions run on along the lists, so the start is general.
  have hfrom {ds ds' : List (Dataset α)} (h : List.Forall₂ Interchangeable ds ds') (start : Nat) :
      (ds.zipIdx start).filter (!·.1.hidden) = (ds'.zipIdx start).filter (!·.1.hidden) := by
    induction h generalizing start with
    | nil => rfl
    | @cons d d' ds ds' hd _ ih =>
      obtain ⟨hflag, hsame⟩ := hd
      simp only [List.zipIdx_cons, List.filter_cons, ih, ← hflag]
      cases hd : d.hidden with
      | true => rfl
      | false => rw [hsame hd]
  unfold Chart.visible
  rw [hfrom h.datasets]

/-- Charts that agree on what is shown have the same view. -/
theorem AgreesOnShown.view {c c' : Chart α} (h : c.AgreesOnShown c') : c.view = c'.view := by
  unfold Chart.view
  rw [h.options, h.visible, h.labels]

/-- The chart with nothing left of its hidden datasets but their places, and all its labels written out. -/
def blanked (c : Chart α) : Chart α :=
  { c with
    labels := c.categoryLabels
    datasets := c.datasets.map fun d => if d.hidden then { Dataset.ofData [] with hidden := true } else d }

/-- Labels that reach as far as the longest dataset are kept as they are. -/
theorem categoryLabels_eq_labels {c : Chart α} (h : ∀ d ∈ c.datasets, d.data.length ≤ c.labels.length) :
    c.categoryLabels = c.labels := by
  have hlongest : ¬c.labels.length < (c.datasets.map (·.data.length)).foldl Nat.max 0 := by
    rw [lt_foldl_max]
    rintro (hlt | ⟨n, hn, hlt⟩)
    · exact absurd hlt (Nat.not_lt_zero _)
    · obtain ⟨d, hd, rfl⟩ := List.mem_map.1 hn
      exact absurd (h d hd) (Nat.not_le.2 hlt)
  unfold categoryLabels
  dsimp only
  rw [Nat.sub_eq_zero_of_le (Nat.not_lt.1 hlongest), List.range'_zero, List.map_nil, List.append_nil]

theorem categoryLabels_blanked (c : Chart α) : c.blanked.categoryLabels = c.categoryLabels := by
  refine categoryLabels_eq_labels (c := c.blanked) fun d hd => ?_
  obtain ⟨e, he, rfl⟩ := List.mem_map.1 hd
  split
  · exact Nat.zero_le _
  · -- A dataset is no longer than the labels, as each of its data has one.
    by_contra hlong
    exact Nat.lt_irrefl _ (lt_length_categoryLabels he (Nat.not_le.1 hlong))

theorem agreesOnShown_blanked (c : Chart α) : c.AgreesOnShown c.blanked where
  chartType := rfl
  options := rfl
  datasets := by
    refine List.forall₂_map_right_iff.2 (List.forall₂_same.2 fun d _ => ?_)
    cases hd : d.hidden with
    | true => exact ⟨hd, fun hshown => absurd (hd.symm.trans hshown) (by decide)⟩
    | false => exact ⟨rfl, fun _ => rfl⟩
  labels := c.categoryLabels_blanked.symm

end Chart

namespace Layout

variable {c c' : Chart α}

theorem shown_congr (h : c.visible = c'.visible) (read : Dataset α → List (Record α)) : shown c read = shown c' read := by
  unfold shown
  rw [h]

variable [Scalar α] [NumberText α]

theorem bar_congr (h : c.view = c'.view) (v : Viewport) (atRest : Bool) : bar c v atRest = bar c' v atRest := by
  obtain ⟨hoptions, hvisible, hlabels⟩ := Chart.View.mk.inj h
  have hhorizontal : isHorizontal c = isHorizontal c' := by
    unfold isHorizontal
    rw [hoptions]
  have hvalue : barValueAxis c = barValueAxis c' := by
    unfold barValueAxis
    rw [hhorizontal]
  have hindex : barIndexAxis c = barIndexAxis c' := by
    unfold barIndexAxis
    rw [hhorizontal]
  have helement : barElement c = barElement c' := by
    funext category values slots atRest slot s index r
    simp only [barElement, styleOf, hhorizontal, hvalue, hoptions]
  simp only [bar, shown_congr hvisible, helement, hhorizontal, hvalue, hindex, hoptions, hlabels]

theorem line_congr (h : c.view = c'.view) (v : Viewport) (atRest : Bool) : line c v atRest = line c' v atRest := by
  obtain ⟨hoptions, hvisible, hlabels⟩ := Chart.View.mk.inj h
  have helement : lineElement c = lineElement c' := by
    funext category values atRest s index r
    simp only [lineElement, pointMark, styleOf, hoptions]
  have hstyle : lineStyle c = lineStyle c' := by
    funext d base
    simp only [lineStyle, hoptions]
  simp only [line, shown_congr hvisible, helement, hstyle, hoptions, hlabels]

theorem scatter_congr (h : c.view = c'.view) (v : Viewport) (atRest : Bool) :
    scatter c v atRest = scatter c' v atRest := by
  obtain ⟨hoptions, hvisible, -⟩ := Chart.View.mk.inj h
  have helement : scatterElement c = scatterElement c' := by
    funext x y atRest s index r
    simp only [scatterElement, pointMark, styleOf, hoptions]
  simp only [scatter, shown_congr hvisible, helement, hoptions]

omit [NumberText α] in
theorem polar_congr [Circular α] (h : c.view = c'.view) (v : Viewport) (atRest : Bool) :
    polar c v atRest = polar c' v atRest := by
  obtain ⟨hoptions, hvisible, -⟩ := Chart.View.mk.inj h
  have helement : sectorElement c = sectorElement c' := by
    funext scale atRest s index r sweep
    simp only [sectorElement, styleOf, hoptions]
  simp only [polar, shown_congr hvisible, helement, hoptions]

end Layout

namespace ChartKind

variable [Scalar α] [NumberText α] [Circular α]

/-- Charts with the same view are laid out alike, or refused with the same error. -/
theorem layout_congr (kind : ChartKind) {c c' : Chart α} (h : c.view = c'.view) (v : Viewport) (atRest : Bool) :
    kind.layout c v atRest = kind.layout c' v atRest := by
  cases kind with
  | bar => exact Layout.bar_congr h v atRest
  | line => exact Layout.line_congr h v atRest
  | scatter => exact Layout.scatter_congr h v atRest
  | polar => exact Layout.polar_congr h v atRest

/-- A chart is laid out as if nothing were in its hidden datasets. -/
theorem layout_blanked (kind : ChartKind) (c : Chart α) (v : Viewport) (atRest : Bool) :
    kind.layout c.blanked v atRest = kind.layout c v atRest :=
  (kind.layout_congr c.agreesOnShown_blanked.view v atRest).symm

/-- Charts that differ only in what their hidden datasets hold have equal layouts, or are refused with the same error, by
each chart type on each canvas, at rest and settled. -/
theorem layout_ignores_hidden_datasets (kind : ChartKind) (c c' : Chart α) (h : c.AgreesOnShown c') (v : Viewport)
    (atRest : Bool) : kind.layout c v atRest = kind.layout c' v atRest :=
  kind.layout_congr h.view v atRest

/-- A dataset between two hidden ones; the first of these has data of the given height and the second a given color. -/
def screenedChart (height : Float) (color : Color Float) : Chart Float :=
  ⟨"barWithErrorBars", ["a"], [{ Dataset.ofData [.ofY height, .ofY height] with hidden := true }, .ofData [.ofY 2],
    { Dataset.ofData [.ofY 1] with background := some color, borderWidth := some height, hidden := true }],
    { ChartOptions.default with axes := .const boundedAxis }⟩

theorem screened_charts_are_laid_out_alike :
    (screenedChart 1 .white).AgreesOnShown (screenedChart 1000 .black) ∧
      (ChartKind.bar.layout (screenedChart 1 .white) ⟨300, 200⟩ false).isOk = true ∧
      ChartKind.bar.layout (screenedChart 1 .white) ⟨300, 200⟩ false =
        ChartKind.bar.layout (screenedChart 1000 .black) ⟨300, 200⟩ false := by
  have hagrees (x y : Float) (k l : Color Float) : (screenedChart x k).AgreesOnShown (screenedChart y l) :=
    ⟨rfl, rfl, .cons ⟨rfl, nofun⟩ (.cons ⟨rfl, fun _ => rfl⟩ (.cons ⟨rfl, nofun⟩ .nil)), rfl⟩
  refine ⟨hagrees _ _ _ _, by decide +kernel, ?_⟩
  exact layout_ignores_hidden_datasets .bar _ _ (hagrees _ _ _ _) ⟨300, 200⟩ false

end ChartKind

end Whisker
