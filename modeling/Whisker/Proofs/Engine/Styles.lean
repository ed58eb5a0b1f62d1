import Whisker.Proofs.Engine.Frames
import Whisker.Proofs.Layout.Skeleton
import Whisker.Proofs.Scalar.Monotone
import Whisker.Proofs.Style

/-!
# Styles in an engine

The rules of a chart look at its own style and at the datasets that override it, and a layout resolves the style of each
dataset that it shows. All these are sound in a reachable engine, and an animation, which blends equal styles, keeps
them.
-/

namespace Whisker

variable {α : Type} [Scalar α]

/-- A chart that keeps the rules has a sound style for each dataset. -/
theorem Chart.sound_styleOf {c : Chart α} (h : c.validate = .ok ()) {i : Nat} {d : Dataset α}
    (hd : c.datasets[i]? = some d) : (Layout.styleOf c d).Sound := by
  simp only [validate, seq_eq_ok, forM_eq_ok] at h
  obtain ⟨-, -, hchart, hdatasets⟩ := h
  have hdataset := hdatasets (d, i) (List.mk_mem_zipIdx_iff_getElem?.2 hd)
  simp only [Dataset.validate, seq_eq_ok] at hdataset
  have hdataset := hdataset.2
  unfold Layout.styleOf
  split at hdataset
  · -- Such a dataset is not checked: its style is the one of the chart.
    rename_i hempty
    rw [Style.resolve_of_isEmpty hempty]
    exact Style.validate_eq_ok.1 hchart
  · exact Style.validate_eq_ok.1 (mapError_eq_ok.1 hdataset)

namespace Layout

def Styles (c : Chart α) (e : Element α) : Prop := ∃ d, c.datasets[e.dataset]? = some d ∧ e.style = styleOf c d

omit [Scalar α] in
/-- A dataset that is shown stands in the chart at its own position. -/
theorem getElem?_of_mem_shown {c : Chart α} {read : Dataset α → List (Record α)} {s : Shown α} (h : s ∈ shown c read) :
    c.datasets[s.index]? = some s.dataset := by
  obtain ⟨⟨i, d⟩, hvisible, rfl⟩ := List.mem_map.1 h
  exact (Chart.mem_visible.1 hvisible).1

omit [Scalar α] in
/-- If two lists agree under some view, their blend has an entry for each two that agree. -/
theorem exists_of_mem_blendAll {β γ : Type} {blend : β → β → β} {view : β → γ} {xs ys : List β}
    (h : xs.map view = ys.map view) {z : β} (hz : z ∈ blendAll blend xs ys) :
    ∃ x y, y ∈ ys ∧ view x = view y ∧ z = blend x y := by
  induction xs generalizing ys with
  | nil =>
    obtain rfl := List.map_eq_nil_iff.1 h.symm
    cases hz
  | cons x xs ih =>
    cases ys with
    | nil => cases h
    | cons y ys =>
      obtain ⟨hxy, htail⟩ := List.cons.inj h
      rw [blendAll, List.mem_cons] at hz
      rcases hz with rfl | hz
      · exact ⟨x, y, List.mem_cons_self, hxy, rfl⟩
      · obtain ⟨x', y', hy', hview, hblend⟩ := ih htail hz
        exact ⟨x', y', List.mem_cons_of_mem y hy', hview, hblend⟩

/-- An element of a blend is the blend of two elements that differ only in what their values decide. -/
theorem exists_of_mem_blend {l m : Layout α} (h : l.skeleton = m.skeleton) {t : α} {e : Element α}
    (he : e ∈ (l.blend m t).elements) :
    ∃ f g : Element α, g ∈ m.elements ∧ f.skeleton = g.skeleton ∧ e = f.blend g t := by
  obtain ⟨d, hd, he⟩ := List.mem_flatMap.1 he
  have hdatasets : l.datasets.map DatasetLayout.skeleton = m.datasets.map DatasetLayout.skeleton :=
    congrArg Skeleton.datasets h
  obtain ⟨p, q, hq, hpq, rfl⟩ := exists_of_mem_blendAll hdatasets hd
  have helements : p.elements.map Element.skeleton = q.elements.map Element.skeleton :=
    congrArg DatasetLayout.Skeleton.elements hpq
  obtain ⟨f, g, hg, hfg, rfl⟩ := exists_of_mem_blendAll helements he
  exact ⟨f, g, List.mem_flatMap.2 ⟨q, hq, hg⟩, hfg, rfl⟩

end Layout

namespace ChartKind

variable [NumberText α] [Circular α] {kind : ChartKind} {c : Chart α} {v : Viewport} {atRest : Bool} {l : Layout α}

/-- Each element of a layout has the style that the chart and its dataset choose. -/
theorem styles_of_layout (h : kind.layout c v atRest = .ok l) {e : Element α} (he : e ∈ l.elements) :
    Layout.Styles c e := by
  cases kind with
  | bar =>
    obtain ⟨_, _, _, _, _, _, _, hl⟩ := Layout.bar_eq_ok h
    obtain ⟨s, hs, _, _, _, _, rfl⟩ := hl.exists_record he
    exact ⟨s.dataset, Layout.getElem?_of_mem_shown hs, rfl⟩
  | line =>
    obtain ⟨_, _, _, _, _, _, hl⟩ := Layout.line_eq_ok h
    obtain ⟨s, hs, _, _, _, rfl⟩ := hl.exists_record he
    exact ⟨s.dataset, Layout.getElem?_of_mem_shown hs, rfl⟩
  | scatter =>
    obtain ⟨_, _, _, _, _, _, hl⟩ := Layout.scatter_eq_ok h
    obtain ⟨s, hs, _, _, _, rfl⟩ := hl.exists_record he
    exact ⟨s.dataset, Layout.getElem?_of_mem_shown hs, rfl⟩
  | polar =>
    obtain ⟨_, _, _, _, hl⟩ := Layout.polar_eq_ok h
    obtain ⟨s, hs, _, _, _, _, rfl⟩ := hl.exists_record he
    exact ⟨s.dataset, Layout.getElem?_of_mem_shown hs, rfl⟩

/-- At rest a layout has the skeleton of the settled one, styles included. -/
theorem skeleton_rest (kind : ChartKind) (c : Chart α) (v : Viewport) :
    (kind.layout c v true).map Layout.skeleton = (kind.layout c v false).map Layout.skeleton := by
  cases kind with
  | bar => exact Layout.bar_skeleton c v
  | line => exact Layout.line_skeleton c v
  | scatter => exact Layout.scatter_skeleton c v
  | polar => exact Layout.polar_skeleton c v

end ChartKind

namespace Engine

section

variable [NumberText α] [Circular α] {e : Engine α}

/-- The layout at rest differs from the current one in coordinates only. -/
theorem Coherent.skeleton_restLayout (h : e.Coherent) {rest : Layout α} (hrest : e.restLayout = .ok rest) :
    rest.skeleton = e.layout.skeleton := by
  have hskeleton := e.chartType.kind.skeleton_rest e.chart e.viewport
  have hrest : e.chartType.kind.layout e.chart e.viewport true = .ok rest := hrest
  rw [hrest, h.layout] at hskeleton
  exact Except.ok.inj hskeleton

/-- The layout at an instant is the settled one or a blend of the two ends of the animation. -/
theorem animatedLayout_cases {elapsed : α} {l : Layout α} (h : e.animatedLayout elapsed = .ok l) :
    l = e.layout ∨ ∃ rest t, e.restLayout = .ok rest ∧ l = rest.blend e.layout t := by
  unfold animatedLayout at h
  dsimp only at h
  split at h
  · cases h
    exact .inl rfl
  · obtain ⟨rest, hrest, h⟩ := bind_eq_ok.1 h
    cases h
    exact .inr ⟨rest, _, hrest, rfl⟩

/-- The styles of a coherent engine passed their check with its chart. -/
theorem Coherent.sound_of_styles (h : e.Coherent) {element : Element α} (hs : Layout.Styles e.chart element) :
    element.style.Sound := by
  obtain ⟨d, hd, hstyle⟩ := hs
  rw [hstyle]
  exact Chart.sound_styleOf h.chart hd

/-- Blending keeps the styles, since those at both ends are the same. -/
theorem Coherent.styles_of_animatedLayout (h : e.Coherent)
    (hself : ∀ x : α, Scalar.isFinite x = true → (x == x) = true) {elapsed : α} {l : Layout α}
    (hl : e.animatedLayout elapsed = .ok l) {element : Element α} (he : element ∈ l.elements) :
    Layout.Styles e.chart element := by
  rcases animatedLayout_cases hl with rfl | ⟨rest, t, hrest, rfl⟩
  · exact ChartKind.styles_of_layout h.layout he
  · obtain ⟨f, g, hg, hfg, rfl⟩ := Layout.exists_of_mem_blend (h.skeleton_restLayout hrest) he
    have hstyles := ChartKind.styles_of_layout h.layout hg
    have hf : f.style = g.style := congrArg Element.Skeleton.style hfg
    have hblend : (f.blend g t).style = g.style := by
      change Blend.style f.style g.style t = g.style
      rw [hf]
      exact Blend.style_self hself (h.sound_of_styles hstyles) t
    obtain ⟨d, hd, hstyle⟩ := hstyles
    exact ⟨d, hd, hblend.trans hstyle⟩

end

theorem chart_of_start [NumberText α] [Circular α] {renderer : Renderer α} {registry : Registry} {setup : Setup α}
    {e : Engine α} (h : start renderer registry setup = .ok e) : e.chart = setup.chart := by
  simp only [start, seq_eq_ok] at h
  obtain ⟨_, _, h⟩ := h
  obtain ⟨_, _, h⟩ := bind_eq_ok.1 h
  obtain ⟨_, _, h⟩ := bind_eq_ok.1 h
  cases h
  rfl

/-- In a reachable engine each element of the settled layout, of the layout at rest and of the layout at any instant
between them has a style that passes the check. Each of its options is the one of the element's dataset, else the one
of the chart, else the default, and has a value for every bar of a stack; so the style of a bar never falls back on
anything else. -/
theorem elements_have_sound_layered_styles (e : Engine Float) (h : e.Reachable) (elapsed : Float) :
    ∃ rest animated, e.restLayout = .ok rest ∧ e.animatedLayout elapsed = .ok animated ∧
      ∀ l ∈ [e.layout, rest, animated], ∀ element ∈ l.elements,
        element.style.validate = .ok () ∧
        (∃ d, e.chart.datasets[element.dataset]? = some d ∧
          element.style.Layered e.chart.options.style d.style) ∧
        ∀ i, element.style.HasValues i ∧
          ∀ thickness, element.style.ofBar? thickness i = some (element.style.ofBar thickness i) := by
  have hc := h.coherent
  obtain ⟨rest, hrest⟩ := hc.restLayout
  obtain ⟨animated, hanimated, -⟩ := hc.animatedLayout elapsed
  refine ⟨rest, animated, hrest, hanimated, fun l hl element he => ?_⟩
  have hstyles : Layout.Styles e.chart element := by
    simp only [List.mem_cons, List.not_mem_nil, or_false] at hl
    rcases hl with rfl | rfl | rfl
    · exact ChartKind.styles_of_layout hc.layout he
    · exact ChartKind.styles_of_layout hrest he
    · exact hc.styles_of_animatedLayout (fun x hx => (Binary.beq_iff_value hx hx).2 rfl) hanimated he
  have hsound := hc.sound_of_styles hstyles
  obtain ⟨d, hd, hstyle⟩ := hstyles
  refine ⟨Style.validate_eq_ok.2 hsound, ⟨d, hd, ?_⟩, fun i => ⟨hsound.hasValues i, (hsound.hasValues i).ofBar?_eq⟩⟩
  rw [hstyle]
  exact Style.layered_resolve _ _

/-- A bar chart with one size of whiskers for all datasets, the second of which sets the widths of its lines. -/
def trimmedChart : Chart Float :=
  ⟨"barWithErrorBars", ["a"], [.ofData [.ofY 0.5], { Dataset.ofData [.ofY 0.25] with
    style := { Style.Overrides.empty with lineWidth := some (.wrapped [5, 6]) } }],
    { ChartOptions.default with
      axes := .const plainAxis
      style := { Style.Overrides.empty with lineWidth := some (.all 2), whiskerSize := some (.each [10]) } }⟩

theorem trimmed_bars_have_layered_styles :
    ∃ e : Engine Float, e.Reachable ∧ ∃ animated, e.animatedLayout 250 = .ok animated ∧
      ∃ element ∈ animated.elements, element.ref = ⟨1, 0⟩ ∧ element.style.validate = .ok () ∧
        element.style.lineWidth.at? 3 = some 6 ∧ element.style.whiskerSize.at? 3 = some 10 := by
  have hs : (start .counting .standard ⟨⟨300, 200⟩, trimmedChart⟩).toOption.bind (fun e =>
      (e.animatedLayout 250).toOption.map fun l => l.elements.map Element.ref) = some [⟨0, 0⟩, ⟨1, 0⟩] := by
    decide +kernel
  obtain ⟨e, he, hlayout⟩ := Option.bind_eq_some_iff.1 hs
  obtain ⟨l, hl, hrefs⟩ := Option.map_eq_some_iff.1 hlayout
  have he := toOption_eq_some.1 he
  have hl := toOption_eq_some.1 hl
  obtain ⟨_, animated, _, hanimated, hstyles⟩ := elements_have_sound_layered_styles e (.start he) 250
  obtain rfl : l = animated := Except.ok.inj (hl.symm.trans hanimated)
  obtain ⟨element, hmem, href⟩ : ∃ element ∈ l.elements, element.ref = ⟨1, 0⟩ := by
    rw [← List.mem_map, hrefs]
    exact List.mem_cons_of_mem _ (List.mem_singleton_self _)
  obtain ⟨hvalid, ⟨d, hd, hlayered⟩, _⟩ := hstyles l (List.mem_cons_of_mem _ (List.mem_cons_of_mem _
    (List.mem_singleton_self l))) element hmem
  have hdataset : element.dataset = 1 := congrArg ElementRef.dataset href
  rw [chart_of_start he, hdataset] at hd
  cases hd
  refine ⟨e, .start he, l, hl, element, hmem, href, hvalid, ?_, ?_⟩
  · rw [hlayered.lineWidth, chart_of_start he]
    rfl
  · rw [hlayered.whiskerSize, chart_of_start he]
    rfl

end Engine

end Whisker
