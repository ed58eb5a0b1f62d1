import Whisker.Proofs.Layout.Elements

/-!
# What a layout at rest keeps

An animation starts from the layout at rest and ends in the settled one. Both hold the same elements in the
same order, and an element differs only in what its value decides: its place along the value axis, or its
radius and angles, and the numbers in its error bars. The rest of a layout is its skeleton. On straight axes
the error bars at rest have no length: all their ends lie on the base pixel of their scale.
-/

namespace Whisker

variable {α β : Type}

def Bounds.entries (b : Bounds α) : List α := b.lower.elim [] Bound.entries ++ b.upper.elim [] Bound.entries

/-- Which sides an error bar has, and the form and length of each. -/
def Bounds.form (b : Bounds α) : Bounds Unit := b.map fun _ => ()

@[simp] theorem Bounds.form_empty : (Bounds.empty : Bounds α).form = Bounds.empty := rfl

@[simp] theorem Bounds.entries_empty : (Bounds.empty : Bounds α).entries = [] := rfl

theorem Bound.map_map {γ : Type} (f : α → β) (g : β → γ) (b : Bound α) : (b.map f).map g = b.map (g ∘ f) := by
  cases b with
  | single v => rfl
  | stack vs => simp only [Bound.map, List.map_map]

@[simp] theorem Bounds.form_map (f : α → β) (b : Bounds α) : (b.map f).form = b.form := by
  simp only [form, map, Option.map_map, Function.comp_def, Bound.map_map]

@[simp] theorem Bounds.entries_map (f : α → β) (b : Bounds α) : (b.map f).entries = b.entries.map f := by
  obtain ⟨lower, upper⟩ := b
  cases lower <;> cases upper <;> simp [entries, map]

theorem PerAxis.map_const (f : α → β) (v : α) : (PerAxis.const v).map f = PerAxis.const (f v) := rfl

theorem PerAxis.map_set (f : α → β) (p : PerAxis α) (a : Axis) (v : α) : (p.set a v).map f = (p.map f).set a (f v) := by
  cases a <;> rfl

section

variable [Scalar α]

/-- The mark without its place along the value axis, or without its radius and angles. -/
def Mark.skeleton : Mark α → Mark α
  | .bar b => .bar (if b.horizontal then { b with x := 0 } else { b with y := 0 })
  | .point p => .point { p with y := 0 }
  | .sector s => .sector { s with outer := 0, start := 0, stop := 0 }

end

structure Element.Skeleton (α : Type) where
  dataset : Nat
  index : Nat
  mark : Mark α
  form : PerAxis (Bounds Unit)
  style : Style α

structure DatasetLayout.Skeleton (α : Type) where
  dataset : Nat
  records : List (Record α)
  elements : List (Element.Skeleton α)
  line : Option (LineStyle α)

structure Layout.Skeleton (α : Type) where
  viewport : Viewport
  scales : Scales α
  datasets : List (DatasetLayout.Skeleton α)

variable [Scalar α]

def Element.skeleton (e : Element α) : Element.Skeleton α :=
  ⟨e.dataset, e.index, e.mark.skeleton, e.errorBars.map Bounds.form, e.style⟩

def DatasetLayout.skeleton (d : DatasetLayout α) : DatasetLayout.Skeleton α :=
  ⟨d.dataset, d.records, d.elements.map Element.skeleton, d.line⟩

def Layout.skeleton (l : Layout α) : Layout.Skeleton α := ⟨l.viewport, l.scales, l.datasets.map DatasetLayout.skeleton⟩

namespace ErrorBar

/-- The scale and the instant of an animation decide the numbers of an error bar only. -/
theorem form_onScale (scale : AxisScale α) (atRest : Bool) (r : Record α) (pixels : PerAxis (Bounds α)) :
    (onScale scale atRest r pixels).map Bounds.form =
      (pixels.map Bounds.form).set scale.axis ((r.reach.get scale.axis).bounds.form) := by
  simp only [onScale, PerAxis.map_set, Bounds.form_map]

theorem form_onRadius (scale : RadialScale α) (atRest grows : Bool) (r : Record α) :
    (onRadius scale atRest grows r).map Bounds.form =
      (PerAxis.const Bounds.empty).set .r r.reach.r.bounds.form := by
  simp only [onRadius, PerAxis.map_set, Bounds.form_map, PerAxis.map_const, Bounds.form_empty]

end ErrorBar

namespace Layout

/-- At rest a bar has the skeleton that it has settled. -/
theorem barElement_skeleton (c : Chart α) (category : CategoryScale α) (values : LinearScale α) (slots : BarSlots α)
    (slot : Nat) (s : Shown α) (i : Nat) (r : Record α) :
    (barElement c category values slots true slot s i r).skeleton =
      (barElement c category values slots false slot s i r).skeleton := by
  simp only [Element.skeleton, barElement, ErrorBar.form_onScale, Mark.skeleton]
  cases isHorizontal c <;> rfl

theorem lineElement_skeleton (c : Chart α) (category : CategoryScale α) (values : LinearScale α) (s : Shown α) (i : Nat)
    (r : Record α) :
    (lineElement c category values true s i r).skeleton = (lineElement c category values false s i r).skeleton := by
  simp only [Element.skeleton, lineElement, ErrorBar.form_onScale, pointMark, Mark.skeleton]

theorem scatterElement_skeleton (c : Chart α) (x y : LinearScale α) (s : Shown α) (i : Nat) (r : Record α) :
    (scatterElement c x y true s i r).skeleton = (scatterElement c x y false s i r).skeleton := by
  simp only [Element.skeleton, scatterElement, ErrorBar.form_onScale, pointMark, Mark.skeleton]

theorem sectorElement_skeleton [Circular α] (c : Chart α) (scale : RadialScale α) (s : Shown α) (i : Nat) (r : Record α)
    (sweep : α × α) :
    (sectorElement c scale true s i r sweep).skeleton = (sectorElement c scale false s i r sweep).skeleton := by
  simp only [Element.skeleton, sectorElement, ErrorBar.form_onRadius, Mark.skeleton]

omit [Scalar α] in
theorem map_mapIdx {γ δ : Type} (p : β → γ) (f : Nat → δ → β) (rs : List δ) :
    (rs.mapIdx f).map p = rs.mapIdx fun i r => p (f i r) := by
  apply List.ext_getElem?
  intro i
  simp [List.getElem?_mapIdx, Function.comp_def]

/-- Two ways of laying out the same records have one skeleton if they have it record by record. -/
theorem map_skeleton_mapIdx {γ : Type} {f g : Nat → γ → Element α} (h : ∀ i r, (f i r).skeleton = (g i r).skeleton)
    (rs : List γ) : (rs.mapIdx f).map Element.skeleton = (rs.mapIdx g).map Element.skeleton := by
  simp only [map_mapIdx, h]

variable [NumberText α]

theorem bar_skeleton (c : Chart α) (v : Viewport) : (bar c v true).map skeleton = (bar c v false).map skeleton := by
  unfold bar
  refine map_bind_congr fun _ => map_bind_congr fun area => map_bind_congr fun category => map_bind_congr fun values => ?_
  have hs slot s := map_skeleton_mapIdx (barElement_skeleton c category values
    (.make c.options.bar category.bandWidth (shown c (Dataset.categoryRecords (barValueAxis c))).length) slot s) s.records
  simp only [skeleton, DatasetLayout.skeleton, Except.map, pure, Except.pure, map_mapIdx, hs]

theorem line_skeleton (c : Chart α) (v : Viewport) : (line c v true).map skeleton = (line c v false).map skeleton := by
  unfold line
  refine map_bind_congr fun _ => map_bind_congr fun area => map_bind_congr fun category => map_bind_congr fun values => ?_
  have hs s := map_skeleton_mapIdx (lineElement_skeleton c category values s) s.records
  simp only [skeleton, DatasetLayout.skeleton, Except.map, pure, Except.pure, List.map_map, Function.comp_def, hs]

theorem scatter_skeleton (c : Chart α) (v : Viewport) :
    (scatter c v true).map skeleton = (scatter c v false).map skeleton := by
  unfold scatter
  refine map_bind_congr fun _ => map_bind_congr fun area => map_bind_congr fun x => map_bind_congr fun y => ?_
  have hs s := map_skeleton_mapIdx (scatterElement_skeleton c x y s) s.records
  simp only [skeleton, DatasetLayout.skeleton, Except.map, pure, Except.pure, List.map_map, Function.comp_def, hs]

omit [NumberText α] in
theorem polar_skeleton [Circular α] (c : Chart α) (v : Viewport) :
    (polar c v true).map skeleton = (polar c v false).map skeleton := by
  unfold polar
  refine map_bind_congr fun _ => map_bind_congr fun area => map_bind_congr fun scale => ?_
  have hs (s : Shown α) := map_skeleton_mapIdx (fun i p => sectorElement_skeleton c scale s i p.1 p.2)
    (s.records.zip (sweeps (sectorAngle s.records) startAngle s.records))
  simp only [skeleton, DatasetLayout.skeleton, Except.map, pure, Except.pure, List.map_map, Function.comp_def, hs]

end Layout

/-- All ends of the error bars on straight axes lie on the base pixels of the scales. -/
def Element.RestsOn (x y : AxisScale α) (e : Element α) : Prop :=
  (∀ p ∈ e.errorBars.x.entries, p = x.basePixel) ∧ ∀ p ∈ e.errorBars.y.entries, p = y.basePixel

namespace ErrorBar

/-- At rest all bounds of a scale lie on its base. -/
theorem entries_onScale_rest {scale : AxisScale α} {a : Axis} (ha : scale.axis = a) {r : Record α}
    {pixels : PerAxis (Bounds α)} {p : α} (hp : p ∈ ((onScale scale true r pixels).get a).entries) :
    p = scale.basePixel := by
  subst ha
  simp only [onScale, PerAxis.get_set_same, Bounds.entries_map, if_true, List.mem_map] at hp
  obtain ⟨_, _, rfl⟩ := hp
  rfl

/-- Bounds on other axes are left alone. -/
theorem get_onScale_other {scale : AxisScale α} {a b : Axis} (ha : scale.axis = a) (hb : b ≠ a) (atRest : Bool)
    (r : Record α) (pixels : PerAxis (Bounds α)) : (onScale scale atRest r pixels).get b = pixels.get b :=
  PerAxis.get_set_other pixels (ha ▸ hb) _

theorem not_mem_onScale_other {scale : AxisScale α} {a b : Axis} (ha : scale.axis = a) (hb : b ≠ a) {atRest : Bool}
    {r : Record α} {p : α} : p ∉ ((onScale scale atRest r (.const .empty)).get b).entries := by
  rw [get_onScale_other ha hb, PerAxis.get_const, Bounds.entries_empty]
  exact List.not_mem_nil

end ErrorBar

namespace Layout

variable [NumberText α] {c : Chart α} {v : Viewport} {l : Layout α} {x y : AxisScale α}

/-- At rest the bars of a layout stand on the base, error bars included. -/
theorem bar_rests (h : bar c v true = .ok l) (hscales : l.scales = .cartesian x y) {e : Element α}
    (he : e ∈ l.elements) : e.RestsOn x y := by
  obtain ⟨area, category, values, slots, _, hfit, hs, hl⟩ := bar_eq_ok h
  obtain ⟨s, _, i, r, _, slot, rfl⟩ := hl.exists_record he
  have haxis : (AxisScale.linear values).axis = barValueAxis c := (LinearScale.fit_eq_ok hfit).1
  rw [hscales] at hs
  cases hh : isHorizontal c with
  | true =>
    simp only [hh, if_true, Scales.cartesian.injEq] at hs
    simp only [barValueAxis, hh, if_true] at haxis
    obtain ⟨rfl, rfl⟩ := hs
    exact ⟨fun p hp => ErrorBar.entries_onScale_rest haxis hp,
      fun p hp => absurd hp (ErrorBar.not_mem_onScale_other haxis (b := .y) (by decide))⟩
  | false =>
    simp only [hh, Bool.false_eq_true, if_false, Scales.cartesian.injEq] at hs
    simp only [barValueAxis, hh, Bool.false_eq_true, if_false] at haxis
    obtain ⟨rfl, rfl⟩ := hs
    exact ⟨fun p hp => absurd hp (ErrorBar.not_mem_onScale_other haxis (b := .x) (by decide)),
      fun p hp => ErrorBar.entries_onScale_rest haxis hp⟩

theorem line_rests (h : line c v true = .ok l) (hscales : l.scales = .cartesian x y) {e : Element α}
    (he : e ∈ l.elements) : e.RestsOn x y := by
  obtain ⟨area, category, values, _, hfit, hs, hl⟩ := line_eq_ok h
  obtain ⟨s, _, i, r, _, rfl⟩ := hl.exists_record he
  have haxis : (AxisScale.linear values).axis = .y := (LinearScale.fit_eq_ok hfit).1
  cases hscales.symm.trans hs
  exact ⟨fun p hp => absurd hp (ErrorBar.not_mem_onScale_other haxis (b := .x) (by decide)),
    fun p hp => ErrorBar.entries_onScale_rest haxis hp⟩

theorem scatter_rests (h : scatter c v true = .ok l) (hscales : l.scales = .cartesian x y) {e : Element α}
    (he : e ∈ l.elements) : e.RestsOn x y := by
  obtain ⟨area, xs, ys, hx, hy, hs, hl⟩ := scatter_eq_ok h
  obtain ⟨s, _, i, r, _, rfl⟩ := hl.exists_record he
  have hxaxis : (AxisScale.linear xs).axis = .x := (LinearScale.fit_eq_ok hx).1
  have hyaxis : (AxisScale.linear ys).axis = .y := (LinearScale.fit_eq_ok hy).1
  cases hscales.symm.trans hs
  refine ⟨fun p hp => ?_, fun p hp => ErrorBar.entries_onScale_rest hyaxis hp⟩
  have hother := ErrorBar.get_onScale_other hyaxis (b := .x) (by decide) true r
    (ErrorBar.onScale (.linear xs) true r (.const .empty))
  change p ∈ (PerAxis.get (ErrorBar.onScale _ true r _) .x).entries at hp
  rw [hother] at hp
  exact ErrorBar.entries_onScale_rest hxaxis hp

end Layout

variable [NumberText α] [Circular α]

/-- At rest and settled a chart is laid out with the same skeleton or refused with the same error; and at rest the
error bars on straight axes lie on the base pixels. -/
theorem ChartKind.rest_layout_keeps_skeleton (kind : ChartKind) (c : Chart α) (v : Viewport) :
    (kind.layout c v true).map Layout.skeleton = (kind.layout c v false).map Layout.skeleton ∧
    ∀ l x y, kind.layout c v true = .ok l → l.scales = .cartesian x y → ∀ e ∈ l.elements, e.RestsOn x y := by
  cases kind with
  | bar => exact ⟨Layout.bar_skeleton c v, fun l x y h hs e he => Layout.bar_rests h hs he⟩
  | line => exact ⟨Layout.line_skeleton c v, fun l x y h hs e he => Layout.line_rests h hs he⟩
  | scatter => exact ⟨Layout.scatter_skeleton c v, fun l x y h hs e he => Layout.scatter_rests h hs he⟩
  | polar =>
    refine ⟨Layout.polar_skeleton c v, fun l x y h hs => ?_⟩
    obtain ⟨area, scale, _, hradial, _⟩ := Layout.polar_eq_ok h
    cases hs.symm.trans hradial

/-- A bar that lies on its side, with a stack of bounds below its value and one bound above. -/
def stackedChart : Chart Float :=
  ⟨"barWithErrorBars", [], [.ofData [(Datum.onAxis .x 3).setBounds .x (.stack [2, 1]) (.single 5)]],
    { ChartOptions.default with indexAxis := .y, axes := .const ChartKind.boundedAxis }⟩

theorem stacked_bar_rests_on_base :
    ∃ l m x y, ChartKind.bar.layout stackedChart ⟨300, 200⟩ true = .ok l ∧
      ChartKind.bar.layout stackedChart ⟨300, 200⟩ false = .ok m ∧ l.skeleton = m.skeleton ∧
      l.scales = .cartesian x y ∧ ∃ e ∈ l.elements, e.errorBars.x.entries.length = 3 ∧ e.RestsOn x y := by
  have hs : (ChartKind.bar.layout stackedChart ⟨300, 200⟩ true).toOption.map (fun l =>
      l.elements.map (·.errorBars.x.entries.length)) = some [3] := by decide +kernel
  obtain ⟨l, hl, hlengths⟩ := Option.map_eq_some_iff.1 hs
  have hl := toOption_eq_some.1 hl
  obtain ⟨hskeleton, hrests⟩ := ChartKind.rest_layout_keeps_skeleton .bar stackedChart ⟨300, 200⟩
  rw [hl] at hskeleton
  cases hm : ChartKind.bar.layout stackedChart ⟨300, 200⟩ false with
  | error err =>
    rw [hm] at hskeleton
    cases hskeleton
  | ok m =>
    rw [hm] at hskeleton
    obtain ⟨e, he, hlength⟩ := List.mem_map.1 (hlengths ▸ List.mem_singleton_self 3)
    obtain ⟨_, category, values, _, _, _, hscales, _⟩ := Layout.bar_eq_ok hl
    exact ⟨l, m, _, _, hl, rfl, Except.ok.inj hskeleton, hscales, e, he, hlength, hrests l _ _ hl hscales e he⟩

end Whisker
