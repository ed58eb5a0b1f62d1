import Mathlib.Data.List.Forall2
import Mathlib.Data.List.Nodup
import Whisker.Proofs.Layout.Scales

/-!
# The elements of a layout

A layout has a part for each dataset that is shown, in the order of the chart, and each part one element for
each record. So an element is found by the positions of its dataset and its record, and by nothing else; and
where records stand on a category axis, the axis has a label for each of them.
-/

namespace Whisker

variable {α : Type}

namespace Chart

def isShown (c : Chart α) (i : Nat) : Bool := c.datasets[i]?.any (!·.hidden)

/-- The visible datasets are those that are not hidden, each with its position. -/
theorem mem_visible {c : Chart α} {i : Nat} {d : Dataset α} :
    (i, d) ∈ c.visible ↔ c.datasets[i]? = some d ∧ d.hidden = false := by
  simp [visible, List.mk_mem_zipIdx_iff_getElem?]

/-- They stand in the order of the chart. -/
theorem visible_positions (c : Chart α) :
    c.visible.map Prod.fst = (List.range c.datasets.length).filter c.isShown := by
  have hrange : List.range c.datasets.length = c.datasets.zipIdx.map Prod.snd := by
    rw [List.zipIdx_map_snd, List.range_eq_range']
  have hshown : ∀ p ∈ c.datasets.zipIdx, (!p.1.hidden) = (c.isShown ∘ Prod.snd) p := by
    rintro ⟨d, i⟩ hp
    simp [isShown, List.mk_mem_zipIdx_iff_getElem?.1 hp]
  rw [hrange, List.filter_map, ← List.filter_congr hshown, visible, List.map_map]
  rfl

theorem nodup_visible (c : Chart α) : (c.visible.map Prod.fst).Nodup := by
  rw [visible_positions]
  exact List.nodup_range.filter _

theorem lt_foldl_max {i a : Nat} {ns : List Nat} : i < ns.foldl Nat.max a ↔ i < a ∨ ∃ n ∈ ns, i < n := by
  induction ns generalizing a with
  | nil => simp
  | cons n ns ih =>
    rw [List.foldl_cons, ih]
    simp only [Nat.max_def, List.mem_cons, exists_eq_or_imp]
    split <;> grind

/-- The labels of a category axis: those given, then positions as far as some dataset has a record. -/
theorem getElem?_categoryLabels (c : Chart α) (i : Nat) :
    c.categoryLabels[i]? =
      if i < c.labels.length then c.labels[i]?
      else if c.datasets.any (i < ·.data.length) then some (toString i) else none := by
  have hlongest : i < (c.datasets.map (·.data.length)).foldl Nat.max 0 ↔ _ := lt_foldl_max
  simp only [Nat.not_lt_zero, false_or, List.mem_map, exists_exists_and_eq_and] at hlongest
  unfold categoryLabels
  rw [List.getElem?_append]
  split
  · rfl
  · rename_i hi
    by_cases hany : ∃ d ∈ c.datasets, i < d.data.length
    · have hlt := hlongest.2 hany
      have hi' : i - c.labels.length < (c.datasets.map (·.data.length)).foldl Nat.max 0 - c.labels.length := by omega
      have hpos : c.labels.length + (i - c.labels.length) = i := by omega
      simp [hi', hpos, hany]
    · have hge : ¬i - c.labels.length < (c.datasets.map (·.data.length)).foldl Nat.max 0 - c.labels.length := by
        have := mt hlongest.1 hany
        omega
      simp [hge, hany]

/-- Every datum has a label. -/
theorem lt_length_categoryLabels {c : Chart α} {d : Dataset α} {i : Nat} (hd : d ∈ c.datasets)
    (hi : i < d.data.length) : i < c.categoryLabels.length := by
  by_contra hlong
  have hany : c.datasets.any (i < ·.data.length) = true := List.any_eq_true.2 ⟨d, hd, by simpa using hi⟩
  have hnone := List.getElem?_eq_none (Nat.not_lt.1 hlong)
  rw [getElem?_categoryLabels, if_pos hany] at hnone
  split at hnone
  · rename_i hlt
    rw [List.getElem?_eq_getElem hlt] at hnone
    cases hnone
  · cases hnone

end Chart

section Records

variable [Scalar α]

/-- Attaching bounds adds no record and drops none. -/
theorem Record.length_attachAll (a : Axis) (data : List (Datum α)) (start : UInt64) (rs : List (Record α)) :
    (attachAll a data start rs).length = rs.length := by
  simp [attachAll]

theorem Dataset.length_categoryRecords (a : Axis) (d : Dataset α) : (d.categoryRecords a).length = d.data.length := by
  simp [categoryRecords, Record.length_attachAll]

theorem Dataset.length_pointRecords (d : Dataset α) : d.pointRecords.length = d.data.length := by
  simp [pointRecords, Record.length_attachAll]

theorem Dataset.length_radialRecords (d : Dataset α) : d.radialRecords.length = d.data.length := by
  simp [radialRecords, Record.length_attachAll]

theorem CategoryScale.labels_of_make {axis : Axis} {labels : List String} {pixels : PixelRange α} {banded : Bool}
    {maxChars : Option Nat} {s : CategoryScale α} (h : make axis labels pixels banded maxChars = .ok s) :
    s.labels = labels := by
  obtain ⟨_, h⟩ := seq_eq_ok.1 h
  cases h
  rfl

end Records

namespace DatasetLayout

/-- One element for each record of a dataset that is shown, in order, each placed as `P` says. -/
structure LaysOut (P : Layout.Shown α → Nat → Record α → Element α → Prop) (s : Layout.Shown α) (d : DatasetLayout α) :
    Prop where
  dataset : d.dataset = s.index
  records : d.records = s.records
  length : d.elements.length = s.records.length
  placed : ∀ i r e, s.records[i]? = some r → d.elements[i]? = some e → P s i r e

theorem laysOut_mapIdx {P : Layout.Shown α → Nat → Record α → Element α → Prop} {s : Layout.Shown α}
    {f : Nat → Record α → Element α} (line : Option (LineStyle α)) (h : ∀ i r, P s i r (f i r)) :
    LaysOut P s ⟨s.index, s.records, s.records.mapIdx f, line⟩ where
  dataset := rfl
  records := rfl
  length := List.length_mapIdx
  placed i r e hr he := by
    rw [List.getElem?_mapIdx, hr] at he
    cases he
    exact h i r

/-- Each element is made for the record at its position. -/
theorem LaysOut.exists_record {P : Layout.Shown α → Nat → Record α → Element α → Prop} {s : Layout.Shown α}
    {d : DatasetLayout α} (h : d.LaysOut P s) {i : Nat} {e : Element α} (he : d.elements[i]? = some e) :
    ∃ r, s.records[i]? = some r ∧ P s i r e := by
  obtain ⟨hi, _⟩ := List.getElem?_eq_some_iff.1 he
  rw [h.length] at hi
  exact ⟨s.records[i], List.getElem?_eq_getElem hi, h.placed i _ e (List.getElem?_eq_getElem hi) he⟩

end DatasetLayout

namespace Layout

/-- Each part of a layout lays out a dataset, and each dataset that is shown has its part. -/
abbrev LaysOut (P : Shown α → Nat → Record α → Element α → Prop) (shown : List (Shown α)) (l : Layout α) : Prop :=
  List.Forall₂ (DatasetLayout.LaysOut P) shown l.datasets

/-- Each element is made for a record of a dataset that is shown. -/
theorem LaysOut.exists_record {P : Shown α → Nat → Record α → Element α → Prop} {shown : List (Shown α)} {l : Layout α}
    (h : l.LaysOut P shown) {e : Element α} (he : e ∈ l.elements) :
    ∃ s ∈ shown, ∃ i r, s.records[i]? = some r ∧ P s i r e := by
  obtain ⟨d, hd, he⟩ := List.mem_flatMap.1 he
  obtain ⟨i, hi⟩ := List.mem_iff_getElem?.1 he
  obtain ⟨k, hk, rfl⟩ := List.mem_iff_getElem.1 hd
  have hk' : k < shown.length := h.length_eq ▸ hk
  obtain ⟨r, hr, hp⟩ := (h.get hk' hk).exists_record hi
  exact ⟨shown[k], List.getElem_mem hk', i, r, hr, hp⟩

section Controllers

variable [Scalar α] [NumberText α] {c : Chart α} {v : Viewport} {atRest : Bool} {l : Layout α}

/-- What a bar layout is made of, scales and elements. -/
theorem bar_eq_ok (h : bar c v atRest = .ok l) :
    ∃ (area : Area α) (category : CategoryScale α) (values : LinearScale α) (slots : BarSlots α),
      category.labels = c.categoryLabels ∧
      LinearScale.fit (barValueAxis c) (extent (shown c (Dataset.categoryRecords (barValueAxis c))) (barValueAxis c))
        ((c.options.axes.get (barValueAxis c)).scale true) (area.pixels (barValueAxis c)) = .ok values ∧
      l.scales = (if isHorizontal c then .cartesian (.linear values) (.category category)
        else .cartesian (.category category) (.linear values)) ∧
      l.LaysOut (fun s i r e => ∃ slot, e = barElement c category values slots atRest slot s i r)
        (shown c (Dataset.categoryRecords (barValueAxis c))) := by
  obtain ⟨_, h⟩ := seq_eq_ok.1 h
  obtain ⟨area, _, h⟩ := bind_eq_ok.1 h
  obtain ⟨category, hcategory, h⟩ := bind_eq_ok.1 h
  obtain ⟨values, hvalues, h⟩ := bind_eq_ok.1 h
  cases h
  refine ⟨area, category, values, .make c.options.bar category.bandWidth
    (shown c (Dataset.categoryRecords (barValueAxis c))).length, CategoryScale.labels_of_make hcategory, hvalues, rfl, ?_⟩
  rw [LaysOut, List.forall₂_iff_get]
  refine ⟨List.length_mapIdx.symm, fun k hk hk' => ?_⟩
  simp only [List.get_eq_getElem, List.getElem_mapIdx]
  exact DatasetLayout.laysOut_mapIdx none fun i r => ⟨k, rfl⟩

theorem line_eq_ok (h : line c v atRest = .ok l) :
    ∃ (area : Area α) (category : CategoryScale α) (values : LinearScale α),
      category.labels = c.categoryLabels ∧
      LinearScale.fit .y (extent (shown c (Dataset.categoryRecords .y)) .y) (c.options.axes.y.scale false)
        (area.pixels .y) = .ok values ∧
      l.scales = .cartesian (.category category) (.linear values) ∧
      l.LaysOut (fun s i r e => e = lineElement c category values atRest s i r)
        (shown c (Dataset.categoryRecords .y)) := by
  obtain ⟨_, h⟩ := seq_eq_ok.1 h
  obtain ⟨area, _, h⟩ := bind_eq_ok.1 h
  obtain ⟨category, hcategory, h⟩ := bind_eq_ok.1 h
  obtain ⟨values, hvalues, h⟩ := bind_eq_ok.1 h
  cases h
  refine ⟨area, category, values, CategoryScale.labels_of_make hcategory, hvalues, rfl, ?_⟩
  refine List.forall₂_map_right_iff.2 (List.forall₂_same.2 fun s _ => ?_)
  exact DatasetLayout.laysOut_mapIdx _ fun i r => rfl

theorem scatter_eq_ok (h : scatter c v atRest = .ok l) :
    ∃ (area : Area α) (x y : LinearScale α),
      LinearScale.fit .x (extent (shown c Dataset.pointRecords) .x) (c.options.axes.x.scale false)
        (area.pixels .x) = .ok x ∧
      LinearScale.fit .y (extent (shown c Dataset.pointRecords) .y) (c.options.axes.y.scale false)
        (area.pixels .y) = .ok y ∧
      l.scales = .cartesian (.linear x) (.linear y) ∧
      l.LaysOut (fun s i r e => e = scatterElement c x y atRest s i r) (shown c Dataset.pointRecords) := by
  obtain ⟨_, h⟩ := seq_eq_ok.1 h
  obtain ⟨area, _, h⟩ := bind_eq_ok.1 h
  obtain ⟨x, hx, h⟩ := bind_eq_ok.1 h
  obtain ⟨y, hy, h⟩ := bind_eq_ok.1 h
  cases h
  refine ⟨area, x, y, hx, hy, rfl, ?_⟩
  refine List.forall₂_map_right_iff.2 (List.forall₂_same.2 fun s _ => ?_)
  exact DatasetLayout.laysOut_mapIdx _ fun i r => rfl

omit [NumberText α] in
theorem length_sweeps (angle cursor : α) (rs : List (Record α)) : (sweeps angle cursor rs).length = rs.length := by
  induction rs generalizing cursor with
  | nil => rfl
  | cons r rs ih => simp [sweeps, ih]

omit [NumberText α] in
theorem polar_eq_ok [Circular α] (h : polar c v atRest = .ok l) :
    ∃ (area : Area α) (scale : RadialScale α),
      RadialScale.fit area radialPadding (extent (shown c Dataset.radialRecords) .r) (c.options.axes.r.scale true) =
        .ok scale ∧
      l.scales = .radial scale ∧
      l.LaysOut (fun s i r e => ∃ sweep, e = sectorElement c scale atRest s i r sweep)
        (shown c Dataset.radialRecords) := by
  obtain ⟨_, h⟩ := seq_eq_ok.1 h
  obtain ⟨area, _, h⟩ := bind_eq_ok.1 h
  obtain ⟨scale, hscale, h⟩ := bind_eq_ok.1 h
  cases h
  refine ⟨area, scale, hscale, rfl, ?_⟩
  refine List.forall₂_map_right_iff.2 (List.forall₂_same.2 fun s _ => ?_)
  refine ⟨rfl, rfl, by simp [length_sweeps], fun i r e hr he => ?_⟩
  -- The sweep is the one at the position of the record.
  rw [List.getElem?_mapIdx] at he
  obtain ⟨⟨r', sweep⟩, hzip, rfl⟩ := Option.map_eq_some_iff.1 he
  obtain ⟨hr', _⟩ := List.getElem?_zip_eq_some.1 hzip
  cases hr.symm.trans hr'
  exact ⟨sweep, rfl⟩

end Controllers

end Layout

/-- One record and one element for each datum of the dataset at a position, each element with its own position. -/
structure DatasetLayout.Enumerates (p : Nat × Dataset α) (d : DatasetLayout α) : Prop where
  dataset : d.dataset = p.1
  records : d.records.length = p.2.data.length
  refs : d.elements.map Element.ref = (List.range p.2.data.length).map fun i => ⟨p.1, i⟩

namespace Layout

/-- The parts of a layout are those of the datasets that a chart shows. -/
abbrev Enumerates (c : Chart α) (l : Layout α) : Prop := List.Forall₂ DatasetLayout.Enumerates c.visible l.datasets

/-- A layout with one element for each record shown enumerates the chart. -/
theorem LaysOut.enumerates {P : Shown α → Nat → Record α → Element α → Prop} {c : Chart α} {l : Layout α}
    {read : Dataset α → List (Record α)} (h : l.LaysOut P (shown c read))
    (hread : ∀ d, (read d).length = d.data.length) (hP : ∀ s i r e, P s i r e → e.ref = ⟨s.index, i⟩) :
    l.Enumerates c := by
  refine (List.forall₂_map_left_iff.1 h).imp fun p d hd => ⟨hd.dataset, ?_, ?_⟩
  · rw [hd.records, hread]
  · have hlength : d.elements.length = p.2.data.length := hd.length.trans (hread p.2)
    apply List.ext_getElem
    · simp [hlength]
    · intro i hi _
      have hi : i < d.elements.length := by simpa using hi
      obtain ⟨r, _, hp⟩ := hd.exists_record (List.getElem?_eq_getElem hi)
      simp only [List.getElem_map, List.getElem_range]
      exact hP _ i r _ hp

variable {c : Chart α} {l : Layout α}

namespace Enumerates

theorem positions (h : l.Enumerates c) : l.datasets.map DatasetLayout.dataset = c.visible.map Prod.fst := by
  rw [Enumerates] at h
  generalize c.visible = ps at h ⊢
  generalize l.datasets = ds at h ⊢
  induction h with
  | nil => rfl
  | cons hd _ ih => rw [List.map_cons, List.map_cons, hd.dataset, ih]

/-- The elements stand in the order of datasets and records. -/
theorem refs (h : l.Enumerates c) :
    l.elements.map Element.ref =
      c.visible.flatMap fun p => (List.range p.2.data.length).map fun i => ⟨p.1, i⟩ := by
  rw [Enumerates] at h
  rw [elements, List.map_flatMap]
  generalize c.visible = ps at h ⊢
  generalize l.datasets = ds at h ⊢
  induction h with
  | nil => rfl
  | cons hd _ ih => rw [List.flatMap_cons, List.flatMap_cons, hd.refs, ih]

/-- No record has two elements. -/
theorem nodup_refs (h : l.Enumerates c) : (l.elements.map Element.ref).Nodup := by
  rw [h.refs, List.nodup_flatMap]
  constructor
  · intro p _
    refine List.nodup_range.map fun i j hij => ?_
    exact (ElementRef.mk.inj hij).2
  · refine (List.pairwise_map.1 c.nodup_visible).imp fun {p q} hpq => ?_
    -- References of two datasets differ in the dataset.
    intro ref hp hq
    obtain ⟨i, _, rfl⟩ := List.mem_map.1 hp
    obtain ⟨j, _, hj⟩ := List.mem_map.1 hq
    exact hpq (ElementRef.mk.inj hj).1.symm

/-- The records that have an element are those of the datasets that are shown. -/
theorem mem_refs (h : l.Enumerates c) (ref : ElementRef) :
    ref ∈ l.elements.map Element.ref ↔
      ∃ d, c.datasets[ref.dataset]? = some d ∧ d.hidden = false ∧ ref.index < d.data.length := by
  rw [h.refs, List.mem_flatMap]
  constructor
  · rintro ⟨⟨i, d⟩, hp, href⟩
    obtain ⟨k, hk, rfl⟩ := List.mem_map.1 href
    obtain ⟨hd, hshown⟩ := Chart.mem_visible.1 hp
    exact ⟨d, hd, hshown, List.mem_range.1 hk⟩
  · rintro ⟨d, hd, hshown, hk⟩
    exact ⟨(ref.dataset, d), Chart.mem_visible.2 ⟨hd, hshown⟩, List.mem_map.2 ⟨ref.index, List.mem_range.2 hk, rfl⟩⟩

/-- Each laid-out dataset belongs to a dataset that is not hidden. -/
theorem part (h : l.Enumerates c) {d : DatasetLayout α} (hd : d ∈ l.datasets) :
    ∃ s, c.datasets[d.dataset]? = some s ∧ s.hidden = false ∧ d.Enumerates (d.dataset, s) := by
  obtain ⟨k, hk, rfl⟩ := List.mem_iff_getElem.1 hd
  have hk' : k < c.visible.length := h.length_eq ▸ hk
  have hpart := h.get hk' hk
  obtain ⟨hs, hshown⟩ := Chart.mem_visible.1 (List.getElem_mem hk')
  simp only [List.get_eq_getElem] at hpart hs hshown
  rw [← hpart.dataset] at hs
  exact ⟨_, hs, hshown, rfl, hpart.records, by rw [hpart.refs, hpart.dataset]⟩

/-- An element that is found is one of the layout's, under the reference asked for. -/
theorem element?_eq_some (h : l.Enumerates c) {ref : ElementRef} {e : Element α} (he : l.element? ref = some e) :
    e ∈ l.elements ∧ e.ref = ref := by
  obtain ⟨d, hd, he⟩ := Option.bind_eq_some_iff.1 he
  have hdataset : d.dataset = ref.dataset := by simpa using List.find?_some hd
  have hindex : e.index = ref.index := by simpa using List.find?_some he
  have hd := List.mem_of_find?_eq_some hd
  have he := List.mem_of_find?_eq_some he
  refine ⟨List.mem_flatMap.2 ⟨d, hd, he⟩, ?_⟩
  obtain ⟨s, _, _, hs⟩ := h.part hd
  have href : e.ref ∈ d.elements.map Element.ref := List.mem_map_of_mem he
  rw [hs.refs] at href
  obtain ⟨i, _, hi⟩ := List.mem_map.1 href
  have hd' : e.dataset = ref.dataset := (ElementRef.mk.inj hi).1.symm.trans hdataset
  simp only [Element.ref, hd', hindex]

/-- An element is found exactly for the records that are shown. -/
theorem element?_isSome (h : l.Enumerates c) (ref : ElementRef) :
    (l.element? ref).isSome = true ↔
      ∃ d, c.datasets[ref.dataset]? = some d ∧ d.hidden = false ∧ ref.index < d.data.length := by
  constructor
  · intro hsome
    obtain ⟨e, he⟩ := Option.isSome_iff_exists.1 hsome
    obtain ⟨hmem, rfl⟩ := h.element?_eq_some he
    exact (h.mem_refs _).1 (List.mem_map_of_mem hmem)
  · rintro ⟨s, hs, hshown, hk⟩
    -- The part that is found is the one of this dataset, since a position has one dataset only.
    have hpos : ref.dataset ∈ l.datasets.map DatasetLayout.dataset := by
      rw [h.positions]
      exact List.mem_map_of_mem (Chart.mem_visible.2 ⟨hs, hshown⟩)
    obtain ⟨d₀, hd₀, hdataset₀⟩ := List.mem_map.1 hpos
    obtain ⟨d, hd⟩ := Option.isSome_iff_exists.1
      (List.find?_isSome.2 ⟨d₀, hd₀, by simpa using hdataset₀⟩ : (l.datasets.find? (·.dataset = ref.dataset)).isSome)
    have hdataset : d.dataset = ref.dataset := by simpa using List.find?_some hd
    obtain ⟨s', hs', _, hpart⟩ := h.part (List.mem_of_find?_eq_some hd)
    rw [hdataset, hs] at hs'
    cases hs'
    have href : ref ∈ d.elements.map Element.ref := by
      rw [hpart.refs, hdataset]
      exact List.mem_map.2 ⟨ref.index, List.mem_range.2 hk, rfl⟩
    obtain ⟨e, he, rfl⟩ := List.mem_map.1 href
    rw [element?, hd]
    exact List.find?_isSome.2 ⟨e, he, by simp [Element.ref]⟩

end Enumerates

end Layout

def Scales.category? : Scales α → Option (CategoryScale α)
  | .cartesian (.category s) _ => some s
  | .cartesian (.linear _) (.category s) => some s
  | _ => none

namespace ChartKind

variable [Scalar α] [NumberText α] [Circular α] {c : Chart α} {v : Viewport} {atRest : Bool} {l : Layout α}

/-- Every layout enumerates its chart. -/
theorem enumerates {kind : ChartKind} (h : kind.layout c v atRest = .ok l) : l.Enumerates c := by
  cases kind with
  | bar =>
    obtain ⟨_, _, _, _, _, _, _, hl⟩ := Layout.bar_eq_ok h
    refine hl.enumerates (Dataset.length_categoryRecords _) ?_
    rintro s i r e ⟨slot, rfl⟩
    rfl
  | line =>
    obtain ⟨_, _, _, _, _, _, hl⟩ := Layout.line_eq_ok h
    refine hl.enumerates (Dataset.length_categoryRecords _) ?_
    rintro s i r e rfl
    rfl
  | scatter =>
    obtain ⟨_, _, _, _, _, _, hl⟩ := Layout.scatter_eq_ok h
    refine hl.enumerates Dataset.length_pointRecords ?_
    rintro s i r e rfl
    rfl
  | polar =>
    obtain ⟨_, _, _, _, hl⟩ := Layout.polar_eq_ok h
    refine hl.enumerates Dataset.length_radialRecords ?_
    rintro s i r e ⟨sweep, rfl⟩
    rfl

/-- The category axis of a layout has the labels of the chart. -/
theorem category_labels {kind : ChartKind} (hkind : kind = .bar ∨ kind = .line) (h : kind.layout c v atRest = .ok l) :
    ∃ s, l.scales.category? = some s ∧ s.labels = c.categoryLabels := by
  rcases hkind with rfl | rfl
  · obtain ⟨_, category, _, _, hlabels, _, hscales, _⟩ := Layout.bar_eq_ok h
    refine ⟨category, ?_, hlabels⟩
    rw [hscales]
    split <;> rfl
  · obtain ⟨_, category, _, hlabels, _, hscales, _⟩ := Layout.line_eq_ok h
    refine ⟨category, ?_, hlabels⟩
    rw [hscales]
    rfl

/-- A layout has one part for each dataset that is shown, in order and with its position; each part has one record
and one element for each datum, the elements numbered in order. No two elements have the same positions, and an
element is found exactly for the positions of a shown dataset and one of its data. Bars and lines stand on a category
axis with the given labels, then decimal positions as far as any dataset reaches: each element has its label. -/
theorem layout_has_one_element_per_record (kind : ChartKind) (h : kind.layout c v atRest = .ok l) :
    l.datasets.map DatasetLayout.dataset = (List.range c.datasets.length).filter c.isShown ∧
    (∀ d ∈ l.datasets, ∃ s, c.datasets[d.dataset]? = some s ∧ d.records.length = s.data.length ∧
      d.elements.map Element.ref = (List.range s.data.length).map fun i => ⟨d.dataset, i⟩) ∧
    (l.elements.map Element.ref).Nodup ∧
    (∀ ref, (l.element? ref).isSome = true ↔
      ∃ s, c.datasets[ref.dataset]? = some s ∧ s.hidden = false ∧ ref.index < s.data.length) ∧
    (∀ ref e, l.element? ref = some e → e ∈ l.elements ∧ e.ref = ref) ∧
    (kind = .bar ∨ kind = .line → ∃ s, l.scales.category? = some s ∧ (∀ e ∈ l.elements, e.index < s.labels.length) ∧
      ∀ i, s.labels[i]? = if i < c.labels.length then c.labels[i]?
        else if c.datasets.any (i < ·.data.length) then some (toString i) else none) := by
  have he := enumerates h
  refine ⟨he.positions.trans c.visible_positions, fun d hd => ?_, he.nodup_refs, he.element?_isSome,
    fun _ _ => he.element?_eq_some, fun hkind => ?_⟩
  · obtain ⟨s, hs, _, hpart⟩ := he.part hd
    exact ⟨s, hs, hpart.records, hpart.refs⟩
  · obtain ⟨s, hs, hlabels⟩ := category_labels hkind h
    refine ⟨s, hs, fun e hmem => ?_, fun i => by rw [hlabels, c.getElem?_categoryLabels]⟩
    obtain ⟨d, hd, _, hk⟩ := (he.mem_refs e.ref).1 (List.mem_map_of_mem hmem)
    rw [hlabels]
    exact Chart.lt_length_categoryLabels (List.mem_of_getElem? hd) hk

def boundedAxis : AxisOptions Float :=
  { AxisOptions.default with min := some 0, max := some 6, ticks := { TickOptions.default with display := false } }

/-- A chart of three datasets, the second one hidden and longer than the labels. -/
def gappedChart : Chart Float :=
  ⟨"lineWithErrorBars", ["a"], [.ofData [.ofY 1, .ofY 2], { Dataset.ofData [.ofY 1, .ofY 2, .ofY 3] with hidden := true },
    .ofData [.ofY 5]], { ChartOptions.default with axes := .const boundedAxis }⟩

theorem gapped_chart_has_its_elements :
    ∃ l, ChartKind.line.layout gappedChart ⟨300, 200⟩ false = .ok l ∧ l.datasets.map DatasetLayout.dataset = [0, 2] ∧
      (l.element? ⟨2, 0⟩).isSome = true ∧ (l.element? ⟨1, 0⟩).isSome = false ∧
      ∃ s, l.scales.category? = some s ∧ s.labels[2]? = some "2" ∧ s.labels[3]? = none := by
  have hs : (ChartKind.line.layout gappedChart ⟨300, 200⟩ false).isOk = true := by decide +kernel
  obtain ⟨l, hl⟩ := isOk_iff_exists.1 hs
  obtain ⟨hpositions, _, _, hfound, _, hcategory⟩ := layout_has_one_element_per_record .line hl
  obtain ⟨s, hs, _, hlabels⟩ := hcategory (.inr rfl)
  refine ⟨l, hl, hpositions.trans (by decide), (hfound ⟨2, 0⟩).2 ⟨_, rfl, rfl, by decide⟩, ?_, s, hs, ?_, ?_⟩
  · rw [Bool.eq_false_iff, Ne, hfound]
    rintro ⟨d, hd, hshown, _⟩
    cases hd
    cases hshown
  · rw [hlabels]
    rfl
  · rw [hlabels]
    rfl

end ChartKind

end Whisker
