import Whisker.Proofs.Layout.Inside

/-!
# Bars stand side by side

In exact arithmetic the pixels of the category axis are cut into bands of equal width, one for each label; the middle
part of a band is cut into slots of equal width, one for each dataset that is shown; and a bar stands in the middle of
its slot. So no two bars overlap, each one stays in the band of its category, and inside a band they follow the
datasets.
-/

namespace Whisker

open Exact

section

variable {α : Type} [Scalar α]

def Bar.footprint (b : Bar α) : PixelRange α :=
  let middle := if b.horizontal then b.y else b.x
  ⟨middle - b.thickness / 2, middle + b.thickness / 2⟩

def Element.footprint? (e : Element α) : Option (PixelRange α) :=
  match e.mark with
  | .bar b => some b.footprint
  | _ => none

def CategoryScale.band (s : CategoryScale α) (i : Nat) : PixelRange α :=
  ⟨s.indexPixel i - s.bandWidth / 2, s.indexPixel i + s.bandWidth / 2⟩

/-- A range that takes some room, inside another one. -/
structure PixelRange.Inside (p q : PixelRange α) : Prop where
  start : q.start ≤ p.start
  room : p.start < p.stop
  stop : p.stop ≤ q.stop

/-- Both are bars, and the first one stops before the second one starts. -/
def Element.Before (e f : Element α) : Prop :=
  ∃ p q, e.footprint? = some p ∧ f.footprint? = some q ∧ p.stop ≤ q.start

end

/-- Bars of one thickness, each in the middle of a slot; the slots of a band lie side by side in its middle. -/
structure BarGrid where
  first : ℚ
  band : ℚ
  slots : ℕ
  slot : ℚ
  thickness : ℚ
  thickness_pos : 0 < thickness
  thickness_le : thickness ≤ slot
  slots_le : slot * slots ≤ band

namespace BarGrid

variable (g : BarGrid) {i i' k k' : ℕ}

def middle (i : ℕ) : ℚ := g.first + g.band * (i + 1 / 2)

def edge (i k : ℕ) : ℚ := g.middle i - g.slot * g.slots / 2 + g.slot * k

def center (i k : ℕ) : ℚ := g.middle i - g.slot * g.slots / 2 + g.slot * (k + 1 / 2)

def start (i k : ℕ) : ℚ := g.center i k - g.thickness / 2

def stop (i k : ℕ) : ℚ := g.center i k + g.thickness / 2

theorem slot_pos : 0 < g.slot := g.thickness_pos.trans_le g.thickness_le

theorem band_nonneg : 0 ≤ g.band :=
  (mul_nonneg g.slot_pos.le (Nat.cast_nonneg _)).trans g.slots_le

theorem start_lt_stop (i k : ℕ) : g.start i k < g.stop i k := by
  have h := g.thickness_pos
  rw [start, stop]
  linarith

theorem edge_le_start (i k : ℕ) : g.edge i k ≤ g.start i k := by
  have h := g.thickness_le
  rw [edge, start, center]
  linarith

theorem stop_le_edge (i k : ℕ) : g.stop i k ≤ g.edge i (k + 1) := by
  have h := g.thickness_le
  rw [edge, stop, center]
  push_cast
  linarith

theorem edge_mono (h : k ≤ k') : g.edge i k ≤ g.edge i k' := by
  have hslots : g.slot * k ≤ g.slot * k' := mul_le_mul_of_nonneg_left (by exact_mod_cast h) g.slot_pos.le
  rw [edge, edge]
  linarith

/-- The slots of a band lie between its ends. -/
theorem band_le_edge (i k : ℕ) : g.first + g.band * i ≤ g.edge i k := by
  have hfirst : g.edge i 0 ≤ g.edge i k := g.edge_mono (Nat.zero_le k)
  have hslots := g.slots_le
  rw [edge, middle] at hfirst
  push_cast at hfirst
  linarith

theorem edge_le_band (hk : k ≤ g.slots) : g.edge i k ≤ g.first + g.band * (i + 1) := by
  have hlast : g.edge i k ≤ g.edge i g.slots := g.edge_mono hk
  have hslots := g.slots_le
  rw [edge, edge, middle] at hlast
  rw [edge, middle]
  linarith

theorem stop_le_band (hk : k < g.slots) : g.stop i k ≤ g.first + g.band * (i + 1) :=
  (g.stop_le_edge i k).trans (g.edge_le_band hk)

theorem band_le_start (i k : ℕ) : g.first + g.band * i ≤ g.start i k := (g.band_le_edge i k).trans (g.edge_le_start i k)

/-- Bars stand in the order of their bands, and inside a band in the order of their slots. -/
theorem stop_le_start (hk : k < g.slots) (h : i < i' ∨ i = i' ∧ k < k') : g.stop i k ≤ g.start i' k' := by
  rcases h with hi | ⟨rfl, hk'⟩
  · have hbands : g.band * (i + 1) ≤ g.band * i' :=
      mul_le_mul_of_nonneg_left (by exact_mod_cast hi) g.band_nonneg
    calc g.stop i k ≤ g.first + g.band * (i + 1) := g.stop_le_band hk
      _ ≤ g.first + g.band * i' := by linarith
      _ ≤ g.start i' k' := g.band_le_start i' k'
  · calc g.stop i k ≤ g.edge i (k + 1) := g.stop_le_edge i k
      _ ≤ g.edge i k' := g.edge_mono hk'
      _ ≤ g.start i k' := g.edge_le_start i k'

end BarGrid

namespace Layout

section

variable {α : Type} {place : ℕ → Shown α → ℕ → Record α → Element α} {parts : List (Shown α)}

/-- Parts of a layout whose elements depend on the slot of their dataset, its position among those that are shown. -/
def slotted (place : ℕ → Shown α → ℕ → Record α → Element α) (parts : List (Shown α)) : List (DatasetLayout α) :=
  parts.mapIdx fun k s => ⟨s.index, s.records, s.records.mapIdx (place k s), none⟩

/-- An element of a slotted layout is the one placed for its record in the slot of its dataset. -/
theorem mem_slotted {e : Element α} (h : e ∈ (slotted place parts).flatMap DatasetLayout.elements) :
    ∃ (k : ℕ) (hk : k < parts.length) (i : ℕ) (hi : i < parts[k].records.length),
      e = place k parts[k] i parts[k].records[i] := by
  obtain ⟨d, hd, he⟩ := List.mem_flatMap.1 h
  obtain ⟨k, hk, rfl⟩ := List.mem_mapIdx.1 hd
  obtain ⟨i, hi, rfl⟩ := List.mem_mapIdx.1 he
  exact ⟨k, hk, i, hi, rfl⟩

/-- What holds of any two places in different slots or at different positions holds of any two elements. -/
theorem pairwise_slotted {R : Element α → Element α → Prop}
    (h : ∀ k < parts.length, ∀ k' < parts.length, ∀ i i' s s' r r', i ≠ i' ∨ k ≠ k' →
      R (place k s i r) (place k' s' i' r')) : ((slotted place parts).flatMap DatasetLayout.elements).Pairwise R := by
  rw [List.pairwise_flatMap]
  constructor
  · intro d hd
    obtain ⟨k, hk, rfl⟩ := List.mem_mapIdx.1 hd
    rw [List.pairwise_iff_getElem]
    intro i i' hi hi' hlt
    simp only [List.getElem_mapIdx]
    exact h k hk k hk i i' _ _ _ _ (.inl hlt.ne)
  · rw [List.pairwise_iff_getElem]
    intro k k' hk hk' hlt e he f hf
    simp only [slotted, List.getElem_mapIdx] at he hf
    obtain ⟨i, _, rfl⟩ := List.mem_mapIdx.1 he
    obtain ⟨i', _, rfl⟩ := List.mem_mapIdx.1 hf
    rw [slotted, List.length_mapIdx] at hk hk'
    exact h k hk k' hk' i i' _ _ _ _ (.inr hlt.ne)

end

end Layout

/-- An area in exact arithmetic has rational sides in order. -/
theorem Area.make_eq_ok {left top right bottom : Exact} {a : Area Exact} (h : make left top right bottom = .ok a) :
    ∃ l t r b : ℚ, a = ⟨finite l, finite t, finite r, finite b⟩ ∧ l < r ∧ t < b := by
  obtain ⟨hfinite, h⟩ := seq_eq_ok.1 h
  obtain ⟨hsize, h⟩ := seq_eq_ok.1 h
  cases h
  simp only [check_eq_ok, List.all_cons, List.all_nil, Bool.and_eq_true] at hfinite
  obtain ⟨hl, ht, hr, hb, -⟩ := hfinite
  obtain ⟨l, rfl⟩ := exists_finite hl
  obtain ⟨t, rfl⟩ := exists_finite ht
  obtain ⟨r, rfl⟩ := exists_finite hr
  obtain ⟨b, rfl⟩ := exists_finite hb
  simp only [check_eq_ok, finite_le, Bool.not_eq_true', Bool.or_eq_false_iff, decide_eq_false_iff_not, not_le] at hsize
  exact ⟨l, t, r, b, rfl, hsize.1, hsize.2⟩

/-- The range of a category axis is rational and rises. -/
theorem Area.categoryPixels_eq {v : Viewport} {axes : PerAxis (AxisOptions Exact)} {labels : List String} {a : Area Exact}
    (h : cartesian v axes labels = .ok a) (axis : Axis) :
    ∃ p q : ℚ, a.categoryPixels axis = ⟨finite p, finite q⟩ ∧ p < q := by
  obtain ⟨_, hmake⟩ := seq_eq_ok.1 h
  obtain ⟨l, t, r, b, rfl, hwidth, hheight⟩ := Area.make_eq_ok hmake
  cases axis with
  | x => exact ⟨l, r, rfl, hwidth⟩
  | y => exact ⟨t, b, rfl, hheight⟩
  | r => exact ⟨t, b, rfl, hheight⟩

theorem isShare_iff {x : Exact} : isShare x = true ↔ ∃ q : ℚ, x = finite q ∧ 0 < q ∧ q ≤ 1 := by
  constructor
  · intro h
    simp only [isShare, Scalar.isPositive, Bool.and_eq_true, Bool.not_eq_true', decide_eq_false_iff_not] at h
    obtain ⟨⟨hfinite, hpos⟩, hone⟩ := h
    obtain ⟨q, rfl⟩ := exists_finite hfinite
    simp at hpos hone
    exact ⟨q, rfl, hpos, hone⟩
  · rintro ⟨q, rfl, hpos, hone⟩
    simp [isShare, Scalar.isPositive, hpos, hone]

/-- The shares of a valid chart are shares. -/
theorem Chart.shares_of_validate {c : Chart Exact} (h : c.validate = .ok ()) :
    isShare c.options.bar.categoryShare = true ∧ isShare c.options.bar.barShare = true := by
  obtain ⟨_, h⟩ := seq_eq_ok.1 h
  obtain ⟨hoptions, _⟩ := seq_eq_ok.1 h
  obtain ⟨_, hoptions⟩ := seq_eq_ok.1 hoptions
  obtain ⟨_, hoptions⟩ := seq_eq_ok.1 hoptions
  obtain ⟨hbar, _⟩ := seq_eq_ok.1 hoptions
  obtain ⟨hcategory, hbar⟩ := seq_eq_ok.1 hbar
  obtain ⟨hshare, _⟩ := seq_eq_ok.1 hbar
  exact ⟨check_eq_ok.1 hcategory, check_eq_ok.1 hshare⟩

/-- A banded scale divides its range into equal bands, with labels in their middles. -/
theorem CategoryScale.bands {s : CategoryScale Exact} {p q : ℚ} (hbanded : s.banded = true)
    (hpixels : s.pixels = ⟨finite p, finite q⟩) (hpq : p < q) :
    ∃ band : ℚ, 0 < band ∧ q = p + band * (max s.labels.length 1 : ℕ) ∧ s.bandWidth = finite band ∧
      ∀ i : ℕ, s.indexPixel i = finite (p + band * (i + 1 / 2)) := by
  have hcount : 0 < ((max s.labels.length 1 : ℕ) : ℚ) := Nat.cast_pos.2 (by omega)
  have hwindow : s.window = (finite (-(1 / 2)), finite (max s.labels.length 1 : ℕ)) := by
    rw [window, hbanded, half_eq, ofNat_eq, finite_neg]
    rfl
  have hlength : s.pixels.length = finite (q - p) := by rw [hpixels, PixelRange.length, finite_sub]
  refine ⟨(q - p) / (max s.labels.length 1 : ℕ), div_pos (sub_pos.2 hpq) hcount, ?_, ?_, fun i => ?_⟩
  · rw [div_mul_cancel₀ _ hcount.ne']
    ring
  · rw [bandWidth, hwindow, PixelRange.span, hlength, finite_abs, abs_of_pos (sub_pos.2 hpq), finite_div _ hcount.ne']
  · rw [indexPixel, toPixel, ofNat_eq, isFinite_finite, if_pos rfl, hwindow, PixelRange.lerp, hlength, hpixels, finite_sub,
      finite_div _ hcount.ne', finite_mul, finite_add]
    congr 1
    ring

/-- The grid on which the bars of a chart are placed. -/
structure BarGrid.Places (g : BarGrid) (category : CategoryScale Exact) (slots : Layout.BarSlots Exact) : Prop where
  pixels : category.pixels = ⟨finite g.first, finite (g.first + g.band * (max category.labels.length 1 : ℕ))⟩
  bandWidth : category.bandWidth = finite g.band
  indexPixel : ∀ i, category.indexPixel i = finite (g.middle i)
  thickness : slots.thickness = finite g.thickness
  pixel : ∀ i k, slots.pixel category i k = finite (g.center i k)

/-- The grid of a valid chart places its slots within the bands. -/
theorem BarGrid.exists_places {category : CategoryScale Exact} {p q : ℚ} (hbanded : category.banded = true)
    (hpixels : category.pixels = ⟨finite p, finite q⟩) (hpq : p < q) {options : BarOptions Exact}
    (hcategory : isShare options.categoryShare = true) (hbar : isShare options.barShare = true) (datasets : ℕ) :
    ∃ g : BarGrid, g.slots = max datasets 1 ∧ g.Places category (.make options category.bandWidth datasets) := by
  obtain ⟨band, hband, hend, hwidth, hindex⟩ := CategoryScale.bands hbanded hpixels hpq
  obtain ⟨u, hu, hupos, huone⟩ := isShare_iff.1 hcategory
  obtain ⟨w, hw, hwpos, hwone⟩ := isShare_iff.1 hbar
  have hslots : 0 < ((max datasets 1 : ℕ) : ℚ) := Nat.cast_pos.2 (by omega)
  have hslot : 0 < band * u / (max datasets 1 : ℕ) := div_pos (mul_pos hband hupos) hslots
  have hgroup : band * u / (max datasets 1 : ℕ) * (max datasets 1 : ℕ) = band * u := div_mul_cancel₀ _ hslots.ne'
  have hmake : Layout.BarSlots.make options category.bandWidth datasets =
      ⟨finite (band * u), finite (band * u / (max datasets 1 : ℕ)), finite (band * u / (max datasets 1 : ℕ) * w)⟩ := by
    rw [Layout.BarSlots.make, hwidth, hu, hw, finite_mul, ofNat_eq, finite_div _ hslots.ne', finite_mul]
  refine ⟨⟨p, band, max datasets 1, band * u / (max datasets 1 : ℕ), band * u / (max datasets 1 : ℕ) * w, mul_pos hslot hwpos,
    mul_le_of_le_one_right hslot.le hwone, ?_⟩, rfl, ?_, hwidth, hindex, ?_, fun i k => ?_⟩
  · rw [hgroup]
    exact mul_le_of_le_one_right hband.le huone
  · rw [hpixels, hend]
  · rw [hmake]
  · rw [Layout.BarSlots.pixel, hmake, hindex, half_eq, finite_half, ofNat_eq, finite_add, finite_mul,
      finite_sub, finite_add]
    simp only [center, middle, hgroup]

namespace Layout

variable {c : Chart Exact} {v : Viewport} {atRest : Bool} {l : Layout Exact}

/-- The parts of a bar layout: the slot of a dataset is its position among those that are shown. -/
theorem bar_datasets (h : bar c v atRest = .ok l) :
    ∃ (labels : List String) (area : Area Exact) (category : CategoryScale Exact) (values : LinearScale Exact),
      Area.cartesian v c.options.axes labels = .ok area ∧ category.banded = true ∧ category.labels = c.categoryLabels ∧
      category.pixels = area.categoryPixels (barIndexAxis c) ∧ l.scales.category? = some category ∧
      l.datasets = slotted (barElement c category values (.make c.options.bar category.bandWidth
          (shown c (Dataset.categoryRecords (barValueAxis c))).length) atRest)
        (shown c (Dataset.categoryRecords (barValueAxis c))) := by
  obtain ⟨_, h⟩ := seq_eq_ok.1 h
  obtain ⟨area, harea, h⟩ := bind_eq_ok.1 h
  obtain ⟨category, hcategory, h⟩ := bind_eq_ok.1 h
  obtain ⟨values, hvalues, h⟩ := bind_eq_ok.1 h
  obtain ⟨_, hcategory⟩ := seq_eq_ok.1 hcategory
  cases hcategory
  cases h
  refine ⟨_, area, _, values, harea, rfl, rfl, rfl, ?_, rfl⟩
  cases isHorizontal c <;> rfl

section

variable {category : CategoryScale Exact} {values : LinearScale Exact} {slots : BarSlots Exact} {g : BarGrid}
  (hg : g.Places category slots)

include hg

/-- The footprint of a bar is its place in the grid, whatever its value. -/
theorem footprint?_barElement (k i : ℕ) (s : Shown Exact) (r : Record Exact) :
    (barElement c category values slots atRest k s i r).footprint? = some ⟨finite (g.start i k), finite (g.stop i k)⟩ := by
  have hmiddle : ∀ (horizontal : Bool) (value : Exact),
      (if horizontal then (if horizontal then slots.pixel category i k else value)
        else (if horizontal then value else slots.pixel category i k)) = finite (g.center i k) := by
    intro horizontal value
    cases horizontal <;> exact hg.pixel i k
  simp only [Element.footprint?, barElement, Bar.footprint, hmiddle, hg.thickness, finite_half, finite_sub,
    finite_add]
  rfl

/-- Bars of a later category, or of a later slot, come behind. -/
theorem before_of_lt {k k' i i' : ℕ} (hk : k < g.slots) (h : i < i' ∨ i = i' ∧ k < k') (s s' : Shown Exact)
    (r r' : Record Exact) :
    (barElement c category values slots atRest k s i r).Before (barElement c category values slots atRest k' s' i' r') :=
  ⟨_, _, footprint?_barElement hg k i s r, footprint?_barElement hg k' i' s' r', finite_le.2 (g.stop_le_start hk h)⟩

/-- Bars at different places are apart. -/
theorem apart {k k' i i' : ℕ} (hk : k < g.slots) (hk' : k' < g.slots) (h : i ≠ i' ∨ k ≠ k') (s s' : Shown Exact)
    (r r' : Record Exact) :
    (barElement c category values slots atRest k s i r).Before (barElement c category values slots atRest k' s' i' r') ∨
      (barElement c category values slots atRest k' s' i' r').Before (barElement c category values slots atRest k s i r) := by
  have horder : (i < i' ∨ i = i' ∧ k < k') ∨ i' < i ∨ i' = i ∧ k' < k := by omega
  rcases horder with hlt | hlt
  · exact .inl (before_of_lt hg hk hlt s s' r r')
  · exact .inr (before_of_lt hg hk' hlt s' s r' r)

/-- A bar lies in the pixels of the axis and in the band of its category. -/
theorem inside {k i : ℕ} (hk : k < g.slots) (hi : i < category.labels.length) (s : Shown Exact) (r : Record Exact) :
    ∃ p, (barElement c category values slots atRest k s i r).footprint? = some p ∧ p.Inside category.pixels ∧
      p.Inside (category.band i) := by
  have hstart : g.first + g.band * i ≤ g.start i k := g.band_le_start i k
  have hroom : g.start i k < g.stop i k := g.start_lt_stop i k
  have hstop : g.stop i k ≤ g.first + g.band * (i + 1) := g.stop_le_band hk
  have hbefore : 0 ≤ g.band * i := mul_nonneg g.band_nonneg (Nat.cast_nonneg i)
  have hafter : g.band * (i + 1) ≤ g.band * (max category.labels.length 1 : ℕ) :=
    mul_le_mul_of_nonneg_left (by exact_mod_cast hi.trans_le (le_max_left _ _)) g.band_nonneg
  have hband : category.band i = ⟨finite (g.first + g.band * i), finite (g.first + g.band * (i + 1))⟩ := by
    rw [CategoryScale.band, hg.indexPixel, hg.bandWidth, finite_half, finite_sub, finite_add, BarGrid.middle]
    congr 2 <;> ring
  refine ⟨_, footprint?_barElement hg k i s r, ?_, ?_⟩
  · rw [hg.pixels]
    exact ⟨finite_le.2 (by linarith), finite_lt.2 hroom, finite_le.2 (by linarith)⟩
  · rw [hband]
    exact ⟨finite_le.2 hstart, finite_lt.2 hroom, finite_le.2 hstop⟩

end

/-- The datasets that are shown keep their order. -/
theorem shown_ordered {α : Type} [Scalar α] (c : Chart α) (read : Dataset α → List (Record α)) :
    (shown c read).Pairwise fun s s' => s.index < s'.index := by
  have hpositions : (c.visible.map Prod.fst).Pairwise (· < ·) := by
    rw [c.visible_positions]
    exact List.pairwise_lt_range.filter _
  exact List.pairwise_map.2 (List.pairwise_map.1 hpositions)

/-- Every record shown has a label. -/
theorem lt_categoryLabels {α : Type} [Scalar α] {c : Chart α} {a : Axis} {s : Shown α}
    (hs : s ∈ shown c (Dataset.categoryRecords a)) {i : ℕ} (hi : i < s.records.length) : i < c.categoryLabels.length := by
  obtain ⟨⟨n, d⟩, hvisible, rfl⟩ := List.mem_map.1 hs
  rw [Dataset.length_categoryRecords] at hi
  exact Chart.lt_length_categoryLabels (List.mem_of_getElem? (Chart.mem_visible.1 hvisible).1) hi

/-- In exact arithmetic, the bars of an accepted chart lie inside the category axis and inside the bands of their
categories, no two of them overlap, and inside a band they stand in the order of the datasets. -/
theorem bars_side_by_side (hc : c.validate = .ok ()) (h : bar c v atRest = .ok l) :
    ∃ category, l.scales.category? = some category ∧
      (∀ e ∈ l.elements, ∃ p, e.footprint? = some p ∧ p.Inside category.pixels ∧ p.Inside (category.band e.index)) ∧
      l.elements.Pairwise (fun e f => e.Before f ∨ f.Before e) ∧
      ∀ e ∈ l.elements, ∀ f ∈ l.elements, e.index = f.index → e.dataset < f.dataset → e.Before f := by
  obtain ⟨labels, area, category, values, harea, hbanded, hlabels, hpixels, hscale, hdatasets⟩ := bar_datasets h
  obtain ⟨p, q, hpq, hlt⟩ := Area.categoryPixels_eq harea (barIndexAxis c)
  obtain ⟨hcategory, hbar⟩ := Chart.shares_of_validate hc
  have hordered := shown_ordered c (Dataset.categoryRecords (barValueAxis c))
  have hlabel : ∀ s ∈ shown c (Dataset.categoryRecords (barValueAxis c)), ∀ i < s.records.length,
      i < category.labels.length := fun s hs i hi => hlabels ▸ lt_categoryLabels hs hi
  rw [elements, hdatasets]
  generalize shown c (Dataset.categoryRecords (barValueAxis c)) = parts at *
  obtain ⟨g, hslots, hg⟩ := BarGrid.exists_places hbanded (hpixels.trans hpq) hlt hcategory hbar parts.length
  have hslot : ∀ k < parts.length, k < g.slots := fun k hk => hslots ▸ hk.trans_le (le_max_left _ _)
  refine ⟨category, hscale, fun e he => ?_, ?_, fun e he f hf hindex hlt => ?_⟩
  · obtain ⟨k, hk, i, hi, rfl⟩ := mem_slotted he
    exact inside hg (hslot k hk) (hlabel _ (List.getElem_mem hk) i hi) _ _
  · exact pairwise_slotted fun k hk k' hk' i i' s s' r r' hne => apart hg (hslot k hk) (hslot k' hk') hne s s' r r'
  · obtain ⟨k, hk, i, hi, rfl⟩ := mem_slotted he
    obtain ⟨k', hk', i', hi', rfl⟩ := mem_slotted hf
    have hkk : k < k' := by
      by_contra hge
      rcases Nat.eq_or_lt_of_le (Nat.not_lt.1 hge) with rfl | hgt
      · exact lt_irrefl _ hlt
      · exact lt_asymm hlt (List.pairwise_iff_getElem.1 hordered k' k hk' hk hgt)
    exact before_of_lt hg (hslot k hk) (.inr ⟨hindex, hkk⟩) _ _ _ _

/-- Bars on their side that fill their slots and bands, with a hidden dataset between them. -/
def crowdedChart : Chart Exact :=
  ⟨"barWithErrorBars", ["a"], [.ofData [.onAxis .x 1, .onAxis .x 2],
    { Dataset.ofData [.onAxis .x 5] with hidden := true }, .ofData [.onAxis .x 3, .onAxis .x (-1)]],
    { ChartOptions.default with indexAxis := .y, bar := ⟨1, 1, 0⟩ }⟩

theorem crowded_bars_side_by_side :
    crowdedChart.validate = .ok () ∧ ∃ l category, bar crowdedChart ⟨300, 200⟩ false = .ok l ∧ l.elements.length = 4 ∧
      l.scales.category? = some category ∧ l.elements.Pairwise (fun e f => e.Before f ∨ f.Before e) := by
  have hvalid : crowdedChart.validate = .ok () := isOk_iff.1 (by decide +kernel)
  have hs : (bar crowdedChart ⟨300, 200⟩ false).toOption.map (fun l => l.elements.length) = some 4 := by decide +kernel
  obtain ⟨l, hl, hlength⟩ := Option.map_eq_some_iff.1 hs
  have hl := toOption_eq_some.1 hl
  obtain ⟨category, hcategory, _, hapart, _⟩ := bars_side_by_side hvalid hl
  exact ⟨hvalid, l, category, hl, hlength, hcategory, hapart⟩

end Layout

end Whisker
