import Mathlib.Order.Bounds.Defs
import Whisker.Proofs.Record
import Whisker.Scene

/-!
# Labels of a category axis

The labels of an axis are as wide as the widest of them, or as high as their font, and every how many of them one is
shown is counted so that they fit. Two labels that are shown are at least that many categories apart. The distance of
two neighbouring categories depends on whether they stand in bands or touch the ends, but it is never less than the
length of the axis divided by the number of categories, and that is enough for both.
-/

namespace Whisker

open Exact
open Scalar (isFinite isPositive)

theorem Exact.exists_positive {x : Exact} (h : isPositive x = true) : ∃ p, x = finite p ∧ 0 < p := by
  obtain ⟨hfinite, hpos⟩ := Bool.and_eq_true_iff.1 h
  obtain ⟨p, rfl⟩ := exists_finite hfinite
  rw [literal_eq, Bool.not_eq_true', decide_eq_false_iff_not, finite_le, Nat.cast_zero] at hpos
  exact ⟨p, rfl, not_le.1 hpos⟩

/-- A finite range has rational ends, and its span is their distance. -/
theorem PixelRange.exists_finite {r : PixelRange Exact} (h : r.isFinite = true) :
    ∃ a b, r = ⟨finite a, finite b⟩ ∧ r.span = finite |b - a| := by
  obtain ⟨start, stop⟩ := r
  obtain ⟨hstart, hstop⟩ := Bool.and_eq_true_iff.1 h
  obtain ⟨a, rfl⟩ := Exact.exists_finite hstart
  obtain ⟨b, rfl⟩ := Exact.exists_finite hstop
  exact ⟨a, b, rfl, by rw [span, length, finite_sub, finite_abs]⟩

theorem isFinite_charWidth (c : Char) : isFinite (charWidth c : Exact) = true := by
  unfold charWidth
  repeat' split
  all_goals rfl

/-- The estimate of a width is finite and at least the font size. -/
theorem textWidth_eq (text : String) (p : ℚ) : ∃ w, textWidth text (finite p) = finite w ∧ p ≤ w := by
  have hunits (cs : List Char) (u : ℚ) : ∃ v, cs.foldl (fun w c => w + charWidth c) (finite u) = finite v := by
    induction cs generalizing u with
    | nil => exact ⟨u, rfl⟩
    | cons c cs ih =>
      obtain ⟨v, hv⟩ := exists_finite (isFinite_charWidth c)
      rw [List.foldl_cons, hv, finite_add]
      exact ih (u + v)
  obtain ⟨u, hu⟩ := hunits text.toList (0 : ℕ)
  refine ⟨max (u * p) p, ?_, le_max_right _ _⟩
  rw [textWidth, literal_eq, hu, finite_mul, finite_max]

/-- The widest of some texts is as wide as one of them, and no other one is wider. -/
theorem widest_isGreatest {texts : List String} (hne : texts ≠ []) {p : ℚ} (hp : 0 < p) :
    ∃ w, widest texts (finite p) = finite w ∧ 0 < w ∧
      IsGreatest {v | ∃ text ∈ texts, textWidth text (finite p) = v} (finite w) := by
  have hwidths : ∀ v ∈ texts.map (textWidth · (finite p)), isFinite v = true := by
    refine List.forall_mem_map.2 fun text _ => ?_
    obtain ⟨w, hw, -⟩ := textWidth_eq text p
    rw [hw]
    rfl
  obtain ⟨hmem, hle⟩ := foldl_lesser (v := (0 : Exact)) (fun ha hb => ordered.max_eq ha hb) hwidths rfl
  change widest texts (finite p) ∈ _ at hmem
  change ∀ u ∈ _, number u ≤ number (widest texts (finite p)) at hle
  have hbound : ∀ text ∈ texts, number (textWidth text (finite p)) ≤ number (widest texts (finite p)) := fun text htext =>
    hle _ (List.mem_cons_of_mem _ (List.mem_map_of_mem htext))
  obtain ⟨text, htext⟩ := List.exists_mem_of_ne_nil _ hne
  obtain ⟨v, hv, hpv⟩ := textWidth_eq text p
  have hpos : 0 < number (widest texts (finite p)) := by
    have hle := hbound text htext
    rw [hv] at hle
    exact (hp.trans_le hpv).trans_le hle
  -- The fold starts below every width, so it ends at one of them.
  rcases List.mem_cons.1 hmem with hzero | hmem
  · rw [hzero] at hpos
    exact absurd hpos (lt_irrefl 0)
  · obtain ⟨w, hw⟩ := exists_finite (hwidths _ hmem)
    rw [hw] at hpos hbound hmem ⊢
    refine ⟨w, rfl, hpos, List.mem_map.1 hmem, ?_⟩
    rintro - ⟨text, htext, rfl⟩
    obtain ⟨v, hv, -⟩ := textWidth_eq text p
    have hle := hbound text htext
    rw [hv] at hle ⊢
    exact finite_le.2 hle

/-- The room that a label takes: the widest text along the x axis, the height of the font along the others. -/
structure Axis.IsExtent (axis : Axis) (labels : List String) (fontSize extent : Exact) : Prop where
  across : axis = .x → IsGreatest {v | ∃ label ∈ labels, textWidth label fontSize = v} extent
  along : axis ≠ .x → extent = fontSize

namespace Scene

/-- The extent of labels is positive, and an extent along the axis. -/
theorem labelExtent_eq (axis : Axis) {labels : List String} (hne : labels ≠ []) {p : ℚ} (hp : 0 < p) :
    ∃ e, labelExtent axis labels (finite p) = finite e ∧ 0 < e ∧ axis.IsExtent labels (finite p) (finite e) := by
  cases axis with
  | x =>
    obtain ⟨w, hw, hpos, hgreatest⟩ := widest_isGreatest hne hp
    exact ⟨w, hw, hpos, fun _ => hgreatest, fun h => absurd rfl h⟩
  | y => exact ⟨p, rfl, hp, nofun, fun _ => rfl⟩
  | r => exact ⟨p, rfl, hp, nofun, fun _ => rfl⟩

/-- How many labels fit on an axis as long as so many of them; one always does. -/
def fitting (ratio : ℚ) : ℕ := Scalar.toNat (finite (max ⌊ratio⌋ 1))

/-- If two labels or more fit, they are not longer than the axis. -/
theorem fitting_bounds (ratio : ℚ) : 1 ≤ fitting ratio ∧ (2 ≤ fitting ratio → fitting ratio ≤ ratio) := by
  have hmax : (max ⌊ratio⌋ 1 : ℚ) = (max ⌊ratio⌋ 1 : ℤ) := by push_cast; rfl
  have hfitting : fitting ratio = min (max ⌊ratio⌋ 1).toNat (UInt64.size - 1) := by
    rw [fitting, hmax]
    change min (⌊((max ⌊ratio⌋ 1 : ℤ) : ℚ)⌋).toNat _ = _
    rw [Int.floor_intCast]
  have hsize : 1 ≤ UInt64.size - 1 := by decide
  refine ⟨by omega, fun htwo => ?_⟩
  have hfloor : (fitting ratio : ℤ) ≤ ⌊ratio⌋ := by omega
  exact Int.le_floor.1 hfloor

/-- The step is what leaves room for as many labels as fit. -/
theorem skipStep_eq (axis : Axis) {labels : List String} (hne : labels ≠ []) {p l e : ℚ} (hl : 0 < l)
    (hextent : labelExtent axis labels (finite p) = finite e) (he : 0 < e) :
    skipStep axis labels (finite l) (finite p) =
      max ((labels.length + fitting (l / (e + 6)) - 1) / fitting (l / (e + 6))) 1 := by
  have hroom : e + 6 ≠ 0 := by linarith
  have hgap : (categoryGap : Exact) = finite 6 := literal_eq 6
  have hlength : ¬finite l ≤ (0 : Exact) := by
    rw [literal_eq, finite_le, Nat.cast_zero]
    exact not_le.2 hl
  have hempty : (labels.isEmpty || decide (finite l ≤ (0 : Exact))) = false := by
    rw [List.isEmpty_eq_false_iff.2 hne, decide_eq_false hlength]
    rfl
  rw [skipStep, hempty, hextent, hgap, finite_add, finite_div _ hroom, finite_floor, literal_eq, finite_max, Nat.cast_one]
  rfl

/-- Rounding up the step leaves no more labels than fit. -/
theorem length_le_skipStep_mul (axis : Axis) {labels : List String} (hne : labels ≠ []) {p l e : ℚ} (hl : 0 < l)
    (hextent : labelExtent axis labels (finite p) = finite e) (he : 0 < e) :
    labels.length ≤ skipStep axis labels (finite l) (finite p) * fitting (l / (e + 6)) := by
  rw [skipStep_eq axis hne hl hextent he]
  obtain ⟨hone, -⟩ := fitting_bounds (l / (e + 6))
  generalize fitting (l / (e + 6)) = k at *
  calc labels.length ≤ (labels.length + k - 1) / k * k := by
        have hlt := Nat.lt_div_mul_add (a := labels.length + k - 1) hone
        omega
    _ ≤ max ((labels.length + k - 1) / k) 1 * k := Nat.mul_le_mul_right k (le_max_left _ _)

end Scene

namespace CategoryScale

variable (s : CategoryScale Exact)

theorem shown_labels : (List.range s.labels.length).filterMap s.tickLabel? = s.labels.map (shorten s.maxChars) := by
  have hself (labels : List String) : (List.range labels.length).filterMap (labels[·]?) = labels := by
    induction labels with
    | nil => rfl
    | cons label labels ih =>
      rw [List.length_cons, List.range_succ_eq_map, List.filterMap_cons_some (f := ((label :: labels)[·]?)) rfl,
        List.filterMap_map]
      exact congrArg (label :: ·) ih
  rw [← congrArg (List.map (shorten s.maxChars)) (hself s.labels), List.map_filterMap]
  rfl

/-- The window of a scale has a positive number of labels, not more than there are. -/
theorem window_eq : ∃ first count : ℚ, s.window = (finite first, finite count) ∧ 0 < count ∧
    count ≤ (max s.labels.length 1 : ℕ) := by
  have hone : (1 : ℚ) ≤ (max s.labels.length 1 : ℕ) := by exact_mod_cast le_max_right _ 1
  cases hbanded : s.banded with
  | true =>
    refine ⟨-(1 / 2), (max s.labels.length 1 : ℕ), ?_, zero_lt_one.trans_le hone, le_rfl⟩
    rw [window, hbanded, half_eq, ofNat_eq, finite_neg]
    rfl
  | false =>
    refine ⟨0, max ((max s.labels.length 1 : ℕ) - 1) 1, ?_, lt_max_of_lt_right zero_lt_one, max_le (by linarith) hone⟩
    rw [window, hbanded, ofNat_eq, literal_eq, literal_eq, finite_sub, finite_max, Nat.cast_zero, Nat.cast_one]
    rfl

/-- Neighbouring categories are equally far from each other, and at least by the length of the axis divided by their number. -/
theorem distance_eq (hne : s.labels ≠ []) {a b : ℚ} (hpixels : s.pixels = ⟨finite a, finite b⟩) :
    ∃ count : ℚ, 0 < count ∧ count ≤ s.labels.length ∧
      ∀ {i j : ℕ}, i ≤ j → Scalar.abs (s.indexPixel j - s.indexPixel i) = finite ((j - i) / count * |b - a|) := by
  obtain ⟨first, count, hwindow, hpos, hle⟩ := s.window_eq
  have hpixel (i : ℕ) : s.indexPixel i = finite (a + (i - first) / count * (b - a)) := by
    rw [indexPixel, toPixel, ofNat_eq, isFinite_finite, if_pos rfl, hwindow, PixelRange.lerp, PixelRange.length, hpixels]
    simp only [finite_sub, finite_div _ hpos.ne', finite_mul, finite_add]
  refine ⟨count, hpos, ?_, fun {i j} hij => ?_⟩
  · rwa [max_eq_left (List.length_pos_iff.2 hne)] at hle
  · have hcast : (0 : ℚ) ≤ j - i := sub_nonneg.2 (Nat.cast_le.2 hij)
    rw [hpixel, hpixel, finite_sub, finite_abs, ← abs_of_nonneg (div_nonneg hcast hpos.le), ← abs_mul]
    congr 2
    ring

end CategoryScale

namespace Scene

/-- Two categories that are shown keep a label's room between them: if one step does not lead past the last category, at
least two labels fit, and then a step takes up its share of the length. -/
theorem spacing_le {step fitting n i j : ℕ} {room l count : ℚ} (hroom : 0 < room) (hn : n ≤ step * fitting)
    (hfits : 2 ≤ fitting → fitting * room ≤ l) (hcount : 0 < count) (hle : count ≤ n) (hij : i < j) (hj : j < n)
    (hkept : i % step = 0) (hkept' : j % step = 0) (hl : 0 < l) : room ≤ ((j : ℚ) - i) / count * l := by
  have hdiff : step ≤ j - i := Nat.le_of_dvd (Nat.sub_pos_of_lt hij)
    (Nat.dvd_sub (Nat.dvd_of_mod_eq_zero hkept') (Nat.dvd_of_mod_eq_zero hkept))
  have htwo : 2 ≤ fitting := by
    by_contra hlt
    have := Nat.mul_le_mul_left step (show fitting ≤ 1 by omega)
    omega
  have hcast : (step : ℚ) ≤ j - i := by
    rw [← Nat.cast_sub hij.le]
    exact_mod_cast hdiff
  have hnq : (n : ℚ) ≤ step * fitting := by exact_mod_cast hn
  rw [div_mul_eq_mul_div, le_div_iff₀ hcount]
  calc room * count ≤ room * (step * fitting) := by gcongr; exact hle.trans hnq
    _ = step * (fitting * room) := by ring
    _ ≤ step * l := by gcongr; exact hfits htwo
    _ ≤ (j - i) * l := by gcongr

theorem categoryTicks_eq (s : CategoryScale Exact) (fontSize : Exact) :
    let labels := s.labels.map (CategoryScale.shorten s.maxChars)
    categoryTicks s fontSize = (labels.zipIdx.filter fun (_, i) => i % skipStep s.axis labels s.pixels.span fontSize = 0).map
      fun (label, i) => ⟨s.indexPixel i, label⟩ := by
  rw [categoryTicks, s.shown_labels]

/-- The ticks of a category axis of positive length, at every multiple of the step, never overlap: two of them are at least as
far from each other as a label takes room, and the gap. -/
theorem category_ticks_keep_apart {s : CategoryScale Exact} (hpixels : s.pixels.isFinite = true)
    (hlength : 0 < s.pixels.span) {o : AxisOptions Exact} (hfont : isPositive o.ticks.fontSize = true) :
    let labels := s.labels.map (CategoryScale.shorten s.maxChars)
    let extent := labelExtent s.axis labels o.ticks.fontSize
    let step := skipStep s.axis labels s.pixels.span o.ticks.fontSize
    ticks (.category s) o = (labels.zipIdx.filter fun (_, i) => i % step = 0).map (fun (label, i) => ⟨s.indexPixel i, label⟩) ∧
      1 ≤ step ∧ (labels ≠ [] → s.axis.IsExtent labels o.ticks.fontSize extent) ∧
      (ticks (.category s) o).Pairwise fun t u => extent + 6 ≤ Scalar.abs (u.pixel - t.pixel) := by
  intro labels extent step
  obtain ⟨p, hp, hpos⟩ := exists_positive hfont
  obtain ⟨a, b, hrange, hspan⟩ := s.pixels.exists_finite hpixels
  have hl : 0 < |b - a| := by
    rw [hspan, literal_eq, finite_lt, Nat.cast_zero] at hlength
    exact hlength
  refine ⟨categoryTicks_eq s o.ticks.fontSize, ?_⟩
  rw [ticks, categoryTicks_eq]
  unfold step
  by_cases hempty : s.labels = []
  · simp only [labels, hempty, List.map_nil]
    exact ⟨le_rfl, fun h => absurd rfl h, .nil⟩
  · have hne : labels ≠ [] := List.map_eq_nil_iff.not.2 hempty
    obtain ⟨e, he, hepos, hextent⟩ := labelExtent_eq s.axis hne hpos
    obtain ⟨count, hcount, hle, hdistance⟩ := s.distance_eq hempty hrange
    have hsteps := length_le_skipStep_mul s.axis hne hl he hepos
    have hroom : 0 < e + 6 := by linarith
    have hreach : extent + 6 = finite (e + 6) := by simp only [extent, hp, he, literal_eq, finite_add, Nat.cast_ofNat]
    rw [hp, hspan]
    refine ⟨?_, fun _ => ?_, ?_⟩
    · rw [skipStep_eq s.axis hne hl he hepos]
      exact le_max_right _ _
    · simp only [extent, hp, he, hextent]
    · rw [List.pairwise_map, List.pairwise_filter, List.pairwise_iff_getElem]
      intro i j hi hj hij
      simp only [List.getElem_zipIdx, Nat.zero_add, decide_eq_true_iff, hdistance hij.le, hreach, finite_le]
      intro hkept hkept'
      rw [List.length_zipIdx] at hj
      have hnumber : count ≤ labels.length := by rwa [List.length_map]
      refine spacing_le hroom hsteps (fun htwo => ?_) hcount hnumber hij hj hkept hkept' hl
      exact (le_div_iff₀ hroom).1 ((fitting_bounds _).2 htwo)

/-- Six labels of one letter in bands of ten pixels: every other one is shown. -/
def crowdedScale : CategoryScale Exact := ⟨.x, ["a", "b", "c", "d", "e", "f"], ⟨0, 60⟩, true, none⟩

theorem crowded_ticks_keep_apart : crowdedScale.pixels.isFinite = true ∧ 0 < crowdedScale.pixels.span ∧
    isPositive (AxisOptions.default : AxisOptions Exact).ticks.fontSize = true ∧
    (ticks (.category crowdedScale) .default).map Tick.label = ["a", "c", "e"] ∧
    (ticks (.category crowdedScale) .default).Pairwise fun t u => 18 ≤ Scalar.abs (u.pixel - t.pixel) := by
  have hpixels : crowdedScale.pixels.isFinite = true := by decide
  have hlength : 0 < crowdedScale.pixels.span := by decide +kernel
  have hfont : isPositive (AxisOptions.default : AxisOptions Exact).ticks.fontSize = true := by decide +kernel
  have hroom : labelExtent crowdedScale.axis (crowdedScale.labels.map (CategoryScale.shorten none))
      (AxisOptions.default : AxisOptions Exact).ticks.fontSize + 6 = 18 := by decide +kernel
  obtain ⟨-, -, -, hapart⟩ := category_ticks_keep_apart hpixels hlength hfont
  exact ⟨hpixels, hlength, hfont, by decide +kernel, hapart.imp fun h => hroom ▸ h⟩

end Scene

end Whisker
