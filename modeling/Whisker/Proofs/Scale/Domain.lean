import Whisker.Proofs.Layout.Scales
import Whisker.Proofs.Ticks

/-!
# Domains cover their data, and scales map them into their range

In exact arithmetic the outermost ticks enclose the range that they are made for, and the range contains the extent of
the data, whether zero is added to it or a single value is widened. So a scale fitted without explicit ends has a domain
that contains the extent it was fitted to. A linear scale takes the values of its domain to pixels between the two ends
of its range, and a radial scale takes them to distances between zero and its radius. The value of a base lies in the
domain, too.
-/

namespace Whisker

open Exact

namespace Scale

variable {options : Options Exact}

/-- Zero is added where it lies outside. -/
theorem anchor_eq (p q : ℚ) :
    ∃ p' q' : ℚ, anchor (finite p, finite q) = (finite p', finite q') ∧ p' ≤ p ∧ q ≤ q' := by
  unfold anchor
  simp only [literal_eq, Nat.cast_zero, finite_lt, Bool.and_eq_true, decide_eq_true_eq]
  split
  · rename_i hneg
    exact ⟨p, 0, rfl, le_rfl, hneg.2.le⟩
  · split
    · rename_i hpos
      exact ⟨0, q, rfl, hpos.1.le, le_rfl⟩
    · exact ⟨p, q, rfl, le_rfl, le_rfl⟩

/-- Anchoring at zero can only widen a range. -/
theorem anchored_eq (beginAtZero : Bool) (p q : ℚ) :
    ∃ p' q' : ℚ, (if beginAtZero then anchor (finite p, finite q) else (finite p, finite q)) = (finite p', finite q') ∧
      p' ≤ p ∧ q ≤ q' := by
  cases beginAtZero with
  | true => exact anchor_eq p q
  | false => exact ⟨p, q, rfl, le_rfl, le_rfl⟩

theorem flatOffset_eq (q : ℚ) : ∃ offset : ℚ, flatOffset (finite q) = finite offset ∧ 0 < offset := by
  unfold flatOffset
  simp only [literal_eq, finite_abs, finite_le, twentieth_eq, finite_mul]
  split
  · rename_i hlarge
    refine ⟨_, rfl, ?_⟩
    have hpos : 0 < |q| := lt_of_lt_of_le (by norm_num) hlarge
    rw [abs_mul]
    positivity
  · exact ⟨1, by simp, one_pos⟩

/-- A single value is widened upwards, and downwards unless zero has to be the end. -/
theorem flat_eq (beginAtZero : Bool) (v : ℚ) :
    ∃ p q : ℚ, ((if beginAtZero then finite v else finite v - flatOffset (finite v)), finite v + flatOffset (finite v)) =
        (finite p, finite q) ∧ p < q ∧ p ≤ v ∧ v ≤ q := by
  obtain ⟨offset, hoffset, hpos⟩ := flatOffset_eq v
  rw [hoffset, finite_sub, finite_add]
  cases beginAtZero with
  | true => exact ⟨v, v + offset, rfl, by linarith, le_rfl, by linarith⟩
  | false => exact ⟨v - offset, v + offset, rfl, by linarith, by linarith, by linarith⟩

/-- The range contains the extent. -/
theorem finiteRange_eq (extent : Option (Extent Exact)) :
    ∃ p q : ℚ, finiteRange extent = (finite p, finite q) ∧ p ≤ q ∧
      ∀ u w : ℚ, extent = some ⟨finite u, finite w⟩ → p ≤ u ∧ w ≤ q := by
  unfold finiteRange
  split
  · rename_i e
    split
    · rename_i hfinite
      obtain ⟨hlow, hhigh⟩ := Bool.and_eq_true_iff.1 hfinite
      obtain ⟨u, hu⟩ := exists_finite hlow
      obtain ⟨w, hw⟩ := exists_finite hhigh
      refine ⟨min u w, max u w, by rw [hu, hw, finite_min, finite_max], min_le_max, ?_⟩
      rintro u' w' ⟨⟩
      cases hu
      cases hw
      exact ⟨min_le_left _ _, le_max_right _ _⟩
    · rename_i hfinite
      refine ⟨0, 1, by simp, zero_le_one, ?_⟩
      rintro u w ⟨⟩
      exact absurd rfl hfinite
  · exact ⟨0, 1, by simp, zero_le_one, fun u w h => by cases h⟩

/-- Without explicit ends the range of the ticks is not empty and contains the extent. -/
theorem tickRange_eq (hmin : options.min = none) (hmax : options.max = none) (extent : Option (Extent Exact)) :
    ∃ p q : ℚ, tickRange extent options = (finite p, finite q) ∧ p < q ∧
      ∀ u w : ℚ, extent = some ⟨finite u, finite w⟩ → p ≤ u ∧ w ≤ q := by
  obtain ⟨p, q, hrange, hpq, hextent⟩ := finiteRange_eq extent
  obtain ⟨p', q', hanchor, hp, hq⟩ := anchored_eq options.beginAtZero p q
  have hcovers : ∀ u w : ℚ, extent = some ⟨finite u, finite w⟩ → p' ≤ u ∧ w ≤ q' := by
    intro u w he
    obtain ⟨hu, hw⟩ := hextent u w he
    exact ⟨hp.trans hu, hw.trans hq⟩
  unfold tickRange
  simp only [hrange, hanchor, hmin, hmax, Option.getD_none, finite_beq, decide_eq_true_eq]
  split
  · rename_i hflat
    subst hflat
    obtain ⟨low, high, hwide, hlt, hlow, hhigh⟩ := flat_eq options.beginAtZero p'
    refine ⟨low, high, hwide, hlt, fun u w he => ?_⟩
    obtain ⟨hu, hw⟩ := hcovers u w he
    exact ⟨hlow.trans hu, hw.trans hhigh⟩
  · rename_i hflat
    exact ⟨p', q', rfl, lt_of_le_of_ne (by linarith) hflat, hcovers⟩

/-- Without explicit ends the outermost ticks are apart and contain the extent. -/
theorem ticksFor_ends (hmin : options.min = none) (hmax : options.max = none) (extent : Option (Extent Exact))
    (length : Exact) :
    ∃ p q : ℚ, (ticksFor extent options length).2 = (finite p, finite q) ∧ p < q ∧
      ∀ u w : ℚ, extent = some ⟨finite u, finite w⟩ → p ≤ u ∧ w ≤ q := by
  obtain ⟨p, q, hrange, hpq, hextent⟩ := tickRange_eq hmin hmax extent
  obtain ⟨first, last, hfirst, hlast, hp, hq⟩ :=
    Ticks.cover_ends hpq (Ticks.count length) (finite p) (finite q)
  refine ⟨first, last, ?_, by linarith, fun u w he => ?_⟩
  · simp only [ticksFor, hrange, hfirst, hlast]
  · obtain ⟨hu, hw⟩ := hextent u w he
    exact ⟨hp.trans hu, hw.trans hq⟩

end Scale

section

variable {α : Type} [Scalar α]

/-- A pixel between the two ends, whichever comes first. -/
def PixelRange.Contains (r : PixelRange α) (p : α) : Prop :=
  (r.start ≤ p ∧ p ≤ r.stop) ∨ (r.stop ≤ p ∧ p ≤ r.start)

end

/-- A parameter in the unit interval stays in the range. -/
theorem PixelRange.contains_lerp (a b : ℚ) {t : ℚ} (h0 : 0 ≤ t) (h1 : t ≤ 1) :
    PixelRange.Contains ⟨finite a, finite b⟩ (PixelRange.lerp ⟨finite a, finite b⟩ (finite t)) := by
  simp only [Contains, lerp, length, finite_sub, finite_mul, finite_add, finite_le]
  rcases le_total a b with hab | hab
  · left
    constructor <;> nlinarith
  · right
    constructor <;> nlinarith

namespace LinearScale

/-- A scale over a domain of finite ends in order. -/
structure Fitted (s : LinearScale Exact) (low high : ℚ) : Prop where
  first : s.first = finite low
  last : s.last = finite high
  order : low < high
  pixels : s.pixels.isFinite = true

variable {s : LinearScale Exact} {low high : ℚ}

/-- Values of the domain have pixels in the range. -/
theorem Fitted.contains_toPixel (h : s.Fitted low high) {t : ℚ} (hlow : low ≤ t) (hhigh : t ≤ high) :
    s.pixels.Contains (s.toPixel (finite t)) := by
  obtain ⟨hstart, hstop⟩ := Bool.and_eq_true_iff.1 h.pixels
  obtain ⟨a, ha⟩ := exists_finite hstart
  obtain ⟨b, hb⟩ := exists_finite hstop
  have hpixels : s.pixels = ⟨finite a, finite b⟩ := by rw [← ha, ← hb]
  have hspan : 0 < high - low := sub_pos.2 h.order
  simp only [toPixel, isFinite_finite, if_true, h.first, h.last, finite_sub, finite_div _ hspan.ne', hpixels]
  refine PixelRange.contains_lerp a b (div_nonneg (by linarith) hspan.le) ?_
  rw [div_le_one hspan]
  linarith

theorem Fitted.contains_basePixel (h : s.Fitted low high) : s.pixels.Contains s.basePixel := by
  have horder := h.order
  unfold basePixel baseValue
  simp only [h.first, h.last, literal_eq, Nat.cast_zero, finite_lt, Bool.and_eq_true, decide_eq_true_eq]
  split
  · exact h.contains_toPixel horder.le le_rfl
  · rename_i hneg
    split
    · exact h.contains_toPixel le_rfl horder.le
    · rename_i hpos
      refine h.contains_toPixel ?_ ?_
      · by_contra hlow
        exact hpos ⟨by linarith, by linarith⟩
      · by_contra hhigh
        exact hneg ⟨by linarith, by linarith⟩

/-- A linear scale fitted without explicit ends contains its extent. -/
theorem fitted_of_fit {axis : Axis} {extent : Option (Extent Exact)} {options : Scale.Options Exact}
    {pixels : PixelRange Exact} (hmin : options.min = none) (hmax : options.max = none)
    (h : fit axis extent options pixels = .ok s) :
    ∃ low high : ℚ, s.Fitted low high ∧ ∀ u w : ℚ, extent = some ⟨finite u, finite w⟩ → low ≤ u ∧ w ≤ high := by
  obtain ⟨low, high, hends, horder, hextent⟩ := Scale.ticksFor_ends hmin hmax extent pixels.span
  have hdomain := (domain_of_no_ends hmin hmax extent pixels.span).trans hends
  obtain ⟨-, hpixels, rfl⟩ := fit_iff.1 h
  exact ⟨low, high, ⟨congrArg Prod.fst hdomain, congrArg Prod.snd hdomain, horder, hpixels⟩, hextent⟩

end LinearScale

namespace RadialScale

structure Fitted (s : RadialScale Exact) (low high size : ℚ) : Prop where
  first : s.first = finite low
  last : s.last = finite high
  order : low < high
  radius : s.radius = finite size
  nonneg : 0 ≤ size

variable {s : RadialScale Exact} {low high size : ℚ}

/-- Values of the domain lie between the center and the radius. -/
theorem Fitted.distance_between (h : s.Fitted low high size) {t : ℚ} (hlow : low ≤ t) (hhigh : t ≤ high) :
    0 ≤ s.distance (finite t) ∧ s.distance (finite t) ≤ s.radius := by
  have hspan : 0 < high - low := sub_pos.2 h.order
  have hradius := h.nonneg
  simp only [distance, isFinite_finite, if_true, h.first, h.last, h.radius, finite_sub, finite_mul,
    finite_div _ hspan.ne', literal_eq, Nat.cast_zero, finite_le]
  constructor
  · exact div_nonneg (mul_nonneg (by linarith) hradius) hspan.le
  · rw [div_le_iff₀ hspan]
    nlinarith

/-- A radial scale fitted without explicit ends contains its extent. -/
theorem fitted_of_fit {area : Area Exact} {padding : Exact} {extent : Option (Extent Exact)}
    {options : Scale.Options Exact} (hmin : options.min = none) (hmax : options.max = none)
    (h : fit area padding extent options = .ok s) :
    ∃ low high size : ℚ, s.Fitted low high size ∧
      ∀ u w : ℚ, extent = some ⟨finite u, finite w⟩ → low ≤ u ∧ w ≤ high := by
  obtain ⟨low, high, hends, horder, hextent⟩ := Scale.ticksFor_ends hmin hmax extent (radiusIn area padding)
  have hdomain := (domain_of_no_ends hmin hmax extent (radiusIn area padding)).trans hends
  obtain ⟨-, hsize, -, rfl⟩ := fit_iff.1 h
  obtain ⟨hfinite, hnonneg⟩ := Bool.and_eq_true_iff.1 hsize
  obtain ⟨size, hradius⟩ := exists_finite hfinite
  simp only [hradius, literal_eq, Nat.cast_zero, finite_lt, Bool.not_eq_true', decide_eq_false_iff_not, not_lt]
    at hnonneg
  exact ⟨low, high, size, ⟨congrArg Prod.fst hdomain, congrArg Prod.snd hdomain, horder, hradius, hnonneg⟩, hextent⟩

end RadialScale

end Whisker
