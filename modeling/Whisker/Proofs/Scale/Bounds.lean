import Whisker.Proofs.Scale.Fit
import Whisker.Proofs.Scale.Ordered

/-!
# A single explicit end

One explicit end leaves the other end of a domain to the ticks, and nothing keeps the two in order. If they coincide the
linear scale shows the ticks, where the radial one gives up; apart from that, and from areas too large to have a center
or a radius, both show the same. If the explicit end lies beyond the ticks the domain is turned around, and no tick is
left in it; otherwise ticks and pixels follow the values.
-/

namespace Whisker

open Binary
open Scalar (nan inf ofNat isFinite)
open Scale (Spans outermost)

variable {axis : Axis} {extent : Option (Extent Float)} {options : Scale.Options Float} {pixels : PixelRange Float}
  {area : Area Float} {padding : Float}

/-- What a scale shows: the ends of its domain, and its ticks. -/
def LinearScale.shown {α : Type} (s : LinearScale α) : α × α × List α := (s.first, s.last, s.ticks)

@[inherit_doc LinearScale.shown]
def RadialScale.shown {α : Type} (s : RadialScale α) : α × α × List α := (s.first, s.last, s.ticks)

theorem PixelRange.isFinite_of_span (h : pixels.span.isFinite = true) : pixels.isFinite = true := by
  have hlength : pixels.length.isFinite = true := by
    change (Float.abs pixels.length).isFinite = true at h
    by_contra hinf
    obtain hlength | hlength | hlength := not_finite_cases (Bool.not_eq_true _ ▸ hinf) <;>
      rw [hlength] at h <;> cases h
  exact Bool.and_eq_true_iff.2 ⟨isFinite_of_sub hlength, isFinite_of_sub_left hlength⟩

theorem not_max_lt_zero (x : Float) : ¬Scalar.max x (ofNat 0) < ofNat 0 := by
  have h := unsigned_max x (unsigned_ofNat (n := 0) (by decide))
  exact (not_lt_zero_iff h.ne_nan).2 h.nonneg

/-- A finite radius is a size: it is never negative. -/
theorem RadialScale.isSize_radiusIn (h : isFinite (radiusIn area padding) = true) :
    Scalar.isSize (radiusIn area padding) = true := by
  rw [Scalar.isSize, h, Bool.true_and, Bool.not_eq_true', decide_eq_false_iff_not]
  exact not_max_lt_zero _

/-- Reasons for a radial scale to fail where a linear one is fitted. -/
def RadialScale.Lacks (area : Area Float) (padding : Float) (extent : Option (Extent Float))
    (options : Scale.Options Float) : Prop :=
  ¬(isFinite area.center.1 = true ∧ isFinite area.center.2 = true) ∨ ¬isFinite (radiusIn area padding) = true ∨
    options.Faces (fun low high => (low == high) = true) (outermost extent options (radiusIn area padding))

/-- A radial fit that succeeds lacks nothing. -/
theorem RadialScale.not_lacks_of_fit {s : RadialScale Float} (h : fit area padding extent options = .ok s) :
    ¬Lacks area padding extent options := by
  obtain ⟨hcenter, hsize, hspans, -⟩ := fit_iff.1 h
  rintro (hlacks | hlacks | hfaces)
  · exact hlacks hcenter
  · exact hlacks (Bool.and_eq_true_iff.1 hsize).1
  · exact not_spans_of_faces hfaces hspans

/-- Where a radial scale lacks nothing, either fit is as good as the other. -/
theorem fit_iff_of_not_lacks (hlength : pixels.span = RadialScale.radiusIn area padding)
    (h : ¬RadialScale.Lacks area padding extent options) (shown : Float × Float × List Float) :
    (∃ s, LinearScale.fit axis extent options pixels = .ok s ∧ s.shown = shown) ↔
      ∃ s, RadialScale.fit area padding extent options = .ok s ∧ s.shown = shown := by
  simp only [RadialScale.Lacks, not_or, not_not] at h
  obtain ⟨hcenter, hfinite, hfaces⟩ := h
  have hsize := RadialScale.isSize_radiusIn hfinite
  have hpixels : pixels.isFinite = true := PixelRange.isFinite_of_span (hlength ▸ hfinite)
  constructor
  · rintro ⟨s, hs, rfl⟩
    obtain ⟨hspans, -, rfl⟩ := LinearScale.fit_iff.1 hs
    rw [hlength, domain_eq hfaces] at hspans ⊢
    exact ⟨_, RadialScale.fit_iff.2 ⟨hcenter, hsize, hspans, rfl⟩, rfl⟩
  · rintro ⟨s, hs, rfl⟩
    obtain ⟨-, -, hspans, rfl⟩ := RadialScale.fit_iff.1 hs
    rw [← domain_eq hfaces, ← hlength] at hspans ⊢
    exact ⟨_, LinearScale.fit_iff.2 ⟨hspans, hpixels, rfl⟩, rfl⟩

/-- On the same length both scales show the same or none, unless the radial one lacks something that the linear one does
without. -/
theorem fits_agree_iff (axis : Axis) (extent : Option (Extent Float)) (options : Scale.Options Float)
    (pixels : PixelRange Float) (area : Area Float) (padding : Float)
    (hlength : pixels.span = RadialScale.radiusIn area padding) :
    (LinearScale.fit axis extent options pixels).toOption.map LinearScale.shown =
        (RadialScale.fit area padding extent options).toOption.map RadialScale.shown ↔
      ¬((LinearScale.fit axis extent options pixels).isOk = true ∧ RadialScale.Lacks area padding extent options) := by
  by_cases hlacks : RadialScale.Lacks area padding extent options
  · have hradial : (RadialScale.fit area padding extent options).toOption = none := by
      cases hs : RadialScale.fit area padding extent options with
      | error fault => rfl
      | ok s => exact absurd hlacks (RadialScale.not_lacks_of_fit hs)
    rw [hradial, Option.map_none, Option.map_eq_none_iff]
    cases LinearScale.fit axis extent options pixels with
    | error fault => exact iff_of_true rfl fun h => nomatch h.1
    | ok s => exact iff_of_false nofun (not_not.2 ⟨rfl, hlacks⟩)
  · refine iff_of_true (Option.ext fun shown => ?_) fun h => hlacks h.2
    simp only [Option.map_eq_some_iff, toOption_eq_some]
    exact fit_iff_of_not_lacks hlength hlacks shown

def smallArea : Area Float := ⟨0, 0, 100, 100⟩

def smallRange : PixelRange Float := ⟨0, 50⟩

def fewData : Option (Extent Float) := some ⟨0, 5⟩

theorem small_fits_agree :
    smallRange.span = RadialScale.radiusIn smallArea 0 ∧
      (LinearScale.fit .y fewData .default smallRange).toOption.map LinearScale.shown =
        (RadialScale.fit smallArea 0 fewData .default).toOption.map RadialScale.shown := by
  have hlength : smallRange.span = RadialScale.radiusIn smallArea 0 := by decide +kernel
  refine ⟨hlength, (fits_agree_iff .y fewData .default smallRange smallArea 0 hlength).2 ?_⟩
  rintro ⟨-, hcenter | hradius | hfaces⟩
  · exact hcenter (by decide +kernel)
  · exact hradius (by decide +kernel)
  · exact hfaces

/-- Data from zero to five, an axis that begins at zero and an explicit end at zero, too: the linear scale shows the
ticks, and the radial one is not fitted. -/
theorem fits_differ_at_sole_end :
    smallRange.span = RadialScale.radiusIn smallArea 0 ∧
      (LinearScale.fit .y fewData ⟨true, none, some 0⟩ smallRange).toOption.map LinearScale.shown =
        some (0, 1, [0, 1]) ∧
      (RadialScale.fit smallArea 0 fewData ⟨true, none, some 0⟩).isOk = false := by
  decide +kernel

/-- On the way from the first pixel of a range to the last one `q` does not come before `p`. -/
def PixelRange.Follows (r : PixelRange Float) (p q : Float) : Prop := if r.start ≤ r.stop then ¬q < p else ¬p < q

/-- Pixels follow the parameter in the direction of the range. -/
theorem PixelRange.follows_lerp {r : PixelRange Float} (hfinite : r.isFinite = true) {t u : Float} (h : ¬u < t) :
    r.Follows (r.lerp t) (r.lerp u) := by
  obtain ⟨hstart, hstop⟩ := Bool.and_eq_true_iff.1 hfinite
  unfold Follows lerp
  split
  · rename_i hle
    refine not_add_lt_add (float_lt_irrefl _) (not_mul_lt_mul h (not_sub_lt_zero hstart fun hlt => ?_))
    exact not_lt.2 ((le_iff_value hstart hstop).1 hle) ((lt_iff_value hstop hstart).1 hlt)
  · rename_i hle
    refine not_add_lt_add (float_lt_irrefl _) (not_mul_lt_mul_of_not_pos h (not_zero_lt_sub hstart fun hlt => ?_))
    exact hle (float_le_of_lt hlt)

namespace LinearScale

/-- Larger values are at the end of the domain, of its ticks and of the pixels. -/
structure Rises (s : LinearScale Float) : Prop where
  domain : s.first < s.last
  within : ∀ t ∈ s.ticks, s.first ≤ t ∧ t ≤ s.last
  ordered : s.ticks.Pairwise (· ≤ ·)
  pixels : ∀ {v w : Float}, v.isFinite = true → w.isFinite = true → v ≤ w → s.pixels.Follows (s.toPixel v) (s.toPixel w)

variable {s : LinearScale Float}

theorem lt_of_spans {ends : Float × Float} (h : Spans ends) (hends : ¬ends.2 < ends.1) : ends.1 < ends.2 := by
  obtain ⟨hfirst, hlast⟩ := Scale.finite_of_spans h
  rw [lt_iff_value hfirst hlast]
  refine lt_of_le_of_ne (value_le_of_not_lt hfirst hlast hends) fun heq => ?_
  exact Bool.noConfusion (h.2.symm.trans ((beq_iff_value hfirst hlast).2 heq))

/-- On a rising domain pixels follow the values in the direction of the range. -/
theorem follows_toPixel (hspans : Spans (s.first, s.last)) (hpixels : s.pixels.isFinite = true) (hlt : s.first < s.last)
    {v w : Float} (hv : v.isFinite = true) (hw : w.isFinite = true) (h : v ≤ w) :
    s.pixels.Follows (s.toPixel v) (s.toPixel w) := by
  obtain ⟨hfirst, hlast⟩ := Scale.finite_of_spans hspans
  have hpixel {x : Float} (hx : x.isFinite = true) :
      s.toPixel x = s.pixels.lerp ((x - s.first) / (s.last - s.first)) := if_pos hx
  have hpos : 0 < value (s.last - s.first) := place_of_finite hspans.1 ▸ place_sub_pos hfirst hlast hlt
  have hvw : ¬w < v := by
    rw [lt_iff_value hw hv, not_lt]
    exact (le_iff_value hv hw).1 h
  rw [hpixel hv, hpixel hw]
  exact PixelRange.follows_lerp hpixels (not_div_lt_div (not_sub_lt_sub hvw (float_lt_irrefl _)) hspans.1 hpos)

/-- Ticks in a finite domain are finite, so "not below" is "at most" for them. -/
theorem ordered_within {first last : Float} (hspans : Spans (first, last)) {ticks : List Float}
    (h : ticks.Pairwise fun s t => ¬t < s) : (Scale.within first last ticks).Pairwise (· ≤ ·) := by
  obtain ⟨hfirst, hlast⟩ := Scale.finite_of_spans hspans
  have hfinite {t : Float} (ht : t ∈ Scale.within first last ticks) : t.isFinite = true := by
    obtain ⟨-, hmem⟩ := List.mem_filter.1 ht
    simp only [Bool.and_eq_true, decide_eq_true_eq] at hmem
    by_contra hinf
    obtain rfl | rfl | rfl := not_finite_cases (Bool.not_eq_true _ ▸ hinf)
    · exact not_le_nan _ hmem.1
    · exact not_inf_le hlast hmem.2
    · exact not_le_negInf hfirst hmem.1
  refine (h.filter _).imp_of_mem fun {t u} ht hu hle => ?_
  exact (le_iff_value (hfinite ht) (hfinite hu)).2 (value_le_of_not_lt (hfinite ht) (hfinite hu) hle)

/-- The domain is turned around exactly if an explicit end is beyond the ticks. -/
theorem domain_ordered_iff (hends : ∀ low high, options.min = some low → options.max = some high → low < high)
    (hticks : ¬(outermost extent options pixels.span).2 < (outermost extent options pixels.span).1) :
    ¬(domain extent options pixels.span).2 < (domain extent options pixels.span).1 ↔
      ¬options.Faces (fun low high => high < low) (outermost extent options pixels.span) := by
  unfold domain domainOf Scale.Options.Faces
  cases hmin : options.min with
  | none =>
    cases hmax : options.max with
    | none => simpa using hticks
    | some high =>
      simp only [Option.getD_none, Option.getD_some]
      split
      · rename_i hsame
        exact iff_of_true hticks (not_lt_of_beq hsame)
      · exact Iff.rfl
  | some low =>
    cases hmax : options.max with
    | none =>
      simp only [Option.getD_none, Option.getD_some]
      split
      · rename_i hsame
        exact iff_of_true hticks (not_lt_of_beq hsame)
      · exact Iff.rfl
    | some high =>
      simp only [Option.getD_some]
      split
      · exact iff_of_true hticks not_false
      · exact iff_of_true (not_lt_of_lt (hends low high hmin hmax)) not_false

/-- A range that is turned around is shown as it is. -/
theorem domain_of_reversed {low high : Float} (hticks : outermost extent options pixels.span = (low, high))
    (hmin : options.min.getD low = low) (hmax : options.max.getD high = high) :
    domain extent options pixels.span = (low, high) := by
  rw [domain, hticks]
  unfold domainOf
  rw [hmin, hmax]
  exact ite_self _

/-- A reversed domain comes from one explicit end that faces the ticks. -/
theorem faces_of_reversed (hends : ∀ low high, options.min = some low → options.max = some high → low < high)
    {low high : Float} (hlt : high < low) (hsome : ¬(options.min = none ∧ options.max = none))
    (hmin : options.min.getD low = low) (hmax : options.max.getD high = high) :
    options.Faces (fun low high => high < low) (low, high) := by
  unfold Scale.Options.Faces
  cases hl : options.min with
  | none =>
    cases hh : options.max with
    | none => exact hsome ⟨hl, hh⟩
    | some b =>
      obtain rfl : b = high := by simpa [hh] using hmax
      exact hlt
  | some a =>
    obtain rfl : a = low := by simpa [hl] using hmin
    cases hh : options.max with
    | none => exact hlt
    | some b =>
      obtain rfl : b = high := by simpa [hh] using hmax
      exact not_lt_of_lt hlt (hends a b hl hh)

/-- A fitted scale rises unless its only explicit end lies beyond the ticks. -/
theorem rises_iff (hends : ∀ low high, options.min = some low → options.max = some high → low < high)
    (h : fit axis extent options pixels = .ok s) :
    s.Rises ↔ ¬options.Faces (fun low high => high < low) (outermost extent options pixels.span) := by
  obtain ⟨hdomain, hspans, rfl, hpixels, hshown⟩ := fit_fields h
  obtain ⟨hsorted, hticks⟩ | ⟨low, high, hlt, hticks, hsome, hmin, hmax⟩ :=
    Scale.ticksFor_ordered extent options s.pixels.span
  · have hordered := domain_ordered_iff hends hticks
    rw [← hdomain] at hordered
    constructor
    · intro hrises
      exact hordered.1 (not_lt_of_lt hrises.domain)
    · intro hfaces
      have hlt := lt_of_spans hspans (hordered.2 hfaces)
      refine ⟨hlt, fun t ht => ?_, hshown ▸ ordered_within hspans hsorted, follows_toPixel hspans hpixels hlt⟩
      rw [hshown] at ht
      simpa using (List.mem_filter.1 ht).2
  · have hticks : outermost extent options s.pixels.span = (low, high) := by rw [outermost, hticks]
    rw [domain_of_reversed hticks hmin hmax, Prod.mk.injEq] at hdomain
    obtain ⟨rfl, rfl⟩ := hdomain
    rw [hticks]
    exact iff_of_false (fun hrises => not_lt_of_lt hlt hrises.domain)
      (not_not.2 (faces_of_reversed hends hlt hsome hmin hmax))

theorem few_data_rise : ∃ s, fit .y fewData .default smallRange = .ok s ∧ s.Rises := by
  obtain ⟨s, hs⟩ := isOk_iff_exists.1 (by decide +kernel : (fit .y fewData .default smallRange).isOk = true)
  refine ⟨s, hs, (rises_iff (fun low high hmin => ?_) hs).2 id⟩
  cases hmin

def farData : Option (Extent Float) := some ⟨5, 10⟩

/-- Data from five to ten with an explicit last end at three: the domain runs from five down to three, no tick is left in
it, and the larger value has the first pixel. -/
theorem reversed_domain :
    ∃ s, fit .y farData ⟨false, none, some 3⟩ ⟨400, 0⟩ = .ok s ∧ s.shown = (5, 3, []) ∧ s.toPixel 3 = 0 ∧
      s.toPixel 5 = 400 ∧ ¬s.Rises := by
  have h : (fit .y farData ⟨false, none, some 3⟩ ⟨400, 0⟩).toOption.map (fun s => (s.shown, s.toPixel 3, s.toPixel 5)) =
      some ((5, 3, []), 0, 400) := by decide +kernel
  obtain ⟨s, hs, hvalues⟩ := Option.map_eq_some_iff.1 h
  simp only [Prod.mk.injEq] at hvalues
  obtain ⟨hshown, hthree, hfive⟩ := hvalues
  refine ⟨s, toOption_eq_some.1 hs, hshown, hthree, hfive, fun hrises => ?_⟩
  have hdomain := hrises.domain
  simp only [shown, Prod.mk.injEq] at hshown
  rw [hshown.1, hshown.2.1] at hdomain
  exact absurd hdomain (by decide)

end LinearScale

end Whisker
