import Whisker.Proofs.Decimal.Layout
import Whisker.Proofs.Scale.Domain
import Whisker.Proofs.Scale.Fit
import Whisker.Scene

/-!
# Labels say what their ticks are

The ticks of a fitted scale are neighbouring multiples of one step. Two of them give the step away, and a multiple
rounded to the places of its step is what it was: so in exact arithmetic the label of each tick reads as the tick. One
tick alone is taken to stand a whole unit from the next one, and its label is the nearest integer.
-/

namespace Whisker

open Exact
open Scalar (isFinite)
open Scale (Spans outermost within tickRange ticksFor)

variable {extent : Option (Extent Exact)} {options : Scale.Options Exact} {length : Exact}

theorem Exact.isFinite_of_add {x y : Exact} (h : isFinite (x + y) = true) : isFinite x = true ∧ isFinite y = true := by
  cases x with
  | finite p =>
    cases y with
    | finite q => exact ⟨rfl, rfl⟩
    | infinite n => cases h
    | notANumber => cases h
  | infinite m =>
    cases y with
    | finite q => cases h
    | infinite n => cases m <;> cases n <;> cases h
    | notANumber => cases h
  | notANumber => cases y <;> cases h

theorem Exact.isFinite_of_sub {x y : Exact} (h : isFinite (x - y) = true) : isFinite x = true ∧ isFinite y = true := by
  have hneg (y : Exact) : isFinite (-y) = isFinite y := by cases y <;> rfl
  obtain ⟨hx, hy⟩ := isFinite_of_add (y := -y) h
  exact ⟨hx, hneg y ▸ hy⟩

namespace Scale

/-- An explicit end that is not finite is what is asked for, whatever stands in for it. -/
theorem getD_of_not_finite {o : Option Exact} {p : ℚ} (h : isFinite (o.getD (finite p)) = false) (x : Exact) :
    o.getD x = o.getD (finite p) := by
  cases o with
  | none => cases h
  | some y => rfl

/-- What is not finite stays so when it is moved. -/
theorem not_finite_moved {x : Exact} (h : isFinite x = false) (y : Exact) :
    isFinite (x + y) = false ∧ isFinite (x - y) = false := by
  constructor <;> by_contra hfinite <;> rw [Bool.not_eq_false] at hfinite
  · exact Bool.noConfusion (h.symm.trans (isFinite_of_add hfinite).1)
  · exact Bool.noConfusion (h.symm.trans (isFinite_of_sub hfinite).1)

/-- The data leave a finite range for the explicit ends to change. -/
theorem exists_dataRange (extent : Option (Extent Exact)) (options : Options Exact) :
    ∃ p q : ℚ, (if options.beginAtZero then anchor (finiteRange extent) else finiteRange extent) = (finite p, finite q) := by
  obtain ⟨p, q, hrange, -⟩ := finiteRange_eq extent
  obtain ⟨p', q', hanchor, -⟩ := anchored_eq options.beginAtZero p q
  exact ⟨p', q', hrange ▸ hanchor⟩

/-- The range that ticks have to cover is in order, or turned around between its explicit ends, or not finite at one
of them. -/
theorem tickRange_cases (extent : Option (Extent Exact)) (options : Options Exact) :
    (∃ low high : ℚ, low < high ∧ tickRange extent options = (finite low, finite high)) ∨
    (∃ low high : ℚ, high < low ∧ tickRange extent options = (finite low, finite high) ∧
      options.min.getD (finite low) = finite low ∧ options.max.getD (finite high) = finite high) ∨
    (isFinite (tickRange extent options).1 = false ∧ isFinite (options.min.getD (tickRange extent options).1) = false) ∨
    isFinite (tickRange extent options).2 = false ∧ isFinite (options.max.getD (tickRange extent options).2) = false := by
  obtain ⟨p, q, hdata⟩ := exists_dataRange extent options
  unfold tickRange
  simp only [hdata]
  by_cases hlow : isFinite (options.min.getD (finite p)) = true
  · by_cases hhigh : isFinite (options.max.getD (finite q)) = true
    · obtain ⟨low, hl⟩ := exists_finite hlow
      obtain ⟨high, hh⟩ := exists_finite hhigh
      simp only [hl, hh, finite_beq, decide_eq_true_eq]
      rcases lt_trichotomy low high with hlt | rfl | hgt
      · rw [if_neg hlt.ne]
        exact .inl ⟨low, high, hlt, rfl⟩
      · obtain ⟨p, q, hwide, hlt, -⟩ := flat_eq options.beginAtZero low
        rw [if_pos rfl]
        exact .inl ⟨p, q, hlt, hwide⟩
      · rw [if_neg hgt.ne']
        refine .inr (.inl ⟨low, high, hgt, rfl, ?_, ?_⟩)
        · rw [← hl, getD_getD]
        · rw [← hh, getD_getD]
    · rw [Bool.not_eq_true] at hhigh
      refine .inr (.inr (.inr ⟨?_, by rwa [getD_of_not_finite hhigh]⟩))
      split
      · exact (not_finite_moved hhigh _).1
      · exact hhigh
  · rw [Bool.not_eq_true] at hlow
    refine .inr (.inr (.inl ⟨?_, by rwa [getD_of_not_finite hlow]⟩))
    split
    · dsimp only
      split
      · exact hlow
      · exact (not_finite_moved hlow _).2
    · exact hlow

/-- A range with an end that is not finite has its ends for ticks. -/
theorem cover_of_not_finite {low high : Exact} (h : isFinite low = false ∨ isFinite high = false) (count : ℕ) :
    Ticks.cover low high count = [low, high] := by
  unfold Ticks.cover
  refine if_pos ?_
  obtain h | h := h <;> simp [h]

theorem cover_of_lt {low high : ℚ} (h : high < low) (count : ℕ) :
    Ticks.cover (finite low) (finite high) count = [finite low, finite high] := by
  unfold Ticks.cover
  exact if_pos (by simp [h.le])

/-- Ends that are not finite span nothing. -/
theorem not_spans_of_not_finite {ends : Exact × Exact} (h : isFinite ends.1 = false ∨ isFinite ends.2 = false) :
    ¬Spans ends := by
  intro hspans
  obtain ⟨hlast, hfirst⟩ := isFinite_of_sub hspans.1
  rw [hfirst, hlast] at h
  simp at h

/-- A domain holds no tick unless the range that the ticks cover is in order. -/
theorem within_cases {domain : Exact × Exact}
    (hdomain : domain = outermost extent options length ∨
      domain = (options.min.getD (outermost extent options length).1, options.max.getD (outermost extent options length).2))
    (hspans : Spans domain) :
    (∃ low high : ℚ, low < high ∧ tickRange extent options = (finite low, finite high)) ∨
      within domain.1 domain.2 (ticksFor extent options length).1 = [] := by
  have hticks {low high : Exact} (hrange : tickRange extent options = (low, high))
      (hcover : Ticks.cover low high (Ticks.count length) = [low, high]) :
      ticksFor extent options length = ([low, high], low, high) := by
    unfold ticksFor
    rw [hrange]
    simp only [hcover]
    rfl
  obtain hordered | ⟨low, high, hlt, hrange, hmin, hmax⟩ | ⟨hrange, hmin⟩ | ⟨hrange, hmax⟩ :=
    tickRange_cases extent options
  · exact .inl hordered
  · right
    have hticks := hticks hrange (cover_of_lt hlt _)
    have hends : domain = (finite low, finite high) := by
      rw [outermost, hticks] at hdomain
      obtain rfl | rfl := hdomain
      · rfl
      · rw [hmin, hmax]
    rw [hends, hticks]
    simp [within, hlt]
  · refine absurd hspans (not_spans_of_not_finite (.inl ?_))
    rw [outermost, hticks rfl (cover_of_not_finite (.inl hrange) _)] at hdomain
    obtain rfl | rfl := hdomain
    · exact hrange
    · exact hmin
  · refine absurd hspans (not_spans_of_not_finite (.inr ?_))
    rw [outermost, hticks rfl (cover_of_not_finite (.inr hrange) _)] at hdomain
    obtain rfl | rfl := hdomain
    · exact hrange
    · exact hmax

end Scale

/-- The indices that an interval leaves of a range are neighbours. -/
theorem neighbours_of_filter {n : ℕ} {P : ℕ → Bool} (hconvex : ∀ {i j k : ℕ}, i ≤ j → j ≤ k → P i → P k → P j)
    {i j : ℕ} {rest : List ℕ} (h : (List.range n).filter P = i :: j :: rest) : j = i + 1 := by
  have hsorted : ((List.range n).filter P).Pairwise (· < ·) := List.pairwise_lt_range.filter P
  have hmem {k : ℕ} : k ∈ i :: j :: rest ↔ k < n ∧ P k = true := by rw [← h, List.mem_filter, List.mem_range]
  rw [h, List.pairwise_cons, List.pairwise_cons] at hsorted
  obtain ⟨hfirst, hsecond, -⟩ := hsorted
  have hij : i < j := hfirst j List.mem_cons_self
  obtain ⟨-, hi⟩ := hmem.1 (List.mem_cons_self (a := i))
  obtain ⟨hj, hPj⟩ := hmem.1 (List.mem_cons_of_mem i (List.mem_cons_self (a := j)))
  -- The next index is in the interval, too, so it is one of those that are left.
  have hnext := hmem.2 ⟨by omega, hconvex (Nat.le_succ i) hij hi hPj⟩
  rw [List.mem_cons, List.mem_cons] at hnext
  obtain hnext | hnext | hnext := hnext
  · omega
  · exact hnext.symm
  · have := hsecond _ hnext
    omega

namespace Ticks

/-- Multiples of a step, one after the other. -/
structure Multiples (step : ℚ) (ticks : List Exact) : Prop where
  isStep : IsStep step
  mem : ∀ t ∈ ticks, ∃ z : ℤ, t = finite (z * step)
  nodup : ticks.Nodup
  apart : 2 ≤ ticks.length → spacing ticks = finite step

def isBetween (low high step : ℚ) (z : ℤ) (i : ℕ) : Bool := low ≤ (z + i) * step && (z + i) * step ≤ high

variable {step : ℚ}

/-- What lies between two ticks of the domain lies in the domain. -/
theorem isBetween_convex (hpos : 0 < step) {low high : ℚ} {z : ℤ} {i j k : ℕ} (hij : i ≤ j) (hjk : j ≤ k)
    (hi : isBetween low high step z i) (hk : isBetween low high step z k) : isBetween low high step z j := by
  simp only [isBetween, Bool.and_eq_true, decide_eq_true_eq] at hi hk ⊢
  have hij : (i : ℚ) ≤ j := by exact_mod_cast hij
  have hjk : (j : ℚ) ≤ k := by exact_mod_cast hjk
  exact ⟨hi.1.trans (by gcongr), le_trans (by gcongr) hk.2⟩

/-- The ticks within a domain are those multiples of the step that lie in it. -/
theorem within_map_multiples (z : ℤ) (n : ℕ) (low high : ℚ) :
    within (finite low) (finite high) ((List.range n).map fun i : ℕ => finite ((z + i) * step)) =
      ((List.range n).filter (isBetween low high step z)).map fun i : ℕ => finite ((z + i) * step) := by
  unfold within
  rw [List.filter_map]
  congr 2
  funext i
  simp [isBetween]

/-- The ticks within a domain are multiples of the step in a row. -/
theorem multiples_within (hstep : IsStep step) (z : ℤ) (n : ℕ) (low high : ℚ) :
    Multiples step (within (finite low) (finite high) ((List.range n).map fun i : ℕ => finite ((z + i) * step))) := by
  rw [within_map_multiples]
  refine ⟨hstep, ?_, ?_, ?_⟩
  · intro t ht
    obtain ⟨i, -, rfl⟩ := List.mem_map.1 ht
    exact ⟨z + i, by push_cast; rfl⟩
  · refine (List.nodup_range.filter _).map fun i j hij => ?_
    have hij := mul_right_cancel₀ hstep.pos.ne' (finite.inj hij)
    exact_mod_cast add_left_cancel hij
  · intro htwo
    rw [List.length_map] at htwo
    match hleft : (List.range n).filter (isBetween low high step z), htwo with
    | i :: j :: rest, _ =>
      obtain rfl := neighbours_of_filter (isBetween_convex hstep.pos) hleft
      simp only [List.map_cons, Ticks.spacing, finite_sub]
      congr 1
      push_cast
      ring

theorem ofText?_zero : Numeral.ofText? "0".toList = some (finite 0) := by decide +kernel

theorem IsStep.isDecimal {step : ℚ} (h : IsStep step) (z : ℤ) : IsDecimal (z * step) := by
  obtain ⟨k, -, d, rfl⟩ := h
  refine ⟨z * k * 10 ^ d.toNat, (-d).toNat, ?_⟩
  have hexponent : d + ((-d).toNat : ℤ) = (d.toNat : ℤ) := by omega
  rw [← zpow_natCast (10 : ℚ) (-d).toNat, mul_assoc, mul_assoc, ← zpow_add₀ (by norm_num), hexponent, zpow_natCast]
  push_cast
  ring

/-- A number is rounded to the places of the step, and the text reads as what that gives. -/
theorem ofText?_label {t step q : ℚ} (hround : roundTo (finite t) (places (finite step)) = finite q) (hq : IsDecimal q) :
    Numeral.ofText? (label (finite t) (finite step)).toList = some (finite q) := by
  unfold label
  simp only [hround, literal_eq, finite_beq, Nat.cast_zero, decide_eq_true_eq]
  split
  · rename_i hzero
    rw [hzero]
    exact ofText?_zero
  · rename_i hzero
    exact ofText?_plain hq hzero

/-- The label of a multiple of the step reads as this multiple. -/
theorem ofText?_multiple {step : ℚ} (h : IsStep step) (z : ℤ) :
    Numeral.ofText? (label (finite (z * step)) (finite step)).toList = some (finite (z * step)) :=
  ofText?_label (roundTo_multiple h z) (h.isDecimal z)

/-- On an axis with a single tick the label is the nearest integer. -/
theorem ofText?_single (t : ℚ) :
    Numeral.ofText? (label (finite t) (finite 1)).toList = some (finite (nearest t)) := by
  refine ofText?_label ?_ (isDecimal_intCast _)
  have hplaces : places (finite 1) = 0 := by decide
  have hround : Scalar.round (finite t) = finite (nearest t) := rfl
  unfold roundTo
  simp only [hplaces, literal_eq, finite_powInt (by norm_num : ((10 : ℕ) : ℚ) ≠ 0), zpow_zero, finite_mul, mul_one, hround,
    finite_div _ one_ne_zero, div_one]

/-- Labels of multiples read as the ticks, except for the label of a tick that is alone and no integer. -/
theorem Multiples.label_reads_iff {step : ℚ} {ticks : List Exact} (h : Multiples step ticks) {t : Exact} (ht : t ∈ ticks) :
    Numeral.ofText? (label t (spacing ticks)).toList = some t ↔ 2 ≤ ticks.length ∨ ∃ n : ℤ, t = finite n := by
  obtain ⟨z, rfl⟩ := h.mem t ht
  by_cases htwo : 2 ≤ ticks.length
  · rw [h.apart htwo]
    exact iff_of_true (ofText?_multiple h.isStep z) (.inl htwo)
  · have hspacing : spacing ticks = finite 1 := by
      match ticks with
      | [] => exact literal_eq 1
      | [_] => exact literal_eq 1
      | _ :: _ :: _ => exact absurd (by simp) htwo
    rw [hspacing, ofText?_single, Option.some_inj, finite.injEq, or_iff_right htwo]
    constructor
    · intro hnearest
      exact ⟨_, congrArg finite hnearest.symm⟩
    · rintro ⟨n, hn⟩
      rw [finite.inj hn, nearest_intCast]

/-- No two of them have the same label. -/
theorem Multiples.nodup_labels {step : ℚ} {ticks : List Exact} (h : Multiples step ticks) :
    (ticks.map fun t => label t (spacing ticks)).Nodup := by
  by_cases htwo : 2 ≤ ticks.length
  · refine h.nodup.map_on fun t ht u hu hlabel => ?_
    have hread := (h.label_reads_iff ht).2 (.inl htwo)
    rw [hlabel, (h.label_reads_iff hu).2 (.inl htwo)] at hread
    exact (Option.some_inj.1 hread).symm
  · match ticks with
    | [] => exact List.nodup_nil
    | [t] => exact List.nodup_singleton _
    | _ :: _ :: _ => exact absurd (by simp) htwo

/-- A domain with a span has ticks in a row at multiples of one step. -/
theorem multiples_of_spans {domain : Exact × Exact}
    (hdomain : domain = outermost extent options length ∨
      domain = (options.min.getD (outermost extent options length).1, options.max.getD (outermost extent options length).2))
    (hspans : Spans domain) : ∃ step, Multiples step (within domain.1 domain.2 (ticksFor extent options length).1) := by
  obtain ⟨low, high, hlt, hrange⟩ | hempty := Scale.within_cases hdomain hspans
  · obtain ⟨step, z, n, hencloses, -, hcover⟩ := cover_multiples hlt ((count_le length).trans (by decide))
    obtain ⟨hlast, hfirst⟩ := isFinite_of_sub hspans.1
    obtain ⟨first, hfirst⟩ := exists_finite hfirst
    obtain ⟨last, hlast⟩ := exists_finite hlast
    have hticks : (ticksFor extent options length).1 = (List.range (n + 1)).map fun i : ℕ => finite ((z + i) * step) := by
      unfold ticksFor
      rw [hrange]
      exact hcover
    rw [hfirst, hlast, hticks]
    exact ⟨step, multiples_within hencloses.isStep z (n + 1) first last⟩
  · rw [hempty]
    refine ⟨1, ⟨⟨1, by simp, 0, by norm_num⟩, fun t ht => absurd ht List.not_mem_nil, List.nodup_nil, fun htwo => ?_⟩⟩
    simp at htwo

end Ticks

open Ticks (Multiples)

/-- The ticks of a linear scale are multiples of one step. -/
theorem LinearScale.multiples {axis : Axis} {pixels : PixelRange Exact} {s : LinearScale Exact}
    (h : fit axis extent options pixels = .ok s) : ∃ step, Multiples step s.ticks := by
  obtain ⟨hdomain, hspans, -, -, hticks⟩ := fit_fields h
  have hcases := domain_cases extent options pixels.span
  rw [← hdomain] at hcases
  rw [hticks]
  exact Ticks.multiples_of_spans hcases hspans

theorem RadialScale.multiples {area : Area Exact} {padding : Exact} {s : RadialScale Exact}
    (h : fit area padding extent options = .ok s) : ∃ step, Multiples step s.ticks := by
  obtain ⟨hdomain, hspans, hticks⟩ := fit_fields h
  have hcases := domain_cases extent options (radiusIn area padding)
  rw [← hdomain] at hcases
  rw [hticks]
  exact Ticks.multiples_of_spans hcases hspans

def Shape.text? {α : Type} : Shape α → Option String
  | .label l => some l.text
  | _ => none

/-- Rings carry the labels of the ticks they are drawn for. -/
theorem mem_radialShapes {s : RadialScale Exact} {o : AxisOptions Exact} {layer : LayerKind} {l : Label Exact}
    (h : (layer, .label l) ∈ Scene.radialShapes s o) :
    ∃ t ∈ s.ticks, l.text = Ticks.label t (Ticks.spacing s.ticks) ∧ l.x = s.center.1 ∧
      l.y = s.center.2 - s.distance t + o.ticks.fontSize / 2 := by
  unfold Scene.radialShapes at h
  split at h
  · obtain ⟨t, ht, h⟩ := List.mem_flatMap.1 h
    refine ⟨t, ht, ?_⟩
    dsimp only at h
    split at h
    · rw [List.mem_append] at h
      obtain h | h := h
      · split at h <;> simp at h
      · split at h
        · simp only [List.mem_singleton, Prod.mk.injEq, Shape.label.injEq] at h
          rw [h.2]
          exact ⟨rfl, rfl, rfl⟩
        · cases h
    · cases h
  · cases h

/-- The texts of rings are labels of ticks, in order. -/
theorem radialShapes_texts (s : RadialScale Exact) (o : AxisOptions Exact) :
    List.Sublist ((Scene.radialShapes s o).filterMap fun p => p.2.text?)
      (s.ticks.map fun t => Ticks.label t (Ticks.spacing s.ticks)) := by
  unfold Scene.radialShapes
  split
  · generalize Ticks.spacing s.ticks = spacing
    induction s.ticks with
    | nil => exact List.Sublist.refl _
    | cons t ticks ih =>
      rw [List.flatMap_cons, List.filterMap_append, List.map_cons]
      change List.Sublist _ ([Ticks.label t spacing] ++ _)
      refine List.Sublist.append ?_ ih
      dsimp only
      split
      · split <;> split <;> simp [Shape.text?]
      · exact List.nil_sublist _
  · exact List.nil_sublist _

/-- What a text placed at one of the ticks says: it reads as the tick unless the tick is alone and no integer. -/
def Ticks.Says (ticks : List Exact) (t : Exact) (text : String) : Prop :=
  Numeral.ofText? text.toList = some t ↔ 2 ≤ ticks.length ∨ ∃ n : ℤ, t = finite n

/-- Labels of straight and of radial axes are numbers that read as their ticks, and no two of an axis are the same. Only
the label of a lone tick may be another number. -/
theorem tick_labels_say (extent : Option (Extent Exact)) (options : Scale.Options Exact) :
    (∀ {axis pixels} {s : LinearScale Exact}, LinearScale.fit axis extent options pixels = .ok s →
      List.Forall₂ (fun t k => k.pixel = s.toPixel t ∧ Ticks.Says s.ticks t k.label) s.ticks (Scene.linearTicks s) ∧
        ((Scene.linearTicks s).map Scene.Tick.label).Nodup) ∧
    ∀ {area padding} {s : RadialScale Exact}, RadialScale.fit area padding extent options = .ok s →
      ∀ o : AxisOptions Exact,
        (∀ layer l, (layer, .label l) ∈ Scene.radialShapes s o → ∃ t ∈ s.ticks, l.x = s.center.1 ∧
          l.y = s.center.2 - s.distance t + o.ticks.fontSize / 2 ∧ Ticks.Says s.ticks t l.text) ∧
        ((Scene.radialShapes s o).filterMap fun p => p.2.text?).Nodup := by
  refine ⟨fun {axis pixels s} h => ?_, fun {area padding s} h o => ?_⟩
  · obtain ⟨step, hmultiples⟩ := s.multiples h
    refine ⟨?_, ?_⟩
    · unfold Scene.linearTicks
      rw [List.forall₂_map_right_iff, List.forall₂_same]
      exact fun t ht => ⟨rfl, hmultiples.label_reads_iff ht⟩
    · unfold Scene.linearTicks
      rw [List.map_map]
      exact hmultiples.nodup_labels
  · obtain ⟨step, hmultiples⟩ := s.multiples h
    refine ⟨fun layer l hl => ?_, hmultiples.nodup_labels.sublist (radialShapes_texts s o)⟩
    obtain ⟨t, ht, htext, hx, hy⟩ := mem_radialShapes hl
    exact ⟨t, ht, hx, hy, htext ▸ hmultiples.label_reads_iff ht⟩

def narrowAxis : Scale.Options Exact := ⟨false, some 0.15, some 0.25⟩

def shortRange : PixelRange Exact := ⟨60, 0⟩

theorem integer_labels_say :
    (∃ s, LinearScale.fit .y (some ⟨0, 5⟩) .default shortRange = .ok s ∧
      List.Forall₂ (fun t k => k.pixel = s.toPixel t ∧ Ticks.Says s.ticks t k.label) s.ticks (Scene.linearTicks s)) ∧
    ∃ s : RadialScale Exact, RadialScale.fit ⟨0, 0, 100, 100⟩ 0 (some ⟨0, 5⟩) .default = .ok s ∧
      ((Scene.radialShapes s .default).filterMap fun p => p.2.text?).Nodup := by
  obtain ⟨s, hs⟩ := isOk_iff_exists.1
    (by decide +kernel : (LinearScale.fit .y (some ⟨0, 5⟩) .default shortRange).isOk = true)
  obtain ⟨r, hr⟩ := isOk_iff_exists.1
    (by decide +kernel : (RadialScale.fit (⟨0, 0, 100, 100⟩ : Area Exact) 0 (some ⟨0, 5⟩) .default).isOk = true)
  exact ⟨⟨s, hs, ((tick_labels_say _ _).1 hs).1⟩, r, hr, ((tick_labels_say _ _).2 hr .default).2⟩

/-- A short axis from 0.15 to 0.25 has a tick at 0.2, and its label says zero. -/
theorem lone_tick_misread :
    ∃ s, LinearScale.fit .y none narrowAxis shortRange = .ok s ∧ s.ticks = [finite (1 / 5)] ∧
      (Scene.linearTicks s).map Scene.Tick.label = ["0"] ∧ Numeral.ofText? "0".toList ≠ some (finite (1 / 5)) := by
  have h : (LinearScale.fit .y none narrowAxis shortRange).toOption.map (fun s =>
      (s.ticks, (Scene.linearTicks s).map Scene.Tick.label)) = some ([finite (1 / 5)], ["0"]) := by decide +kernel
  obtain ⟨s, hs, hvalues⟩ := Option.map_eq_some_iff.1 h
  rw [Prod.mk.injEq] at hvalues
  refine ⟨s, toOption_eq_some.1 hs, hvalues.1, hvalues.2, ?_⟩
  rw [Ticks.ofText?_zero, Ne, Option.some_inj, finite.injEq]
  norm_num

end Whisker
