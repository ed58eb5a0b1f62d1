import Whisker.Scale.Radial

/-!
# What fitting a scale gives

A linear and a radial scale are fitted in the same way: ticks for the length at hand, a domain from the outermost ticks
and the explicit ends, and the ticks that lie in it. They differ in what they check, and in the domain of an axis whose
only explicit end meets the ticks.
-/

namespace Whisker

open Scalar

variable {α : Type} [Scalar α] {axis : Axis} {extent : Option (Extent α)} {options : Scale.Options α}
  {pixels : PixelRange α} {area : Area α} {padding length : α}

theorem Ticks.count_le (length : α) : Ticks.count length ≤ Ticks.most := by
  unfold count target?
  split
  · exact (by decide : fewest ≤ most)
  · split
    · exact (by decide : fewest ≤ most)
    · exact Nat.min_le_left _ _

namespace Scale

/-- Two ends that a domain can have. -/
def Spans (ends : α × α) : Prop := isFinite (ends.2 - ends.1) = true ∧ (ends.1 == ends.2) = false

def outermost (extent : Option (Extent α)) (options : Options α) (length : α) : α × α :=
  (ticksFor extent options length).2

/-- Exactly one end is explicit, and it is in a relation with the outermost tick at the other end. -/
def Options.Faces (options : Options α) (R : α → α → Prop) (ticks : α × α) : Prop :=
  match options.min, options.max with
  | some low, none => R low ticks.2
  | none, some high => R ticks.1 high
  | _, _ => False

theorem getD_getD {β : Type} (o : Option β) (x : β) : o.getD (o.getD x) = o.getD x := by cases o <;> rfl

end Scale

open Scale (Spans outermost within)

namespace LinearScale

def domain (extent : Option (Extent α)) (options : Scale.Options α) (length : α) : α × α :=
  domainOf options (outermost extent options length).1 (outermost extent options length).2

/-- A linear scale is made if its domain spans and its pixels are finite. -/
theorem make_iff {first last : α} {s : LinearScale α} :
    make axis first last pixels = .ok s ↔
      Spans (first, last) ∧ pixels.isFinite = true ∧ s = ⟨axis, first, last, pixels, [first, last]⟩ := by
  unfold make Spans
  rw [seq_eq_ok, seq_eq_ok, check_eq_ok, check_eq_ok, return_eq_ok, Bool.and_eq_true, Bool.not_eq_true', eq_comm (a := s)]

/-- A linear fit succeeds if the domain spans and the pixels are finite, and keeps the ticks within. -/
theorem fit_iff {s : LinearScale α} :
    fit axis extent options pixels = .ok s ↔
      Spans (domain extent options pixels.span) ∧ pixels.isFinite = true ∧
        s = ⟨axis, (domain extent options pixels.span).1, (domain extent options pixels.span).2, pixels,
          within (domain extent options pixels.span).1 (domain extent options pixels.span).2
            (Scale.ticksFor extent options pixels.span).1⟩ := by
  unfold fit
  rw [bind_eq_ok]
  constructor
  · rintro ⟨t, ht, h⟩
    obtain ⟨hspans, hpixels, rfl⟩ := make_iff.1 ht
    cases h
    exact ⟨hspans, hpixels, rfl⟩
  · rintro ⟨hspans, hpixels, rfl⟩
    exact ⟨_, make_iff.2 ⟨hspans, hpixels, rfl⟩, rfl⟩

/-- The parts of a fitted linear scale. -/
theorem fit_fields {s : LinearScale α} (h : fit axis extent options pixels = .ok s) :
    (s.first, s.last) = domain extent options pixels.span ∧ Spans (s.first, s.last) ∧ s.pixels = pixels ∧
      s.pixels.isFinite = true ∧ s.ticks = within s.first s.last (Scale.ticksFor extent options pixels.span).1 := by
  obtain ⟨hspans, hpixels, rfl⟩ := fit_iff.1 h
  exact ⟨rfl, hspans, rfl, hpixels, rfl⟩

end LinearScale

namespace RadialScale

def domain (extent : Option (Extent α)) (options : Scale.Options α) (length : α) : α × α :=
  domainOf options (outermost extent options length).1 (outermost extent options length).2

theorem make_iff {center : α × α} {radius first last : α} {s : RadialScale α} :
    make center radius first last = .ok s ↔
      (isFinite center.1 = true ∧ isFinite center.2 = true) ∧ isSize radius = true ∧ Spans (first, last) ∧
        s = ⟨center, radius, first, last, [first, last]⟩ := by
  unfold make Spans
  rw [seq_eq_ok, seq_eq_ok, seq_eq_ok, check_eq_ok, check_eq_ok, check_eq_ok, return_eq_ok, Bool.and_eq_true,
    Bool.and_eq_true, Bool.not_eq_true', eq_comm (a := s)]

/-- A radial fit succeeds on the same conditions, and keeps the ticks within. -/
theorem fit_iff {s : RadialScale α} :
    fit area padding extent options = .ok s ↔
      (isFinite area.center.1 = true ∧ isFinite area.center.2 = true) ∧ isSize (radiusIn area padding) = true ∧
        Spans (domain extent options (radiusIn area padding)) ∧
          s = ⟨area.center, radiusIn area padding, (domain extent options (radiusIn area padding)).1,
            (domain extent options (radiusIn area padding)).2,
            within (domain extent options (radiusIn area padding)).1 (domain extent options (radiusIn area padding)).2
              (Scale.ticksFor extent options (radiusIn area padding)).1⟩ := by
  unfold fit
  rw [bind_eq_ok]
  constructor
  · rintro ⟨t, ht, h⟩
    obtain ⟨hcenter, hsize, hspans, rfl⟩ := make_iff.1 ht
    cases h
    exact ⟨hcenter, hsize, hspans, rfl⟩
  · rintro ⟨hcenter, hsize, hspans, rfl⟩
    exact ⟨_, make_iff.2 ⟨hcenter, hsize, hspans, rfl⟩, rfl⟩

theorem fit_fields {s : RadialScale α} (h : fit area padding extent options = .ok s) :
    (s.first, s.last) = domain extent options (radiusIn area padding) ∧ Spans (s.first, s.last) ∧
      s.ticks = within s.first s.last (Scale.ticksFor extent options (radiusIn area padding)).1 := by
  obtain ⟨-, -, hspans, rfl⟩ := fit_iff.1 h
  exact ⟨rfl, hspans, rfl⟩

end RadialScale

/-- A linear domain ends at the outermost ticks or at the explicit ends that override them. -/
theorem LinearScale.domain_cases (extent : Option (Extent α)) (options : Scale.Options α) (length : α) :
    domain extent options length = outermost extent options length ∨
      domain extent options length =
        (options.min.getD (outermost extent options length).1, options.max.getD (outermost extent options length).2) := by
  unfold domain domainOf
  dsimp only
  split
  · exact .inl rfl
  · exact .inr rfl

theorem RadialScale.domain_cases (extent : Option (Extent α)) (options : Scale.Options α) (length : α) :
    domain extent options length = outermost extent options length ∨
      domain extent options length =
        (options.min.getD (outermost extent options length).1, options.max.getD (outermost extent options length).2) := by
  unfold domain domainOf
  cases options.min with
  | none => exact .inr rfl
  | some start =>
    cases options.max with
    | none => exact .inr rfl
    | some stop =>
      dsimp only
      split
      · exact .inl rfl
      · exact .inr rfl

/-- Without explicit ends the domain ends at the outermost ticks. -/
theorem LinearScale.domain_of_no_ends (hmin : options.min = none) (hmax : options.max = none) (extent : Option (Extent α))
    (length : α) : domain extent options length = outermost extent options length := by
  obtain h | h := domain_cases extent options length
  · exact h
  · rw [h, hmin, hmax]
    rfl

theorem RadialScale.domain_of_no_ends (hmin : options.min = none) (hmax : options.max = none) (extent : Option (Extent α))
    (length : α) : domain extent options length = outermost extent options length := by
  obtain h | h := domain_cases extent options length
  · exact h
  · rw [h, hmin, hmax]
    rfl

/-- Where the only explicit end meets the ticks the linear scale falls back to them, and the radial one does not. -/
theorem domain_eq (h : ¬options.Faces (fun low high => (low == high) = true) (outermost extent options length)) :
    LinearScale.domain extent options length = RadialScale.domain extent options length := by
  unfold LinearScale.domain RadialScale.domain LinearScale.domainOf RadialScale.domainOf
  unfold Scale.Options.Faces at h
  cases hmin : options.min with
  | none =>
    cases hmax : options.max with
    | none => simp
    | some high =>
      simp only [hmin, hmax] at h
      simp [h]
  | some low =>
    cases hmax : options.max with
    | none =>
      simp only [hmin, hmax] at h
      simp [h]
    | some high => rfl

/-- An explicit end equal to the outer tick that it faces leaves a radial domain without a span. -/
theorem not_spans_of_faces (h : options.Faces (fun low high => (low == high) = true) (outermost extent options length)) :
    ¬Spans (RadialScale.domain extent options length) := by
  unfold RadialScale.domain RadialScale.domainOf Spans
  unfold Scale.Options.Faces at h
  cases hmin : options.min with
  | none =>
    cases hmax : options.max with
    | none => simp [hmin, hmax] at h
    | some high =>
      simp only [hmin, hmax] at h
      simp [h]
  | some low =>
    cases hmax : options.max with
    | none =>
      simp only [hmin, hmax] at h
      simp [h]
    | some high => simp [hmin, hmax] at h

end Whisker
