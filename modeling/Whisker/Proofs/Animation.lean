import Whisker.Animation
import Whisker.Proofs.Scalar.Rational

/-!
# Progress of an animation

In exact arithmetic each easing curve rises strictly from zero to one while the time does. So the progress of an
animation never falls, it stands at its ends as long as the time is outside the duration and no longer, and an animation
is complete exactly when its progress is.
-/

namespace Whisker

open Exact
open Scalar (clamp isFinite isSize)

/-- Clamping rationals is clamping of their values. -/
theorem Exact.finite_clamp {low high : ℚ} (h : low ≤ high) (p : ℚ) :
    clamp (finite p) (finite low) (finite high) = finite (max low (min p high)) := by
  unfold clamp
  simp only [finite_lt]
  split
  · rename_i hp
    rw [min_eq_left (hp.le.trans h), max_eq_left hp.le]
  · rename_i hp
    split
    · rename_i hhigh
      rw [min_eq_right hhigh.le, max_eq_right h]
    · rename_i hhigh
      rw [min_eq_left (not_lt.1 hhigh), max_eq_right (not_lt.1 hp)]

namespace Easing

def curve : Easing → ℚ → ℚ
  | .linear, t => t
  | .inOutQuad, t => if t * 2 < 1 then 2 * t ^ 2 else 1 - 2 * (1 - t) ^ 2
  | .outQuart, t => 1 - (1 - t) ^ 4

@[simp] theorem curve_zero (e : Easing) : e.curve 0 = 0 := by cases e <;> norm_num [curve]

@[simp] theorem curve_one (e : Easing) : e.curve 1 = 1 := by cases e <;> norm_num [curve]

theorem curve_strictMonoOn (e : Easing) : StrictMonoOn e.curve (Set.Icc 0 1) := by
  rintro s ⟨hs, hs'⟩ t ⟨ht, ht'⟩ hst
  cases e with
  | linear => exact hst
  | inOutQuad =>
    have hrise : s ^ 2 < t ^ 2 := pow_lt_pow_left₀ hst hs two_ne_zero
    have hfall : (1 - t) ^ 2 < (1 - s) ^ 2 := pow_lt_pow_left₀ (by linarith) (by linarith) two_ne_zero
    simp only [curve]
    split
    · rename_i hs2
      split
      · linarith
      · -- The two halves of the curve meet at one half.
        rename_i ht2
        have hlow : s ^ 2 < (1 / 2) ^ 2 := pow_lt_pow_left₀ (by linarith) hs two_ne_zero
        have hhigh : (1 - t) ^ 2 ≤ (1 / 2) ^ 2 := pow_le_pow_left₀ (by linarith) (by linarith) 2
        linarith
    · rw [if_neg (by linarith)]
      linarith
  | outQuart =>
    have hfall : (1 - t) ^ 4 < (1 - s) ^ 4 := pow_lt_pow_left₀ (by linarith) (by linarith) four_ne_zero
    simp only [curve]
    linarith

theorem apply_finite (e : Easing) (p : ℚ) : e.apply (finite p) = finite (e.curve (max 0 (min p 1))) := by
  have hclamp : clamp (finite p) 0 1 = finite (max 0 (min p 1)) := by
    simpa using finite_clamp zero_le_one p
  unfold apply
  simp only [hclamp]
  generalize max 0 (min p 1) = t
  cases e with
  | linear => rfl
  | inOutQuad =>
    simp only [curve, half_eq, literal_eq, finite_mul, finite_lt, finite_sub, finite_neg]
    push_cast
    split
    · congr 1
      ring
    · congr 1
      ring
  | outQuart =>
    have hpower : Scalar.powNat (finite (t - 1)) 4 = finite ((t - 1) ^ 4) := by
      rw [Scalar.powNat, literal_eq, powNat_go _ _ _ _ (Nat.lt_succ_self 4), Nat.cast_one, one_mul]
    simp only [curve, literal_eq, finite_sub]
    push_cast
    rw [hpower, finite_sub, finite_neg]
    congr 1
    ring

end Easing

def passed (d p : ℚ) : ℚ := max 0 (min (p / d) 1)

section

variable {d p q : ℚ}

theorem passed_mem (d p : ℚ) : passed d p ∈ Set.Icc (0 : ℚ) 1 :=
  ⟨le_max_left _ _, max_le zero_le_one (min_le_right _ _)⟩

variable (hd : 0 < d)

include hd

theorem passed_mono (h : p ≤ q) : passed d p ≤ passed d q :=
  max_le_max le_rfl (min_le_min (div_le_div_of_nonneg_right h hd.le) le_rfl)

theorem passed_eq_one : passed d p = 1 ↔ d ≤ p := by
  have hone : passed d p = 1 ↔ 1 ≤ p / d := by
    unfold passed
    rcases le_total (p / d) 1 with h | h
    · rw [min_eq_left h]
      rcases le_total 0 (p / d) with h0 | h0
      · rw [max_eq_right h0]
        exact ⟨fun h => h.ge, h.antisymm⟩
      · rw [max_eq_left h0]
        constructor <;> intro h <;> linarith
    · rw [min_eq_right h, max_eq_right zero_le_one]
      exact iff_of_true rfl h
  rw [hone, le_div_iff₀ hd, one_mul]

theorem passed_eq_zero : passed d p = 0 ↔ p ≤ 0 := by
  rw [passed, max_eq_left_iff, min_le_iff, or_iff_left (by norm_num), div_le_iff₀ hd, zero_mul]

end

namespace Animation

variable {a : Animation Exact} {d p : ℚ}

theorem duration_of_validate (h : a.validate = .ok ()) : ∃ d : ℚ, a.duration = finite d ∧ 0 ≤ d := by
  rw [validate, check_eq_ok, isSize, Bool.and_eq_true, Bool.not_eq_true', decide_eq_false_iff_not] at h
  obtain ⟨d, hd⟩ := exists_finite h.1
  refine ⟨d, hd, ?_⟩
  have hnot := h.2
  rw [hd, literal_eq, finite_lt, not_lt, Nat.cast_zero] at hnot
  exact hnot

variable (hd : a.duration = finite d)

include hd

/-- Progress is the curve at the share of the duration that has passed; without a duration it is one. -/
theorem progress_finite (p : ℚ) :
    a.progress (finite p) = finite (if d ≤ 0 then 1 else a.easing.curve (passed d p)) := by
  unfold progress
  simp only [hd, isFinite_finite, Bool.not_true, Bool.or_false, literal_eq, decide_eq_true_eq, finite_le, Nat.cast_zero]
  split
  · rw [Nat.cast_one]
  · rename_i hpos
    rw [finite_div _ (not_le.1 hpos).ne', Easing.apply_finite, passed]

theorem isComplete_finite : a.isComplete (finite p) = true ↔ d ≤ 0 ∨ d ≤ p := by
  rw [isComplete, hd, Bool.or_eq_true, decide_eq_true_iff, decide_eq_true_iff, literal_eq, finite_le, finite_le,
    Nat.cast_zero]

theorem progress_mem (p : ℚ) : ∃ f : ℚ, a.progress (finite p) = finite f ∧ 0 ≤ f ∧ f ≤ 1 := by
  refine ⟨_, progress_finite hd p, ?_⟩
  split
  · exact ⟨zero_le_one, le_rfl⟩
  · have hmono := a.easing.curve_strictMonoOn.monotoneOn
    have hmem := passed_mem d p
    have hlow := hmono (Set.left_mem_Icc.2 zero_le_one) hmem hmem.1
    have hhigh := hmono hmem (Set.right_mem_Icc.2 zero_le_one) hmem.2
    rw [Easing.curve_zero] at hlow
    rw [Easing.curve_one] at hhigh
    exact ⟨hlow, hhigh⟩

/-- Progress never goes back. -/
theorem progress_mono {p q : ℚ} (h : p ≤ q) : a.progress (finite p) ≤ a.progress (finite q) := by
  rw [progress_finite hd, progress_finite hd, finite_le]
  split
  · exact le_rfl
  · rename_i hpos
    exact a.easing.curve_strictMonoOn.monotoneOn (passed_mem d p) (passed_mem d q) (passed_mono (not_le.1 hpos) h)

theorem progress_eq_one : a.progress (finite p) = 1 ↔ a.isComplete (finite p) = true := by
  rw [isComplete_finite hd, progress_finite hd, literal_eq, finite.injEq, Nat.cast_one]
  split
  · rename_i h
    exact iff_of_true rfl (.inl h)
  · rename_i hpos
    rw [or_iff_right hpos, ← passed_eq_one (not_le.1 hpos)]
    conv_lhs => rw [← a.easing.curve_one]
    exact a.easing.curve_strictMonoOn.injOn.eq_iff (passed_mem d p) (Set.right_mem_Icc.2 zero_le_one)

theorem progress_eq_zero (hpos : 0 < d) : a.progress (finite p) = 0 ↔ p ≤ 0 := by
  rw [progress_finite hd, if_neg (not_le.2 hpos), literal_eq, finite.injEq, Nat.cast_zero, ← passed_eq_zero hpos]
  conv_lhs => rw [← a.easing.curve_zero]
  exact a.easing.curve_strictMonoOn.injOn.eq_iff (passed_mem d p) (Set.left_mem_Icc.2 zero_le_one)

omit hd

/-- In exact arithmetic progress lies between zero and one and never falls; it is one exactly if the animation is
complete, and, if the animation takes any time, zero exactly as long as no time has passed. -/
theorem progress_rises_to_completion (a : Animation Exact) (ha : a.validate = .ok ()) {s t : Exact}
    (hs : isFinite s = true) (ht : isFinite t = true) (hst : s ≤ t) :
    0 ≤ a.progress s ∧ a.progress s ≤ a.progress t ∧ a.progress t ≤ 1 ∧
      (a.progress s = 1 ↔ a.isComplete s = true) ∧ (a.progress t = 1 ↔ a.isComplete t = true) ∧
      (0 < a.duration → (a.progress s = 0 ↔ s ≤ 0) ∧ (a.progress t = 0 ↔ t ≤ 0)) := by
  obtain ⟨d, hd, -⟩ := duration_of_validate ha
  obtain ⟨p, rfl⟩ := exists_finite hs
  obtain ⟨q, rfl⟩ := exists_finite ht
  obtain ⟨f, hf, hlow, -⟩ := progress_mem hd p
  obtain ⟨g, hg, -, hhigh⟩ := progress_mem hd q
  refine ⟨?_, progress_mono hd (finite_le.1 hst), ?_, progress_eq_one hd, progress_eq_one hd, fun hpos => ?_⟩
  · rwa [hf, literal_eq, finite_le, Nat.cast_zero]
  · rwa [hg, literal_eq, finite_le, Nat.cast_one]
  · rw [hd, literal_eq, finite_lt, Nat.cast_zero] at hpos
    have hzero (r : ℚ) : finite r ≤ 0 ↔ r ≤ 0 := by rw [literal_eq, finite_le, Nat.cast_zero]
    exact ⟨(progress_eq_zero hd hpos).trans (hzero p).symm, (progress_eq_zero hd hpos).trans (hzero q).symm⟩

/-- A curve on both sides of its middle, in an animation of four milliseconds. -/
theorem quad_rises_to_completion :
    let a : Animation Exact := ⟨4, .inOutQuad, true, true⟩
    a.validate = .ok () ∧ a.progress 1 = 0.125 ∧ a.progress 3 = 0.875 ∧ a.progress 1 ≤ a.progress 3 ∧
      (a.progress 3 = 1 ↔ a.isComplete 3 = true) ∧ (a.progress 1 = 0 ↔ (1 : Exact) ≤ 0) := by
  intro a
  have ha : a.validate = .ok () := by decide +kernel
  obtain ⟨_, hmono, _, _, hone, hzero⟩ := progress_rises_to_completion a ha (s := 1) (t := 3) (by decide) (by decide)
    (by decide +kernel)
  exact ⟨ha, by decide +kernel, by decide +kernel, hmono, hone, (hzero (by decide +kernel)).1⟩

end Animation

end Whisker
