import Whisker.Proofs.Scalar.Arithmetic

/-!
# The order of numbers

Comparisons of finite numbers compare their values.
-/

namespace Whisker.Binary

open Float.Model (UnpackedFloat)
open Float.Model.UnpackedFloat (Sign)

/-- Of two reduced numbers the one with the larger exponent is larger. -/
theorem magnitude_lt {s t : Sign} {m n : ℕ} {e f : ℤ} {hm : 0 < m} {hn : 0 < n} (ru : Reduced (.finite s m e hm))
    (rv : Reduced (.finite t n f hn)) (h : e < f) : (m * 2 ^ e : ℚ) < n * 2 ^ f := by
  have hm : (m : ℚ) < 2 ^ 53 := by exact_mod_cast ru.1
  have hn : (2 ^ 52 : ℚ) ≤ n := by exact_mod_cast rv.2.2.resolve_right (by have := ru.2.1; omega)
  calc (m * 2 ^ e : ℚ) < 2 ^ 53 * 2 ^ e := by gcongr
    _ = 2 ^ 52 * 2 ^ (e + 1) := by rw [two_zpow_add]; ring
    _ ≤ 2 ^ 52 * 2 ^ f := by gcongr; exact one_le_two; omega
    _ ≤ n * 2 ^ f := by gcongr

/-- Reduced numbers are compared by their exponents first. -/
theorem compare_magnitude {s t : Sign} {m n : ℕ} {e f : ℤ} {hm : 0 < m} {hn : 0 < n} (ru : Reduced (.finite s m e hm))
    (rv : Reduced (.finite t n f hn)) : (compare e f).then (compare m n) = compare (m * 2 ^ e : ℚ) (n * 2 ^ f) := by
  rcases lt_trichotomy e f with h | rfl | h
  · rw [compare_lt_iff_lt.2 h, compare_lt_iff_lt.2 (magnitude_lt ru rv h)]
    rfl
  · have hpow : (0 : ℚ) < 2 ^ e := by positivity
    rw [compare_eq_iff_eq.2 rfl]
    change compare m n = _
    rcases lt_trichotomy m n with h | rfl | h
    · rw [compare_lt_iff_lt.2 h, compare_lt_iff_lt.2 (mul_lt_mul_of_pos_right (by exact_mod_cast h) hpow)]
    · rw [compare_eq_iff_eq.2 rfl, compare_eq_iff_eq.2 rfl]
    · rw [compare_gt_iff_gt.2 h, compare_gt_iff_gt.2 (mul_lt_mul_of_pos_right (by exact_mod_cast h) hpow)]
  · rw [compare_gt_iff_gt.2 h, compare_gt_iff_gt.2 (magnitude_lt rv ru h)]
    rfl

theorem swap_compare (p q : ℚ) : (compare p q).swap = compare (-p) (-q) := by
  rcases lt_trichotomy p q with h | rfl | h
  · rw [compare_lt_iff_lt.2 h, compare_gt_iff_gt.2 (neg_lt_neg h)]
    rfl
  · rw [compare_eq_iff_eq.2 rfl, compare_eq_iff_eq.2 rfl]
    rfl
  · rw [compare_gt_iff_gt.2 h, compare_lt_iff_lt.2 (neg_lt_neg h)]
    rfl

/-- The comparison of finite numbers is that of their values. -/
theorem compare_worth {u v : UnpackedFloat} (hu : u.isFinite = true) (hv : v.isFinite = true) (ru : Reduced u)
    (rv : Reduced v) : u.compare v = some (compare (worth u) (worth v)) := by
  have hpos {m : ℕ} (hm : 0 < m) (e : ℤ) : (0 : ℚ) < m * 2 ^ e := by positivity
  have hneg {m : ℕ} (hm : 0 < m) (e : ℤ) : -(m * 2 ^ e : ℚ) < 0 := neg_lt_zero.2 (hpos hm e)
  cases u with
  | infinity s => cases hu
  | notANumber => cases hu
  | zero s =>
    cases v with
    | infinity t => cases hv
    | notANumber => cases hv
    | zero t => exact congrArg some (compare_eq_iff_eq.2 rfl).symm
    | finite t n f hn =>
      cases t with
      | negative => exact congrArg some (compare_gt_iff_gt.2 (hneg hn f)).symm
      | positive => exact congrArg some (compare_lt_iff_lt.2 (hpos hn f)).symm
  | finite s m e hm =>
    cases v with
    | infinity t => cases hv
    | notANumber => cases hv
    | zero t =>
      cases s with
      | negative => exact congrArg some (compare_lt_iff_lt.2 (hneg hm e)).symm
      | positive => exact congrArg some (compare_gt_iff_gt.2 (hpos hm e)).symm
    | finite t n f hn =>
      cases s with
      | negative =>
        cases t with
        | negative =>
          rw [UnpackedFloat.compare, compare_magnitude ru rv, swap_compare]
          rfl
        | positive => exact congrArg some (compare_lt_iff_lt.2 ((hneg hm e).trans (hpos hn f))).symm
      | positive =>
        cases t with
        | negative => exact congrArg some (compare_gt_iff_gt.2 ((hneg hn f).trans (hpos hm e))).symm
        | positive => exact congrArg some (compare_magnitude ru rv)

/-- Finite numbers are ordered by their values. -/
theorem lt_iff_value {x y : Float} (hx : x.isFinite = true) (hy : y.isFinite = true) : x < y ↔ value x < value y := by
  have h := compare_worth hx hy (reduced_unpack _) (reduced_unpack _)
  change Float.lt x y = true ↔ _
  rw [Float.lt, decide_eq_true_iff]
  change UnpackedFloat.lt _ _ = true ↔ _
  rw [UnpackedFloat.lt, h, beq_iff_eq, Option.some_inj, compare_lt_iff_lt]
  rfl

theorem le_iff_value {x y : Float} (hx : x.isFinite = true) (hy : y.isFinite = true) : x ≤ y ↔ value x ≤ value y := by
  have h := compare_worth hx hy (reduced_unpack _) (reduced_unpack _)
  change Float.le x y = true ↔ _
  rw [Float.le, decide_eq_true_iff]
  change UnpackedFloat.le _ _ = true ↔ _
  rw [UnpackedFloat.le, h, Option.any_some, ← Ordering.ne_gt_iff_isLE]
  exact compare_le_iff_le

open Scalar (isFinite isPositive isSize ofNat)

theorem isNaN_of_isFinite {x : Float} (h : x.isFinite = true) : x.isNaN = false := by
  change x.toModel.unpack.isNaN = false
  change x.toModel.unpack.isFinite = true at h
  cases hx : x.toModel.unpack with
  | infinity s => rfl
  | notANumber =>
    rw [hx] at h
    cases h
  | zero s => rfl
  | finite s m e hm => rfl

theorem value_le_max {a b : Float} (hb : b.isFinite = true) (h : (Scalar.max a b).isFinite = true) :
    value b ≤ value (Scalar.max a b) := by
  unfold Scalar.max at h ⊢
  split
  · exact le_rfl
  · rename_i hnan
    rw [if_neg hnan] at h
    split
    · exact le_rfl
    · rename_i hlt
      rw [if_neg hlt] at h
      exact not_lt.1 fun hv => hlt ((lt_iff_value h hb).2 hv)

theorem isFinite_zero : isFinite (ofNat 0 : Float) = true := (value_ofNat (by decide)).1

theorem isPositive_iff (x : Float) : isPositive x = true ↔ x.isFinite = true ∧ 0 < value x := by
  obtain ⟨hf, hv⟩ := value_ofNat (n := 0) (by decide)
  change (x.isFinite && !decide (x ≤ ofNat 0)) = true ↔ _
  rw [Bool.and_eq_true, Bool.not_eq_true', decide_eq_false_iff_not]
  refine and_congr_right fun hx => ?_
  rw [le_iff_value hx hf, hv, not_le, Nat.cast_zero]

theorem isSize_of_isPositive {x : Float} (h : isPositive x = true) : isSize x = true := by
  obtain ⟨hf, hv⟩ := value_ofNat (n := 0) (by decide)
  obtain ⟨hx, hpos⟩ := (isPositive_iff x).1 h
  change (x.isFinite && !decide (x < ofNat 0)) = true
  rw [Bool.and_eq_true, Bool.not_eq_true', decide_eq_false_iff_not, lt_iff_value hx hf, hv, Nat.cast_zero]
  exact ⟨hx, not_lt.2 hpos.le⟩

/-- A number above zero has a half that is not negative and far from the largest. -/
theorem half_of_isPositive {x : Float} (h : isPositive x = true) :
    (x / ofNat 2).isFinite = true ∧ 0 ≤ value (x / ofNat 2) ∧ value (x / ofNat 2) ≤ largest / 2 := by
  obtain ⟨hx, hpos⟩ := (isPositive_iff x).1 h
  have hc := computes_half hx
  have hlarge := (abs_le.1 (abs_value_le x)).2
  refine ⟨hc.finite, ?_, hc.rounds.le onGrid_half_largest (by linarith)⟩
  exact hc.nonneg (by linarith)

end Whisker.Binary
