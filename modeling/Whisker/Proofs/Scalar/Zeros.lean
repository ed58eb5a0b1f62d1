import Whisker.Proofs.Scalar.Lesser
import Whisker.Proofs.Scalar.Monotone

/-!
# Equality, order and the two zeros

Numbers are equal if they are the same up to the sign of zeros, and "not a number" is equal to nothing. The comparison
that takes two missing values as the same leaves out this exception, and is an equivalence.

Finite numbers are ordered by their values, between the infinities; so the smaller and the larger of two are what they
are for any such order. A sum is a negative zero only if both its terms are, and adding zero changes no other number.
-/

namespace Whisker.Binary

open Float.Model (UnpackedFloat)
open Scalar (nan same)

variable {a b : Float}

/-- The number, with zero for the negative zero. -/
def oneZero (x : Float) : Float := if x = -0 then 0 else x

theorem oneZero_eq_self (h : a.isFinite = false) : oneZero a = a := by
  refine if_neg ?_
  rintro rfl
  cases h

theorem isFinite_oneZero (a : Float) : (oneZero a).isFinite = a.isFinite := by
  unfold oneZero
  split
  · rename_i h
    rw [h]
    decide
  · rfl

theorem value_oneZero (a : Float) : value (oneZero a) = value a := by
  unfold oneZero
  split
  · rename_i h
    have hzero : value (0 : Float) = 0 := worth_zero .positive
    rw [h, value_neg, hzero, neg_zero]
  · rfl

theorem oneZero_eq_nan : oneZero a = nan ↔ a = nan := by
  constructor
  · intro h
    have hfinite := isFinite_oneZero a
    rw [h] at hfinite
    rwa [oneZero_eq_self hfinite.symm] at h
  · rintro rfl
    exact oneZero_eq_self (by decide)

/-- Without the sign of zeros a value determines its number. -/
theorem oneZero_eq_of_value (ha : a.isFinite = true) (hb : b.isFinite = true) (h : value a = value b) :
    oneZero a = oneZero b := by
  by_cases hzero : value b = 0
  · obtain rfl | rfl := eq_of_value_zero ha (h.trans hzero) <;> obtain rfl | rfl := eq_of_value_zero hb hzero <;> decide
  · rw [eq_of_value ha hb hzero h]

theorem not_beq_of_not_finite (ha : a.isFinite = true) (hb : b.isFinite = false) : (a == b) = false := by
  change UnpackedFloat.beq a.toModel.unpack b.toModel.unpack = false
  obtain ⟨s, hu⟩ | ⟨s, m, e, hm, hu⟩ := finite_cases ha
  · obtain rfl | rfl | rfl := not_finite_cases hb <;> rw [hu] <;> rfl
  · obtain rfl | rfl | rfl := not_finite_cases hb <;> rw [hu] <;> cases s <;> rfl

/-- Numbers are equal if they are the same up to the sign of zeros. -/
theorem beq_iff_oneZero : (a == b) = true ↔ a ≠ nan ∧ oneZero a = oneZero b := by
  by_cases ha : a.isFinite = true
  · rw [and_iff_right (ne_nan ha)]
    by_cases hb : b.isFinite = true
    · rw [beq_iff_value ha hb]
      refine ⟨oneZero_eq_of_value ha hb, fun h => ?_⟩
      rw [← value_oneZero a, h, value_oneZero]
    · rw [not_beq_of_not_finite ha (Bool.not_eq_true _ ▸ hb)]
      refine iff_of_false Bool.false_ne_true fun h => hb ?_
      rw [← isFinite_oneZero, ← h, isFinite_oneZero, ha]
  · have ha := Bool.not_eq_true _ ▸ ha
    constructor
    · intro h
      obtain rfl : a = b := eq_of_unpack (unpacked_eq_of_beq ha h)
      refine ⟨?_, rfl⟩
      rintro rfl
      cases h
    · rintro ⟨hnan, h⟩
      have hb : b.isFinite = false := by rw [← isFinite_oneZero, ← h, isFinite_oneZero, ha]
      rw [oneZero_eq_self ha, oneZero_eq_self hb] at h
      subst h
      obtain rfl | rfl := (not_finite_cases ha).resolve_left hnan <;> decide

theorem same_iff_oneZero : same a b = true ↔ oneZero a = oneZero b := by
  have hnan (x : Float) : Scalar.isNaN x = true ↔ x = nan := by
    refine ⟨fun h => ?_, ?_⟩
    · by_contra hx
      rw [isNaN_eq_false hx] at h
      cases h
    · rintro rfl
      decide
  rw [same, Bool.or_eq_true, Bool.and_eq_true, beq_iff_oneZero, hnan, hnan]
  constructor
  · rintro (⟨-, h⟩ | ⟨rfl, rfl⟩)
    · exact h
    · rfl
  · intro h
    by_cases ha : a = nan
    · exact .inr ⟨ha, oneZero_eq_nan.1 (h ▸ oneZero_eq_nan.2 ha)⟩
    · exact .inl ⟨ha, h⟩

open Float.Model.UnpackedFloat (Sign)
open Scalar (ofNat)

variable {c x y : Float}

theorem ordered : Scalar.OrderedBy value where
  isNaN_eq := isNaN_of_isFinite
  lt_iff := lt_iff_value
  isNaN_inf := isNaN_eq_false (by decide)
  isNaN_negInf := isNaN_eq_false (by decide)
  lt_inf := lt_inf
  negInf_lt := negInf_lt

/-- On finite numbers the comparison is transitive. -/
theorem float_le_trans (ha : a.isFinite = true) (hb : b.isFinite = true) (hc : c.isFinite = true) (hab : a ≤ b)
    (hbc : b ≤ c) : a ≤ c := by
  rw [le_iff_value ha hb] at hab
  rw [le_iff_value hb hc] at hbc
  exact (le_iff_value ha hc).2 (hab.trans hbc)

theorem float_add_eq {u v : UnpackedFloat} (hx : x.toModel.unpack = u) (hy : y.toModel.unpack = v) :
    x + y = .ofModel (.pack (UnpackedFloat.add .binary64 u v)) := by
  rw [← hx, ← hy]
  rfl

theorem unpack_zero : (ofNat 0 : Float).toModel.unpack = .zero .positive := rfl

theorem unpack_negZero : (-ofNat 0 : Float).toModel.unpack = .zero .negative := rfl

theorem eq_of_pack {u : UnpackedFloat} (hx : x.toModel.unpack = u) : Float.ofModel (.pack u) = x := by
  rw [← hx, pack_unpack]

theorem float_add_zero (hx : x ≠ -ofNat 0) : x + ofNat 0 = x := by
  have hadd : UnpackedFloat.add .binary64 x.toModel.unpack (.zero .positive) = x.toModel.unpack := by
    cases hu : x.toModel.unpack with
    | zero s =>
      cases s with
      | negative => exact absurd (eq_of_unpack hu) hx
      | positive => rfl
    | infinity s => rfl
    | notANumber => rfl
    | finite s m e hm => rfl
  rw [float_add_eq rfl unpack_zero, hadd, pack_unpack]

/-- A sum of integer multiples of a power of two that is not zero is not rounded to zero. -/
theorem worth_normalize_ne_zero {n e : ℤ} (hn : n ≠ 0) (he : -1074 ≤ e) (s : Sign) :
    worth (UnpackedFloat.normalize .binary64 n e s) ≠ 0 := by
  have hpos : (0 : ℚ) < 2 ^ e := by positivity
  have hgrid : OnGrid ((2 : ℚ) ^ e) := by simpa using onGrid_mul_two_zpow (m := 1) (by decide) he
  have hrounds := (rounded_normalize n e s).rounds
  rcases lt_or_gt_of_ne hn with hneg | hone
  · have hlow : (n : ℚ) ≤ -1 := by exact_mod_cast Int.le_sub_one_of_lt hneg
    have hle := hrounds.le (onGrid_neg hgrid) (by nlinarith)
    exact (hle.trans_lt (neg_lt_zero.2 hpos)).ne
  · have hhigh : (1 : ℚ) ≤ n := by exact_mod_cast hone
    exact (hpos.trans_le (hrounds.ge hgrid (by nlinarith))).ne'

/-- Rounding does not make a negative zero of a sum. -/
theorem normalize_ne_negZero (k : ℤ) {e : ℤ} (he : -1074 ≤ e) :
    Float.ofModel (.pack (UnpackedFloat.normalize .binary64 k e .positive)) ≠ -ofNat 0 := by
  by_cases hk : k = 0
  · have hzero : Float.ofModel (.pack (.zero .positive)) ≠ -ofNat 0 := by decide
    subst hk
    exact hzero
  · intro h
    have hplace := (rounded_normalize k e .positive).place_pack.2
    rw [h, place, unpack_negZero] at hplace
    rcases lt_or_gt_of_ne (worth_normalize_ne_zero hk he .positive) with hneg | hpos
    · exact (max_lt (neg_lt_zero.2 limit_pos) ((min_le_right _ _).trans_lt hneg)).ne' hplace
    · exact (lt_max_of_lt_right (lt_min limit_pos hpos)).ne hplace

/-- A sum whose first term is no negative zero is none. -/
theorem add_ne_negZero (hx : x ≠ -ofNat 0) (y : Float) : x + y ≠ -ofNat 0 := by
  intro h
  have hfinite : (x + y).isFinite = true := by
    rw [h]
    decide
  obtain ⟨fx, fy⟩ := finite_of_add hfinite
  obtain ⟨s, hu⟩ | ⟨s, m, e, hm, hu⟩ := finite_cases fx <;> obtain ⟨t, hv⟩ | ⟨t, n, f, hn, hv⟩ := finite_cases fy
  · have hs : s = .positive := by
      cases s with
      | negative => exact absurd (eq_of_unpack hu) hx
      | positive => rfl
    subst hs
    rw [float_add_eq hu hv] at h
    cases t <;> exact absurd h (by decide)
  · -- Beside a zero the other term is the sum.
    have hsum : x + y = y := by
      rw [float_add_eq hu hv]
      exact eq_of_pack hv
    rw [← hsum, h, unpack_negZero] at hv
    cases hv
  · have hsum : x + y = x := by
      rw [float_add_eq hu hv]
      exact eq_of_pack hu
    exact hx (hsum.symm.trans h)
  · rw [float_add_eq hu hv] at h
    exact normalize_ne_negZero _ (le_min (hu ▸ reduced_unpack x.toModel).2.1 (hv ▸ reduced_unpack y.toModel).2.1) h

end Whisker.Binary
