import Whisker.Proofs.Scalar.Integers

/-!
# Numbers that are not finite

There are three of them. "Not a number" is in no order with anything and stays what it is; an infinity lies beyond
all finite numbers, and adding to it or taking from it leaves it or makes it "not a number". The length of a vector
with such a side is infinite or not a number.
-/

namespace Whisker.Binary

open Float.Model (UnpackedFloat)
open Float.Model.UnpackedFloat (Sign)
open Scalar (nan inf)

/-- A number is what its parts say. -/
theorem eq_of_unpack {x y : Float} (h : x.toModel.unpack = y.toModel.unpack) : x = y := by
  have hmodel : x.toModel = y.toModel := by rw [← pack_unpack x.toModel, h, pack_unpack]
  change Float.ofModel x.toModel = Float.ofModel y.toModel
  rw [hmodel]

theorem unpack_nan : (nan : Float).toModel.unpack = .notANumber := rfl

theorem unpack_inf : (inf : Float).toModel.unpack = .infinity .positive := rfl

theorem unpack_negInf : (-inf : Float).toModel.unpack = .infinity .negative := rfl

theorem not_finite_cases {x : Float} (h : x.isFinite = false) : x = nan ∨ x = inf ∨ x = -inf := by
  change x.toModel.unpack.isFinite = false at h
  cases hx : x.toModel.unpack with
  | notANumber => exact .inl (eq_of_unpack hx)
  | infinity s =>
    cases s with
    | positive => exact .inr (.inl (eq_of_unpack hx))
    | negative => exact .inr (.inr (eq_of_unpack hx))
  | zero s =>
    rw [hx] at h
    cases h
  | finite s m e hm =>
    rw [hx] at h
    cases h

theorem eq_of_isInfinite {x : Float} (h : Scalar.isInfinite x = true) : x = inf ∨ x = -inf := by
  simp only [Scalar.isInfinite, Bool.and_eq_true, Bool.not_eq_true'] at h
  obtain rfl | hx := not_finite_cases h.2
  · exact absurd h.1 (by decide)
  · exact hx

theorem le_iff_unpack (x y : Float) : x ≤ y ↔ UnpackedFloat.le x.toModel.unpack y.toModel.unpack = true := by
  change Float.le x y = true ↔ _
  rw [Float.le, decide_eq_true_iff]
  rfl

theorem lt_iff_unpack (x y : Float) : x < y ↔ UnpackedFloat.lt x.toModel.unpack y.toModel.unpack = true := by
  change Float.lt x y = true ↔ _
  rw [Float.lt, decide_eq_true_iff]
  rfl

theorem not_nan_le (y : Float) : ¬(nan : Float) ≤ y := by
  rw [le_iff_unpack, unpack_nan]
  exact Bool.false_ne_true

theorem not_le_nan (x : Float) : ¬x ≤ (nan : Float) := by
  rw [le_iff_unpack, unpack_nan]
  cases x.toModel.unpack <;> exact Bool.false_ne_true

theorem not_inf_lt (y : Float) : ¬(inf : Float) < y := by
  rw [lt_iff_unpack, unpack_inf]
  cases y.toModel.unpack with
  | infinity s => cases s <;> exact Bool.false_ne_true
  | _ => exact Bool.false_ne_true

theorem not_lt_negInf (x : Float) : ¬x < (-inf : Float) := by
  rw [lt_iff_unpack, unpack_negInf]
  cases x.toModel.unpack with
  | infinity s => cases s <;> exact Bool.false_ne_true
  | _ => exact Bool.false_ne_true

section Finite

variable {x : Float} (hx : x.isFinite = true)

include hx

theorem not_inf_le : ¬(inf : Float) ≤ x := by
  rw [le_iff_unpack, unpack_inf]
  obtain ⟨s, hu⟩ | ⟨s, m, e, hm, hu⟩ := finite_cases hx <;> rw [hu] <;> exact Bool.false_ne_true

theorem not_le_negInf : ¬x ≤ (-inf : Float) := by
  rw [le_iff_unpack, unpack_negInf]
  obtain ⟨s, hu⟩ | ⟨s, m, e, hm, hu⟩ := finite_cases hx <;> rw [hu] <;> exact Bool.false_ne_true

theorem le_inf : x ≤ (inf : Float) := by
  rw [le_iff_unpack, unpack_inf]
  obtain ⟨s, hu⟩ | ⟨s, m, e, hm, hu⟩ := finite_cases hx <;> rw [hu] <;> rfl

theorem negInf_le : (-inf : Float) ≤ x := by
  rw [le_iff_unpack, unpack_negInf]
  obtain ⟨s, hu⟩ | ⟨s, m, e, hm, hu⟩ := finite_cases hx <;> rw [hu] <;> rfl

theorem lt_inf : x < (inf : Float) := by
  rw [lt_iff_unpack, unpack_inf]
  obtain ⟨s, hu⟩ | ⟨s, m, e, hm, hu⟩ := finite_cases hx <;> rw [hu] <;> rfl

theorem negInf_lt : (-inf : Float) < x := by
  rw [lt_iff_unpack, unpack_negInf]
  obtain ⟨s, hu⟩ | ⟨s, m, e, hm, hu⟩ := finite_cases hx <;> rw [hu] <;> rfl

end Finite

theorem eq_inf_of_inf_le {x : Float} (h : inf ≤ x) : x = inf := by
  have hx : x.isFinite = false := Bool.not_eq_true _ ▸ fun hx => not_inf_le hx h
  obtain rfl | rfl | rfl := not_finite_cases hx
  · exact absurd h (not_le_nan inf)
  · rfl
  · exact absurd h (by decide)

theorem min_nan (y : Float) : Scalar.min nan y = y := rfl

theorem max_nan (y : Float) : Scalar.max nan y = y := rfl

theorem max_inf (y : Float) : Scalar.max inf y = inf := if_neg (not_inf_lt y)

theorem min_negInf (y : Float) : Scalar.min (-inf) y = -inf := if_neg (not_lt_negInf y)

theorem min_inf_le {v : Float} (hv : v.isFinite = true) (y : Float) : Scalar.min inf y ≤ v ↔ y ≤ v := by
  by_cases hy : y < inf
  · have hmin : Scalar.min inf y = y := if_pos hy
    rw [hmin]
  · have hmin : Scalar.min inf y = inf := if_neg hy
    have hfinite : y.isFinite = false := Bool.not_eq_true _ ▸ fun h => hy (lt_inf h)
    rw [hmin]
    refine iff_of_false (not_inf_le hv) ?_
    obtain rfl | rfl | rfl := not_finite_cases hfinite
    · exact not_nan_le v
    · exact not_inf_le hv
    · exact absurd (by decide) hy

theorem le_max_negInf {v : Float} (hv : v.isFinite = true) (y : Float) : v ≤ Scalar.max (-inf) y ↔ v ≤ y := by
  by_cases hy : -inf < y
  · have hmax : Scalar.max (-inf) y = y := if_pos hy
    rw [hmax]
  · have hmax : Scalar.max (-inf) y = -inf := if_neg hy
    have hfinite : y.isFinite = false := Bool.not_eq_true _ ▸ fun h => hy (negInf_lt h)
    rw [hmax]
    refine iff_of_false (not_le_negInf hv) ?_
    obtain rfl | rfl | rfl := not_finite_cases hfinite
    · exact not_le_nan v
    · exact absurd (by decide) hy
    · exact not_le_negInf hv

theorem unpacked_sub_left {u : UnpackedFloat} (hu : u.isFinite = false) (v : UnpackedFloat) :
    UnpackedFloat.sub .binary64 u v = u ∨ UnpackedFloat.sub .binary64 u v = .notANumber := by
  cases u with
  | notANumber => exact .inl rfl
  | infinity s =>
    cases v with
    | infinity t =>
      simp only [UnpackedFloat.sub]
      split
      · exact .inl rfl
      · exact .inr rfl
    | notANumber => exact .inr rfl
    | zero t => exact .inl rfl
    | finite t n f hn => exact .inl rfl
  | zero s => cases hu
  | finite s m e hm => cases hu

theorem sub_of_not_finite {x : Float} (hx : x.isFinite = false) (y : Float) : x - y = x ∨ x - y = nan := by
  change Float.ofModel (.pack (UnpackedFloat.sub .binary64 x.toModel.unpack y.toModel.unpack)) = x ∨
    Float.ofModel (.pack (UnpackedFloat.sub .binary64 x.toModel.unpack y.toModel.unpack)) = nan
  obtain h | h := unpacked_sub_left hx y.toModel.unpack
  · rw [h, pack_unpack]
    exact .inl rfl
  · rw [h]
    exact .inr (by decide)

theorem float_sub_eq (x y : Float) : x - y = x + -y := by
  change Float.ofModel (.pack (UnpackedFloat.sub .binary64 x.toModel.unpack y.toModel.unpack)) =
    Float.ofModel (.pack (UnpackedFloat.add .binary64 x.toModel.unpack (-y).toModel.unpack))
  rw [unpacked_sub, unpack_neg]

theorem add_of_not_finite {x : Float} (hx : x.isFinite = false) (y : Float) : x + y = x ∨ x + y = nan := by
  have hsub : x - -y = x + y := by rw [float_sub_eq, float_neg_neg]
  rw [← hsub]
  exact sub_of_not_finite hx (-y)

theorem isFinite_of_sub_left {x y : Float} (h : (x - y).isFinite = true) : x.isFinite = true := by
  by_contra hx
  rw [Bool.not_eq_true] at hx
  obtain hsub | hsub := sub_of_not_finite hx y
  · rw [hsub, hx] at h
    cases h
  · rw [hsub] at h
    cases h

theorem sub_nan (x : Float) : x - nan = nan := by
  have hsub : UnpackedFloat.sub .binary64 x.toModel.unpack .notANumber = .notANumber := by
    cases x.toModel.unpack <;> rfl
  change Float.ofModel (.pack (UnpackedFloat.sub .binary64 x.toModel.unpack (nan : Float).toModel.unpack)) = nan
  rw [unpack_nan, hsub]
  decide

theorem nan_sub (y : Float) : nan - y = nan := (sub_of_not_finite (by decide) y).elim id id

/-- A finite number is infinitely far from an infinity. -/
theorem sub_infinite {x y : Float} (hx : x.isFinite = true) (hy : y = inf ∨ y = -inf) : x - y = inf ∨ x - y = -inf := by
  have hsub (t : Sign) : UnpackedFloat.sub .binary64 x.toModel.unpack (.infinity t) = .infinity (-t) := by
    obtain ⟨s, hu⟩ | ⟨s, m, e, hm, hu⟩ := finite_cases hx <;> rw [hu] <;> rfl
  change Float.ofModel (.pack (UnpackedFloat.sub .binary64 x.toModel.unpack y.toModel.unpack)) = inf ∨
    Float.ofModel (.pack (UnpackedFloat.sub .binary64 x.toModel.unpack y.toModel.unpack)) = -inf
  obtain rfl | rfl := hy
  · rw [unpack_inf, hsub]
    exact .inr (by decide)
  · rw [unpack_negInf, hsub]
    exact .inl (by decide)

theorem decode_inf : decode inf = .infinite false := by decide

theorem decode_negInf : decode (-inf) = .infinite true := by decide

theorem decode_nan : decode nan = .notANumber := by decide

theorem hypot_of_infinite {x y : Float} (h : (x = inf ∨ x = -inf) ∨ y = inf ∨ y = -inf) : hypot x y = inf := by
  unfold hypot
  obtain (rfl | rfl) | rfl | rfl := h
  · rw [decode_inf]
    rfl
  · rw [decode_negInf]
    rfl
  · rw [decode_inf]
    cases decode x <;> rfl
  · rw [decode_negInf]
    cases decode x <;> rfl

/-- With a side that is not finite no length is. -/
theorem hypot_of_not_finite {x y : Float} (h : x.isFinite = false ∨ y.isFinite = false) :
    hypot x y = inf ∨ hypot x y = nan := by
  obtain h | h := h
  · obtain rfl | hx := not_finite_cases h
    · unfold hypot
      rw [decode_nan]
      cases decode y with
      | infinite negative => exact .inl rfl
      | _ => exact .inr rfl
    · exact .inl (hypot_of_infinite (.inl hx))
  · obtain rfl | hy := not_finite_cases h
    · unfold hypot
      rw [decode_nan]
      cases decode x with
      | infinite negative => exact .inl rfl
      | _ => exact .inr rfl
    · exact .inl (hypot_of_infinite (.inr hy))

end Whisker.Binary
