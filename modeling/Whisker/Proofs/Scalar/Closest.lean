import Whisker.Proofs.Scalar.Nearest

/-!
# The closest number

The result of a sum, a product or a quotient is as close to the exact result as any number of the grid. So of two exact
results the smaller one is not rounded to the larger number.
-/

namespace Whisker.Binary

open Float.Model (UnpackedFloat)
open Float.Model.UnpackedFloat (Sign ExtendedMantissa Accuracy roundWithAccuracy decreaseExponent)

/-- No number of the grid is nearer. -/
structure Closest (q w : ℚ) : Prop where
  le : ∀ {b : ℚ}, OnGrid b → |q - w| ≤ |q - b|

theorem Closest.refl (q : ℚ) : Closest q q := ⟨fun {b} _ => by
  rw [sub_self, abs_zero]
  exact abs_nonneg (q - b)⟩

theorem Closest.neg {q w : ℚ} (h : Closest q w) : Closest (-q) (-w) := by
  refine ⟨fun {b} hb => ?_⟩
  have hdist (c d : ℚ) : |-c - d| = |c - -d| := by
    rw [← abs_neg, neg_sub, sub_neg_eq_add, sub_neg_eq_add, add_comm]
  rw [hdist, hdist, neg_neg]
  exact h.le (onGrid_neg hb)

theorem Closest.signed {q w : ℚ} (h : Closest q w) (s : Sign) : Closest (signed s q) (signed s w) := by
  cases s with
  | negative => exact h.neg
  | positive => exact h

/-- Of two numbers the smaller one has no larger number nearest to it. -/
theorem Closest.mono {p q v w : ℚ} (hp : Closest p v) (hq : Closest q w) (hv : OnGrid v) (hw : OnGrid w) (h : p < q) :
    v ≤ w := by
  by_contra hlt
  -- Each would be at least as near to its own as to the other's, though they lie on the other sides.
  have hnear := sq_le_sq.2 (hp.le hw)
  have hnear' := sq_le_sq.2 (hq.le hv)
  nlinarith [not_le.1 hlt]

theorem Halves.abs_sub_le {em : ExtendedMantissa} {q : ℚ} (h : Halves em q) : |q - em.roundedMantissa| ≤ 1 / 2 := by
  obtain ⟨m, round, sticky⟩ := em
  obtain ⟨hle, hlt, hexact⟩ := h
  cases round with
  | false =>
    have hrounded : ExtendedMantissa.roundedMantissa ⟨m, false, sticky⟩ = m := by cases sticky <;> rfl
    simp only [half, Bool.false_eq_true, if_false, add_zero] at hle hlt
    rw [hrounded, abs_le]
    constructor <;> linarith
  | true =>
    simp only [half, if_true] at hle hlt hexact
    cases sticky with
    | false =>
      have hq : q = m + 1 / 2 := hexact.1 rfl
      have hrounded : ExtendedMantissa.roundedMantissa ⟨m, true, false⟩ = m + m % 2 := rfl
      rw [hrounded, hq, abs_le]
      rcases Nat.mod_two_eq_zero_or_one m with hm | hm <;> rw [hm] <;> push_cast <;> constructor <;> linarith
    | true =>
      have hrounded : ExtendedMantissa.roundedMantissa ⟨m, true, true⟩ = m + 1 := rfl
      rw [hrounded, abs_le]
      push_cast
      constructor <;> linarith

/-- Rounding the mantissa takes the nearest integer, and the integers are the grid if the mantissa is long enough. -/
theorem Halves.closest {em : ExtendedMantissa} {p : ℚ} {t : ℤ} (h : Halves em p) (hlong : 2 ^ 52 ≤ p ∨ t = -1074) :
    Closest (p * 2 ^ t) (em.roundedMantissa * 2 ^ t) := by
  refine ⟨fun {b} hb => ?_⟩
  have ht : (0 : ℚ) < 2 ^ t := by positivity
  have hp : 0 ≤ p := (Nat.cast_nonneg _).trans h.cuts.le
  have hint (n : ℕ) : |p - em.roundedMantissa| ≤ |p - n| := by
    have hhalf := h.abs_sub_le
    rcases lt_trichotomy n em.roundedMantissa with hn | rfl | hn
    · have hn : (n : ℚ) + 1 ≤ em.roundedMantissa := by exact_mod_cast hn
      exact hhalf.trans ((by linarith [(abs_le.1 hhalf).1] : 1 / 2 ≤ p - n).trans (le_abs_self _))
    · exact le_rfl
    · have hn : (em.roundedMantissa : ℚ) + 1 ≤ n := by exact_mod_cast hn
      exact hhalf.trans ((by linarith [(abs_le.1 hhalf).2] : 1 / 2 ≤ -(p - n)).trans (neg_le_abs _))
  have hscale (a : ℚ) : |p * 2 ^ t - a * 2 ^ t| = |p - a| * 2 ^ t := by rw [← sub_mul, abs_mul, abs_of_pos ht]
  rw [hscale]
  rcases le_total 0 b with hb0 | hb0
  · rcases hb.multiple_or_lt hb0 t with ⟨n, rfl⟩ | ⟨hne, hlt⟩
    · rw [hscale]
      exact mul_le_mul_of_nonneg_right (hint n) ht.le
    · -- A long mantissa lies above all numbers of the finer grid.
      have hlow := hlong.resolve_right hne
      have hnear := hint (2 ^ 52)
      have hdist : |p - (2 ^ 52 : ℕ)| = p - 2 ^ 52 := by
        push_cast
        exact abs_of_nonneg (by linarith)
      rw [hdist] at hnear
      refine (mul_le_mul_of_nonneg_right hnear ht.le).trans (le_trans ?_ (le_abs_self _))
      linarith
  · have hnear := hint 0
    rw [Nat.cast_zero, sub_zero, abs_of_nonneg hp] at hnear
    refine (mul_le_mul_of_nonneg_right hnear ht.le).trans (le_trans ?_ (le_abs_self _))
    linarith

/-- Cutting off bits with the record of their weight leads to a closest number. -/
theorem closest_roundWithAccuracy {n : ℕ} {f : ℤ} {acc : Accuracy} {q : ℚ} (s : Sign)
    (h : Halves (.ofMantissaAndAccuracy n acc) q) (hf : f ≤ aim n f) :
    Closest (signed s (q * 2 ^ f)) (worth (roundWithAccuracy .binary64 s n f acc)) := by
  have hq : q * 2 ^ f = q / 2 ^ (aim n f - f).toNat * 2 ^ aim n f := by
    rw [two_zpow_of_le hf]
    field_simp
  rw [worth_roundWithAccuracy s h.cuts hf, hq]
  exact ((h.shiftRight _).closest (cut_size h.cuts hf).2).signed s

theorem closest_round {m : ℕ} (hm : m ≠ 0) (e : ℤ) (s : Sign) :
    Closest (signed s (m * 2 ^ e)) (worth (UnpackedFloat.round .binary64 s m e)) := by
  simp only [UnpackedFloat.round, targetExponent_totalExponent, decreaseExponent]
  rw [widened_eq]
  exact closest_roundWithAccuracy s (halves_exact _) (le_aim_widened hm e)

theorem closest_normalize (n e : ℤ) (s : Sign) : Closest (n * 2 ^ e) (worth (UnpackedFloat.normalize .binary64 n e s)) := by
  unfold UnpackedFloat.normalize
  rcases lt_trichotomy n 0 with hn | rfl | hn
  · rw [compare_lt_iff_lt.2 hn]
    have h := closest_round (m := (-n).toNat) (by omega) e .negative
    rw [show ((-n).toNat : ℚ) = -n by exact_mod_cast Int.toNat_of_nonneg (by omega : 0 ≤ -n)] at h
    simpa [signed] using h
  · rw [Int.cast_zero, zero_mul]
    exact Closest.refl 0
  · rw [compare_gt_iff_gt.2 hn]
    have h := closest_round (m := n.toNat) (by omega) e .positive
    rw [show (n.toNat : ℚ) = n by exact_mod_cast Int.toNat_of_nonneg hn.le] at h
    exact h

/-- No number is closer to the exact sum than the sum. -/
theorem closest_add {u v : UnpackedFloat} (hu : u.isFinite = true) (hv : v.isFinite = true) :
    Closest (worth u + worth v) (worth (UnpackedFloat.add .binary64 u v)) := by
  cases u with
  | infinity s => cases hu
  | notANumber => cases hu
  | zero s =>
    cases v with
    | infinity t => cases hv
    | notANumber => cases hv
    | zero t =>
      rw [worth_zero, worth_zero, add_zero]
      simp only [UnpackedFloat.add]
      split <;> exact Closest.refl 0
    | finite t n f hn =>
      rw [worth_zero, zero_add]
      exact Closest.refl _
  | finite s m e hm =>
    cases v with
    | infinity t => cases hv
    | notANumber => cases hv
    | zero t =>
      rw [worth_zero, add_zero]
      exact Closest.refl _
    | finite t n f hn =>
      have h := closest_normalize (s.apply (m <<< (e - min e f).toNat : ℕ) + t.apply (n <<< (f - min e f).toNat : ℕ))
        (min e f) .positive
      rw [Int.cast_add, add_mul, apply_mul_two_zpow s (min_le_left e f), apply_mul_two_zpow t (min_le_right e f)] at h
      exact h

/-- No number is closer to the exact product than the product. -/
theorem closest_mul {u v : UnpackedFloat} (hu : u.isFinite = true) (hv : v.isFinite = true) (ru : Reduced u)
    (rv : Reduced v) : Closest (worth u * worth v) (worth (UnpackedFloat.mul .binary64 u v)) := by
  cases u with
  | infinity s => cases hu
  | notANumber => cases hu
  | zero s =>
    rw [worth_zero, zero_mul]
    cases v with
    | infinity t => cases hv
    | notANumber => cases hv
    | zero t => exact Closest.refl 0
    | finite t n f hn => exact Closest.refl 0
  | finite s m e hm =>
    cases v with
    | infinity t => cases hv
    | notANumber => cases hv
    | zero t =>
      rw [worth_zero, mul_zero]
      exact Closest.refl 0
    | finite t n f hn =>
      have h := closest_roundWithAccuracy (s * t) (halves_exact (m * n)) (le_aim_mul ru rv)
      rw [Nat.cast_mul, two_zpow_add, mul_mul_mul_comm, signed_mul] at h
      exact h

/-- No number is closer to the exact quotient than the quotient. -/
theorem closest_div {u v : UnpackedFloat} (hu : u.isFinite = true) (hv : v.isFinite = true) (hzero : worth v ≠ 0) :
    Closest (worth u / worth v) (worth (UnpackedFloat.div .binary64 u v)) := by
  cases v with
  | infinity t => cases hv
  | notANumber => cases hv
  | zero t => exact absurd rfl hzero
  | finite t n f hn =>
    cases u with
    | infinity s => cases hu
    | notANumber => cases hu
    | zero s =>
      rw [worth_zero, zero_div]
      exact Closest.refl 0
    | finite s m e hm =>
      let low := min (e - f) (max (m.log2 + 1 + e - (n.log2 + 1 + f) - 53) (-1074))
      have h := closest_roundWithAccuracy (s / t) (halves_div (m <<< (e - f - low).toNat) hn)
        (le_aim_div hm hn (min_le_right _ _))
      rw [quotient_eq (min_le_left _ _ : low ≤ e - f), signed_div] at h
      exact h

end Whisker.Binary
