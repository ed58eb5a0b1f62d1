import Whisker.Proofs.Scalar.Packing

/-!
# Exact arithmetic, rounded

Sums, differences, products and quotients of finite numbers are the exact ones rounded, as long as these are
not larger than the largest number.
-/

namespace Whisker.Binary

open Float.Model (UnpackedFloat)
open Float.Model.UnpackedFloat (Sign)

theorem apply_mul_two_zpow (s : Sign) {m : ℕ} {e f : ℤ} (h : f ≤ e) :
    ((s.apply (m <<< (e - f).toNat : ℕ) : ℤ) : ℚ) * 2 ^ f = signed s (m * 2 ^ e) := by
  have hm : ((m <<< (e - f).toNat : ℕ) : ℚ) * 2 ^ f = m * 2 ^ e := by
    rw [Nat.shiftLeft_eq, two_zpow_of_le h]
    push_cast
    ring
  cases s with
  | negative =>
    rw [Sign.apply, Int.cast_neg, Int.cast_natCast, neg_mul, hm]
    rfl
  | positive =>
    rw [Sign.apply, Int.cast_natCast, hm]
    rfl

theorem worth_zero (s : Sign) : worth (.zero s) = 0 := rfl

/-- The sum of two finite numbers is their exact sum, rounded. -/
theorem rounded_add {u v : UnpackedFloat} (hu : u.isFinite = true) (hv : v.isFinite = true) (ru : Reduced u)
    (rv : Reduced v) : Rounded (worth u + worth v) (UnpackedFloat.add .binary64 u v) := by
  cases u with
  | infinity s => cases hu
  | notANumber => cases hu
  | zero s =>
    cases v with
    | infinity t => cases hv
    | notANumber => cases hv
    | zero t =>
      rw [worth_zero, worth_zero, add_zero]
      simp only [UnpackedFloat.add]
      split <;> exact ⟨rfl, trivial, Rounds.refl 0⟩
    | finite t n f hn =>
      rw [worth_zero, zero_add]
      exact ⟨rfl, rv, Rounds.refl _⟩
  | finite s m e hm =>
    cases v with
    | infinity t => cases hv
    | notANumber => cases hv
    | zero t =>
      rw [worth_zero, add_zero]
      exact ⟨rfl, ru, Rounds.refl _⟩
    | finite t n f hn =>
      have h := rounded_normalize (s.apply (m <<< (e - min e f).toNat : ℕ) + t.apply (n <<< (f - min e f).toNat : ℕ))
        (min e f) .positive
      rw [Int.cast_add, add_mul, apply_mul_two_zpow s (min_le_left e f), apply_mul_two_zpow t (min_le_right e f)] at h
      exact h

theorem unpacked_sub (u v : UnpackedFloat) : UnpackedFloat.sub .binary64 u v = UnpackedFloat.add .binary64 u v.neg := by
  cases u with
  | infinity s => cases v <;> rfl
  | notANumber => cases v <;> rfl
  | zero s => cases v <;> rfl
  | finite s m e hm =>
    cases v with
    | infinity t => rfl
    | notANumber => rfl
    | zero t => rfl
    | finite t n f hn =>
      have hneg (k : ℤ) : (-t).apply k = -t.apply k := by
        cases t with
        | negative => exact (neg_neg k).symm
        | positive => rfl
      simp only [UnpackedFloat.sub, UnpackedFloat.add, UnpackedFloat.neg, hneg]
      rfl

theorem worth_neg (u : UnpackedFloat) : worth u.neg = -worth u := by
  cases u with
  | finite s m e hm => exact signed_neg s _
  | infinity s => exact neg_zero.symm
  | notANumber => exact neg_zero.symm
  | zero s => exact neg_zero.symm

/-- Addition computes the sum of values wherever it stays in range. -/
theorem computes_add {x y : Float} (hx : x.isFinite = true) (hy : y.isFinite = true) (h : |value x + value y| ≤ largest) :
    Computes (x + y) (value x + value y) :=
  (rounded_add hx hy (reduced_unpack _) (reduced_unpack _)).computes h

theorem isFinite_neg (u : UnpackedFloat) : u.neg.isFinite = u.isFinite := by
  cases u <;> rfl

theorem Reduced.neg {u : UnpackedFloat} (h : Reduced u) : Reduced u.neg := by
  cases u with
  | infinity s => trivial
  | notANumber => trivial
  | zero s => trivial
  | finite s m e hm => exact h

/-- Subtraction computes the difference of values wherever it stays in range. -/
theorem computes_sub {x y : Float} (hx : x.isFinite = true) (hy : y.isFinite = true) (h : |value x - value y| ≤ largest) :
    Computes (x - y) (value x - value y) := by
  have hr := rounded_add hx ((isFinite_neg _).trans hy) (reduced_unpack x.toModel) (reduced_unpack y.toModel).neg
  rw [worth_neg, ← unpacked_sub, ← sub_eq_add_neg] at hr
  exact hr.computes h

theorem signed_mul (s t : Sign) (p q : ℚ) : signed (s * t) (p * q) = signed s p * signed t q := by
  cases s with
  | negative =>
    cases t with
    | negative => exact (neg_mul_neg p q).symm
    | positive => exact (neg_mul p q).symm
  | positive =>
    cases t with
    | negative => exact (mul_neg p q).symm
    | positive => rfl

theorem signed_div (s t : Sign) (p q : ℚ) : signed (s / t) (p / q) = signed s p / signed t q := by
  cases s with
  | negative =>
    cases t with
    | negative => exact (neg_div_neg_eq p q).symm
    | positive => exact (neg_div q p).symm
  | positive =>
    cases t with
    | negative => exact (div_neg p).symm
    | positive => rfl

/-- The product of two mantissas is long enough, or its exponent is below the lowest. -/
theorem le_aim_mul {s t : Sign} {m n : ℕ} {e f : ℤ} {hm : 0 < m} {hn : 0 < n} (ru : Reduced (.finite s m e hm))
    (rv : Reduced (.finite t n f hn)) : e + f ≤ aim (m * n) (e + f) := by
  by_cases hlong : 2 ^ 52 ≤ m * n
  · have hlog := (Nat.le_log2 (Nat.mul_pos hm hn).ne').2 hlong
    unfold aim
    omega
  · have hm52 : ¬2 ^ 52 ≤ m := fun h => hlong (h.trans (Nat.le_mul_of_pos_right m hn))
    have hn52 : ¬2 ^ 52 ≤ n := fun h => hlong (h.trans (Nat.le_mul_of_pos_left n hm))
    have he := ru.2.2.resolve_left hm52
    have hf := rv.2.2.resolve_left hn52
    unfold aim
    omega

theorem rounded_mul {u v : UnpackedFloat} (hu : u.isFinite = true) (hv : v.isFinite = true) (ru : Reduced u)
    (rv : Reduced v) : Rounded (worth u * worth v) (UnpackedFloat.mul .binary64 u v) := by
  cases u with
  | infinity s => cases hu
  | notANumber => cases hu
  | zero s =>
    rw [worth_zero, zero_mul]
    cases v with
    | infinity t => cases hv
    | notANumber => cases hv
    | zero t => exact ⟨rfl, trivial, Rounds.refl 0⟩
    | finite t n f hn => exact ⟨rfl, trivial, Rounds.refl 0⟩
  | finite s m e hm =>
    cases v with
    | infinity t => cases hv
    | notANumber => cases hv
    | zero t =>
      rw [worth_zero, mul_zero]
      exact ⟨rfl, trivial, Rounds.refl 0⟩
    | finite t n f hn =>
      have h := rounded_roundWithAccuracy (s * t) (cuts_exact (m * n)) (le_aim_mul ru rv)
      rw [Nat.cast_mul, two_zpow_add, mul_mul_mul_comm, signed_mul] at h
      exact h

/-- Quotient and remainder of two mantissas say how the exact quotient is rounded. -/
theorem cuts_div (m : ℕ) {n : ℕ} (hn : 0 < n) :
    Cuts (.ofMantissaAndAccuracy (m / n) (UnpackedFloat.accuracyOfFraction (m % n) n)) (m / n : ℚ) := by
  have hn' : (0 : ℚ) < n := by exact_mod_cast hn
  have hm : (m : ℚ) = n * (m / n : ℕ) + (m % n : ℕ) := by exact_mod_cast (Nat.div_add_mod m n).symm
  have hlt : ((m % n : ℕ) : ℚ) < n := by exact_mod_cast Nat.mod_lt m hn
  have hmantissa := ofMantissaAndAccuracy_mantissa (m / n) (UnpackedFloat.accuracyOfFraction (m % n) n)
  refine ⟨?_, ?_, ?_⟩
  · rw [hmantissa, le_div_iff₀ hn', hm]
    linarith [(Nat.cast_nonneg (m % n) : (0 : ℚ) ≤ _)]
  · rw [hmantissa, div_lt_iff₀ hn', hm]
    linarith
  · rw [hmantissa, div_eq_iff hn'.ne', hm, mul_comm (n : ℚ), add_eq_left, Nat.cast_eq_zero]
    unfold UnpackedFloat.accuracyOfFraction
    split
    · rename_i hzero
      exact iff_of_true rfl hzero
    · rename_i hzero
      refine iff_of_false ?_ hzero
      cases compare (2 * (m % n)) n <;> exact Bool.noConfusion

/-- Division shifts enough zeros into the first mantissa. -/
theorem le_aim_div {m n : ℕ} (hm : 0 < m) (hn : 0 < n) {e f t : ℤ}
    (ht : t ≤ max (m.log2 + 1 + e - (n.log2 + 1 + f) - 53) (-1074)) : t ≤ aim (m <<< (e - f - t).toNat / n) t := by
  rcases le_or_gt t (-1074) with hlow | hlow
  · exact hlow.trans (le_aim _ _)
  · have hk : n.log2 + 1 + 52 ≤ m.log2 + (e - f - t).toNat := by omega
    have hlong : 2 ^ 52 ≤ m <<< (e - f - t).toNat / n := by
      rw [Nat.le_div_iff_mul_le hn, Nat.shiftLeft_eq]
      calc 2 ^ 52 * n ≤ 2 ^ 52 * 2 ^ (n.log2 + 1) := Nat.mul_le_mul_left _ Nat.lt_log2_self.le
        _ = 2 ^ (n.log2 + 1 + 52) := by rw [← pow_add, Nat.add_comm]
        _ ≤ 2 ^ (m.log2 + (e - f - t).toNat) := Nat.pow_le_pow_right (by decide) hk
        _ = 2 ^ m.log2 * 2 ^ (e - f - t).toNat := pow_add 2 _ _
        _ ≤ m * 2 ^ (e - f - t).toNat := Nat.mul_le_mul_right _ (Nat.log2_self_le hm.ne')
    have hlog := (Nat.le_log2 (by omega)).2 hlong
    unfold aim
    omega

theorem rounded_div {u v : UnpackedFloat} (hu : u.isFinite = true) (hv : v.isFinite = true) (hzero : worth v ≠ 0) :
    Rounded (worth u / worth v) (UnpackedFloat.div .binary64 u v) := by
  cases v with
  | infinity t => cases hv
  | notANumber => cases hv
  | zero t => exact absurd rfl hzero
  | finite t n f hn =>
    cases u with
    | infinity s => cases hu
    | notANumber => cases hu
    | zero s =>
      rw [worth_zero, zero_div]
      exact ⟨rfl, trivial, Rounds.refl 0⟩
    | finite s m e hm =>
      let low := min (e - f) (max (m.log2 + 1 + e - (n.log2 + 1 + f) - 53) (-1074))
      have h := rounded_roundWithAccuracy (s / t) (cuts_div (m <<< (e - f - low).toNat) hn)
        (le_aim_div hm hn (min_le_right _ _))
      have hq : ((m <<< (e - f - low).toNat : ℕ) : ℚ) / n * 2 ^ low = m * 2 ^ e / (n * 2 ^ f) := by
        rw [Nat.shiftLeft_eq, mul_div_mul_comm, ← zpow_sub₀ two_ne_zero, two_zpow_of_le (min_le_left _ _ : low ≤ e - f)]
        push_cast
        ring
      rw [hq, signed_div] at h
      exact h

/-- Multiplication computes the product of values wherever it stays in range. -/
theorem computes_mul {x y : Float} (hx : x.isFinite = true) (hy : y.isFinite = true) (h : |value x * value y| ≤ largest) :
    Computes (x * y) (value x * value y) :=
  (rounded_mul hx hy (reduced_unpack _) (reduced_unpack _)).computes h

/-- Division by a number other than zero computes the quotient wherever it stays in range. -/
theorem computes_div {x y : Float} (hx : x.isFinite = true) (hy : y.isFinite = true) (hzero : value y ≠ 0)
    (h : |value x / value y| ≤ largest) : Computes (x / y) (value x / value y) :=
  (rounded_div hx hy hzero).computes h

theorem isFinite_pack {u : UnpackedFloat} (h : u.isFinite = false) : (Float.Model.pack u).unpack.isFinite = false := by
  cases u with
  | infinity s => cases s <;> rfl
  | notANumber => rfl
  | zero s => cases h
  | finite s m e hm => cases h

theorem isFinite_sub {v : UnpackedFloat} (h : v.isFinite = false) (u : UnpackedFloat) :
    (UnpackedFloat.sub .binary64 u v).isFinite = false := by
  cases v with
  | infinity t =>
    cases u with
    | infinity s =>
      simp only [UnpackedFloat.sub]
      split <;> rfl
    | notANumber => rfl
    | zero s => rfl
    | finite s m e hm => rfl
  | notANumber => cases u <;> rfl
  | zero t => cases h
  | finite t n f hn => cases h

theorem isFinite_of_sub {x y : Float} (h : (x - y).isFinite = true) : y.isFinite = true := by
  by_contra hy
  have hsub := isFinite_pack (isFinite_sub (Bool.not_eq_true _ ▸ hy : y.toModel.unpack.isFinite = false) x.toModel.unpack)
  exact Bool.noConfusion (hsub.symm.trans h)

theorem value_one : (Float.ofBits 0x3FF0000000000000).isFinite = true ∧ value (Float.ofBits 0x3FF0000000000000) = 1 := by
  have h : (Float.ofBits 0x3FF0000000000000).toModel.unpack = .finite .positive (2 ^ 52) (-52) (by decide) := rfl
  refine ⟨rfl, ?_⟩
  rw [value, h, worth, signed]
  norm_num

theorem value_half : (0.5 : Float).isFinite = true ∧ value 0.5 = 1 / 2 := by
  have h : (0.5 : Float).toModel.unpack = .finite .positive (2 ^ 52) (-53) (by decide) := rfl
  refine ⟨rfl, ?_⟩
  rw [value, h, worth, signed]
  norm_num

/-- Natural numbers below `2 ^ 53` are exact. -/
theorem value_toFloat {n : ℕ} (h : n < 2 ^ 53) : n.toUInt64.toFloat.isFinite = true ∧ value n.toUInt64.toFloat = n := by
  have hlarge : |(n : ℚ)| ≤ largest := by
    rw [Nat.abs_cast]
    exact le_trans (by exact_mod_cast h.le) (two_pow_le_largest (k := 53) (by decide))
  have hr := rounded_normalize n 0 .positive
  rw [zpow_zero, mul_one, Int.cast_natCast] at hr
  have hn : n.toUInt64.toNat = n := Nat.mod_eq_of_lt (by omega)
  have hf : n.toUInt64.toFloat = .ofModel (.pack (UnpackedFloat.normalize .binary64 n.toUInt64.toNat 0 .positive)) := rfl
  have hint : Computes n.toUInt64.toFloat n := by
    rw [hf, hn]
    exact hr.computes hlarge
  exact ⟨hint.finite, hint.rounds.eq (onGrid_natCast h)⟩

/-- Counts below `2 ^ 53` are numbers. -/
theorem value_ofNat {n : ℕ} (h : n < 2 ^ 53) :
    (Scalar.ofNat n : Float).isFinite = true ∧ value (Scalar.ofNat n) = n := by
  obtain ⟨hfinite, hvalue⟩ := value_toFloat h
  have hdiv := computes_div (x := n.toUInt64.toFloat) hfinite value_one.1 (by rw [value_one.2]; exact one_ne_zero)
    (abs_le.2 (by rw [value_one.2, div_one]; exact abs_le.1 (abs_value_le _)))
  rw [value_one.2, div_one, hvalue] at hdiv
  have hf : (Scalar.ofNat n : Float) = n.toUInt64.toFloat / Float.ofBits 0x3FF0000000000000 := by
    change Float.ofScientific n true 0 = _
    rw [Float.ofScientific, dif_pos ⟨h, by decide⟩]
    rfl
  rw [hf]
  exact ⟨hdiv.finite, hdiv.rounds.eq (onGrid_natCast h)⟩

/-- The difference of two numbers that are not negative is in range. -/
theorem computes_sub_of_nonneg {x y : Float} (hx : x.isFinite = true) (hy : y.isFinite = true) (h : 0 ≤ value x)
    (h' : 0 ≤ value y) : Computes (x - y) (value x - value y) := by
  have hxl := abs_le.1 (abs_value_le x)
  have hyl := abs_le.1 (abs_value_le y)
  exact computes_sub hx hy (abs_le.2 ⟨by linarith, by linarith⟩)

/-- Half a number is in range. -/
theorem computes_half {x : Float} (hx : x.isFinite = true) : Computes (x / Scalar.ofNat 2) (value x / 2) := by
  obtain ⟨hf, hv⟩ := value_ofNat (n := 2) (by decide)
  have hq : value x / value (Scalar.ofNat 2) = value x / 2 := by rw [hv]; norm_num
  have hl := abs_value_le x
  rw [← hq]
  refine computes_div hx hf (by rw [hv]; norm_num) ?_
  rw [hq, abs_div, abs_two]
  linarith [abs_nonneg (value x)]

end Whisker.Binary
