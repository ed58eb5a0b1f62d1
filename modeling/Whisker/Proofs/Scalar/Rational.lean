import Mathlib
import Whisker.Scalar.Exact

/-!
# Exact arithmetic on finite numbers

On finite operands every operation of exact arithmetic is the one of the rational numbers. The powers of ten
that steps are made of need the exponent of a number: ten to that exponent does not exceed the number.
-/

namespace Whisker.Exact

open Scalar (isFinite isNaN)

variable {p q : ℚ}

@[simp] theorem finite_add (p q : ℚ) : finite p + finite q = finite (p + q) := rfl

@[simp] theorem finite_mul (p q : ℚ) : finite p * finite q = finite (p * q) := rfl

@[simp] theorem finite_neg (p : ℚ) : -finite p = finite (-p) := rfl

@[simp] theorem finite_sub (p q : ℚ) : finite p - finite q = finite (p - q) := by
  rw [sub_eq_add_neg p q]
  rfl

theorem finite_div (p : ℚ) (hq : q ≠ 0) : finite p / finite q = finite (p / q) := by
  change (if q ≠ 0 then _ else _) = _
  rw [if_pos hq]

@[simp] theorem finite_lt : finite p < finite q ↔ p < q := by
  change lt _ _ = true ↔ _
  rw [lt, decide_eq_true_iff]

@[simp] theorem finite_le : finite p ≤ finite q ↔ p ≤ q := by
  change le _ _ = true ↔ _
  rw [le, decide_eq_true_iff]

@[simp] theorem finite_beq (p q : ℚ) : (finite p == finite q) = decide (p = q) := rfl

@[simp] theorem isFinite_finite (p : ℚ) : isFinite (finite p) = true := rfl

@[simp] theorem isNaN_finite (p : ℚ) : isNaN (finite p) = false := rfl

theorem exists_finite {x : Exact} (h : isFinite x = true) : ∃ p, x = finite p := by
  cases x with
  | finite p => exact ⟨p, rfl⟩
  | infinite n => cases h
  | notANumber => cases h

@[simp] theorem ofNat_eq (n : ℕ) : (Scalar.ofNat n : Exact) = finite n := by
  change finite (mkRat n 1) = _
  rw [Rat.mkRat_one]
  rfl

@[simp] theorem literal_eq (n : ℕ) : (OfNat.ofNat n : Exact) = finite n := ofNat_eq n

theorem finite_half (p : ℚ) : finite p / 2 = finite (p / 2) := by
  have htwo : (2 : Exact) = finite 2 := by simp
  rw [htwo, finite_div _ two_ne_zero]

theorem half_eq : (0.5 : Exact) = finite (1 / 2) := congrArg finite (by norm_num)

theorem twentieth_eq : (0.05 : Exact) = finite (1 / 20) := congrArg finite (by norm_num)

@[simp] theorem finite_min (p q : ℚ) : Scalar.min (finite p) (finite q) = finite (min p q) := by
  unfold Scalar.min
  simp only [isNaN_finite, Bool.false_eq_true, if_false, finite_lt]
  split
  · rename_i h
    rw [min_eq_right h.le]
  · rename_i h
    rw [min_eq_left (not_lt.1 h)]

@[simp] theorem finite_max (p q : ℚ) : Scalar.max (finite p) (finite q) = finite (max p q) := by
  unfold Scalar.max
  simp only [isNaN_finite, Bool.false_eq_true, if_false, finite_lt]
  split
  · rename_i h
    rw [max_eq_right h.le]
  · rename_i h
    rw [max_eq_left (not_lt.1 h)]

@[simp] theorem finite_abs (p : ℚ) : Scalar.abs (finite p) = finite |p| := by
  change finite p.abs = _
  rw [Rat.abs]
  split
  · rename_i h
    rw [abs_of_nonneg h]
  · rename_i h
    rw [abs_of_neg (not_le.1 h)]

@[simp] theorem finite_floor (p : ℚ) : Scalar.floor (finite p) = finite ⌊p⌋ := rfl

@[simp] theorem finite_ceil (p : ℚ) : Scalar.ceil (finite p) = finite ⌈p⌉ := by
  have h : p.ceil = ⌈p⌉ := le_antisymm (Rat.ceil_le_iff.2 (Int.le_ceil p)) (Int.ceil_le.2 Rat.le_ceil)
  change finite (Rat.ofInt p.ceil) = _
  rw [h]
  rfl

/-- An integer is its own nearest integer. -/
@[simp] theorem nearest_intCast (n : ℤ) : nearest n = n := by
  have hhalf : (mkRat 1 2 : ℚ) = 1 / 2 := by norm_num [Rat.mkRat_eq_div]
  have hfloor (m : ℤ) : Rat.floor (m + 1 / 2 : ℚ) = m := by
    change ⌊(m + 1 / 2 : ℚ)⌋ = m
    rw [Int.floor_eq_iff]
    constructor <;> linarith
  unfold nearest
  rw [hhalf]
  split
  · have h := hfloor (-n)
    push_cast at h
    rw [h, neg_neg]
  · exact hfloor n

@[simp] theorem round_intCast (n : ℤ) : Scalar.round (finite n) = finite n := by
  change finite (Rat.ofInt (nearest n)) = _
  rw [nearest_intCast]
  rfl

theorem toNat_natCast {n : ℕ} (h : n < UInt64.size) : Scalar.toNat (finite n) = n := by
  change Nat.min (Rat.floor n).toNat (UInt64.size - 1) = n
  have hfloor : Rat.floor (n : ℚ) = n := by
    change ⌊(n : ℚ)⌋ = n
    exact Int.floor_natCast n
  rw [hfloor, Int.toNat_natCast]
  exact Nat.min_eq_left (by omega)

theorem powNat_go (fuel : ℕ) (r a : ℚ) (n : ℕ) (h : n < fuel) :
    Scalar.powNat.go fuel (finite r) (finite a) n = finite (r * a ^ n) := by
  induction fuel generalizing r a n with
  | zero => omega
  | succ fuel ih =>
    -- The lowest bit of the exponent goes into the result, the other bits into the next round.
    have hbit : (if n % 2 = 1 then finite r * finite a else finite r) = finite (r * a ^ (n % 2)) := by
      rcases Nat.mod_two_eq_zero_or_one n with h | h <;> simp [h]
    have hpow : a ^ n = a ^ (n % 2) * (a * a) ^ (n / 2) := by
      rw [← pow_two, ← pow_mul, ← pow_add]
      congr 1
      omega
    rw [Scalar.powNat.go]
    simp only [hbit]
    split
    · rename_i hn
      rw [hpow, hn, pow_zero, mul_one]
    · rename_i hn
      rw [finite_mul, ih _ _ _ (by omega), hpow, mul_assoc]

theorem finite_powInt (hp : p ≠ 0) (e : ℤ) : Scalar.powInt (finite p) e = finite (p ^ e) := by
  have hnat (n : ℕ) : Scalar.powNat (finite p) n = finite (p ^ n) := by
    rw [Scalar.powNat, literal_eq, powNat_go _ _ _ _ (Nat.lt_succ_self n), Nat.cast_one, one_mul]
  cases e with
  | ofNat n => rw [Scalar.powInt, hnat, Int.ofNat_eq_natCast, zpow_natCast]
  | negSucc n =>
    rw [Scalar.powInt, hnat, literal_eq, finite_div _ (pow_ne_zero _ hp), zpow_negSucc, Nat.cast_one, one_div]

theorem power_eq (e : ℤ) : power e = (10 : ℚ) ^ e := by
  have hmk (m n : ℕ) : mkRat (Int.ofNat m) n = (m : ℚ) / n := by
    rw [Rat.mkRat_eq_div]
    rfl
  rw [power, hmk]
  cases e with
  | ofNat n => simp
  | negSucc n => simp [Int.neg_negSucc, zpow_negSucc]

theorem lt_ten_pow_length (n : ℕ) : n < 10 ^ (Decimal.digits n).length :=
  (Nat.length_toDigits_le_iff (by decide) Nat.length_toDigits_pos).1 le_rfl

theorem ten_pow_length_le {n : ℕ} (hn : n ≠ 0) : 10 ^ ((Decimal.digits n).length - 1) ≤ n := by
  by_contra hlt
  by_cases hone : (Decimal.digits n).length - 1 = 0
  · rw [hone, pow_zero] at hlt
    omega
  · have hle := (Nat.length_toDigits_le_iff (by decide) (Nat.pos_of_ne_zero hone)).2 (not_le.1 hlt)
    change (Decimal.digits n).length ≤ _ at hle
    omega

theorem eq_natAbs_div (hp : 0 < p) : p = p.num.natAbs / p.den := by
  rw [Nat.cast_natAbs, abs_of_pos (Rat.num_pos.2 hp), Rat.num_div_den]

/-- The exponent of a number does not make a power of ten above it. -/
theorem power_decade_le (hp : 0 < p) : (10 : ℚ) ^ decade p ≤ p := by
  unfold decade
  simp only [power_eq]
  split
  · assumption
  · have hvalue := eq_natAbs_div hp
    set m := p.num.natAbs with hm
    have hm0 : m ≠ 0 := by
      have := Rat.num_pos.2 hp
      omega
    -- The numerator has its leading digit, and the denominator is below the next power of ten.
    have hnum : (10 : ℚ) ^ ((Decimal.digits m).length - 1) ≤ m := by exact_mod_cast ten_pow_length_le hm0
    have hden : (p.den : ℚ) ≤ 10 ^ (Decimal.digits p.den).length := by exact_mod_cast (lt_ten_pow_length p.den).le
    have hlength : 0 < (Decimal.digits m).length := Nat.length_toDigits_pos
    have hsplit : (Int.ofNat (Decimal.digits m).length - Int.ofNat (Decimal.digits p.den).length - 1 : ℤ) =
        ((Decimal.digits m).length - 1 : ℕ) - ((Decimal.digits p.den).length : ℕ) := by
      simp only [Int.ofNat_eq_natCast]
      omega
    calc (10 : ℚ) ^ (Int.ofNat (Decimal.digits m).length - Int.ofNat (Decimal.digits p.den).length - 1)
        = 10 ^ ((Decimal.digits m).length - 1) / 10 ^ (Decimal.digits p.den).length := by
          rw [hsplit, zpow_sub₀ (by norm_num), zpow_natCast, zpow_natCast]
      _ ≤ m / p.den := by
          have hpos : (0 : ℚ) < p.den := by exact_mod_cast p.den_pos
          gcongr
      _ = p := hvalue.symm

/-- The next power of ten is above the number. -/
theorem lt_power_decade (hp : 0 < p) : p < (10 : ℚ) ^ (decade p + 1) := by
  unfold decade
  simp only [power_eq]
  split
  · have hvalue := eq_natAbs_div hp
    set m := p.num.natAbs
    have hnum : (m : ℚ) < 10 ^ (Decimal.digits m).length := by exact_mod_cast lt_ten_pow_length m
    have hden : (10 : ℚ) ^ ((Decimal.digits p.den).length - 1) ≤ p.den := by exact_mod_cast ten_pow_length_le p.den_nz
    have hlength : 0 < (Decimal.digits p.den).length := Nat.length_toDigits_pos
    have hsplit : (Int.ofNat (Decimal.digits m).length - Int.ofNat (Decimal.digits p.den).length + 1 : ℤ) =
        ((Decimal.digits m).length : ℕ) - ((Decimal.digits p.den).length - 1 : ℕ) := by
      simp only [Int.ofNat_eq_natCast]
      omega
    calc p = m / p.den := hvalue
      _ < 10 ^ (Decimal.digits m).length / 10 ^ ((Decimal.digits p.den).length - 1) := by
          have hpos : (0 : ℚ) < p.den := by exact_mod_cast p.den_pos
          exact div_lt_div₀ hnum hden (by positivity) (by positivity)
      _ = 10 ^ (Int.ofNat (Decimal.digits m).length - Int.ofNat (Decimal.digits p.den).length + 1) := by
          rw [hsplit, zpow_sub₀ (by norm_num), zpow_natCast, zpow_natCast]
  · rename_i hlt
    rw [sub_add_cancel]
    exact not_le.1 hlt

end Whisker.Exact
