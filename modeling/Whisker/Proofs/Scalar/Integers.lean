import Whisker.Proofs.Scalar.Nearest

/-!
# Parts and integers

The parts of a number, read off its bits, are the ones that arithmetic works with, and a finite number that is not
zero is known by its value. Rounding to an integer and counting are exact.
-/

namespace Whisker.Binary

open Float.Model (UnpackedFloat)
open Float.Model.UnpackedFloat (Sign unpackMantissa unpackExponent unpackSign)

def isNegative : Sign → Bool
  | .negative => true
  | .positive => false

def Value.ofUnpacked : UnpackedFloat → Value
  | .notANumber => .notANumber
  | .infinity s => .infinite (isNegative s)
  | .zero s => .finite ⟨isNegative s, 0, -1074⟩
  | .finite s m e _ => .finite ⟨isNegative s, m, e⟩

theorem toNat_unpackMantissa (b : BitVec 64) : (@unpackMantissa .binary64 b).toNat = b.toNat % 1 <<< 52 := by
  simp [unpackMantissa]

theorem toNat_unpackExponent (b : BitVec 64) : (@unpackExponent .binary64 b).toNat = b.toNat >>> 52 % 2048 := by
  simp [unpackExponent]

theorem isNegative_unpackSign (b : BitVec 64) :
    isNegative (Sign.ofBitVec (@unpackSign .binary64 b)) = decide (b.toNat >>> 63 = 1) := by
  have hlt : b.toNat >>> 63 < 2 := by
    rw [Nat.shiftRight_eq_div_pow]
    have := b.isLt
    omega
  have hbit : (@unpackSign .binary64 b).toNat = b.toNat >>> 63 := by
    simp only [unpackSign, BitVec.toNat_cast, BitVec.extractLsb_toNat]
    omega
  unfold Sign.ofBitVec
  split
  · rename_i hzero
    rw [hzero] at hbit
    simp [isNegative, ← hbit]
  · rename_i hzero
    have hne : (@unpackSign .binary64 b).toNat ≠ 0 := fun h => hzero (BitVec.eq_of_toNat_eq h)
    have hone : b.toNat >>> 63 = 1 := by omega
    simp [isNegative, hone]

/-- The parts read from the bits are those of the logical model. -/
theorem decode_eq (x : Float) : decode x = .ofUnpacked x.toModel.unpack := by
  have hm := toNat_unpackMantissa x.toModel.toBits.toBitVec
  have he := toNat_unpackExponent x.toModel.toBits.toBitVec
  have hs := isNegative_unpackSign x.toModel.toBits.toBitVec
  have hbits : x.toBits.toNat = x.toModel.toBits.toBitVec.toNat := rfl
  have hmantissa (v : BitVec 52) : v = 0#52 ↔ v.toNat = 0 := BitVec.toNat_inj.symm
  have hlowest (v : BitVec 11) : v = 0#11 ↔ v.toNat = 0 := BitVec.toNat_inj.symm
  have hlargest (v : BitVec 11) : v = -1#11 ↔ v.toNat = 2047 := BitVec.toNat_inj.symm
  unfold decode
  simp only [Float.Model.unpack, UnpackedFloat.unpack, exponentBias_binary64, hlowest, hlargest, hmantissa, hbits]
  rw [← hm, ← he, ← hs]
  split
  · split <;> rfl
  · split
    · rename_i hlow
      split
      · rename_i hzero
        simp [Value.ofUnpacked, hzero]
      · simp [Value.ofUnpacked, hlow]
    · simp only [Value.ofUnpacked, toNat_one_append]
      rw [Nat.add_comm]
      rfl

theorem unpack_neg (x : Float) : (-x).toModel.unpack = x.toModel.unpack.neg := by
  change (Float.Model.pack x.toModel.unpack.neg).unpack = _
  cases hx : x.toModel.unpack with
  | infinity s => cases s <;> rfl
  | notANumber => rfl
  | zero s => cases s <;> rfl
  | finite s m e hm =>
    obtain ⟨hshort, hlow, hhigh, hlong⟩ := unpack_size hx
    exact unpack_pack (s := -s) ⟨hshort, hlow, hlong⟩ hhigh

theorem finite_neg (x : Float) : (-x).isFinite = x.isFinite := by
  change (-x).toModel.unpack.isFinite = x.toModel.unpack.isFinite
  rw [unpack_neg, isFinite_neg]

theorem value_neg (x : Float) : value (-x) = -value x := by
  rw [value, unpack_neg, worth_neg]
  rfl

theorem float_neg_neg (x : Float) : - -x = x := by
  have hneg (u : UnpackedFloat) : u.neg.neg = u := by
    cases u with
    | infinity s => cases s <;> rfl
    | notANumber => rfl
    | zero s => cases s <;> rfl
    | finite s m e hm => cases s <;> rfl
  change Float.ofModel (.pack (-x).toModel.unpack.neg) = x
  rw [unpack_neg, hneg, pack_unpack]

theorem withSign_false (x : Float) : withSign false x = x := rfl

theorem withSign_true (x : Float) : withSign true x = -x := rfl

/-- A finite number is a signed zero or has a sign, a positive mantissa and an exponent. -/
theorem finite_cases {x : Float} (hx : x.isFinite = true) :
    (∃ s, x.toModel.unpack = .zero s) ∨ ∃ s m e hm, x.toModel.unpack = .finite s m e hm := by
  change x.toModel.unpack.isFinite = true at hx
  cases hu : x.toModel.unpack with
  | infinity s =>
    rw [hu] at hx
    cases hx
  | notANumber =>
    rw [hu] at hx
    cases hx
  | zero s => exact .inl ⟨s, rfl⟩
  | finite s m e hm => exact .inr ⟨s, m, e, hm, rfl⟩

theorem eq_of_unpack_zero {x : Float} {s : Sign} (hx : x.toModel.unpack = .zero s) : x = withSign (isNegative s) 0 := by
  have hpack := pack_unpack x.toModel
  rw [hx] at hpack
  change Float.ofModel x.toModel = _
  rw [← hpack]
  cases s <;> decide

/-- Two numbers with one value other than zero are the same. -/
theorem eq_of_value {x y : Float} (hx : x.isFinite = true) (hy : y.isFinite = true) (hzero : value y ≠ 0)
    (h : value x = value y) : x = y := by
  obtain ⟨s, hu⟩ | ⟨s, m, e, hm, hu⟩ := finite_cases hy
  · exact absurd (by rw [value, hu, worth_zero]) hzero
  · have hr := reduced_unpack y.toModel
    have hv : worth x.toModel.unpack = signed s (m * 2 ^ e) := by
      change value x = _
      rw [h, value, hu]
      rfl
    rw [hu] at hr
    have hxu := eq_finite_of_worth hx (reduced_unpack _) hr hv
    change Float.ofModel x.toModel = .ofModel y.toModel
    rw [← pack_unpack x.toModel, ← pack_unpack y.toModel, hxu, hu]

theorem eq_of_value_zero {x : Float} (hx : x.isFinite = true) (h : value x = 0) : x = 0 ∨ x = -0 := by
  obtain ⟨s, hu⟩ | ⟨s, m, e, hm, hu⟩ := finite_cases hx
  · rw [eq_of_unpack_zero hu]
    cases s with
    | negative => exact .inr rfl
    | positive => exact .inl rfl
  · have hpos : (0 : ℚ) < m * 2 ^ e := by positivity
    rw [value, hu, worth] at h
    have habs := abs_signed s (m * 2 ^ e)
    rw [h, abs_zero, abs_of_pos hpos] at habs
    exact absurd habs hpos.ne

theorem value_natural {n : ℕ} (h : n < 2 ^ 53) : (Float.ofNat n).isFinite = true ∧ value (Float.ofNat n) = n := by
  obtain ⟨hfinite, hvalue⟩ := value_toFloat h
  have hone : value n.toUInt64.toFloat * value (Float.ofBits 0x3FF0000000000000) = n := by
    rw [value_one.2, mul_one, hvalue]
  have hmul := computes_mul hfinite value_one.1 (by
    rw [value_one.2, mul_one]
    exact abs_value_le _)
  rw [hone] at hmul
  have hf : Float.ofNat n = n.toUInt64.toFloat * Float.ofBits 0x3FF0000000000000 := by
    change Float.ofScientific n false 0 = _
    rw [Float.ofScientific, dif_pos ⟨h, by decide⟩]
    rfl
  rw [hf]
  exact ⟨hmul.finite, hmul.rounds.eq (onGrid_natCast h)⟩

theorem positive_of_value {x : Float} {s : Sign} {m : ℕ} {e : ℤ} {hm : 0 < m} (hu : x.toModel.unpack = .finite s m e hm)
    (h : 0 ≤ value x) : s = .positive ∧ value x = m * 2 ^ e := by
  have hpos : (0 : ℚ) < m * 2 ^ e := by positivity
  rw [value, hu, worth] at h ⊢
  cases s with
  | negative =>
    simp only [signed] at h
    linarith
  | positive => exact ⟨rfl, rfl⟩

/-- Shifts cut off what is behind the point. -/
theorem shifted_eq_floor (m : ℕ) (e : ℤ) :
    (if 0 ≤ e then m <<< e.toNat else m >>> (-e).toNat) = ⌊(m * 2 ^ e : ℚ)⌋₊ := by
  split
  · rename_i he
    obtain ⟨k, rfl⟩ := Int.eq_ofNat_of_zero_le he
    rw [Int.toNat_natCast, Nat.shiftLeft_eq, zpow_natCast]
    exact_mod_cast (Nat.floor_natCast (m * 2 ^ k)).symm
  · rename_i he
    obtain ⟨k, hk⟩ := Int.eq_ofNat_of_zero_le (by omega : 0 ≤ -e)
    obtain rfl : e = -k := by omega
    rw [neg_neg, Int.toNat_natCast, Nat.shiftRight_eq_div_pow, zpow_neg, zpow_natCast, ← div_eq_mul_inv]
    exact_mod_cast (Nat.floor_div_eq_div (K := ℚ) m (2 ^ k)).symm

theorem toNat_eq {x : Float} (hx : x.isFinite = true) : toNat x = min ⌊value x⌋₊ (UInt64.size - 1) := by
  unfold toNat toInt
  rw [decode_eq]
  obtain ⟨s, hu⟩ | ⟨s, m, e, hm, hu⟩ := finite_cases hx
  · rw [value, hu, worth_zero, Nat.floor_zero]
    cases s <;> rfl
  · rw [value, hu, worth]
    cases s with
    | negative =>
      have hfloor : ⌊-(m * 2 ^ e : ℚ)⌋₊ = 0 := Nat.floor_of_nonpos (neg_nonpos.2 (by positivity))
      rw [signed, hfloor]
      rfl
    | positive =>
      rw [signed, ← shifted_eq_floor]
      simp only [Value.ofUnpacked, isNegative, Bool.false_eq_true, if_false]
      omega

/-- The integer part of a number that is one. -/
theorem toNat_of_value {x : Float} (hx : x.isFinite = true) {n : ℕ} (hn : n < UInt64.size) (h : value x = n) : toNat x = n := by
  rw [toNat_eq hx, h, Nat.floor_natCast]
  omega

theorem toNat_le {x : Float} (hx : x.isFinite = true) {n : ℕ} (h : value x ≤ n) : toNat x ≤ n := by
  rw [toNat_eq hx]
  exact (min_le_left _ _).trans (Nat.floor_le_of_le h)

/-- The integer nearest to a fraction that is not negative; a half goes up. -/
theorem floor_add_half (m : ℕ) {u : ℕ} (hu : 0 < u) :
    ((if u ≤ 2 * (m % u) then m / u + 1 else m / u : ℕ) : ℤ) = ⌊(m / u : ℚ) + 1 / 2⌋ := by
  have hu' : (0 : ℚ) < u := by exact_mod_cast hu
  have hm : (m / u : ℚ) = (m / u : ℕ) + (m % u : ℕ) / u := by
    have hm : (m : ℚ) = u * (m / u : ℕ) + (m % u : ℕ) := by exact_mod_cast (Nat.div_add_mod m u).symm
    field_simp
    linarith
  have hlt : ((m % u : ℕ) : ℚ) / u < 1 := by
    rw [div_lt_one hu']
    exact_mod_cast Nat.mod_lt m hu
  have hnonneg : (0 : ℚ) ≤ (m % u : ℕ) / u := by positivity
  symm
  rw [Int.floor_eq_iff, hm]
  split
  · rename_i hhalf
    have hhalf : (1 / 2 : ℚ) ≤ (m % u : ℕ) / u := by
      rw [div_le_div_iff₀ two_pos hu']
      exact_mod_cast (by omega : 1 * u ≤ m % u * 2)
    rw [Int.cast_natCast, Nat.cast_add, Nat.cast_one]
    constructor <;> linarith
  · rename_i hhalf
    have hhalf : ((m % u : ℕ) : ℚ) / u < 1 / 2 := by
      rw [div_lt_div_iff₀ hu' two_pos]
      exact_mod_cast (by omega : m % u * 2 < 1 * u)
    rw [Int.cast_natCast]
    constructor <;> linarith

theorem round_zero {x : Float} {s : Sign} (hu : x.toModel.unpack = .zero s) :
    (round x).isFinite = true ∧ value (round x) = 0 := by
  unfold round toInteger
  rw [decode_eq, hu]
  obtain ⟨hfinite, hzero⟩ := value_natural (n := 0) (by decide)
  cases s with
  | positive => exact ⟨hfinite, by exact_mod_cast hzero⟩
  | negative =>
    refine ⟨(finite_neg _).trans hfinite, ?_⟩
    change value (-Float.ofNat 0) = _
    rw [value_neg, hzero]
    norm_num

/-- A number without a fraction stays as it is. -/
theorem round_whole {x : Float} {s : Sign} {m k : ℕ} {hm : 0 < m} (hu : x.toModel.unpack = .finite s m k hm) :
    round x = x := by
  unfold round toInteger
  rw [decode_eq, hu]
  exact if_pos (Int.natCast_nonneg k)

/-- Below one unit the mantissa is cut, and a half goes up. -/
theorem round_fraction {x : Float} {m k : ℕ} {hm : 0 < m} (hu : x.toModel.unpack = .finite .positive m (-k) hm)
    (hk : 0 < k) : round x = Float.ofNat (if 1 <<< k ≤ 2 * (m % 1 <<< k) then m / 1 <<< k + 1 else m / 1 <<< k) := by
  unfold round toInteger
  rw [decode_eq, hu]
  simp only [Value.ofUnpacked, isNegative, withSign, Bool.false_eq_true, if_false]
  rw [if_neg (by omega)]
  simp only [neg_neg, Int.toNat_natCast, decide_eq_true_eq]

/-- Rounding up needs no more digits where a fraction is cut off. -/
theorem rounded_lt {m k : ℕ} (hm : m < 2 ^ 53) (hk : 0 < k) :
    (if 1 <<< k ≤ 2 * (m % 1 <<< k) then m / 1 <<< k + 1 else m / 1 <<< k) < 2 ^ 53 := by
  have hhalf : m / 1 <<< k ≤ m / 2 :=
    Nat.div_le_div_left (Nat.one_shiftLeft k ▸ Nat.le_self_pow (by omega) 2) two_pos
  split <;> omega

/-- Halves of a number that is not negative go up. -/
theorem value_round {x : Float} (hx : x.isFinite = true) (h : 0 ≤ value x) :
    (round x).isFinite = true ∧ value (round x) = ⌊value x + 1 / 2⌋ := by
  obtain ⟨s, hu⟩ | ⟨s, m, e, hm, hu⟩ := finite_cases hx
  · have hvalue : value x = 0 := by rw [value, hu, worth_zero]
    have hfloor : ⌊(0 : ℚ) + 1 / 2⌋ = 0 := by norm_num
    rw [hvalue, hfloor, Int.cast_zero]
    exact round_zero hu
  · obtain ⟨rfl, hvalue⟩ := positive_of_value hu h
    obtain ⟨k, rfl⟩ | ⟨k, rfl⟩ : (∃ k : ℕ, e = k) ∨ ∃ k : ℕ, e = -(k + 1 : ℕ) := by
      cases e with
      | ofNat k => exact .inl ⟨k, rfl⟩
      | negSucc k => exact .inr ⟨k, rfl⟩
    · have hint : value x = ((m * 2 ^ k : ℕ) : ℤ) := by
        rw [hvalue]
        push_cast
        rfl
      rw [round_whole hu, hint]
      refine ⟨hx, ?_⟩
      rw [Int.cast_inj, eq_comm, Int.floor_eq_iff]
      constructor <;> linarith
    · have hfraction : value x = m / (1 <<< (k + 1) : ℕ) := by
        rw [hvalue, zpow_neg, zpow_natCast, Nat.one_shiftLeft, div_eq_mul_inv]
        push_cast
        rfl
      have hunit : 0 < 1 <<< (k + 1) := by
        rw [Nat.one_shiftLeft]
        positivity
      obtain ⟨hfinite, hnatural⟩ := value_natural (rounded_lt (unpack_size hu).1 k.succ_pos)
      rw [round_fraction hu k.succ_pos, hfraction, ← floor_add_half m hunit]
      exact ⟨hfinite, hnatural⟩

end Whisker.Binary
