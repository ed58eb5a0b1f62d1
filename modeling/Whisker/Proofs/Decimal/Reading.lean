import Whisker.Proofs.Scalar.Place
import Whisker.Proofs.Scalar.Rational

/-!
# Numbers read from digits

Digits and a power of ten are a decimal, and reading gives the number that the decimal is rounded to. Powers far out of
range are never formed: the length of the digits alone decides there, and the decimal of a finite number is not among
these.
-/

namespace Whisker.Binary

open Scalar (inf)
open Float.Model (UnpackedFloat)
open Float.Model.UnpackedFloat (Sign Accuracy roundWithAccuracy)

/-- Digits and a power of ten are rounded once, from a mantissa with all that is left out told apart from a half. -/
theorem exists_round {m : ℕ} (hm : m ≠ 0) {e : ℤ} (hlow : -(2 ^ 11 + m.log2) ≤ e) (hhigh : e ≤ 2 ^ 11) :
    ∃ (n : ℕ) (f : ℤ) (acc : Accuracy) (p : ℚ),
      UnpackedFloat.ofScientific .binary64 m e = roundWithAccuracy .binary64 .positive n f acc ∧
        Halves (.ofMantissaAndAccuracy n acc) p ∧ f ≤ aim n f ∧ p * 2 ^ f = m * 10 ^ e := by
  have hpos : 0 < m := Nat.pos_of_ne_zero hm
  unfold UnpackedFloat.ofScientific
  rw [dif_neg hm, if_neg (not_lt.2 hhigh), if_neg (not_lt.2 hlow)]
  split
  · rename_i he
    obtain ⟨k, rfl⟩ := Int.eq_ofNat_of_zero_le he
    -- The mantissa is made long enough by zeros.
    have hlong : 2 ^ 53 ≤ m <<< 53 * 10 ^ k := by
      rw [Nat.shiftLeft_eq]
      exact le_trans (Nat.le_mul_of_pos_left _ hpos) (Nat.le_mul_of_pos_right _ (by positivity))
    have haim : (-53 + 0 : ℤ) ≤ aim (m <<< 53 * 10 ^ k) (-53 + 0) := by
      have hlog := (Nat.le_log2 (by omega)).2 hlong
      unfold aim
      omega
    refine ⟨m <<< 53 * 10 ^ k, -53 + 0, .exact, _, rfl, halves_exact _, haim, ?_⟩
    rw [Nat.shiftLeft_eq]
    push_cast
    norm_num
    ring
  · rename_i he
    obtain ⟨k, rfl⟩ : ∃ k : ℕ, e = -k := ⟨(-e).toNat, by omega⟩
    have hten : 0 < 10 ^ (-(-k : ℤ)).toNat := by positivity
    let low : ℤ := min (0 - 0) (max (m.log2 + 1 + 0 - ((10 ^ (-(-k : ℤ)).toNat : ℕ).log2 + 1 + 0) - 53) (-1074))
    refine ⟨m <<< (0 - 0 - low).toNat / 10 ^ (-(-k : ℤ)).toNat, low, _, _, rfl, halves_div _ hten,
      le_aim_div (e := 0) (f := 0) hpos hten (min_le_right _ _), ?_⟩
    rw [quotient_eq (e := 0) (f := 0) (min_le_left _ _ : low ≤ 0 - 0)]
    simp [div_eq_mul_inv]

/-- Reading a decimal settles on the number nearest to it, as long as its exponent is not out of all bounds. -/
theorem settles_ofScientific {m : ℕ} (hm : m ≠ 0) {e : ℤ} (hlow : -(2 ^ 11 + m.log2) ≤ e) (hhigh : e ≤ 2 ^ 11) :
    Settles (m * 10 ^ e) (UnpackedFloat.ofScientific .binary64 m e) := by
  obtain ⟨n, f, acc, p, hu, hhalves, hf, hp⟩ := exists_round hm hlow hhigh
  rw [hu, ← hp]
  exact settles_roundWithAccuracy .positive hhalves hf

/-- Whether a number is `10 ^ k`, compared as integers over `2 ^ 60`. -/
def isTenPow (k : ℕ) : UnpackedFloat → Bool
  | .finite .positive m e _ => -60 ≤ e && m * 2 ^ (e + 60).toNat == 10 ^ k * 2 ^ 60
  | _ => false

theorem worth_of_isTenPow {k : ℕ} {u : UnpackedFloat} (h : isTenPow k u = true) : u.isFinite = true ∧ worth u = 10 ^ k := by
  unfold isTenPow at h
  split at h
  · rename_i m e _
    rw [Bool.and_eq_true, decide_eq_true_iff, beq_iff_eq] at h
    refine ⟨rfl, ?_⟩
    have hm : (m * 2 ^ (e + 60).toNat : ℚ) = 10 ^ k * 2 ^ 60 := by exact_mod_cast h.2
    have he : (2 : ℚ) ^ (e + 60).toNat = 2 ^ e * 2 ^ 60 := by
      rw [← zpow_natCast, Int.toNat_of_nonneg (by omega), two_zpow_add]
      rfl
    rw [he, ← mul_assoc] at hm
    exact mul_right_cancel₀ (by positivity) hm
  · cases h

/-- The table of exact powers of ten holds what it should. -/
theorem isTenPow_table : ∀ k : Fin Float.exactlyRepresentablePowersOfTen.size,
    isTenPow k Float.exactlyRepresentablePowersOfTen[k].toModel.unpack = true := by
  decide

/-- A power of ten from the table has its value. -/
theorem value_power {k : ℕ} (h : k < Float.exactlyRepresentablePowersOfTen.size) :
    Float.exactlyRepresentablePowersOfTen[k].isFinite = true ∧ value Float.exactlyRepresentablePowersOfTen[k] = 10 ^ k :=
  worth_of_isTenPow (isTenPow_table ⟨k, h⟩)

/-- Short digits and small powers are read by one operation on exact numbers, all else by a division or a product of
integers. -/
theorem exists_ofScientific {m : ℕ} (hm : m ≠ 0) (down : Bool) {k : ℕ} {e : ℤ} (he : e = if down then -(k : ℤ) else k)
    (hlow : -(2 ^ 11 + m.log2) ≤ e) (hhigh : e ≤ 2 ^ 11) :
    ∃ u, Float.ofScientific m down k = .ofModel (.pack u) ∧ Settles (m * 10 ^ e) u := by
  unfold Float.ofScientific
  split
  · rename_i hshort
    obtain ⟨hf, hv⟩ := value_toFloat hshort.1
    obtain ⟨hpf, hpv⟩ := value_power (Nat.lt_succ_of_le hshort.2)
    cases down with
    | true =>
      refine ⟨_, rfl, ?_⟩
      have h := settles_div hf hpf (by change value _ ≠ 0; rw [hpv]; positivity)
      change Settles (value _ / value _) _ at h
      rw [hv, hpv] at h
      rw [he, if_pos rfl, zpow_neg, zpow_natCast, ← div_eq_mul_inv]
      exact h
    | false =>
      refine ⟨_, rfl, ?_⟩
      have h := settles_mul hf hpf (reduced_unpack _) (reduced_unpack _)
      change Settles (value _ * value _) _ at h
      rw [hv, hpv] at h
      rw [he, if_neg Bool.false_ne_true, zpow_natCast]
      exact h
  · have h := settles_ofScientific hm hlow hhigh
    refine ⟨_, ?_, h⟩
    cases down with
    | true => 
      obtain rfl : e = Int.negOfNat k := by rw [he, if_pos rfl, Int.negOfNat_eq]; rfl
      rfl
    | false => 
      obtain rfl : e = Int.ofNat k := he
      rfl

theorem smallest_lt : (10 : ℚ) ^ (-324 : ℤ) < 2 ^ (-1075 : ℤ) := by
  have hpow : (2 : ℕ) ^ 1075 < 10 ^ 324 := by omega
  have hpow : (2 : ℚ) ^ (1075 : ℤ) < 10 ^ (324 : ℤ) := by exact_mod_cast hpow
  rw [zpow_neg, zpow_neg]
  exact inv_strictAnti₀ (by positivity) hpow

/-- What lies next to a finite number is within the range. -/
theorem near_range {x : Float} {s : Sign} {m : ℕ} {e : ℤ} {hm : 0 < m} (hx : x.toModel.unpack = .finite s m e hm) {q : ℚ}
    (h : Near m e q) : (10 : ℚ) ^ (-324 : ℤ) < q ∧ q < 10 ^ (309 : ℤ) := by
  obtain ⟨hshort, hlow, hhigh, -⟩ := unpack_size hx
  have hm1 : (1 : ℚ) ≤ m := by exact_mod_cast hm
  have hm2 : (m + 1 : ℚ) ≤ 2 ^ 53 := by exact_mod_cast hshort
  constructor
  · calc (10 : ℚ) ^ (-324 : ℤ) < 2 ^ (-1075 : ℤ) := smallest_lt
      _ = 1 / 2 * 2 ^ (-1074 : ℤ) := half_smallest
      _ ≤ (m - 1 / 2) * 2 ^ e := mul_le_mul (by linarith) (two_zpow_mono hlow) (by positivity) (by linarith)
      _ ≤ q := (lowest_ge m e).trans h.lowest_le
  · have hpow : (2 : ℕ) ^ 1024 < 10 ^ 309 := by omega
    have hpow : (2 : ℚ) ^ 1024 < 10 ^ 309 := by exact_mod_cast hpow
    calc q ≤ (m + 1 / 2) * 2 ^ e := h.le_highest.trans_eq (highest_eq m e)
      _ ≤ 2 ^ 53 * 2 ^ (971 : ℤ) := mul_le_mul (by linarith) (two_zpow_mono hhigh) (by positivity) (by positivity)
      _ = 2 ^ (53 + 971 : ℤ) := (two_zpow_add 53 971).symm
      _ < 10 ^ (309 : ℤ) := hpow

theorem ten_zpow_lt {a b : ℤ} (h : (10 : ℚ) ^ a < 10 ^ b) : a < b := (zpow_lt_zpow_iff_right₀ (by norm_num)).1 h

theorem ten_zpow_add (a b : ℤ) : (10 : ℚ) ^ (a + b) = 10 ^ a * 10 ^ b := zpow_add₀ (by norm_num) a b

/-- The length of the digits and the power tell how large a decimal is. -/
theorem length_range {m : ℕ} (hm : m ≠ 0) (e : ℤ) :
    (10 : ℚ) ^ ((Decimal.digits m).length - 1 + e : ℤ) ≤ m * 10 ^ e ∧
      (m * 10 ^ e : ℚ) < 10 ^ ((Decimal.digits m).length + e : ℤ) := by
  have hten : (0 : ℚ) < 10 ^ e := by positivity
  have hlength : 0 < (Decimal.digits m).length := Nat.length_toDigits_pos
  have hlow : (10 : ℚ) ^ ((Decimal.digits m).length - 1 : ℤ) ≤ m := by
    rw [show ((Decimal.digits m).length - 1 : ℤ) = ((Decimal.digits m).length - 1 : ℕ) by omega, zpow_natCast]
    exact_mod_cast Exact.ten_pow_length_le hm
  have hhigh : (m : ℚ) < 10 ^ ((Decimal.digits m).length : ℤ) := by
    rw [zpow_natCast]
    exact_mod_cast Exact.lt_ten_pow_length m
  rw [ten_zpow_add, ten_zpow_add]
  exact ⟨mul_le_mul_of_nonneg_right hlow hten.le, mul_lt_mul_of_pos_right hhigh hten⟩

theorem length_le_log2 {m : ℕ} (hm : m ≠ 0) : (Decimal.digits m).length ≤ m.log2 + 1 := by
  have hlt : 2 ^ ((Decimal.digits m).length - 1) < 2 ^ (m.log2 + 1) :=
    calc 2 ^ ((Decimal.digits m).length - 1) ≤ 10 ^ ((Decimal.digits m).length - 1) := Nat.pow_le_pow_left (by decide) _
      _ ≤ m := Exact.ten_pow_length_le hm
      _ < 2 ^ (m.log2 + 1) := Nat.lt_log2_self
  have := (Nat.pow_lt_pow_iff_right (by decide)).1 hlt
  omega

/-- Within the range nothing is cut. -/
theorem ofScientific_eq {m : ℕ} (hm : m ≠ 0) {e : ℤ} (hlow : -330 ≤ (Decimal.digits m).length + e)
    (hhigh : (Decimal.digits m).length + e ≤ 310) : ofScientific m e = Float.ofScientific m (decide (e < 0)) e.natAbs := by
  unfold ofScientific
  simp only
  rw [if_neg hm, if_neg (by omega), if_neg (by omega)]
  split
  · rename_i he
    rw [decide_eq_true he]
  · rename_i he
    rw [decide_eq_false he]

/-- A decimal whose leading digit is near the range is read as the nearest number. -/
theorem settles_of_length {m : ℕ} (hm : m ≠ 0) {e : ℤ} (hlow : -330 ≤ (Decimal.digits m).length + e)
    (hhigh : (Decimal.digits m).length + e ≤ 310) :
    ∃ u, ofScientific m e = .ofModel (.pack u) ∧ Settles (m * 10 ^ e) u := by
  have hlength := length_le_log2 hm
  rw [ofScientific_eq hm hlow hhigh]
  refine exists_ofScientific hm (decide (e < 0)) ?_ (by omega) (by omega)
  by_cases he : e < 0
  · rw [if_pos (decide_eq_true he)]
    omega
  · rw [if_neg (by simpa using he)]
    omega

theorem ofDigits_eq (negative : Bool) (m : ℕ) (e : ℤ) :
    (NumberText.ofDigits negative m e : Float) = withSign negative (ofScientific m e) := rfl

/-- A number is read from every decimal next to it. -/
theorem ofScientific_near {x : Float} {n : ℕ} {f : ℤ} {hn : 0 < n} (hx : x.toModel.unpack = .finite .positive n f hn)
    {m : ℕ} {e : ℤ} (hnear : Near n f (m * 10 ^ e)) : ofScientific m e = x := by
  obtain ⟨hlow, hhigh⟩ := near_range hx hnear
  have hm : m ≠ 0 := by
    rintro rfl
    exact absurd (hnear.pos hn) (by simp)
  obtain ⟨hdown, hup⟩ := length_range hm e
  have hlow := ten_zpow_lt (hlow.trans hup)
  have hhigh := ten_zpow_lt (hdown.trans_lt hhigh)
  obtain ⟨u, hu, hsettles⟩ := settles_of_length (e := e) hm (by omega) (by omega)
  rw [hu]
  exact hsettles.ofModel_pack hx hnear

/-- The short way is one of digits and powers that make no size that small. -/
theorem ofScientific_eq_zero {m : ℕ} (hm : m ≠ 0) {e : ℤ} (hsmall : (m * 10 ^ e : ℚ) ≤ 2 ^ (-1075 : ℤ)) :
    ofScientific m e = 0 := by
  obtain ⟨hdown, -⟩ := length_range hm e
  have hhigh : (Decimal.digits m).length + e ≤ 0 := by
    have hone : (2 : ℚ) ^ (-1075 : ℤ) < 10 ^ (0 : ℤ) := by
      rw [zpow_zero]
      exact zpow_lt_one_of_neg₀ one_lt_two (by decide)
    have := ten_zpow_lt ((hdown.trans hsmall).trans_lt hone)
    omega
  by_cases hlow : -330 ≤ (Decimal.digits m).length + e
  · have hlength := length_le_log2 hm
    have hlength : 0 < (Decimal.digits m).length := Nat.length_toDigits_pos
    obtain ⟨n, f, acc, p, hu, hhalves, hf, hp⟩ := exists_round (e := e) hm (by omega) (by omega)
    rw [← hp] at hsmall
    have hzero := roundWithAccuracy_eq_zero .positive hhalves hf hsmall
    have hlong : ¬(m < 2 ^ 53 ∧ e.natAbs ≤ 22) := by
      rintro ⟨-, he⟩
      have hten : (10 : ℚ) ^ (-22 : ℤ) ≤ 2 ^ (-1075 : ℤ) :=
        (zpow_le_zpow_right₀ (by norm_num) (by omega)).trans (hdown.trans (hp ▸ hsmall))
      have hless : (2 : ℚ) ^ (-1075 : ℤ) < 10 ^ (-22 : ℤ) :=
        (two_zpow_mono (by decide : (-1075 : ℤ) ≤ -100)).trans_lt (by norm_num)
      exact absurd hten (not_le.2 hless)
    rw [ofScientific_eq hm hlow (by omega), Float.ofScientific, dif_neg hlong, decide_eq_true (by omega : e < 0)]
    have he : Int.negOfNat e.natAbs = e := by
      rw [Int.negOfNat_eq]
      change -(e.natAbs : ℤ) = e
      omega
    simp only [if_true, he]
    change Float.ofModel (.pack (UnpackedFloat.ofScientific .binary64 m e)) = 0
    rw [hu, hzero]
    decide
  · unfold ofScientific
    simp only
    rw [if_neg hm, if_neg (by omega), if_pos (by omega)]

/-- Digits and a power are read as the number that their decimal is rounded to. -/
theorem ofScientific_isNearest (m : ℕ) (e : ℤ) : IsNearest (m * 10 ^ e) (ofScientific m e) := by
  by_cases hm : m = 0
  · subst hm
    rw [Nat.cast_zero, zero_mul]
    exact .zero (by positivity)
  obtain ⟨hdown, hup⟩ := length_range hm e
  rcases le_or_gt (m * 10 ^ e : ℚ) (2 ^ (-1075 : ℤ)) with hsmall | hlarge
  · rw [ofScientific_eq_zero hm hsmall]
    exact .zero hsmall
  · obtain ⟨n, f, hn, hr, hnear⟩ := exists_near hlarge
    by_cases hf : f ≤ 971
    · have hunpack := unpack_pack hr hf
      have hread := ofScientific_near (x := .ofModel (.pack (.finite .positive n f hn))) hunpack hnear
      rw [hread]
      exact .finite hunpack hnear
    · have hle := le_of_near hr (by omega) hnear
      have hlow := ten_zpow_lt ((smallest_lt.trans hlarge).trans hup)
      have hread : ofScientific m e = inf := by
        by_cases hhigh : (Decimal.digits m).length + e ≤ 310
        · obtain ⟨u, hu, hsettles⟩ := settles_of_length (e := e) hm (by omega) hhigh
          have hlargest : largest < n * 2 ^ f := by
            refine lt_of_lt_of_le ?_ (le_of_near hr (by omega) (near_self n f))
            exact mul_lt_mul_of_pos_right (by norm_num) (by positivity)
          rw [hu, hsettles.eq hr hnear, (pack_of_largest_lt hr hlargest).2]
          decide
        · unfold ofScientific
          simp only
          rw [if_neg hm, if_pos (by omega)]
          rfl
      rw [hread]
      exact .infinite hle

end Whisker.Binary
