import Mathlib
import Whisker.Scalar.Binary

/-!
# Rounding to binary64

A finite number is a signed mantissa times a power of two. Arithmetic forms a mantissa and an exponent that
may be too long, cuts the mantissa to 53 bits and rounds it up or down. Here only this much is used of the
rounding: the result is the exact number if that can be kept, and else a neighbour of it. So a rounded number
never passes a number of the grid, and it is finite if the exact one is not larger than the largest.
-/

namespace Whisker.Binary

open Float.Model (Format UnpackedFloat totalExponent)
open Float.Model.UnpackedFloat (Sign ExtendedMantissa Accuracy shiftToTargetExponent shiftToExponent roundWithAccuracy
  decreaseExponent)

def signed : Sign → ℚ → ℚ
  | .negative, q => -q
  | .positive, q => q

/-- The rational number that a finite number stands for. -/
def worth : UnpackedFloat → ℚ
  | .finite s m e _ => signed s (m * 2 ^ e)
  | _ => 0

/-- The numbers that binary64 would hold if exponents had no upper limit. -/
def OnGrid (q : ℚ) : Prop := ∃ (m : ℕ) (e : ℤ), m < 2 ^ 53 ∧ -1074 ≤ e ∧ |q| = m * 2 ^ e

/-- The mantissa has 53 bits, or fewer at the lowest exponent. -/
def Reduced : UnpackedFloat → Prop
  | .finite _ m e _ => m < 2 ^ 53 ∧ -1074 ≤ e ∧ (2 ^ 52 ≤ m ∨ e = -1074)
  | _ => True

theorem signed_neg (s : Sign) (q : ℚ) : signed (-s) q = -signed s q := by
  cases s with
  | negative => exact (neg_neg q).symm
  | positive => rfl

theorem signed_zero (s : Sign) : signed s 0 = 0 := by
  cases s with
  | negative => exact neg_zero
  | positive => rfl

theorem abs_signed (s : Sign) (q : ℚ) : |signed s q| = |q| := by
  cases s with
  | negative => exact abs_neg q
  | positive => rfl

theorem onGrid_neg {q : ℚ} (h : OnGrid q) : OnGrid (-q) := by
  simpa [OnGrid] using h

theorem onGrid_signed {q : ℚ} (h : OnGrid q) (s : Sign) : OnGrid (signed s q) := by
  cases s with
  | negative => exact onGrid_neg h
  | positive => exact h

theorem onGrid_mul_two_zpow {m : ℕ} {e : ℤ} (hm : m < 2 ^ 53) (he : -1074 ≤ e) : OnGrid (m * 2 ^ e) :=
  ⟨m, e, hm, he, abs_of_nonneg (by positivity)⟩

theorem onGrid_natCast {n : ℕ} (h : n < 2 ^ 53) : OnGrid n := by
  simpa using onGrid_mul_two_zpow (e := 0) h (by decide)

theorem onGrid_zero : OnGrid 0 := by
  simpa using onGrid_natCast (n := 0) (by decide)

theorem onGrid_worth {u : UnpackedFloat} (h : Reduced u) : OnGrid (worth u) := by
  cases u with
  | infinity s => exact onGrid_zero
  | notANumber => exact onGrid_zero
  | zero s => exact onGrid_zero
  | finite s m e hm => exact onGrid_signed (onGrid_mul_two_zpow h.1 h.2.1) s

/-- The second number is the first one rounded: no number of the grid lies between. -/
structure Rounds (q w : ℚ) : Prop where
  le : ∀ {b : ℚ}, OnGrid b → q ≤ b → w ≤ b
  ge : ∀ {b : ℚ}, OnGrid b → b ≤ q → b ≤ w

theorem Rounds.refl (q : ℚ) : Rounds q q := ⟨fun _ h => h, fun _ h => h⟩

theorem Rounds.eq {q w : ℚ} (h : Rounds q w) (hq : OnGrid q) : w = q := le_antisymm (h.le hq le_rfl) (h.ge hq le_rfl)

theorem Rounds.neg {q w : ℚ} (h : Rounds q w) : Rounds (-q) (-w) where
  le hb hq := neg_le.1 (h.ge (onGrid_neg hb) (neg_le.1 hq))
  ge hb hq := le_neg.1 (h.le (onGrid_neg hb) (le_neg.1 hq))

theorem Rounds.signed {q w : ℚ} (h : Rounds q w) (s : Sign) : Rounds (signed s q) (signed s w) := by
  cases s with
  | negative => exact h.neg
  | positive => exact h

/-- A mantissa with its two spare bits stands for a number: it is the integer part, and all of it if no bit is set. -/
structure Cuts (em : ExtendedMantissa) (q : ℚ) : Prop where
  le : (em.mantissa : ℚ) ≤ q
  lt : q < em.mantissa + 1
  exact : (em.roundBit || em.stickyBit) = false ↔ q = em.mantissa

theorem cuts_exact (m : ℕ) : Cuts (.ofMantissaAndAccuracy m .exact) m where
  le := le_rfl
  lt := lt_add_one _
  exact := ⟨fun _ => rfl, fun _ => rfl⟩

theorem Cuts.shiftRightOne {em : ExtendedMantissa} {q : ℚ} (h : Cuts em q) : Cuts em.shiftRightOne (q / 2) := by
  have hm : (em.mantissa : ℚ) = 2 * (em.mantissa / 2 : ℕ) + (em.mantissa % 2 : ℕ) := by
    exact_mod_cast (Nat.div_add_mod em.mantissa 2).symm
  have hle := h.le
  have hlt := h.lt
  have hexact := h.exact
  rcases Nat.mod_two_eq_zero_or_one em.mantissa with hr | hr
  · rw [hr, Nat.cast_zero, add_zero] at hm
    refine ⟨?_, ?_, ?_⟩
    · simp only [ExtendedMantissa.shiftRightOne]
      linarith
    · simp only [ExtendedMantissa.shiftRightOne]
      linarith
    · simp only [ExtendedMantissa.shiftRightOne, hr, bne_self_eq_false, Bool.false_or, hexact]
      constructor <;> intro hq <;> linarith
  · rw [hr, Nat.cast_one] at hm
    refine ⟨?_, ?_, ?_⟩
    · simp only [ExtendedMantissa.shiftRightOne]
      linarith
    · simp only [ExtendedMantissa.shiftRightOne]
      linarith
    · simp only [ExtendedMantissa.shiftRightOne, hr]
      constructor
      · intro hq
        cases hq
      · intro hq
        linarith

theorem Cuts.shiftRight {em : ExtendedMantissa} {q : ℚ} (h : Cuts em q) (n : ℕ) : Cuts (em >>> n) (q / 2 ^ n) := by
  change Cuts (n.repeat ExtendedMantissa.shiftRightOne em) _
  induction n with
  | zero => simpa [Nat.repeat] using h
  | succ n ih =>
    rw [Nat.repeat, pow_succ, ← div_div]
    exact ih.shiftRightOne

theorem le_roundedMantissa (em : ExtendedMantissa) : em.mantissa ≤ em.roundedMantissa := by
  obtain ⟨m, round, sticky⟩ := em
  cases round <;> cases sticky <;>
    simp only [ExtendedMantissa.roundedMantissa, ExtendedMantissa.accuracy, Accuracy.roundToNearestEven] <;> omega

theorem roundedMantissa_le (em : ExtendedMantissa) : em.roundedMantissa ≤ em.mantissa + 1 := by
  obtain ⟨m, round, sticky⟩ := em
  cases round <;> cases sticky <;>
    simp only [ExtendedMantissa.roundedMantissa, ExtendedMantissa.accuracy, Accuracy.roundToNearestEven] <;> omega

/-- The rounded mantissa does not pass an integer. -/
theorem Cuts.rounded_le {em : ExtendedMantissa} {q : ℚ} (h : Cuts em q) {n : ℕ} (hn : q ≤ n) :
    em.roundedMantissa ≤ n := by
  have hle : em.mantissa ≤ n := by exact_mod_cast h.le.trans hn
  rcases hle.lt_or_eq with hlt | heq
  · exact (roundedMantissa_le em).trans hlt
  · -- Only an exact mantissa reaches the integer, and it is not rounded.
    have hq : q = em.mantissa := le_antisymm (heq ▸ hn) h.le
    obtain ⟨m, round, sticky⟩ := em
    have hbits := h.exact.2 hq
    simp only [Bool.or_eq_false_iff] at hbits
    obtain ⟨rfl, rfl⟩ := hbits
    exact hle

/-- A count below the exact size is below the rounded one. -/
theorem Cuts.le_rounded {em : ExtendedMantissa} {q : ℚ} (h : Cuts em q) {n : ℕ} (hn : (n : ℚ) ≤ q) :
    n ≤ em.roundedMantissa := by
  have hlt : (n : ℚ) < (em.mantissa + 1 : ℕ) := by
    push_cast
    exact hn.trans_lt h.lt
  exact (Nat.le_of_lt_succ (Nat.cast_lt.1 hlt)).trans (le_roundedMantissa em)

theorem two_zpow_add (a b : ℤ) : (2 : ℚ) ^ (a + b) = 2 ^ a * 2 ^ b := zpow_add₀ two_ne_zero a b

theorem two_zpow_of_le {a b : ℤ} (h : a ≤ b) : (2 : ℚ) ^ b = 2 ^ (b - a).toNat * 2 ^ a := by
  rw [← zpow_natCast, ← two_zpow_add, Int.toNat_of_nonneg (by omega), sub_add_cancel]

theorem two_zpow_mono {a b : ℤ} (h : a ≤ b) : (2 : ℚ) ^ a ≤ 2 ^ b := zpow_le_zpow_right₀ one_le_two h

/-- A number of the grid is a multiple of a power of two, or small beside it. -/
theorem OnGrid.multiple_or_lt {b : ℚ} (h : OnGrid b) (hb : 0 ≤ b) (t : ℤ) :
    (∃ n : ℕ, b = n * 2 ^ t) ∨ t ≠ -1074 ∧ b < 2 ^ 52 * 2 ^ t := by
  obtain ⟨k, e, hk, he, hke⟩ := h
  rw [abs_of_nonneg hb] at hke
  rcases le_or_gt t e with hte | het
  · refine .inl ⟨k * 2 ^ (e - t).toNat, ?_⟩
    rw [hke, two_zpow_of_le hte]
    push_cast
    ring
  · -- A finer grid has no more bits, so its numbers stay below 53 bits of the coarser one.
    refine .inr ⟨by omega, ?_⟩
    have hk : (k : ℚ) < 2 ^ 53 := by exact_mod_cast hk
    calc b = k * 2 ^ e := hke
      _ < 2 ^ 53 * 2 ^ e := by gcongr
      _ = 2 ^ 52 * 2 ^ (e + 1) := by rw [two_zpow_add]; ring
      _ ≤ 2 ^ 52 * 2 ^ t := by gcongr; exact one_le_two; omega

/-- Rounding the mantissa rounds the number, if the mantissa is long enough for the grid. -/
theorem Cuts.rounds {em : ExtendedMantissa} {p : ℚ} {t : ℤ} (h : Cuts em p) (hlong : 2 ^ 52 ≤ p ∨ t = -1074) :
    Rounds (p * 2 ^ t) (em.roundedMantissa * 2 ^ t) := by
  have ht : (0 : ℚ) < 2 ^ t := by positivity
  have hp : 0 ≤ p * 2 ^ t := mul_nonneg ((Nat.cast_nonneg _).trans h.le) ht.le
  refine ⟨fun {b} hb hle => ?_, fun {b} hb hge => ?_⟩
  · rcases hb.multiple_or_lt (hp.trans hle) t with ⟨n, rfl⟩ | ⟨hne, hlt⟩
    · have hn := h.rounded_le (le_of_mul_le_mul_right hle ht)
      gcongr
    · -- A long mantissa lies above all numbers of the finer grid.
      have hlow := mul_le_mul_of_nonneg_right (hlong.resolve_right hne) ht.le
      linarith
  · rcases le_total b 0 with hb0 | hb0
    · exact hb0.trans (by positivity)
    · rcases hb.multiple_or_lt hb0 t with ⟨n, rfl⟩ | ⟨hne, hlt⟩
      · have hn := h.le_rounded (le_of_mul_le_mul_right hge ht)
        gcongr
      · have hlow : (2 ^ 52 : ℕ) ≤ em.roundedMantissa := h.le_rounded (by exact_mod_cast hlong.resolve_right hne)
        have hlow : (2 ^ 52 : ℚ) ≤ em.roundedMantissa := by exact_mod_cast hlow
        exact hlt.le.trans (mul_le_mul_of_nonneg_right hlow ht.le)

/-- The exponent at which a number keeps 53 bits, or the lowest one. -/
def aim (m : ℕ) (e : ℤ) : ℤ := max (m.log2 + 1 + e - 53) (-1074)

theorem targetExponent_totalExponent (m : ℕ) (e : ℤ) :
    Format.binary64.targetExponent (totalExponent m e) = aim m e := rfl

theorem le_aim (m : ℕ) (e : ℤ) : -1074 ≤ aim m e := le_max_right _ _

/-- A mantissa too long is cut down to the exponent it aims for. -/
theorem shiftToTargetExponent_eq {m : ℕ} {e : ℤ} {acc : Accuracy} (h : e ≤ aim m e) :
    shiftToTargetExponent .binary64 m e acc =
      (ExtendedMantissa.ofMantissaAndAccuracy m acc >>> (aim m e - e).toNat, aim m e) := by
  simp only [shiftToTargetExponent, shiftToExponent, targetExponent_totalExponent, Prod.mk.injEq, true_and]
  omega

theorem ofMantissaAndAccuracy_mantissa (m : ℕ) (acc : Accuracy) :
    (ExtendedMantissa.ofMantissaAndAccuracy m acc).mantissa = m := by
  cases acc with
  | exact => rfl
  | inexact o => cases o <;> rfl

/-- The cut mantissa has at most 53 bits, and no fewer unless the exponent is the lowest. -/
theorem cut_size {m : ℕ} {e : ℤ} {acc : Accuracy} {q : ℚ} (h : Cuts (.ofMantissaAndAccuracy m acc) q)
    (he : e ≤ aim m e) :
    q / 2 ^ (aim m e - e).toNat < 2 ^ 53 ∧ (2 ^ 52 ≤ q / 2 ^ (aim m e - e).toNat ∨ aim m e = -1074) := by
  have hle := h.le
  have hlt := h.lt
  rw [ofMantissaAndAccuracy_mantissa] at hle hlt
  constructor
  · have hm : m + 1 ≤ 2 ^ (m.log2 + 1) := Nat.lt_log2_self
    have hn : m.log2 + 1 ≤ 53 + (aim m e - e).toNat := by
      unfold aim at he ⊢
      omega
    have hq : m + 1 ≤ 2 ^ 53 * 2 ^ (aim m e - e).toNat := by
      rw [← pow_add]
      exact hm.trans (Nat.pow_le_pow_right (by decide) hn)
    rw [div_lt_iff₀ (by positivity)]
    exact hlt.trans_le (by exact_mod_cast hq)
  · rcases eq_or_lt_of_le (le_aim m e) with hlow | hlow
    · exact .inr hlow.symm
    · have hn : m.log2 = 52 + (aim m e - e).toNat := by
        unfold aim at he hlow ⊢
        omega
      have hm : m ≠ 0 := by
        rintro rfl
        rw [Nat.log2_zero] at hn
        omega
      have hq : 2 ^ 52 * 2 ^ (aim m e - e).toNat ≤ m := by
        rw [← pow_add, ← hn]
        exact Nat.log2_self_le hm
      left
      rw [le_div_iff₀ (by positivity)]
      exact le_trans (by exact_mod_cast hq) hle

/-- A mantissa that rounding has made one bit too long is cut once more, without loss. -/
theorem carry {r : ℕ} {t : ℤ} (hr : r ≤ 2 ^ 53) (ht : -1074 ≤ t) (hlong : 2 ^ 52 ≤ r ∨ t = -1074) :
    ∃ (m : ℕ) (e : ℤ), (shiftToTargetExponent .binary64 r t .exact).1.mantissa = m ∧
      (shiftToTargetExponent .binary64 r t .exact).2 = e ∧ (m : ℚ) * 2 ^ e = r * 2 ^ t ∧
      m < 2 ^ 53 ∧ -1074 ≤ e ∧ (2 ^ 52 ≤ m ∨ e = -1074) := by
  rcases hr.lt_or_eq with hr | rfl
  · have hl : r.log2 < 53 := by
      rcases Nat.eq_zero_or_pos r with rfl | hpos
      · decide
      · exact (Nat.log2_lt hpos.ne').2 hr
    have haim : aim r t ≤ t := by
      unfold aim
      omega
    have hn : (aim r t - t).toNat = 0 := by omega
    refine ⟨r, t, ?_, ?_, rfl, hr, ht, hlong⟩
    · simp only [shiftToTargetExponent, shiftToExponent, targetExponent_totalExponent, hn]
      rfl
    · simp only [shiftToTargetExponent, shiftToExponent, targetExponent_totalExponent, hn]
      omega
  · have haim : aim (2 ^ 53) t = t + 1 := by
      simp only [aim, Nat.log2_two_pow]
      omega
    have hn : (t + 1 - t).toNat = 1 := by omega
    refine ⟨2 ^ 52, t + 1, ?_, ?_, ?_, by decide, by omega, .inl le_rfl⟩
    · simp only [shiftToTargetExponent, shiftToExponent, targetExponent_totalExponent, haim, hn]
      rfl
    · simp only [shiftToTargetExponent, shiftToExponent, targetExponent_totalExponent, haim, hn]
      rfl
    · rw [two_zpow_add]
      norm_num
      ring

/-- A finite number in reduced form, rounded from `q`. -/
structure Rounded (q : ℚ) (u : UnpackedFloat) : Prop where
  finite : u.isFinite = true
  reduced : Reduced u
  rounds : Rounds q (worth u)

/-- Cutting, rounding and carrying lead to the rounded number. -/
theorem rounded_roundWithAccuracy {m : ℕ} {e : ℤ} {acc : Accuracy} {q : ℚ} (s : Sign)
    (h : Cuts (.ofMantissaAndAccuracy m acc) q) (he : e ≤ aim m e) :
    Rounded (signed s (q * 2 ^ e)) (roundWithAccuracy .binary64 s m e acc) := by
  obtain ⟨hshort, hlong⟩ := cut_size h he
  have hcut := h.shiftRight (aim m e - e).toNat
  have hq : q * 2 ^ e = q / 2 ^ (aim m e - e).toNat * 2 ^ aim m e := by
    rw [two_zpow_of_le he]
    field_simp
  have hr : (ExtendedMantissa.ofMantissaAndAccuracy m acc >>> (aim m e - e).toNat).roundedMantissa ≤ 2 ^ 53 :=
    hcut.rounded_le (by exact_mod_cast hshort.le)
  have hl : 2 ^ 52 ≤ (ExtendedMantissa.ofMantissaAndAccuracy m acc >>> (aim m e - e).toNat).roundedMantissa ∨
      aim m e = -1074 := hlong.imp_left fun hlong => hcut.le_rounded (by exact_mod_cast hlong)
  -- Rounding up may fill a 54th bit, and the second shift takes it back.
  obtain ⟨m', e', hm', he', hsame, hsize⟩ := carry hr (le_aim m e) hl
  have hrounds := hcut.rounds hlong
  rw [← hq, ← hsame] at hrounds
  simp only [roundWithAccuracy, shiftToTargetExponent_eq he, hm', he']
  split
  · rename_i hzero
    have hrounds := hrounds.signed s
    rw [hzero, Nat.cast_zero, zero_mul, signed_zero] at hrounds
    exact ⟨rfl, trivial, hrounds⟩
  · exact ⟨rfl, hsize, hrounds.signed s⟩

/-- Shifting zeros into a mantissa keeps the number and the exponent to aim at. -/
theorem le_aim_widened {m : ℕ} (hm : m ≠ 0) (e : ℤ) :
    e - (e - aim m e).toNat ≤ aim (m <<< (e - aim m e).toNat) (e - (e - aim m e).toNat) := by
  have hlog : m.log2 + (e - aim m e).toNat ≤ (m <<< (e - aim m e).toNat).log2 := by
    rw [Nat.shiftLeft_eq, Nat.le_log2 (by positivity), pow_add]
    exact Nat.mul_le_mul_right _ (Nat.log2_self_le hm)
  unfold aim at hlog ⊢
  omega

/-- A mantissa too short is widened without a change of value. -/
theorem widened_eq (m : ℕ) (e : ℤ) :
    (m : ℚ) * 2 ^ e = (m <<< (e - aim m e).toNat : ℕ) * 2 ^ (e - (e - aim m e).toNat) := by
  rw [Nat.shiftLeft_eq, two_zpow_of_le (show e - (e - aim m e).toNat ≤ e by omega), sub_sub_cancel, Int.toNat_natCast]
  push_cast
  ring

theorem rounded_round {m : ℕ} (hm : m ≠ 0) (e : ℤ) (s : Sign) :
    Rounded (signed s (m * 2 ^ e)) (UnpackedFloat.round .binary64 s m e) := by
  simp only [UnpackedFloat.round, targetExponent_totalExponent, decreaseExponent]
  rw [widened_eq]
  exact rounded_roundWithAccuracy s (cuts_exact _) (le_aim_widened hm e)

theorem rounded_normalize (n e : ℤ) (s : Sign) : Rounded (n * 2 ^ e) (UnpackedFloat.normalize .binary64 n e s) := by
  unfold UnpackedFloat.normalize
  rcases lt_trichotomy n 0 with hn | rfl | hn
  · rw [compare_lt_iff_lt.2 hn]
    have h := rounded_round (m := (-n).toNat) (by omega) e .negative
    rw [show ((-n).toNat : ℚ) = -n by exact_mod_cast Int.toNat_of_nonneg (by omega : 0 ≤ -n)] at h
    simpa [signed] using h
  · rw [Int.cast_zero, zero_mul]
    exact ⟨rfl, trivial, Rounds.refl 0⟩
  · rw [compare_gt_iff_gt.2 hn]
    have h := rounded_round (m := n.toNat) (by omega) e .positive
    rw [show (n.toNat : ℚ) = n by exact_mod_cast Int.toNat_of_nonneg hn.le] at h
    exact h

end Whisker.Binary
