import Whisker.Proofs.Scalar.Order

/-!
# Nearest numbers

Of the two neighbours of an exact number arithmetic takes the nearer one, and of two as near the one with an even
mantissa. So to each number belongs an interval, half a step to either side, and all exact numbers in it are
rounded to that number.
-/

namespace Whisker.Binary

open Float.Model (UnpackedFloat)
open Float.Model.UnpackedFloat (Sign ExtendedMantissa Accuracy roundWithAccuracy)

def half (b : Bool) : ℚ := if b then 1 / 2 else 0

theorem half_nonneg (b : Bool) : 0 ≤ half b := by cases b <;> norm_num [half]

theorem half_le (b : Bool) : half b ≤ 1 / 2 := by cases b <;> norm_num [half]

/-- The round bit of a mantissa is worth a half, and less than another half is left to the sticky bit. -/
structure Halves (em : ExtendedMantissa) (q : ℚ) : Prop where
  le : em.mantissa + half em.roundBit ≤ q
  lt : q < em.mantissa + half em.roundBit + 1 / 2
  exact : em.stickyBit = false ↔ q = em.mantissa + half em.roundBit

variable {em : ExtendedMantissa} {q : ℚ}

theorem Halves.cuts (h : Halves em q) : Cuts em q where
  le := by linarith [h.le, half_nonneg em.roundBit]
  lt := by linarith [h.lt, half_le em.roundBit]
  exact := by
    have hle := h.le
    rw [Bool.or_eq_false_iff, h.exact]
    cases hr : em.roundBit with
    | false => simp [half]
    | true =>
      rw [hr] at hle
      refine iff_of_false (by simp) fun hq => ?_
      norm_num [half] at hle
      linarith

theorem halves_exact (m : ℕ) : Halves (.ofMantissaAndAccuracy m .exact) m where
  le := by simp [ExtendedMantissa.ofMantissaAndAccuracy, half]
  lt := by norm_num [ExtendedMantissa.ofMantissaAndAccuracy, half]
  exact := by simp [ExtendedMantissa.ofMantissaAndAccuracy, half]

theorem Halves.shiftRightOne (h : Halves em q) : Halves em.shiftRightOne (q / 2) := by
  have hm : (em.mantissa : ℚ) = 2 * (em.mantissa / 2 : ℕ) + (em.mantissa % 2 : ℕ) := by
    exact_mod_cast (Nat.div_add_mod em.mantissa 2).symm
  -- The lowest bit of the mantissa becomes the round bit, and the bits below it are the new sticky bit.
  have hbit : ((em.mantissa % 2 : ℕ) : ℚ) = 2 * half (em.mantissa % 2 != 0) := by
    rcases Nat.mod_two_eq_zero_or_one em.mantissa with hr | hr <;> norm_num [hr, half]
  have hcuts := h.cuts
  rw [hbit] at hm
  refine ⟨?_, ?_, ?_⟩
  · simp only [ExtendedMantissa.shiftRightOne]
    linarith [hcuts.le]
  · simp only [ExtendedMantissa.shiftRightOne]
    linarith [hcuts.lt]
  · simp only [ExtendedMantissa.shiftRightOne, hcuts.exact]
    constructor <;> intro hq <;> linarith

theorem Halves.shiftRight (h : Halves em q) (n : ℕ) : Halves (em >>> n) (q / 2 ^ n) := by
  change Halves (n.repeat ExtendedMantissa.shiftRightOne em) _
  induction n with
  | zero => simpa [Nat.repeat] using h
  | succ n ih =>
    rw [Nat.repeat, pow_succ, ← div_div]
    exact ih.shiftRightOne

/-- The remainder of a division, beside half the divisor, gives both bits. -/
theorem halves_div (m : ℕ) {n : ℕ} (hn : 0 < n) :
    Halves (.ofMantissaAndAccuracy (m / n) (UnpackedFloat.accuracyOfFraction (m % n) n)) (m / n : ℚ) := by
  have hn' : (0 : ℚ) < n := by exact_mod_cast hn
  have hm : (m / n : ℚ) = (m / n : ℕ) + (m % n : ℕ) / n := by
    rw [eq_comm, ← eq_sub_iff_add_eq', div_eq_iff hn'.ne', sub_mul, div_mul_cancel₀ _ hn'.ne']
    exact eq_sub_of_add_eq (by exact_mod_cast Nat.mod_add_div' m n)
  have hlt : ((m % n : ℕ) : ℚ) / n < 1 := by
    rw [div_lt_one hn']
    exact_mod_cast Nat.mod_lt m hn
  have hnonneg : (0 : ℚ) ≤ (m % n : ℕ) / n := by positivity
  rw [hm]
  unfold UnpackedFloat.accuracyOfFraction
  split
  · rename_i hzero
    rw [hzero, Nat.cast_zero, zero_div, add_zero]
    exact halves_exact _
  · rename_i hzero
    have hpos : (0 : ℚ) < (m % n : ℕ) / n := div_pos (by exact_mod_cast Nat.pos_of_ne_zero hzero) hn'
    rcases lt_trichotomy (2 * (m % n)) n with h | h | h
    · have h : ((m % n : ℕ) : ℚ) / n < 1 / 2 := by
        rw [div_lt_div_iff₀ hn' two_pos]
        exact_mod_cast (by omega : m % n * 2 < 1 * n)
      rw [compare_lt_iff_lt.2 ‹2 * (m % n) < n›]
      constructor <;> simp [ExtendedMantissa.ofMantissaAndAccuracy, half]
      · exact hnonneg
      · linarith
      · omega
    · have h : ((m % n : ℕ) : ℚ) / n = 1 / 2 := by
        rw [div_eq_div_iff hn'.ne' two_ne_zero]
        exact_mod_cast (by omega : m % n * 2 = 1 * n)
      rw [compare_eq_iff_eq.2 ‹2 * (m % n) = n›, h]
      constructor <;> simp [ExtendedMantissa.ofMantissaAndAccuracy, half]
    · have h : (1 : ℚ) / 2 < (m % n : ℕ) / n := by
        rw [div_lt_div_iff₀ two_pos hn']
        exact_mod_cast (by omega : 1 * n < m % n * 2)
      rw [compare_gt_iff_gt.2 ‹n < 2 * (m % n)›]
      constructor <;> simp [ExtendedMantissa.ofMantissaAndAccuracy, half] <;> linarith

/-- A number within a half of an integer is rounded to it; at a distance of a half the integer has to be even. -/
theorem Halves.rounded_eq (h : Halves em q) {n : ℕ} (hlow : n - 1 / 2 ≤ q) (hhigh : q ≤ n + 1 / 2)
    (hodd : n % 2 = 1 → n - 1 / 2 < q ∧ q < n + 1 / 2) : em.roundedMantissa = n := by
  obtain ⟨m, round, sticky⟩ := em
  obtain ⟨hle, hlt, hexact⟩ := h
  cases round with
  | false =>
    simp only [half, Bool.false_eq_true, if_false, add_zero] at hle hlt
    have hn : (m : ℚ) < n + 1 := by linarith
    have hm : (n : ℚ) < m + 1 := by linarith
    have hn : m = n := by
      have hn : m < n + 1 := by exact_mod_cast hn
      have hm : n < m + 1 := by exact_mod_cast hm
      omega
    cases sticky <;> exact hn
  | true =>
    simp only [half, if_true] at hle hlt hexact
    cases sticky with
    | false =>
      -- Halfway between two integers, the even one is taken.
      obtain rfl : q = m + 1 / 2 := hexact.1 rfl
      have hn : m ≤ n := by exact_mod_cast (by linarith : (m : ℚ) ≤ n)
      have hm : n ≤ m + 1 := by exact_mod_cast (by linarith : (n : ℚ) ≤ m + 1)
      have heven : n % 2 ≠ 1 := by
        intro hn1
        obtain ⟨hl, hh⟩ := hodd hn1
        have hn : m < n := by exact_mod_cast (by linarith : (m : ℚ) < n)
        have hm : n < m + 1 := by exact_mod_cast (by linarith : (n : ℚ) < m + 1)
        omega
      change m + m % 2 = n
      omega
    | true =>
      have hne : q ≠ m + 1 / 2 := fun hq => Bool.noConfusion (hexact.2 hq)
      have hlt' := lt_of_le_of_ne hle hne.symm
      have hn : m < n := by exact_mod_cast (by linarith : (m : ℚ) < n)
      have hm : n < m + 2 := by exact_mod_cast (by linarith : (n : ℚ) < m + 2)
      change m + 1 = n
      omega

/-- The step below a power of two is half the step above it. -/
def lowest (m : ℕ) (e : ℤ) : ℚ := (4 * m - if m = 2 ^ 52 ∧ -1074 < e then 1 else 2) * 2 ^ (e - 2)

def highest (m : ℕ) (e : ℤ) : ℚ := (4 * m + 2) * 2 ^ (e - 2)

/-- The exact numbers that are rounded to `m · 2 ^ e`. The ends are among them if the mantissa is even. -/
def Near (m : ℕ) (e : ℤ) (q : ℚ) : Prop :=
  if m % 2 = 0 then lowest m e ≤ q ∧ q ≤ highest m e else lowest m e < q ∧ q < highest m e

variable {m : ℕ} {e t : ℤ} {p : ℚ}

theorem Near.lowest_le (h : Near m e q) : lowest m e ≤ q := by
  unfold Near at h
  split at h
  · exact h.1
  · exact h.1.le

theorem Near.le_highest (h : Near m e q) : q ≤ highest m e := by
  unfold Near at h
  split at h
  · exact h.2
  · exact h.2.le

theorem Near.strict (h : Near m e q) (hodd : m % 2 = 1) : lowest m e < q ∧ q < highest m e := by
  rwa [Near, if_neg (by omega)] at h

theorem highest_eq (m : ℕ) (e : ℤ) : highest m e = (m + 1 / 2) * 2 ^ e := by
  rw [highest, zpow_sub₀ two_ne_zero]
  ring

theorem lowest_eq (m : ℕ) (e : ℤ) : lowest m e = (m - if m = 2 ^ 52 ∧ -1074 < e then 1 / 4 else 1 / 2) * 2 ^ e := by
  rw [lowest, zpow_sub₀ two_ne_zero]
  split <;> ring

theorem lowest_ge (m : ℕ) (e : ℤ) : (m - 1 / 2) * 2 ^ e ≤ lowest m e := by
  rw [lowest_eq]
  gcongr
  split <;> norm_num

/-- A step shorter than the one of the number occurs only below a power of two, where it is half as long. -/
theorem Near.power (h : Near m e (p * 2 ^ t)) (hp : p < 2 ^ 53) (hm : 2 ^ 52 ≤ m) (ht : -1074 ≤ t) (hte : t < e) :
    m = 2 ^ 52 ∧ e = t + 1 ∧ 2 ^ 53 - 1 / 2 ≤ p := by
  have hpow : (0 : ℚ) < 2 ^ e := by positivity
  have hlow := h.lowest_le
  have hstep : (2 : ℚ) * 2 ^ t ≤ 2 ^ e := by
    rw [← zpow_one_add₀ two_ne_zero]
    exact two_zpow_mono (by omega)
  have hlt : p * 2 ^ t < 2 ^ 53 * 2 ^ t := by gcongr
  have hpower : m = 2 ^ 52 := by
    by_contra hne
    have hm : (2 ^ 52 + 1 : ℚ) ≤ m := by exact_mod_cast lt_of_le_of_ne hm (Ne.symm hne)
    nlinarith [lowest_ge m e]
  rw [lowest_eq, if_pos ⟨hpower, by omega⟩, hpower] at hlow
  push_cast at hlow
  have he : e = t + 1 := by
    by_contra hne
    have hstep : (4 : ℚ) * 2 ^ t ≤ 2 ^ e := by
      rw [show (4 : ℚ) = 2 ^ (2 : ℤ) by norm_num, ← two_zpow_add]
      exact two_zpow_mono (by omega)
    nlinarith
  refine ⟨hpower, he, ?_⟩
  rw [he, zpow_add_one₀ two_ne_zero] at hlow
  refine le_of_mul_le_mul_right ?_ (by positivity : (0 : ℚ) < 2 ^ t)
  linarith

/-- A mantissa of full length finds the number in whose interval it lies. -/
theorem Halves.rounded_near (h : Halves em p) (hshort : p < 2 ^ 53) (hlong : 2 ^ 52 ≤ p ∨ t = -1074) (hm : m < 2 ^ 53)
    (he : -1074 ≤ e) (hfull : 2 ^ 52 ≤ m ∨ e = -1074) (ht : -1074 ≤ t) (hnear : Near m e (p * 2 ^ t)) :
    (em.roundedMantissa * 2 ^ t : ℚ) = m * 2 ^ e := by
  have hpow : (0 : ℚ) < 2 ^ e := by positivity
  have hhigh := hnear.le_highest
  rw [highest_eq] at hhigh
  rcases lt_trichotomy e t with hlt | rfl | hgt
  · -- A longer step would make the number too large.
    have hp := hlong.resolve_right (by omega)
    have hm' : (m : ℚ) + 1 ≤ 2 ^ 53 := by exact_mod_cast hm
    have hstep : (2 : ℚ) * 2 ^ e ≤ 2 ^ t := by
      rw [← zpow_one_add₀ two_ne_zero]
      exact two_zpow_mono (by omega)
    nlinarith [mul_le_mul hp hstep (by positivity) (by linarith)]
  · have hlow := (lowest_ge m e).trans hnear.lowest_le
    congr 2
    refine h.rounded_eq (le_of_mul_le_mul_right hlow hpow) (le_of_mul_le_mul_right hhigh hpow) fun hodd => ?_
    obtain ⟨hl, hh⟩ := hnear.strict hodd
    rw [highest_eq] at hh
    exact ⟨lt_of_mul_lt_mul_right ((lowest_ge m e).trans_lt hl) hpow.le, lt_of_mul_lt_mul_right hh hpow.le⟩
  · -- The last half step below the power is rounded up to it.
    obtain ⟨rfl, rfl, hp⟩ := hnear.power hshort (hfull.resolve_right (by omega)) ht hgt
    have hround : em.roundedMantissa = 2 ^ 53 :=
      h.rounded_eq (by exact_mod_cast hp) (by push_cast; linarith) fun hodd => absurd hodd (by decide)
    rw [hround, zpow_add_one₀ two_ne_zero]
    push_cast
    ring

theorem sign_eq_of_signed {s t : Sign} {a b : ℚ} (ha : 0 < a) (hb : 0 < b) (h : signed s a = signed t b) :
    s = t ∧ a = b := by
  cases s <;> cases t <;> simp only [signed] at h
  · exact ⟨rfl, neg_inj.1 h⟩
  · linarith
  · linarith
  · exact ⟨rfl, h⟩

/-- A number in reduced form is the only one with its value, zero apart. -/
theorem eq_finite_of_worth {u : UnpackedFloat} (hu : u.isFinite = true) (ru : Reduced u) {s : Sign} {hm : 0 < m}
    (rv : Reduced (.finite s m e hm)) (h : worth u = signed s (m * 2 ^ e)) : u = .finite s m e hm := by
  have hpos {n : ℕ} (hn : 0 < n) (f : ℤ) : (0 : ℚ) < n * 2 ^ f := by positivity
  cases u with
  | infinity t => cases hu
  | notANumber => cases hu
  | zero t =>
    have hzero := abs_signed s (m * 2 ^ e)
    rw [← h, worth_zero, abs_zero, abs_of_pos (hpos hm e)] at hzero
    exact absurd hzero (hpos hm e).ne
  | finite t n f hn =>
    obtain ⟨rfl, hsize⟩ := sign_eq_of_signed (hpos hn f) (hpos hm e) h
    have hf : f = e := by
      rcases lt_trichotomy f e with hlt | heq | hgt
      · exact absurd hsize (magnitude_lt ru rv hlt).ne
      · exact heq
      · exact absurd hsize (magnitude_lt rv ru hgt).ne'
    subst hf
    have hpow : (2 : ℚ) ^ f ≠ 0 := by positivity
    exact finite_congr rfl (by exact_mod_cast mul_right_cancel₀ hpow hsize) rfl

theorem pack_unpack (x : Float.Model) : Float.Model.pack x.unpack = x := by
  obtain ⟨⟨b⟩, hb⟩ := x
  have h : UnpackedFloat.pack .binary64 (.unpack .binary64 b) = b := by
    rw [UnpackedFloat.pack_unpack]
    split
    · rename_i hnan
      exact (hb.eq_packedNaN (of_decide_eq_true hnan).1 (of_decide_eq_true hnan).2).symm
    · rfl
  simp only [Float.Model.pack, Float.Model.unpack, h]

/-- An operation that gives the number in whose interval the exact result lies. -/
structure Settles (q : ℚ) (u : UnpackedFloat) : Prop where
  eq : ∀ {s : Sign} {m : ℕ} {e : ℤ} {hm : 0 < m}, Reduced (.finite s m e hm) → Near m e (signed s q) → u = .finite s m e hm

theorem Near.pos (h : Near m e q) (hm : 0 < m) : 0 < q := by
  have hm' : (1 : ℚ) ≤ m := by exact_mod_cast hm
  have hl := (lowest_ge m e).trans h.lowest_le
  have : (0 : ℚ) < (m - 1 / 2) * 2 ^ e := mul_pos (by linarith) (by positivity)
  linarith

theorem near_self (m : ℕ) (e : ℤ) : Near m e (m * 2 ^ e) := by
  have hpow : (0 : ℚ) < 2 ^ e := by positivity
  have hlow : lowest m e < m * 2 ^ e := by
    rw [lowest_eq]
    refine mul_lt_mul_of_pos_right ?_ hpow
    split <;> linarith
  have hhigh : m * 2 ^ e < highest m e := by
    rw [highest_eq]
    linarith
  unfold Near
  split
  · exact ⟨hlow.le, hhigh.le⟩
  · exact ⟨hlow, hhigh⟩

theorem worth_roundWithAccuracy {n : ℕ} {f : ℤ} {acc : Accuracy} (s : Sign)
    (h : Cuts (.ofMantissaAndAccuracy n acc) q) (hf : f ≤ aim n f) :
    worth (roundWithAccuracy .binary64 s n f acc) =
      signed s ((ExtendedMantissa.ofMantissaAndAccuracy n acc >>> (aim n f - f).toNat).roundedMantissa * 2 ^ aim n f) := by
  obtain ⟨hshort, hlong⟩ := cut_size h hf
  have hcut := h.shiftRight (aim n f - f).toNat
  obtain ⟨m', e', hm', he', hsame, -⟩ := carry (hcut.rounded_le (by exact_mod_cast hshort.le)) (le_aim n f)
    (hlong.imp_left fun hlong => hcut.le_rounded (by exact_mod_cast hlong))
  rw [← hsame]
  simp only [roundWithAccuracy, shiftToTargetExponent_eq hf, hm', he']
  split
  · rename_i hzero
    rw [hzero, Nat.cast_zero, zero_mul, signed_zero]
    rfl
  · rfl

/-- A quotient with zeros shifted into the first mantissa. -/
theorem quotient_eq {m n : ℕ} {e f t : ℤ} (ht : t ≤ e - f) :
    ((m <<< (e - f - t).toNat : ℕ) : ℚ) / n * 2 ^ t = m * 2 ^ e / (n * 2 ^ f) := by
  rw [Nat.shiftLeft_eq, mul_div_mul_comm, ← zpow_sub₀ two_ne_zero, two_zpow_of_le ht]
  push_cast
  ring

theorem signed_signed (s : Sign) (q : ℚ) : signed s (signed s q) = q := by
  cases s with
  | negative => exact neg_neg q
  | positive => rfl

theorem settles_roundWithAccuracy {n : ℕ} {f : ℤ} {acc : Accuracy} (s : Sign)
    (h : Halves (.ofMantissaAndAccuracy n acc) q) (hf : f ≤ aim n f) :
    Settles (signed s (q * 2 ^ f)) (roundWithAccuracy .binary64 s n f acc) := by
  refine ⟨fun {t m e hm} hreduced hnear => ?_⟩
  have hq : 0 ≤ q * 2 ^ f := mul_nonneg ((Nat.cast_nonneg _).trans h.cuts.le) (by positivity)
  have hpos := hnear.pos hm
  have hst : s = t := by
    cases s <;> cases t <;> simp only [signed] at hpos <;> first | rfl | linarith
  subst hst
  rw [signed_signed] at hnear
  have hrounded := rounded_roundWithAccuracy s h.cuts hf
  obtain ⟨hshort, hlong⟩ := cut_size h.cuts hf
  have hcut : q * 2 ^ f = q / 2 ^ (aim n f - f).toNat * 2 ^ aim n f := by
    rw [two_zpow_of_le hf]
    field_simp
  rw [hcut] at hnear
  refine eq_finite_of_worth hrounded.finite hrounded.reduced hreduced ?_
  rw [worth_roundWithAccuracy s h.cuts hf, (h.shiftRight _).rounded_near hshort hlong hreduced.1 hreduced.2.1
    hreduced.2.2 (le_aim n f) hnear]

/-- No interval holds zero. -/
theorem settles_zero (u : UnpackedFloat) : Settles 0 u := by
  refine ⟨fun {s m e hm} _ hnear => ?_⟩
  rw [signed_zero] at hnear
  exact absurd (hnear.pos hm) (lt_irrefl 0)

theorem settles_mul {u v : UnpackedFloat} (hu : u.isFinite = true) (hv : v.isFinite = true) (ru : Reduced u)
    (rv : Reduced v) : Settles (worth u * worth v) (UnpackedFloat.mul .binary64 u v) := by
  cases u with
  | infinity s => cases hu
  | notANumber => cases hu
  | zero s =>
    rw [worth_zero, zero_mul]
    exact settles_zero _
  | finite s m e hm =>
    cases v with
    | infinity t => cases hv
    | notANumber => cases hv
    | zero t =>
      rw [worth_zero, mul_zero]
      exact settles_zero _
    | finite t n f hn =>
      have h := settles_roundWithAccuracy (s * t) (halves_exact (m * n)) (le_aim_mul ru rv)
      rw [Nat.cast_mul, two_zpow_add, mul_mul_mul_comm, signed_mul] at h
      exact h

theorem settles_div {u v : UnpackedFloat} (hu : u.isFinite = true) (hv : v.isFinite = true) (hzero : worth v ≠ 0) :
    Settles (worth u / worth v) (UnpackedFloat.div .binary64 u v) := by
  cases v with
  | infinity t => cases hv
  | notANumber => cases hv
  | zero t => exact absurd rfl hzero
  | finite t n f hn =>
    cases u with
    | infinity s => cases hu
    | notANumber => cases hu
    | zero s =>
      rw [worth_zero, zero_div]
      exact settles_zero _
    | finite s m e hm =>
      let low := min (e - f) (max (m.log2 + 1 + e - (n.log2 + 1 + f) - 53) (-1074))
      have h := settles_roundWithAccuracy (s / t) (halves_div (m <<< (e - f - low).toNat) hn)
        (le_aim_div hm hn (min_le_right _ _))
      rw [quotient_eq (min_le_left _ _ : low ≤ e - f), signed_div] at h
      exact h

theorem Settles.ofModel_pack {u : UnpackedFloat} (h : Settles q u) {x : Float} {s : Sign} {hm : 0 < m}
    (hx : x.toModel.unpack = .finite s m e hm) (hnear : Near m e (signed s q)) : Float.ofModel (.pack u) = x := by
  have hr := reduced_unpack x.toModel
  rw [hx] at hr
  rw [h.eq hr hnear, ← hx, pack_unpack]

end Whisker.Binary
