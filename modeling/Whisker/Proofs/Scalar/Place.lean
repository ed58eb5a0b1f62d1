import Whisker.Proofs.Scalar.Closest
import Whisker.Proofs.Scalar.NotFinite

/-!
# Infinities among the numbers

With the infinities at the first powers of two out of range the order of binary64 is the order of rationals, and what
leaves the range in rounding goes there. "Not a number" is in no order with anything: the order that can be kept is "not
below".

The intervals of the numbers leave no gap: every size that is more than half the smallest number lies in the interval of
one, if exponents had no upper limit, and those past the limit are infinite.
-/

namespace Whisker.Binary

open Float.Model (UnpackedFloat)
open Float.Model.UnpackedFloat (Sign)
open Scalar (nan inf ofNat)

/-- The first power of two out of range. -/
def limit : ℚ := 2 ^ 1024

theorem limit_pos : 0 < limit := by
  unfold limit
  positivity

theorem one_le_limit : 1 ≤ limit := one_le_pow₀ one_le_two

theorem limit_eq (k : ℕ) : limit = 2 ^ k * 2 ^ (1024 - k : ℤ) := by
  rw [limit, ← zpow_natCast, ← zpow_natCast, ← two_zpow_add]
  congr 1
  omega

def reach (u : UnpackedFloat) : ℚ :=
  match u with
  | .infinity s => signed s limit
  | u => worth u

/-- The rational number that a number stands for, with the infinities at the limits. -/
def place (x : Float) : ℚ := reach x.toModel.unpack

theorem largest_lt : largest < limit := by
  rw [limit_eq 53, largest]
  exact mul_lt_mul_of_pos_right (by norm_num) (by positivity)

/-- A finite number stands at its value. -/
theorem place_of_finite {x : Float} (hx : x.isFinite = true) : place x = value x := by
  obtain ⟨s, hu⟩ | ⟨s, m, e, hm, hu⟩ := finite_cases hx <;> rw [place, value, hu] <;> rfl

theorem abs_place_lt {x : Float} (hx : x.isFinite = true) : |place x| < limit := by
  rw [place_of_finite hx]
  exact (abs_value_le x).trans_lt largest_lt

theorem place_inf : place inf = limit := by rw [place, unpack_inf, reach, signed]

theorem place_negInf : place (-inf) = -limit := by rw [place, unpack_negInf, reach, signed]

theorem ne_nan {x : Float} (hx : x.isFinite = true) : x ≠ nan := by
  rintro rfl
  cases hx

theorem lt_iff_place {x y : Float} (hx : x ≠ nan) (hy : y ≠ nan) : x < y ↔ place x < place y := by
  have hlimit := limit_pos
  by_cases fx : x.isFinite = true
  · have hlow := abs_lt.1 (abs_place_lt fx)
    by_cases fy : y.isFinite = true
    · rw [place_of_finite fx, place_of_finite fy]
      exact lt_iff_value fx fy
    · obtain rfl | rfl := (not_finite_cases (Bool.not_eq_true _ ▸ fy)).resolve_left hy
      · rw [place_inf]
        exact iff_of_true (lt_inf fx) hlow.2
      · rw [place_negInf]
        exact iff_of_false (not_lt_negInf x) hlow.1.le.not_gt
  · obtain rfl | rfl := (not_finite_cases (Bool.not_eq_true _ ▸ fx)).resolve_left hx
    · rw [place_inf]
      refine iff_of_false (not_inf_lt y) (not_lt.2 ?_)
      by_cases fy : y.isFinite = true
      · exact (abs_lt.1 (abs_place_lt fy)).2.le
      · obtain rfl | rfl := (not_finite_cases (Bool.not_eq_true _ ▸ fy)).resolve_left hy
        · rw [place_inf]
        · rw [place_negInf]
          linarith
    · rw [place_negInf]
      by_cases fy : y.isFinite = true
      · exact iff_of_true (negInf_lt fy) (abs_lt.1 (abs_place_lt fy)).1
      · obtain rfl | rfl := (not_finite_cases (Bool.not_eq_true _ ▸ fy)).resolve_left hy
        · rw [place_inf]
          exact iff_of_true (by decide) (by linarith)
        · exact iff_of_false (by decide) (lt_irrefl _)

/-- What is larger than the largest number is at the limit or beyond, and is packed as an infinity. -/
theorem pack_of_largest_lt {s : Sign} {m : ℕ} {e : ℤ} {hm : 0 < m} (h : Reduced (.finite s m e hm))
    (hlarge : largest < m * 2 ^ e) :
    limit ≤ m * 2 ^ e ∧ Float.Model.pack (.finite s m e hm) = .pack (.infinity s) := by
  have hm' : (m : ℚ) ≤ 2 ^ 53 - 1 := by
    have hm' : (m + 1 : ℕ) ≤ (2 ^ 53 : ℚ) := by exact_mod_cast h.1
    push_cast at hm'
    linarith
  have he : 972 ≤ e := by
    by_contra hlow
    have hpow : (2 : ℚ) ^ e ≤ 2 ^ (971 : ℤ) := two_zpow_mono (by omega)
    exact absurd (mul_le_mul hm' hpow (by positivity) (by norm_num)) (not_le.2 hlarge)
  have hlong : (2 ^ 52 : ℚ) ≤ m := by exact_mod_cast h.2.2.resolve_right (by omega)
  have hbits : UnpackedFloat.pack .binary64 (.finite s m e hm) = UnpackedFloat.pack .binary64 (.infinity s) := by
    change (if 2048 ≤ (e + 1023 + 52).toNat + 1 then _ else _) = _
    rw [if_pos (by omega)]
    rfl
  constructor
  · calc limit = 2 ^ 52 * 2 ^ (972 : ℤ) := limit_eq 52
      _ ≤ m * 2 ^ e := mul_le_mul hlong (two_zpow_mono he) (by positivity) (by positivity)
  · simp only [Float.Model.pack, hbits]

/-- Packing puts what is out of range at the infinities. -/
theorem Rounded.place_pack {q : ℚ} {u : UnpackedFloat} (h : Rounded q u) :
    Float.ofModel (.pack u) ≠ nan ∧ place (.ofModel (.pack u)) = max (-limit) (min (limit) (worth u)) := by
  have hclamp {w : ℚ} (hw : |w| ≤ limit) : max (-limit) (min (limit) w) = w := by
    rw [min_eq_right (abs_le.1 hw).2, max_eq_right (abs_le.1 hw).1]
  by_cases hsmall : |worth u| ≤ largest
  · have hself : Rounded (worth u) u := ⟨h.finite, h.reduced, Rounds.refl _⟩
    have hc := hself.computes hsmall
    refine ⟨ne_nan hc.finite, ?_⟩
    rw [place_of_finite hc.finite, value, hself.unpack_pack hsmall, hclamp (hsmall.trans largest_lt.le)]
  · cases u with
    | infinity s => exact absurd h.finite Bool.false_ne_true
    | notANumber => exact absurd h.finite Bool.false_ne_true
    | zero s => exact absurd (by rw [worth_zero, abs_zero, largest]; norm_num) hsmall
    | finite s m e hm =>
      rw [worth, abs_signed, abs_of_nonneg (by positivity), not_le] at hsmall
      obtain ⟨hlarge, hpack⟩ := pack_of_largest_lt h.reduced hsmall
      rw [hpack, worth]
      cases s with
      | negative =>
        have hinf : Float.ofModel (.pack (.infinity .negative)) = -inf := by decide
        rw [hinf, place_negInf, signed]
        refine ⟨by decide, ?_⟩
        rw [min_eq_right (by linarith [limit_pos]), max_eq_left (by linarith)]
      | positive =>
        have hinf : Float.ofModel (.pack (.infinity .positive)) = inf := by decide
        rw [hinf, place_inf, signed]
        refine ⟨by decide, ?_⟩
        rw [min_eq_left hlarge, max_eq_right (by linarith [limit_pos])]

/-- A larger exact number is not rounded to a smaller one. Where the exact numbers are the same they have to be kept. -/
theorem Rounded.not_above {p q : ℚ} {u v : UnpackedFloat} (hu : Rounded p u) (hv : Rounded q v)
    (nu : Closest p (worth u)) (nv : Closest q (worth v)) (h : p < q ∨ p = q ∧ OnGrid p) :
    ¬Float.ofModel (.pack v) < Float.ofModel (.pack u) := by
  have hworth : worth u ≤ worth v := by
    obtain hlt | ⟨rfl, hgrid⟩ := h
    · exact nu.mono nv (onGrid_worth hu.reduced) (onGrid_worth hv.reduced) hlt
    · rw [hu.rounds.eq hgrid, hv.rounds.eq hgrid]
  rw [lt_iff_place hv.place_pack.1 hu.place_pack.1, hu.place_pack.2, hv.place_pack.2, not_lt]
  exact max_le_max_left _ (min_le_min_left _ hworth)

theorem not_lt_nan (x : Float) : ¬x < (nan : Float) := by
  rw [lt_iff_unpack, unpack_nan]
  cases x.toModel.unpack <;> exact Bool.false_ne_true

theorem not_nan_lt (y : Float) : ¬(nan : Float) < y := by
  rw [lt_iff_unpack, unpack_nan]
  exact Bool.false_ne_true

theorem float_lt_irrefl (x : Float) : ¬x < x := by
  by_cases hx : x = nan
  · exact hx ▸ not_nan_lt nan
  · rw [lt_iff_place hx hx]
    exact lt_irrefl _

variable {a b c d : Float}

theorem not_lt_of_lt (h : a < b) : ¬b < a := by
  have ha : a ≠ nan := by
    rintro rfl
    exact not_nan_lt b h
  have hb : b ≠ nan := by
    rintro rfl
    exact not_lt_nan a h
  rw [lt_iff_place ha hb] at h
  rw [lt_iff_place hb ha]
  exact h.not_gt

theorem float_le_of_lt (h : a < b) : a ≤ b := by
  rw [lt_iff_unpack, UnpackedFloat.lt, beq_iff_eq] at h
  rw [le_iff_unpack, UnpackedFloat.le, h]
  rfl

/-- Numbers, finite or not, are in a total order. -/
theorem not_lt_iff_le (ha : a ≠ nan) (hb : b ≠ nan) : ¬b < a ↔ a ≤ b := by
  have hinfinite {x : Float} (hx : x ≠ nan) (h : ¬x.isFinite = true) : x = inf ∨ x = -inf :=
    (not_finite_cases (Bool.not_eq_true _ ▸ h)).resolve_left hx
  by_cases fa : a.isFinite = true
  · by_cases fb : b.isFinite = true
    · rw [lt_iff_value fb fa, le_iff_value fa fb, not_lt]
    · obtain rfl | rfl := hinfinite hb fb
      · exact iff_of_true (not_inf_lt a) (le_inf fa)
      · exact iff_of_false (not_not.2 (negInf_lt fa)) (not_le_negInf fa)
  · by_cases fb : b.isFinite = true
    · obtain rfl | rfl := hinfinite ha fa
      · exact iff_of_false (not_not.2 (lt_inf fb)) (not_inf_le fb)
      · exact iff_of_true (not_lt_negInf b) (negInf_le fb)
    · obtain rfl | rfl := hinfinite ha fa <;> obtain rfl | rfl := hinfinite hb fb <;> decide

theorem le_iff_place (ha : a ≠ nan) (hb : b ≠ nan) : a ≤ b ↔ place a ≤ place b := by
  rw [← not_lt_iff_le ha hb, lt_iff_place hb ha, not_lt]

theorem value_le_of_not_lt (ha : a.isFinite = true) (hb : b.isFinite = true) (h : ¬b < a) : value a ≤ value b :=
  not_lt.1 fun hlt => h ((lt_iff_value hb ha).2 hlt)

/-- A comparison does not see the sign of a zero on the right. -/
theorem lt_congr_right (hb : b.isFinite = true) (hc : c.isFinite = true) (h : value b = value c) (x : Float) :
    x < b ↔ x < c := by
  by_cases hx : x = nan
  · rw [hx]
    exact iff_of_false (not_nan_lt _) (not_nan_lt _)
  · rw [lt_iff_place hx (ne_nan hb), lt_iff_place hx (ne_nan hc), place_of_finite hb, place_of_finite hc, h]

theorem lt_congr_left (ha : a.isFinite = true) (hc : c.isFinite = true) (h : value a = value c) (x : Float) :
    a < x ↔ c < x := by
  by_cases hx : x = nan
  · rw [hx]
    exact iff_of_false (not_lt_nan _) (not_lt_nan _)
  · rw [lt_iff_place (ne_nan ha) hx, lt_iff_place (ne_nan hc) hx, place_of_finite ha, place_of_finite hc, h]

theorem eq_of_not_lt_inf (h : ¬b < inf) : b = nan ∨ b = inf := by
  by_cases hb : b.isFinite = true
  · exact absurd (lt_inf hb) h
  · obtain rfl | rfl | rfl := not_finite_cases (Bool.not_eq_true _ ▸ hb)
    · exact .inl rfl
    · exact .inr rfl
    · exact absurd (by decide) h

theorem eq_of_not_negInf_lt (hb : b ≠ nan) (h : ¬-inf < b) : b = -inf := by
  by_cases hfinite : b.isFinite = true
  · exact absurd (negInf_lt hfinite) h
  · obtain rfl | rfl := (not_finite_cases (Bool.not_eq_true _ ▸ hfinite)).resolve_left hb
    · exact absurd (by decide) h
    · rfl

/-- An operation keeps the order of two numbers if it does so where both are finite, and leaves the others or makes
them "not a number". -/
theorem not_lt_of_finite {f g : Float → Float} (hf : ∀ {x : Float}, x.isFinite = false → f x = x ∨ f x = nan)
    (hg : ∀ {x : Float}, x.isFinite = false → g x = x ∨ g x = nan) (h : ¬b < a)
    (hfinite : a.isFinite = true → b.isFinite = true → value a ≤ value b → ¬g b < f a) : ¬g b < f a := by
  have hnanf {x : Float} (hx : f x = nan) : ¬g b < f x := hx ▸ not_lt_nan _
  have hnang {x : Float} (hx : g x = nan) : ¬g x < f a := hx ▸ not_nan_lt _
  by_cases ha : a.isFinite = true
  · by_cases hb : b.isFinite = true
    · exact hfinite ha hb (value_le_of_not_lt ha hb h)
    · have hb := Bool.not_eq_true _ ▸ hb
      obtain hgb | hgb := hg hb
      · rw [hgb]
        obtain rfl | rfl | rfl := not_finite_cases hb
        · exact not_nan_lt _
        · exact not_inf_lt _
        · exact absurd (negInf_lt ha) h
      · exact hnang hgb
  · have ha := Bool.not_eq_true _ ▸ ha
    obtain hfa | hfa := hf ha
    · rw [hfa]
      obtain rfl | rfl | rfl := not_finite_cases ha
      · exact not_lt_nan _
      · obtain rfl | rfl := eq_of_not_lt_inf h
        · have hgb : g nan = nan := (hg (x := nan) (by decide)).elim id id
          rw [hgb]
          exact not_nan_lt _
        · obtain hgb | hgb := hg (x := inf) (by decide)
          · rw [hgb]
            exact not_inf_lt _
          · rw [hgb]
            exact not_nan_lt _
      · exact not_lt_negInf _
    · exact hnanf hfa

open Float.Model.UnpackedFloat (Accuracy roundWithAccuracy)

/-- The number that a size is rounded to: the one in whose interval it lies, zero up to half the smallest number and
infinity from half a step above the largest. -/
inductive IsNearest (q : ℚ) : Float → Prop
  | zero (h : q ≤ 2 ^ (-1075 : ℤ)) : IsNearest q 0
  | finite {x : Float} {m : ℕ} {e : ℤ} {hm : 0 < m} (hx : x.toModel.unpack = .finite .positive m e hm) (h : Near m e q) :
    IsNearest q x
  | infinite (h : (2 ^ 53 - 1 / 2) * 2 ^ (971 : ℤ) ≤ q) : IsNearest q inf

variable {p q : ℚ} {n m : ℕ} {e t : ℤ}

/-- An integer next to a number, the even one of two. -/
theorem exists_even_near (hp : 0 ≤ p) : ∃ n : ℕ, |p - n| ≤ 1 / 2 ∧ (n % 2 = 1 → |p - n| < 1 / 2) := by
  have hle : (⌊p⌋₊ : ℚ) ≤ p := Nat.floor_le hp
  have hlt : p < ⌊p⌋₊ + 1 := Nat.lt_floor_add_one p
  have hdown : |p - ⌊p⌋₊| = p - ⌊p⌋₊ := abs_of_nonneg (by linarith)
  have hup : |p - (⌊p⌋₊ + 1 : ℕ)| = ⌊p⌋₊ + 1 - p := by
    push_cast
    rw [abs_of_nonpos (by linarith), neg_sub]
  rcases lt_trichotomy (p - ⌊p⌋₊) (1 / 2) with h | h | h
  · exact ⟨⌊p⌋₊, hdown.trans_le h.le, fun _ => hdown.trans_lt h⟩
  · rcases Nat.mod_two_eq_zero_or_one ⌊p⌋₊ with heven | hodd
    · exact ⟨⌊p⌋₊, hdown.trans_le h.le, fun hodd => by omega⟩
    · exact ⟨⌊p⌋₊ + 1, hup.trans_le (by linarith), fun hodd => by omega⟩
  · exact ⟨⌊p⌋₊ + 1, hup.trans_le (by linarith), fun _ => hup.trans_lt (by linarith)⟩

/-- A size within half a unit of a full mantissa is near its number, an odd one strictly within. -/
theorem near_of_abs_le (hn : |p - n| ≤ 1 / 2) (hodd : n % 2 = 1 → |p - n| < 1 / 2) (hlong : 2 ^ 52 ≤ p ∨ t = -1074) :
    Near n t (p * 2 ^ t) := by
  have hpow : (0 : ℚ) < 2 ^ t := by positivity
  have hle := abs_le.1 hn
  unfold Near
  rw [lowest_eq, highest_eq]
  split
  · constructor
    · refine mul_le_mul_of_nonneg_right ?_ hpow.le
      split
      · -- Below a power of two the interval is shorter, but a long mantissa does not lie below.
        rename_i h
        have hp := hlong.resolve_right (by omega)
        rw [h.1]
        push_cast
        linarith
      · linarith
    · exact mul_le_mul_of_nonneg_right (by linarith) hpow.le
  · have hlt := abs_lt.1 (hodd (by omega))
    constructor
    · rw [if_neg fun h => by omega]
      exact mul_lt_mul_of_pos_right (by linarith) hpow
    · exact mul_lt_mul_of_pos_right (by linarith) hpow

/-- A mantissa that is rounded up to the next power of two takes a longer step. -/
theorem near_carry (h : |p - (2 ^ 53 : ℕ)| ≤ 1 / 2) (hp : p < 2 ^ 53) (ht : -1074 ≤ t) :
    Near (2 ^ 52) (t + 1) (p * 2 ^ t) := by
  have hpow : (0 : ℚ) < 2 ^ t := by positivity
  have hle := abs_le.1 h
  push_cast at hle
  unfold Near
  rw [if_pos (by decide), lowest_eq, highest_eq, if_pos ⟨rfl, by omega⟩, zpow_add_one₀ two_ne_zero]
  push_cast
  constructor <;> nlinarith

/-- A size is a mantissa of full length times a power of two, or one at the lowest exponent. -/
theorem exists_mantissa_mul (hq : 0 < q) :
    ∃ (p : ℚ) (t : ℤ), q = p * 2 ^ t ∧ 0 < p ∧ p < 2 ^ 53 ∧ -1074 ≤ t ∧ (2 ^ 52 ≤ p ∨ t = -1074) := by
  have hlow : (2 : ℚ) ^ Int.log 2 q ≤ q := by exact_mod_cast Int.zpow_log_le_self (b := 2) (by decide) hq
  have hhigh : q < 2 ^ (Int.log 2 q + 1) := by exact_mod_cast Int.lt_zpow_succ_log_self (b := 2) (by decide) q
  have hdiv (t : ℤ) : q = q / 2 ^ t * 2 ^ t := (div_mul_cancel₀ q (by positivity)).symm
  have hshort {t : ℤ} (ht : Int.log 2 q + 1 ≤ 53 + t) : q / 2 ^ t < 2 ^ 53 := by
    rw [div_lt_iff₀ (by positivity)]
    calc q < 2 ^ (Int.log 2 q + 1) := hhigh
      _ ≤ 2 ^ (53 + t) := two_zpow_mono ht
      _ = 2 ^ 53 * 2 ^ t := two_zpow_add 53 t
  rcases le_total (-1074) (Int.log 2 q - 52) with h | h
  · refine ⟨_, Int.log 2 q - 52, hdiv _, by positivity, hshort (by omega), h, .inl ?_⟩
    rw [le_div_iff₀ (by positivity)]
    calc (2 : ℚ) ^ 52 * 2 ^ (Int.log 2 q - 52) = 2 ^ (52 + (Int.log 2 q - 52)) := (two_zpow_add 52 _).symm
      _ = 2 ^ Int.log 2 q := by rw [add_sub_cancel]
      _ ≤ q := hlow
  · exact ⟨_, -1074, hdiv _, by positivity, hshort (by omega), le_rfl, .inr rfl⟩

theorem half_smallest : (2 : ℚ) ^ (-1075 : ℤ) = 1 / 2 * 2 ^ (-1074 : ℤ) := by
  rw [show (-1075 : ℤ) = -1 + -1074 by rfl, two_zpow_add]
  norm_num

/-- Every size but the smallest lies in the interval of a number, if exponents had no upper limit. -/
theorem exists_near (hq : 2 ^ (-1075 : ℤ) < q) :
    ∃ (m : ℕ) (e : ℤ) (hm : 0 < m), Reduced (.finite .positive m e hm) ∧ Near m e q := by
  have hpos : 0 < q := lt_trans (by positivity) hq
  obtain ⟨p, t, rfl, hp, hshort, ht, hlong⟩ := exists_mantissa_mul hpos
  obtain ⟨n, hn, hodd⟩ := exists_even_near hp.le
  have hle := abs_le.1 hn
  have hbound : n ≤ 2 ^ 53 := by
    have hbound : (n : ℚ) < 2 ^ 53 + 1 := by linarith
    have hbound : n < 2 ^ 53 + 1 := by exact_mod_cast hbound
    omega
  rcases hbound.lt_or_eq with hlt | rfl
  · have hfull : 2 ^ 52 ≤ n ∨ t = -1074 := by
      refine hlong.imp_left fun hlong => ?_
      have hfull : (2 ^ 52 : ℚ) < n + 1 := by linarith
      have hfull : 2 ^ 52 < n + 1 := by exact_mod_cast hfull
      omega
    have hn0 : 0 < n := by
      rcases hfull with hfull | rfl
      · omega
      · -- At the lowest exponent only sizes up to a half of the step are rounded to zero.
        by_contra hzero
        obtain rfl : n = 0 := by omega
        rw [Nat.cast_zero] at hle
        rw [half_smallest] at hq
        linarith [lt_of_mul_lt_mul_right hq (by positivity)]
    exact ⟨n, t, hn0, ⟨hlt, ht, hfull⟩, near_of_abs_le hn hodd hlong⟩
  · exact ⟨2 ^ 52, t + 1, by decide, ⟨by decide, by omega, .inl le_rfl⟩, near_carry hn hshort ht⟩

/-- What lies in an interval past the largest exponent is half a step above the largest number at least. -/
theorem le_of_near {hm : 0 < m} (hr : Reduced (.finite .positive m e hm)) (he : 972 ≤ e) (h : Near m e q) :
    (2 ^ 53 - 1 / 2) * 2 ^ (971 : ℤ) ≤ q := by
  have hlong : 2 ^ 52 ≤ m := hr.2.2.resolve_right (by omega)
  have hlowest := h.lowest_le
  rw [lowest_eq] at hlowest
  have hm : (2 ^ 52 - 1 / 4 : ℚ) ≤ m - if m = 2 ^ 52 ∧ -1074 < e then 1 / 4 else 1 / 2 := by
    split
    · rename_i hpower
      rw [hpower.1]
      norm_num
    · rename_i hpower
      have hlt : 2 ^ 52 + 1 ≤ m := by omega
      have hlt : (2 ^ 52 + 1 : ℚ) ≤ m := by exact_mod_cast hlt
      linarith
  calc (2 ^ 53 - 1 / 2) * 2 ^ (971 : ℤ) = (2 ^ 52 - 1 / 4) * 2 ^ (972 : ℤ) := by
        rw [show (972 : ℤ) = 971 + 1 by rfl, zpow_add_one₀ two_ne_zero]
        ring
    _ ≤ (2 ^ 52 - 1 / 4) * 2 ^ e := mul_le_mul_of_nonneg_left (two_zpow_mono he) (by norm_num)
    _ ≤ _ := mul_le_mul_of_nonneg_right hm (by positivity)
    _ ≤ q := hlowest

/-- A size up to half the smallest number is rounded to zero. -/
theorem roundWithAccuracy_eq_zero {n : ℕ} {f : ℤ} {acc : Accuracy} (s : Sign)
    (h : Halves (.ofMantissaAndAccuracy n acc) p) (hf : f ≤ aim n f) (hsmall : p * 2 ^ f ≤ 2 ^ (-1075 : ℤ)) :
    roundWithAccuracy .binary64 s n f acc = .zero s := by
  obtain ⟨hshort, hlong⟩ := cut_size h.cuts hf
  have hcut := h.shiftRight (aim n f - f).toNat
  have hnonneg : 0 ≤ p / 2 ^ (aim n f - f).toNat := (Nat.cast_nonneg _).trans hcut.cuts.le
  have hp : p * 2 ^ f = p / 2 ^ (aim n f - f).toNat * 2 ^ aim n f := by
    rw [two_zpow_of_le hf]
    field_simp
  rw [hp, half_smallest] at hsmall
  have hhalf : p / 2 ^ (aim n f - f).toNat ≤ 1 / 2 := by
    have hpow : (2 : ℚ) ^ (-1074 : ℤ) ≤ 2 ^ aim n f := two_zpow_mono (le_aim n f)
    exact le_of_mul_le_mul_right ((mul_le_mul_of_nonneg_left hpow hnonneg).trans hsmall) (by positivity)
  have hzero := hcut.rounded_eq (n := 0) (by linarith) (by linarith) fun hodd => absurd hodd (by decide)
  obtain ⟨m', e', hm', he', hsame, -⟩ := carry (t := aim n f) (hzero.trans_le (Nat.zero_le _)) (le_aim n f)
    (.inr (hlong.resolve_left fun hlong => by linarith))
  rw [hzero, Nat.cast_zero, zero_mul] at hsame
  have hm0 : m' = 0 := by exact_mod_cast (mul_eq_zero.1 hsame).resolve_right (by positivity)
  simp only [roundWithAccuracy, shiftToTargetExponent_eq hf, hm', he', hm0]
  rfl

end Whisker.Binary
