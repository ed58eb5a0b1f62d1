import Whisker.Proofs.Scalar.Closest
import Whisker.Proofs.Scalar.Place

/-!
# Arithmetic keeps order

The results of arithmetic lie in the order of the exact ones, also where one of them leaves the range, so no operation
with a fixed operand turns the order of its other operand around, a factor below zero apart.
-/

namespace Whisker.Binary

open Float.Model (UnpackedFloat)
open Float.Model.UnpackedFloat (Sign)
open Scalar (nan inf ofNat)

variable {a b c d : Float}

theorem add_not_finite {y : Float} (hy : y.isFinite = false) (x : Float) : x + y = y ∨ x + y = nan := by
  have hadd {u v : UnpackedFloat} (hv : v.isFinite = false) :
      UnpackedFloat.add .binary64 u v = v ∨ UnpackedFloat.add .binary64 u v = .notANumber := by
    cases v with
    | notANumber => cases u <;> exact .inl rfl
    | infinity t =>
      cases u with
      | infinity s =>
        cases s with
        | negative =>
          cases t with
          | negative => exact .inl rfl
          | positive => exact .inr rfl
        | positive =>
          cases t with
          | negative => exact .inr rfl
          | positive => exact .inl rfl
      | notANumber => exact .inr rfl
      | zero s => exact .inl rfl
      | finite s m e hm => exact .inl rfl
    | zero t => cases hv
    | finite t n f hn => cases hv
  change Float.ofModel (.pack (UnpackedFloat.add .binary64 x.toModel.unpack y.toModel.unpack)) = y ∨
    Float.ofModel (.pack (UnpackedFloat.add .binary64 x.toModel.unpack y.toModel.unpack)) = nan
  obtain h | h := hadd (u := x.toModel.unpack) hy
  · rw [h, pack_unpack]
    exact .inl rfl
  · rw [h]
    exact .inr (by decide)

theorem finite_of_add (h : (a + b).isFinite = true) : a.isFinite = true ∧ b.isFinite = true := by
  have hsum {x : Float} (hx : x.isFinite = false) (hadd : a + b = x ∨ a + b = nan) : False := by
    obtain hadd | hadd := hadd <;> rw [hadd] at h
    · exact Bool.false_ne_true (hx.symm.trans h)
    · cases h
  constructor
  · by_contra ha
    exact hsum (Bool.not_eq_true _ ▸ ha) (add_of_not_finite (Bool.not_eq_true _ ▸ ha) b)
  · by_contra hb
    exact hsum (Bool.not_eq_true _ ▸ hb) (add_not_finite (Bool.not_eq_true _ ▸ hb) a)

theorem add_ne_nan (ha : a.isFinite = true) (hb : b ≠ nan) : a + b ≠ nan := by
  by_cases fb : b.isFinite = true
  · exact (rounded_add ha fb (reduced_unpack _) (reduced_unpack _)).place_pack.1
  · have hinfinite := (not_finite_cases (Bool.not_eq_true _ ▸ fb)).resolve_left hb
    have hneg : -b = inf ∨ -b = -inf := by
      obtain rfl | rfl := hinfinite <;> decide
    rw [← float_neg_neg b, ← float_sub_eq]
    obtain hsub | hsub := sub_infinite ha hneg <;> rw [hsub] <;> decide

theorem not_add_lt_add (h : ¬b < a) (h' : ¬d < c) : ¬b + d < a + c := by
  refine not_lt_of_finite (f := (· + c)) (g := (· + d)) (fun hx => add_of_not_finite hx _)
    (fun hx => add_of_not_finite hx _) h fun ha hb hab => ?_
  refine not_lt_of_finite (f := (a + ·)) (g := (b + ·)) (fun hx => add_not_finite hx _)
    (fun hx => add_not_finite hx _) h' fun hc hd hcd => ?_
  rcases (add_le_add hab hcd).lt_or_eq with hlt | heq
  · exact (rounded_add ha hc (reduced_unpack _) (reduced_unpack _)).not_above
      (rounded_add hb hd (reduced_unpack _) (reduced_unpack _)) (closest_add ha hc) (closest_add hb hd) (.inl hlt)
  · -- The sums are equal only if the numbers are, and a sum with zero is kept.
    have hab' : value a = value b := by linarith
    have hcd' : value c = value d := by linarith
    by_cases hzero : value b = 0 ∨ value d = 0
    · refine (rounded_add ha hc (reduced_unpack _) (reduced_unpack _)).not_above
        (rounded_add hb hd (reduced_unpack _) (reduced_unpack _)) (closest_add ha hc) (closest_add hb hd)
        (.inr ⟨heq, ?_⟩)
      change OnGrid (value a + value c)
      rw [hab', hcd']
      obtain h0 | h0 := hzero
      · rw [h0, zero_add]
        exact onGrid_value d
      · rw [h0, add_zero]
        exact onGrid_value b
    · rw [not_or] at hzero
      rw [eq_of_value ha hb hzero.1 hab', eq_of_value hc hd hzero.2 hcd']
      exact float_lt_irrefl _

theorem reach_neg (u : UnpackedFloat) : reach u.neg = -reach u := by
  cases u with
  | infinity s => exact signed_neg s limit
  | finite s m e hm => exact signed_neg s _
  | notANumber => exact neg_zero.symm
  | zero s => exact neg_zero.symm

theorem place_neg (x : Float) : place (-x) = -place x := by rw [place, unpack_neg, reach_neg, place]

theorem neg_nan : -(nan : Float) = nan := by decide

theorem not_neg_lt_neg (h : ¬b < a) : ¬-a < -b := by
  by_cases ha : a = nan
  · rw [ha, neg_nan]
    exact not_nan_lt _
  · by_cases hb : b = nan
    · rw [hb, neg_nan]
      exact not_lt_nan _
    · have hneg {x : Float} (hx : x ≠ nan) : -x ≠ nan := fun h => hx (by rw [← float_neg_neg x, h, neg_nan])
      rw [lt_iff_place hb ha] at h
      rwa [lt_iff_place (hneg ha) (hneg hb), place_neg, place_neg, neg_lt_neg_iff]

theorem lt_neg_zero (x : Float) : x < -ofNat 0 ↔ x < ofNat 0 := by
  obtain ⟨hfinite, hvalue⟩ := value_ofNat (n := 0) (by decide)
  refine lt_congr_right ((finite_neg _).trans hfinite) hfinite ?_ x
  rw [value_neg, hvalue, Nat.cast_zero, neg_zero]

theorem not_sub_lt_sub (h : ¬b < a) (h' : ¬c < d) : ¬b - d < a - c := by
  rw [float_sub_eq, float_sub_eq]
  exact not_add_lt_add h (not_neg_lt_neg h')

/-- A factor that is not below zero. -/
theorem factor_cases (h : ¬c < ofNat 0) : c = nan ∨ c = inf ∨ c.isFinite = true ∧ 0 ≤ value c := by
  by_cases hc : c.isFinite = true
  · obtain ⟨hfinite, hvalue⟩ := value_ofNat (n := 0) (by decide)
    refine .inr (.inr ⟨hc, ?_⟩)
    rw [← Nat.cast_zero, ← hvalue]
    exact value_le_of_not_lt hfinite hc h
  · obtain rfl | rfl | rfl := not_finite_cases (Bool.not_eq_true _ ▸ hc)
    · exact .inl rfl
    · exact .inr (.inl rfl)
    · exact absurd (by decide) h

theorem float_mul_eq {x y : Float} {u v : UnpackedFloat} (hx : x.toModel.unpack = u) (hy : y.toModel.unpack = v) :
    x * y = Float.ofModel (.pack (UnpackedFloat.mul .binary64 u v)) := by
  rw [← hx, ← hy]
  rfl

theorem mul_nan (x : Float) : x * nan = nan := by
  have hmul (u : UnpackedFloat) : UnpackedFloat.mul .binary64 u .notANumber = .notANumber := by cases u <;> rfl
  rw [float_mul_eq rfl unpack_nan, hmul]
  decide

theorem nan_mul (x : Float) : nan * x = nan := by
  rw [float_mul_eq unpack_nan rfl]
  exact (by decide : Float.ofModel (.pack .notANumber) = nan)

theorem neg_mul_neg (x y : Float) : -x * -y = x * y := by
  have hmul (u v : UnpackedFloat) : UnpackedFloat.mul .binary64 u.neg v.neg = UnpackedFloat.mul .binary64 u v := by
    have hsign (s t : Sign) : -s * -t = s * t := by cases s <;> cases t <;> rfl
    cases u <;> cases v <;> simp only [UnpackedFloat.neg, UnpackedFloat.mul, hsign]
  rw [float_mul_eq (unpack_neg x) (unpack_neg y), hmul]
  rfl

/-- A finite number times an infinity. -/
theorem mul_inf_cases {x : Float} (hx : x.isFinite = true) :
    (value x < 0 ∧ x * inf = -inf) ∨ (value x = 0 ∧ x * inf = nan) ∨ (0 < value x ∧ x * inf = inf) := by
  obtain ⟨s, hu⟩ | ⟨s, m, e, hm, hu⟩ := finite_cases hx
  · refine .inr (.inl ⟨by rw [value, hu, worth_zero], ?_⟩)
    rw [float_mul_eq hu unpack_inf]
    exact (by decide : Float.ofModel (.pack .notANumber) = nan)
  · have hpos : (0 : ℚ) < m * 2 ^ e := by positivity
    rw [float_mul_eq hu unpack_inf, value, hu, worth]
    cases s with
    | negative =>
      exact .inl ⟨neg_lt_zero.2 hpos, (by decide : Float.ofModel (.pack (.infinity .negative)) = -inf)⟩
    | positive =>
      exact .inr (.inr ⟨hpos, (by decide : Float.ofModel (.pack (.infinity .positive)) = inf)⟩)

theorem not_mul_inf_lt (h : ¬b < a) : ¬b * inf < a * inf := by
  have hkept {x : Float} (hx : x.isFinite = false) : x * inf = x ∨ x * inf = nan := by
    obtain rfl | rfl | rfl := not_finite_cases hx
    · exact .inl (nan_mul inf)
    · exact .inl (by decide)
    · exact .inl (by decide)
  refine not_lt_of_finite (f := (· * inf)) (g := (· * inf)) hkept hkept h fun ha hb hab => ?_
  obtain ⟨-, hmul⟩ | ⟨-, hmul⟩ | ⟨hpos, -⟩ := mul_inf_cases ha
  · rw [hmul]
    exact not_lt_negInf _
  · rw [hmul]
    exact not_lt_nan _
  · obtain ⟨hneg, -⟩ | ⟨hzero, -⟩ | ⟨-, hmul⟩ := mul_inf_cases hb
    · linarith
    · linarith
    · rw [hmul]
      exact not_inf_lt _

theorem not_finite_mul {x : Float} (hx : x.isFinite = false) (hc : c.isFinite = true) (hpos : 0 < value c) : x * c = x := by
  obtain ⟨t, hu⟩ | ⟨t, m, e, hm, hu⟩ := finite_cases hc
  · rw [value, hu, worth_zero] at hpos
    exact absurd hpos (lt_irrefl 0)
  · obtain ⟨rfl, -⟩ := positive_of_value hu hpos.le
    obtain rfl | rfl | rfl := not_finite_cases hx
    · exact nan_mul c
    · rw [float_mul_eq unpack_inf hu]
      exact (by decide : Float.ofModel (.pack (.infinity .positive)) = inf)
    · rw [float_mul_eq unpack_negInf hu]
      exact (by decide : Float.ofModel (.pack (.infinity .negative)) = -inf)

theorem mul_of_not_finite {x : Float} (hx : x.isFinite = false) (hc : c.isFinite = true) (h : 0 ≤ value c) :
    x * c = x ∨ x * c = nan := by
  rcases h.lt_or_eq with hpos | hzero
  · exact .inl (not_finite_mul hx hc hpos)
  · right
    obtain rfl | rfl | rfl := not_finite_cases hx <;> obtain rfl | rfl := eq_of_value_zero hc hzero.symm <;> decide

theorem not_mul_lt_mul (h : ¬b < a) (hc : ¬c < ofNat 0) : ¬b * c < a * c := by
  obtain rfl | rfl | ⟨hfinite, hnonneg⟩ := factor_cases hc
  · rw [mul_nan, mul_nan]
    exact not_nan_lt _
  · exact not_mul_inf_lt h
  · refine not_lt_of_finite (f := (· * c)) (g := (· * c)) (fun hx => mul_of_not_finite hx hfinite hnonneg)
      (fun hx => mul_of_not_finite hx hfinite hnonneg) h fun ha hb hab => ?_
    have hkept := (rounded_mul ha hfinite (reduced_unpack _) (reduced_unpack _)).not_above
      (rounded_mul hb hfinite (reduced_unpack _) (reduced_unpack _))
      (closest_mul ha hfinite (reduced_unpack _) (reduced_unpack _))
      (closest_mul hb hfinite (reduced_unpack _) (reduced_unpack _))
    rcases (mul_le_mul_of_nonneg_right hab hnonneg).lt_or_eq with hlt | heq
    · exact hkept (.inl hlt)
    · by_cases hzero : value b * value c = 0
      · refine hkept (.inr ⟨heq, ?_⟩)
        change OnGrid (value a * value c)
        rw [heq, hzero]
        exact onGrid_zero
      · obtain ⟨hb0, hc0⟩ := mul_ne_zero_iff.1 hzero
        rw [eq_of_value ha hb hb0 (mul_right_cancel₀ hc0 heq)]
        exact float_lt_irrefl _

/-- A factor that is not above zero turns the order around. -/
theorem not_mul_lt_mul_of_not_pos (h : ¬b < a) (hc : ¬ofNat 0 < c) : ¬a * c < b * c := by
  rw [← neg_mul_neg a, ← neg_mul_neg b]
  refine not_mul_lt_mul (not_neg_lt_neg h) fun hneg => not_neg_lt_neg hc ?_
  rwa [lt_neg_zero]

/-- A positive finite divisor changes nothing that is not finite. -/
theorem div_of_not_finite {x : Float} (hx : x.isFinite = false) (hc : c.isFinite = true) (h : 0 < value c) :
    x / c = x := by
  have hdiv {u v : UnpackedFloat} (hu : x.toModel.unpack = u) (hv : c.toModel.unpack = v) :
      x / c = Float.ofModel (.pack (UnpackedFloat.div .binary64 u v)) := by
    rw [← hu, ← hv]
    rfl
  obtain ⟨t, hc'⟩ | ⟨t, m, e, hm, hc'⟩ := finite_cases hc
  · rw [value, hc', worth_zero] at h
    exact absurd h (lt_irrefl 0)
  · obtain ⟨rfl, -⟩ := positive_of_value hc' h.le
    obtain rfl | rfl | rfl := not_finite_cases hx
    · rw [hdiv unpack_nan hc']
      exact (by decide : Float.ofModel (.pack .notANumber) = nan)
    · rw [hdiv unpack_inf hc']
      exact (by decide : Float.ofModel (.pack (.infinity .positive)) = inf)
    · rw [hdiv unpack_negInf hc']
      exact (by decide : Float.ofModel (.pack (.infinity .negative)) = -inf)

theorem not_div_lt_div (h : ¬b < a) (hc : c.isFinite = true) (hpos : 0 < value c) : ¬b / c < a / c := by
  refine not_lt_of_finite (f := (· / c)) (g := (· / c)) (fun hx => .inl (div_of_not_finite hx hc hpos))
    (fun hx => .inl (div_of_not_finite hx hc hpos)) h fun ha hb hab => ?_
  rcases (div_le_div_of_nonneg_right hab hpos.le).lt_or_eq with hlt | heq
  · exact (rounded_div ha hc hpos.ne').not_above (rounded_div hb hc hpos.ne') (closest_div ha hc hpos.ne')
      (closest_div hb hc hpos.ne') (.inl hlt)
  · have hab' : value a = value b := (div_left_inj' hpos.ne').1 heq
    by_cases hzero : value b = 0
    · refine (rounded_div ha hc hpos.ne').not_above (rounded_div hb hc hpos.ne') (closest_div ha hc hpos.ne')
        (closest_div hb hc hpos.ne') (.inr ⟨heq, ?_⟩)
      change OnGrid (value a / value c)
      rw [hab', hzero, zero_div]
      exact onGrid_zero
    · rw [eq_of_value ha hb hzero hab']
      exact float_lt_irrefl _

theorem not_lt_zero_iff (ha : a ≠ nan) : ¬a < ofNat 0 ↔ 0 ≤ place a := by
  obtain ⟨hfinite, hvalue⟩ := value_ofNat (n := 0) (by decide)
  rw [lt_iff_place ha (ne_nan hfinite), place_of_finite hfinite, hvalue, Nat.cast_zero, not_lt]

theorem not_lt_neg (h : ¬a < ofNat 0) : ¬a < -a := by
  by_cases ha : a = nan
  · rw [ha]
    exact not_nan_lt _
  · have hneg : -a ≠ nan := fun h => ha (by rw [← float_neg_neg a, h, neg_nan])
    rw [not_lt_zero_iff ha] at h
    rw [lt_iff_place ha hneg, place_neg, not_lt]
    linarith

theorem unpack_abs (x : Float) : x.abs.toModel.unpack = x.toModel.unpack.abs := by
  change (Float.Model.pack x.toModel.unpack.abs).unpack = _
  cases hx : x.toModel.unpack with
  | infinity s => cases s <;> rfl
  | notANumber => rfl
  | zero s => cases s <;> rfl
  | finite s m e hm =>
    obtain ⟨hshort, hlow, hhigh, hlong⟩ := unpack_size hx
    exact unpack_pack (s := .positive) ⟨hshort, hlow, hlong⟩ hhigh

theorem reach_abs_nonneg (u : UnpackedFloat) : 0 ≤ reach u.abs := by
  cases u with
  | infinity s => exact limit_pos.le
  | notANumber => exact le_rfl
  | zero s => exact le_rfl
  | finite s m e hm =>
    change (0 : ℚ) ≤ m * 2 ^ e
    positivity

theorem not_abs_lt_zero (x : Float) : ¬x.abs < ofNat 0 := by
  by_cases hx : x.abs = nan
  · rw [hx]
    exact not_nan_lt _
  · rw [not_lt_zero_iff hx, place, unpack_abs]
    exact reach_abs_nonneg _

/-- Adding what is not below zero does not go down. -/
theorem not_add_lt (h : ¬b < a) (hd : ¬d < ofNat 0) : ¬b + d < a := by
  obtain ⟨hfinite, hvalue⟩ := value_ofNat (n := 0) (by decide)
  refine not_lt_of_finite (f := id) (g := (· + d)) (fun _ => .inl rfl) (fun hx => add_of_not_finite hx d) h
    fun ha hb hab => ?_
  have hsum := computes_add ha hfinite (by rw [hvalue, Nat.cast_zero, add_zero]; exact abs_value_le a)
  rw [hvalue, Nat.cast_zero, add_zero] at hsum
  have hsame : value (a + ofNat 0) = value a := hsum.rounds.eq (onGrid_value a)
  refine fun hlt => not_add_lt_add h hd ?_
  exact (lt_congr_right hsum.finite ha hsame _).2 hlt

theorem value_sub_self (ha : a.isFinite = true) : (a - a).isFinite = true ∧ value (a - a) = 0 := by
  have hc := computes_sub ha ha (by rw [sub_self, abs_zero, largest]; norm_num)
  rw [sub_self] at hc
  exact ⟨hc.finite, hc.rounds.eq onGrid_zero⟩

theorem not_sub_lt_zero (ha : a.isFinite = true) (h : ¬b < a) : ¬b - a < ofNat 0 := by
  obtain ⟨hfinite, hvalue⟩ := value_ofNat (n := 0) (by decide)
  obtain ⟨hself, hzero⟩ := value_sub_self ha
  rw [← lt_congr_right hself hfinite (by rw [hzero, hvalue, Nat.cast_zero])]
  exact not_sub_lt_sub h (float_lt_irrefl a)

theorem not_zero_lt_sub (hb : b.isFinite = true) (h : ¬b < a) : ¬ofNat 0 < a - b := by
  obtain ⟨hfinite, hvalue⟩ := value_ofNat (n := 0) (by decide)
  obtain ⟨hself, hzero⟩ := value_sub_self hb
  rw [lt_congr_left hfinite hself (by rw [hzero, hvalue, Nat.cast_zero])]
  exact not_sub_lt_sub h (float_lt_irrefl b)

theorem beq_iff_value (ha : a.isFinite = true) (hb : b.isFinite = true) : (a == b) = true ↔ value a = value b := by
  change UnpackedFloat.beq a.toModel.unpack b.toModel.unpack = true ↔ _
  rw [UnpackedFloat.beq, compare_worth ha hb (reduced_unpack _) (reduced_unpack _), beq_iff_eq, Option.some_inj,
    compare_eq_iff_eq]
  rfl

theorem unpacked_eq_of_beq {u v : UnpackedFloat} (hu : u.isFinite = false) (h : UnpackedFloat.beq u v = true) :
    u = v := by
  cases u with
  | infinity s =>
    cases v with
    | infinity t =>
      cases s with
      | negative =>
        cases t with
        | negative => rfl
        | positive => cases h
      | positive =>
        cases t with
        | negative => cases h
        | positive => rfl
    | notANumber => cases s <;> cases h
    | zero t => cases s <;> cases h
    | finite t n f hn => cases s <;> cases h
  | notANumber => cases h
  | zero s => cases hu
  | finite s m e hm => cases hu

theorem not_lt_of_beq (h : (a == b) = true) : ¬b < a := by
  by_cases ha : a.isFinite = true
  · by_cases hb : b.isFinite = true
    · rw [lt_iff_value hb ha, (beq_iff_value ha hb).1 h]
      exact lt_irrefl _
    · obtain rfl | rfl | rfl := not_finite_cases (Bool.not_eq_true _ ▸ hb)
      · exact not_nan_lt _
      · exact not_inf_lt _
      · -- No finite number equals an infinity.
        change UnpackedFloat.beq a.toModel.unpack (-inf : Float).toModel.unpack = true at h
        rw [unpack_negInf] at h
        obtain ⟨s, hu⟩ | ⟨s, m, e, hm, hu⟩ := finite_cases ha
        · rw [hu] at h
          cases h
        · rw [hu] at h
          cases s <;> cases h
  · rw [eq_of_unpack (unpacked_eq_of_beq (Bool.not_eq_true _ ▸ ha) h)]
    exact float_lt_irrefl b

/-- Numbers of the grid are whole multiples of the least number above zero. -/
theorem OnGrid.eq_int_mul {q : ℚ} (h : OnGrid q) : ∃ k : ℤ, q = k * 2 ^ (-1074 : ℤ) := by
  obtain ⟨m, e, -, he, hq⟩ := h
  have hm : (m : ℚ) * 2 ^ e = (m * 2 ^ (e + 1074).toNat : ℕ) * 2 ^ (-1074 : ℤ) := by
    rw [two_zpow_of_le he, sub_neg_eq_add, Nat.cast_mul, Nat.cast_pow, Nat.cast_ofNat, mul_assoc]
  rw [hm] at hq
  obtain hq | hq := eq_or_eq_neg_of_abs_eq hq
  · exact ⟨_, hq.trans (by rw [Int.cast_natCast])⟩
  · exact ⟨-_, hq.trans (by rw [Int.cast_neg, Int.cast_natCast, neg_mul])⟩

theorem least_le_sub {p q : ℚ} (hp : OnGrid p) (hq : OnGrid q) (h : p < q) : 2 ^ (-1074 : ℤ) ≤ q - p := by
  obtain ⟨j, rfl⟩ := hp.eq_int_mul
  obtain ⟨k, rfl⟩ := hq.eq_int_mul
  have hpos : (0 : ℚ) < 2 ^ (-1074 : ℤ) := by positivity
  have hlt : j < k := by exact_mod_cast lt_of_mul_lt_mul_right h hpos.le
  have hle : (j : ℚ) + 1 ≤ k := by exact_mod_cast hlt
  rw [← sub_mul]
  exact le_mul_of_one_le_left hpos.le (by linarith)

/-- The difference of two numbers of the grid keeps its sign. -/
theorem Rounds.sub_pos {p q w : ℚ} (h : Rounds (q - p) w) (hp : OnGrid p) (hq : OnGrid q) (hlt : p < q) : 0 < w := by
  have hleast := onGrid_mul_two_zpow (m := 1) (e := -1074) (by decide) le_rfl
  rw [Nat.cast_one, one_mul] at hleast
  have hpos : (0 : ℚ) < 2 ^ (-1074 : ℤ) := by positivity
  exact hpos.trans_le (h.ge hleast (least_le_sub hp hq hlt))

theorem place_sub_pos (ha : a.isFinite = true) (hb : b.isFinite = true) (h : a < b) : 0 < place (b - a) := by
  have hr := rounded_add hb ((isFinite_neg _).trans ha) (reduced_unpack b.toModel) (reduced_unpack a.toModel).neg
  rw [worth_neg, ← unpacked_sub, ← sub_eq_add_neg] at hr
  have hpos := hr.rounds.sub_pos (onGrid_value a) (onGrid_value b) ((lt_iff_value ha hb).1 h)
  change 0 < place (Float.ofModel (.pack (UnpackedFloat.sub .binary64 b.toModel.unpack a.toModel.unpack)))
  rw [hr.place_pack.2]
  exact lt_max_of_lt_right (lt_min limit_pos hpos)

/-- The sign of a difference compares the values. -/
theorem sub_nonneg_iff (ha : a.isFinite = true) (hb : b.isFinite = true) (ha0 : 0 ≤ value a) (hb0 : 0 ≤ value b) :
    ofNat 0 ≤ a - b ↔ value b ≤ value a := by
  obtain ⟨hfinite, hvalue⟩ := value_ofNat (n := 0) (by decide)
  have hc := computes_sub_of_nonneg ha hb ha0 hb0
  rw [le_iff_value hfinite hc.finite, hvalue, Nat.cast_zero]
  constructor
  · intro h
    by_contra hlt
    have hneg := hc.rounds.neg
    rw [neg_sub] at hneg
    linarith [hneg.sub_pos (onGrid_value a) (onGrid_value b) (not_le.1 hlt)]
  · intro h
    exact hc.nonneg (by linarith)

/-- A number not below zero, finite or not. -/
structure Unsigned (x : Float) : Prop where
  ne_nan : x ≠ nan
  nonneg : 0 ≤ place x

theorem unsigned_of_finite (ha : a.isFinite = true) (h : 0 ≤ value a) : Unsigned a :=
  ⟨ne_nan ha, (place_of_finite ha).symm ▸ h⟩

theorem unsigned_ofNat {n : ℕ} (h : n < 2 ^ 53) : Unsigned (ofNat n) := by
  obtain ⟨hfinite, hvalue⟩ := value_ofNat h
  exact unsigned_of_finite hfinite (hvalue.symm ▸ Nat.cast_nonneg n)

theorem Unsigned.cases (h : Unsigned a) : a = inf ∨ a.isFinite = true ∧ 0 ≤ value a :=
  (factor_cases ((not_lt_zero_iff h.ne_nan).2 h.nonneg)).resolve_left h.ne_nan

theorem inf_add (hb : b.isFinite = true) : inf + b = inf := by
  change Float.ofModel (.pack (UnpackedFloat.add .binary64 (inf : Float).toModel.unpack b.toModel.unpack)) = inf
  rw [unpack_inf]
  obtain ⟨s, hu⟩ | ⟨s, m, e, hm, hu⟩ := finite_cases hb <;> rw [hu] <;>
    exact (by decide : Float.ofModel (.pack (.infinity .positive)) = inf)

theorem add_inf (ha : a.isFinite = true) : a + inf = inf := by
  change Float.ofModel (.pack (UnpackedFloat.add .binary64 a.toModel.unpack (inf : Float).toModel.unpack)) = inf
  rw [unpack_inf]
  obtain ⟨s, hu⟩ | ⟨s, m, e, hm, hu⟩ := finite_cases ha <;> rw [hu] <;>
    exact (by decide : Float.ofModel (.pack (.infinity .positive)) = inf)

/-- A sum is not below either of its parts. -/
theorem Unsigned.add (ha : Unsigned a) (hb : Unsigned b) :
    Unsigned (a + b) ∧ place a ≤ place (a + b) ∧ place b ≤ place (a + b) := by
  have hinf (h : a + b = inf) : Unsigned (a + b) ∧ place a ≤ place (a + b) ∧ place b ≤ place (a + b) := by
    have hle {x : Float} (hx : Unsigned x) : place x ≤ place inf := by
      obtain rfl | ⟨fx, -⟩ := hx.cases
      · exact le_rfl
      · exact place_inf ▸ (abs_lt.1 (abs_place_lt fx)).2.le
    rw [h]
    exact ⟨⟨by decide, place_inf ▸ limit_pos.le⟩, hle ha, hle hb⟩
  obtain rfl | ⟨fa, va⟩ := ha.cases
  · obtain rfl | ⟨fb, -⟩ := hb.cases
    · exact hinf (by decide)
    · exact hinf (inf_add fb)
  · obtain rfl | ⟨fb, vb⟩ := hb.cases
    · exact hinf (add_inf fa)
    · have hr := rounded_add fa fb (reduced_unpack _) (reduced_unpack _)
      obtain ⟨hnan, hplace⟩ := hr.place_pack
      have hpart {x : Float} (fx : x.isFinite = true) (h : value x ≤ value a + value b) : place x ≤ place (a + b) := by
        refine (place_of_finite fx).trans_le (hplace.symm ▸ ?_)
        exact le_max_of_le_right (le_min ((le_abs_self _).trans (abs_value_le x) |>.trans largest_lt.le)
          (hr.rounds.ge (onGrid_value x) h))
      have hleft := hpart fa (by linarith)
      exact ⟨⟨hnan, ha.nonneg.trans hleft⟩, hleft, hpart fb (by linarith)⟩

theorem isNaN_eq_false (ha : a ≠ nan) : Scalar.isNaN a = false := by
  by_cases hfinite : a.isFinite = true
  · exact isNaN_of_isFinite hfinite
  · obtain rfl | rfl := (not_finite_cases (Bool.not_eq_true _ ▸ hfinite)).resolve_left ha <;> decide

/-- The larger of two numbers stands at the larger place. -/
theorem place_max (ha : a ≠ nan) (hb : b ≠ nan) :
    Scalar.max a b ≠ nan ∧ place (Scalar.max a b) = max (place a) (place b) := by
  unfold Scalar.max
  rw [isNaN_eq_false ha, if_neg Bool.false_ne_true]
  split
  · rename_i hlt
    exact ⟨hb, (max_eq_right ((lt_iff_place ha hb).1 hlt).le).symm⟩
  · rename_i hlt
    rw [lt_iff_place ha hb, not_lt] at hlt
    exact ⟨ha, (max_eq_left hlt).symm⟩

theorem unsigned_max (a : Float) (hb : Unsigned b) : Unsigned (Scalar.max a b) := by
  by_cases ha : a = nan
  · rw [ha, max_nan]
    exact hb
  · obtain ⟨hnan, hplace⟩ := place_max ha hb.ne_nan
    exact ⟨hnan, hplace.symm ▸ le_max_of_le_right hb.nonneg⟩

/-- The largest of some numbers is not below any of them. -/
theorem place_foldl_max {xs : List Float} (hxs : ∀ x ∈ xs, x ≠ nan) (ha : a ≠ nan) :
    xs.foldl Scalar.max a ≠ nan ∧ place a ≤ place (xs.foldl Scalar.max a) ∧
      ∀ x ∈ xs, place x ≤ place (xs.foldl Scalar.max a) := by
  induction xs generalizing a with
  | nil => exact ⟨ha, le_rfl, fun _ h => nomatch h⟩
  | cons y xs ih =>
    obtain ⟨hy, hxs⟩ := List.forall_mem_cons.1 hxs
    obtain ⟨hnan, hplace⟩ := place_max ha hy
    obtain ⟨hfold, hstart, hmem⟩ := ih hxs hnan
    rw [hplace, max_le_iff] at hstart
    exact ⟨hfold, hstart.1, List.forall_mem_cons.2 ⟨hstart.2, hmem⟩⟩

theorem round_of_not_finite {x : Float} (hx : x.isFinite = false) : round x = x := by
  obtain rfl | rfl | rfl := not_finite_cases hx <;> unfold round toInteger
  · rw [decode_nan]
  · rw [decode_inf]
  · rw [decode_negInf]

/-- Halves go away from zero, so rounding commutes with the sign. -/
theorem round_neg {x : Float} (hx : x.isFinite = true) : round (-x) = -round x := by
  have hsign (s : Sign) (y : Float) : withSign (isNegative (-s)) y = -withSign (isNegative s) y := by
    cases s with
    | negative => exact (float_neg_neg y).symm
    | positive => rfl
  unfold round toInteger
  rw [decode_eq, decode_eq, unpack_neg]
  obtain ⟨s, hu⟩ | ⟨s, m, e, hm, hu⟩ := finite_cases hx
  · rw [hu]
    exact hsign s _
  · rw [hu]
    simp only [UnpackedFloat.neg, Value.ofUnpacked]
    split
    · rfl
    · exact hsign s _

theorem isFinite_round {x : Float} (hx : x.isFinite = true) : (round x).isFinite = true := by
  rcases le_total 0 (value x) with h | h
  · exact (value_round hx h).1
  · rw [← float_neg_neg x, round_neg ((finite_neg x).trans hx), finite_neg]
    refine (value_round ((finite_neg x).trans hx) ?_).1
    rw [value_neg]
    linarith

/-- Rounding to integers keeps the order. -/
theorem not_round_lt (h : ¬b < a) : ¬round b < round a := by
  refine not_lt_of_finite (fun hx => .inl (round_of_not_finite hx)) (fun hx => .inl (round_of_not_finite hx)) h
    fun ha hb hab => ?_
  have hnonneg {x y : Float} (hx : x.isFinite = true) (hy : y.isFinite = true) (h0 : 0 ≤ value x)
      (hxy : value x ≤ value y) : ¬round y < round x := by
    obtain ⟨fx, vx⟩ := value_round hx h0
    obtain ⟨fy, vy⟩ := value_round hy (h0.trans hxy)
    rw [lt_iff_value fy fx, vx, vy, not_lt]
    exact_mod_cast Int.floor_le_floor (by linarith)
  have hneg {x : Float} (hx : x.isFinite = true) (h0 : value x ≤ 0) :
      (-x).isFinite = true ∧ 0 ≤ value (-x) ∧ round x = -round (-x) := by
    have hf := (finite_neg x).trans hx
    refine ⟨hf, ?_, ?_⟩
    · rw [value_neg]
      linarith
    · rw [round_neg hx, float_neg_neg]
  rcases le_total 0 (value a) with ha0 | ha0
  · exact hnonneg ha hb ha0 hab
  · obtain ⟨fa, va, ra⟩ := hneg ha ha0
    rcases le_total 0 (value b) with hb0 | hb0
    · -- The two are on either side of zero.
      obtain ⟨ga, wa⟩ := value_round fa va
      obtain ⟨gb, wb⟩ := value_round hb hb0
      have hint {q : ℚ} (hq : 0 ≤ q) : (0 : ℚ) ≤ ⌊q + 1 / 2⌋ := by
        exact_mod_cast Int.floor_nonneg.2 (by linarith)
      rw [ra, lt_iff_value gb ((finite_neg _).trans ga), value_neg, wa, wb, not_lt]
      linarith [hint va, hint hb0]
    · obtain ⟨fb, vb, rb⟩ := hneg hb hb0
      rw [ra, rb]
      refine not_neg_lt_neg (hnonneg fb fa vb ?_)
      rw [value_neg, value_neg]
      linarith

end Whisker.Binary
