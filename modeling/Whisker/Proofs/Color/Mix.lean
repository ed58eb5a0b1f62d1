import Whisker.Animation
import Whisker.Proofs.Scalar.Rational

/-!
# Mixes of colors

A number, a color or an error bar that is the same at both ends of an animation should stay what it is. In exact
arithmetic numbers do, whatever they are. A color is compared with itself first, and one that has "not a number" for a
channel differs from itself: it is mixed with itself, which spoils it unless each channel survives being weighted.

In exact arithmetic the first color of a mix with weight `w` has the weight `w (1 + a)` against `(1 - w) (1 - a)` in the
channels other than alpha, where `a` is the difference in alpha. So no color has a negative weight, and a mix of valid
colors is valid. Both weights vanish in two corners only, where they are not divided by their sum.
-/

namespace Whisker

open Exact
open Scalar (isFinite isInfinite nan)

namespace Exact

@[simp] theorem nan_add (x : Exact) : nan + x = nan := by cases x <;> rfl

@[simp] theorem add_nan (x : Exact) : x + nan = nan := by cases x <;> rfl

@[simp] theorem nan_mul (x : Exact) : nan * x = nan := by cases x <;> rfl

@[simp] theorem mul_nan (x : Exact) : x * nan = nan := by cases x <;> rfl

@[simp] theorem nan_div (x : Exact) : nan / x = nan := by cases x <;> rfl

@[simp] theorem sub_nan (x : Exact) : x - nan = nan := by cases x <;> rfl

/-- The difference of a number that is not finite and itself. -/
theorem sub_self_of_not_finite {x : Exact} (h : isFinite x = false) : x - x = nan := by
  cases x with
  | finite p => cases h
  | infinite n => cases n <;> rfl
  | notANumber => rfl

theorem mul_zero_of_not_finite {x : Exact} (h : isFinite x = false) : x * finite 0 = nan := by
  cases x with
  | finite p => cases h
  | infinite n => rfl
  | notANumber => rfl

theorem beq_self {x : Exact} (h : x ≠ nan) : (x == x) = true := by
  cases x with
  | finite p => rw [finite_beq, decide_eq_true_iff]
  | infinite n => cases n <;> rfl
  | notANumber => exact absurd rfl h

@[simp] theorem nan_beq (x : Exact) : (nan == x) = false := by cases x <;> rfl

end Exact

/-- In exact arithmetic a number stays as it is, "not a number" too. -/
@[simp] theorem Blend.number_same (x t : Exact) : Blend.number x x t = x := by
  unfold number
  split
  · rfl
  · rename_i h
    obtain rfl : x = nan := not_not.1 fun hx => h (beq_self hx)
    rw [nan_add]

namespace Color

def channels {α : Type} (k : Color α) : List α := [k.red, k.green, k.blue, k.alpha]

/-- A color that equals itself, or whose channels are finite or "not a number" with a finite alpha, or which has no
number at all. -/
def IsSteady (k : Color Exact) : Prop :=
  nan ∉ k.channels ∨ (isFinite k.alpha = true ∧ ∀ x ∈ k.channels, isInfinite x = false) ∨ k = ⟨nan, nan, nan, nan⟩

variable {k : Color Exact}

/-- A color equals itself exactly if no channel is "not a number". -/
theorem beq_self_iff : (k == k) = true ↔ nan ∉ k.channels := by
  have hbeq : (k == k) = (k.red == k.red && (k.green == k.green && (k.blue == k.blue && k.alpha == k.alpha))) := rfl
  have hself (x : Exact) : (x == x) = true ↔ nan ≠ x := by
    refine ⟨?_, fun h => beq_self h.symm⟩
    rintro h rfl
    rw [nan_beq] at h
    cases h
  simp only [hbeq, Bool.and_eq_true, hself, channels, List.mem_cons, List.not_mem_nil, or_false, not_or]

def mean (p : ℚ) (x : Exact) : Exact := finite p * x + finite (1 - p) * x

theorem mean_eq (p : ℚ) {x : Exact} (h : isInfinite x = false) : mean p x = x := by
  cases x with
  | finite q =>
    rw [mean, finite_mul, finite_mul, finite_add]
    congr 1
    ring
  | infinite n => cases h
  | notANumber => rfl

theorem mean_zero_eq {x : Exact} (h : mean 0 x = x) : isInfinite x = false := by
  cases x with
  | finite q => rfl
  | infinite n => cases h
  | notANumber => rfl

/-- Without a difference in alpha the weight is not shifted. -/
theorem mix_self_of_finite_alpha (h : isFinite k.alpha = true) (p : ℚ) :
    k.mix k (finite p) = ⟨mean p k.red, mean p k.green, mean p k.blue, mean p k.alpha⟩ := by
  obtain ⟨red, green, blue, alpha⟩ := k
  obtain ⟨a, rfl⟩ := exists_finite h
  have hshift : 2 * finite p - 1 + finite 0 = 2 * finite p - 1 := by simp
  have hdivisor : 1 + (2 * finite p - 1) * finite 0 = finite 1 := by simp
  have hcorner : ((2 * finite p - 1) * finite 0 == (-1 : Exact)) = false := by simp
  have hdivide : (2 * finite p - 1) / finite 1 = 2 * finite p - 1 := by simp [finite_div]
  have hweight : (2 * finite p - 1 + 1) / 2 = finite p := by simp [finite_div]
  have hrest : 1 - finite p = finite (1 - p) := by simp
  have halpha : finite a * finite p + finite a * finite (1 - p) = mean p (finite a) := by
    simp only [mean, finite_mul, mul_comm a]
  simp only [mix, finite_sub, sub_self, hcorner, hshift, hdivisor, hdivide, hweight, hrest, halpha, mean,
    Bool.false_eq_true, if_false]

/-- With an alpha that is not finite, mixing spoils all other channels. -/
theorem mix_self_of_not_finite_alpha (h : isFinite k.alpha = false) (weight : Exact) :
    k.mix k weight = ⟨nan, nan, nan, k.alpha * weight + k.alpha * (1 - weight)⟩ := by
  simp [mix, sub_self_of_not_finite h]

theorem blend_of_steady (h : k.IsSteady) (p : ℚ) : Blend.color k k (finite p) = k := by
  unfold Blend.color
  split
  · rfl
  · rename_i hself
    rcases h with h | ⟨halpha, h⟩ | rfl
    · exact absurd (beq_self_iff.2 h) hself
    · simp only [channels, List.forall_mem_cons] at h
      obtain ⟨hred, hgreen, hblue, halpha', -⟩ := h
      rw [mix_self_of_finite_alpha halpha, mean_eq p hred, mean_eq p hgreen, mean_eq p hblue, mean_eq p halpha']
    · rw [mix_self_of_not_finite_alpha rfl]
      simp

/-- The start of an animation tells the steady colors from the others. -/
theorem steady_of_blend (h : Blend.color k k 0 = k) : k.IsSteady := by
  by_cases hself : nan ∈ k.channels
  · have hmix : k.mix k (finite 0) = k := by
      rwa [Blend.color, if_neg (mt beq_self_iff.1 (not_not.2 hself)), literal_eq, Nat.cast_zero] at h
    right
    by_cases halpha : isFinite k.alpha = true
    · rw [mix_self_of_finite_alpha halpha] at hmix
      refine .inl ⟨halpha, ?_⟩
      simp only [channels, List.forall_mem_cons]
      exact ⟨mean_zero_eq (congrArg red hmix), mean_zero_eq (congrArg green hmix), mean_zero_eq (congrArg blue hmix),
        mean_zero_eq (congrArg alpha hmix), nofun⟩
    · have halpha := Bool.eq_false_iff.2 halpha
      rw [mix_self_of_not_finite_alpha halpha, mul_zero_of_not_finite halpha, nan_add] at hmix
      exact .inr hmix.symm
  · exact .inl hself

end Color

end Whisker

namespace Whisker.Color

open Exact

/-- The weight of the first color in red, green and blue, given how much larger its alpha is. -/
def share (weight a : ℚ) : ℚ :=
  ((if (2 * weight - 1) * a = -1 then 2 * weight - 1 else (2 * weight - 1 + a) / (1 + (2 * weight - 1) * a)) + 1) / 2

section

variable {w a : ℚ}

theorem divisor_eq (w a : ℚ) : 1 + (2 * w - 1) * a = w * (1 + a) + (1 - w) * (1 - a) := by ring

theorem divisor_ne_zero (h : (2 * w - 1) * a ≠ -1) : 1 + (2 * w - 1) * a ≠ 0 := fun hzero => h (by linarith)

theorem share_corner (h : (2 * w - 1) * a = -1) : share w a = w := by
  rw [share, if_pos h]
  ring

theorem share_eq (h : (2 * w - 1) * a ≠ -1) : share w a = w * (1 + a) / (1 + (2 * w - 1) * a) := by
  have hne := divisor_ne_zero h
  rw [share, if_neg h]
  field_simp
  ring

theorem one_sub_share (h : (2 * w - 1) * a ≠ -1) : 1 - share w a = (1 - w) * (1 - a) / (1 + (2 * w - 1) * a) := by
  have hne := divisor_ne_zero h
  rw [share_eq h, eq_div_iff hne, sub_mul, div_mul_cancel₀ _ hne]
  ring

@[simp] theorem share_one (a : ℚ) : share 1 a = 1 := by
  by_cases h : (2 * 1 - 1) * a = -1
  · exact share_corner h
  · have hsum : 1 + (2 * 1 - 1) * a = 1 * (1 + a) := by ring
    rw [share_eq h, hsum, div_self (hsum ▸ divisor_ne_zero h)]

@[simp] theorem share_zero (a : ℚ) : share 0 a = 0 := by
  by_cases h : (2 * 0 - 1) * a = -1
  · exact share_corner h
  · rw [share_eq h, zero_mul, zero_div]

@[simp] theorem share_same (w : ℚ) : share w 0 = w := by
  rw [share_eq (by norm_num), mul_zero, add_zero, mul_one, div_one]

theorem share_mem (hw : w ∈ Set.Icc (0 : ℚ) 1) (ha : a ∈ Set.Icc (-1 : ℚ) 1) : share w a ∈ Set.Icc (0 : ℚ) 1 := by
  by_cases h : (2 * w - 1) * a = -1
  · rwa [share_corner h]
  · have hfirst : 0 ≤ w * (1 + a) := mul_nonneg hw.1 (by linarith [ha.1])
    have hsecond : 0 ≤ (1 - w) * (1 - a) := mul_nonneg (by linarith [hw.2]) (by linarith [ha.2])
    have hsum : 0 ≤ 1 + (2 * w - 1) * a := (divisor_eq w a).ge.trans' (add_nonneg hfirst hsecond)
    have hlow : 0 ≤ share w a := (div_nonneg hfirst hsum).trans_eq (share_eq h).symm
    have hhigh : 0 ≤ 1 - share w a := (div_nonneg hsecond hsum).trans_eq (one_sub_share h).symm
    exact ⟨hlow, sub_nonneg.1 hhigh⟩

end

def exact (c : Color ℚ) : Color Exact := ⟨finite c.red, finite c.green, finite c.blue, finite c.alpha⟩

structure InUnit (c : Color ℚ) : Prop where
  red : c.red ∈ Set.Icc (0 : ℚ) 1
  green : c.green ∈ Set.Icc (0 : ℚ) 1
  blue : c.blue ∈ Set.Icc (0 : ℚ) 1
  alpha : c.alpha ∈ Set.Icc (0 : ℚ) 1

theorem exists_unit {x : Exact} (hlow : 0 ≤ x) (hhigh : x ≤ 1) : ∃ p ∈ Set.Icc (0 : ℚ) 1, x = finite p := by
  cases x with
  | finite p =>
    rw [literal_eq, finite_le] at hlow hhigh
    exact ⟨p, ⟨by exact_mod_cast hlow, by exact_mod_cast hhigh⟩, rfl⟩
  | infinite negative => cases negative <;> [cases hhigh; cases hlow]
  | notANumber => cases hlow

theorem inUnit_eq_true {x : Exact} : inUnit x = true ↔ ∃ p ∈ Set.Icc (0 : ℚ) 1, x = finite p := by
  rw [inUnit, Bool.and_eq_true, Bool.and_eq_true, decide_eq_true_iff, decide_eq_true_iff]
  constructor
  · rintro ⟨⟨-, hlow⟩, hhigh⟩
    exact exists_unit hlow hhigh
  · rintro ⟨p, ⟨hlow, hhigh⟩, rfl⟩
    rw [literal_eq, literal_eq, finite_le, finite_le]
    exact ⟨⟨rfl, by exact_mod_cast hlow⟩, by exact_mod_cast hhigh⟩

theorem validate_exact {c : Color Exact} : c.validate = .ok () ↔ ∃ q : Color ℚ, q.InUnit ∧ c = q.exact := by
  simp only [validate, seq_eq_ok, check_eq_ok, inUnit_eq_true]
  constructor
  · rintro ⟨⟨r, hr, hred⟩, ⟨g, hg, hgreen⟩, ⟨b, hb, hblue⟩, ⟨a, ha, halpha⟩⟩
    refine ⟨⟨r, g, b, a⟩, ⟨hr, hg, hb, ha⟩, ?_⟩
    rw [exact, ← hred, ← hgreen, ← hblue, ← halpha]
  · rintro ⟨q, h, rfl⟩
    exact ⟨⟨_, h.red, rfl⟩, ⟨_, h.green, rfl⟩, ⟨_, h.blue, rfl⟩, ⟨_, h.alpha, rfl⟩⟩

/-- The mix of two colors whose first one has the weight `u` in red, green and blue and `w` in alpha. -/
def weighted (c d : Color ℚ) (u w : ℚ) : Color ℚ :=
  ⟨u * c.red + (1 - u) * d.red, u * c.green + (1 - u) * d.green, u * c.blue + (1 - u) * d.blue,
    c.alpha * w + d.alpha * (1 - w)⟩

/-- Weighted means of valid channels are valid. -/
theorem InUnit.weighted {c d : Color ℚ} (hc : c.InUnit) (hd : d.InUnit) {u w : ℚ} (hu : u ∈ Set.Icc (0 : ℚ) 1)
    (hw : w ∈ Set.Icc (0 : ℚ) 1) : (c.weighted d u w).InUnit := by
  have hmean {x y v : ℚ} (hx : x ∈ Set.Icc (0 : ℚ) 1) (hy : y ∈ Set.Icc (0 : ℚ) 1) (hv : v ∈ Set.Icc (0 : ℚ) 1) :
      v * x + (1 - v) * y ∈ Set.Icc (0 : ℚ) 1 := by
    have hrest : 0 ≤ 1 - v := sub_nonneg.2 hv.2
    constructor
    · exact add_nonneg (mul_nonneg hv.1 hx.1) (mul_nonneg hrest hy.1)
    · linarith [mul_le_of_le_one_right hv.1 hx.2, mul_le_of_le_one_right hrest hy.2]
  refine ⟨hmean hc.red hd.red hu, hmean hc.green hd.green hu, hmean hc.blue hd.blue hu, ?_⟩
  have halpha := hmean hc.alpha hd.alpha hw
  rwa [mul_comm w, mul_comm (1 - w)] at halpha

/-- A quotient, unless it divides by zero. -/
def divide? (x y : Exact) : Option Exact := if y = 0 then none else some (x / y)

def shifted? (w a : Exact) : Option Exact := if w * a == -1 then some w else divide? (w + a) (1 + w * a)

/-- The mix of two colors, unless a division by zero occurs in it. -/
def mix? (c d : Color Exact) (weight : Exact) : Option (Color Exact) := do
  let w₁ ← divide? ((← shifted? (2 * weight - 1) (c.alpha - d.alpha)) + 1) 2
  let w₂ := 1 - w₁
  return ⟨w₁ * c.red + w₂ * d.red, w₁ * c.green + w₂ * d.green, w₁ * c.blue + w₂ * d.blue,
    c.alpha * weight + d.alpha * (1 - weight)⟩

theorem eq_of_divide? {x y z : Exact} (h : divide? x y = some z) : x / y = z := by
  unfold divide? at h
  split at h
  · cases h
  · exact Option.some.inj h

/-- Where no division by zero occurs the mix is the one that is made without looking out for them. -/
theorem mix_of_mix? {c d m : Color Exact} {weight : Exact} (h : c.mix? d weight = some m) : c.mix d weight = m := by
  obtain ⟨s, hs, h⟩ := Option.bind_eq_some_iff.1 h
  obtain ⟨w₁, hw₁, h⟩ := Option.bind_eq_some_iff.1 h
  have hs : (if (2 * weight - 1) * (c.alpha - d.alpha) == -1 then 2 * weight - 1
      else (2 * weight - 1 + (c.alpha - d.alpha)) / (1 + (2 * weight - 1) * (c.alpha - d.alpha))) = s := by
    unfold shifted? at hs
    split at hs
    · rename_i hcorner
      rw [if_pos hcorner, Option.some.inj hs]
    · rename_i hcorner
      rw [if_neg hcorner, eq_of_divide? hs]
  unfold mix
  simp only [hs, eq_of_divide? hw₁]
  exact Option.some.inj h

theorem divide?_finite (p : ℚ) {q : ℚ} (hq : q ≠ 0) : divide? (finite p) (finite q) = some (finite (p / q)) := by
  have hne : finite q ≠ 0 := by
    rw [literal_eq, Ne, finite.injEq]
    exact_mod_cast hq
  rw [divide?, if_neg hne, finite_div p hq]

theorem shifted?_finite (w a : ℚ) :
    shifted? (finite w) (finite a) = some (finite (if w * a = -1 then w else (w + a) / (1 + w * a))) := by
  unfold shifted?
  simp only [literal_eq, finite_mul, finite_neg, finite_add, finite_beq, decide_eq_true_eq, Nat.cast_one]
  split
  · rfl
  · rename_i h
    exact divide?_finite _ fun hzero => h (by linarith)

/-- No division by zero occurs in a mix of rational channels. -/
theorem mix?_exact (c d : Color ℚ) (w : ℚ) :
    c.exact.mix? d.exact (finite w) = some (c.weighted d (share w (c.alpha - d.alpha)) w).exact := by
  unfold mix? exact
  simp only [literal_eq, finite_mul, finite_sub, finite_add, Nat.cast_one, Nat.cast_ofNat, shifted?_finite,
    Option.bind_eq_bind, Option.bind_some, divide?_finite _ (two_ne_zero (α := ℚ))]
  rfl

/-- A mix of rational channels is the weighted mean with the share. -/
theorem mix_exact (c d : Color ℚ) (w : ℚ) :
    c.exact.mix d.exact (finite w) = (c.weighted d (share w (c.alpha - d.alpha)) w).exact :=
  mix_of_mix? (mix?_exact c d w)

/-- In exact arithmetic a mix of two valid colors divides by zero nowhere and is valid. All weight on one of them gives
this color, whatever the alphas are, and with equal alphas the weights of the channels are those of the mix. -/
theorem mix_of_valid (c d : Color Exact) (hc : c.validate = .ok ()) (hd : d.validate = .ok ()) {w : Exact} (hw : 0 ≤ w)
    (hw' : w ≤ 1) :
    c.mix? d w = some (c.mix d w) ∧ (c.mix d w).validate = .ok () ∧ c.mix d 1 = c ∧ c.mix d 0 = d ∧
      (c.alpha = d.alpha → c.mix d w = ⟨w * c.red + (1 - w) * d.red, w * c.green + (1 - w) * d.green,
        w * c.blue + (1 - w) * d.blue, w * c.alpha + (1 - w) * d.alpha⟩) := by
  obtain ⟨p, hp, rfl⟩ := validate_exact.1 hc
  obtain ⟨q, hq, rfl⟩ := validate_exact.1 hd
  obtain ⟨w, hwmem, rfl⟩ := exists_unit hw hw'
  have ha : p.alpha - q.alpha ∈ Set.Icc (-1 : ℚ) 1 :=
    ⟨by linarith [hp.alpha.1, hq.alpha.2], by linarith [hp.alpha.2, hq.alpha.1]⟩
  refine ⟨?_, ?_, ?_, ?_, fun halpha => ?_⟩
  · rw [mix?_exact, mix_exact]
  · rw [mix_exact]
    exact validate_exact.2 ⟨_, hp.weighted hq (share_mem hwmem ha) hwmem, rfl⟩
  · have hone := mix_exact p q 1
    simpa [weighted] using hone
  · have hzero := mix_exact p q 0
    simpa [weighted] using hzero
  · have halpha : p.alpha = q.alpha := finite.inj halpha
    rw [mix_exact, halpha, sub_self, share_same]
    simp [weighted, exact, mul_comm, halpha]

/-- A transparent color and an opaque one, in whose mixes the divisor vanishes at one end. -/
theorem corner_mix_is_valid :
    (transparent : Color Exact).validate = .ok () ∧ (white : Color Exact).validate = .ok () ∧
      transparent.mix? white 1 = some (transparent.mix white 1) ∧ transparent.mix white (1 : Exact) = transparent ∧
      transparent.mix white (0 : Exact) = white ∧ (transparent.mix white (0.25 : Exact)).validate = .ok () := by
  have htransparent : (transparent : Color Exact).validate = .ok () := by decide +kernel
  have hwhite : (white : Color Exact).validate = .ok () := by decide +kernel
  obtain ⟨hdefined, -, hone, hzero, -⟩ := mix_of_valid _ _ htransparent hwhite (w := 1) (by decide +kernel)
    (by decide +kernel)
  obtain ⟨-, hvalid, -⟩ := mix_of_valid _ _ htransparent hwhite (w := 0.25) (by decide +kernel) (by decide +kernel)
  exact ⟨htransparent, hwhite, hdefined, hone, hzero, hvalid⟩

end Whisker.Color
