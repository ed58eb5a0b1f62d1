import Whisker.Proofs.Scalar.Monotone
import Whisker.Proofs.Scale.Fit

/-!
# Ticks in order

Ticks are formed by rounding several times, and none of the roundings turns the order around: multiples of a step that
is not below zero are added to the first tick, and the sum is scaled, rounded to an integer and scaled back. So the
ticks of a range in order are in order. The range itself is in order unless an explicit end is beyond the data.
-/

namespace Whisker

open Binary
open Scalar (nan inf ofNat isFinite)

variable {a b c : Float}

/-- One or more, or infinite. -/
def Large (x : Float) : Prop := x ≠ nan ∧ 1 ≤ place x

theorem large_ofNat {n : ℕ} (hn : 0 < n) (hlt : n < 2 ^ 53) : Large (ofNat n) := by
  obtain ⟨hfinite, hvalue⟩ := value_ofNat hlt
  refine ⟨ne_nan hfinite, ?_⟩
  rw [place_of_finite hfinite, hvalue]
  exact_mod_cast hn

theorem large_inf : Large inf := ⟨by decide, place_inf ▸ one_le_limit⟩

theorem Large.cases (h : Large a) : a = inf ∨ a.isFinite = true ∧ 1 ≤ value a := by
  obtain ⟨hnan, hplace⟩ := h
  by_cases ha : a.isFinite = true
  · exact .inr ⟨ha, by rwa [place_of_finite ha] at hplace⟩
  · obtain rfl | rfl := (not_finite_cases (Bool.not_eq_true _ ▸ ha)).resolve_left hnan
    · exact .inl rfl
    · rw [place_negInf] at hplace
      linarith [limit_pos]

theorem Large.mul (ha : Large a) (hb : Large b) : Large (a * b) := by
  obtain rfl | ⟨fa, va⟩ := ha.cases
  · obtain rfl | ⟨fb, vb⟩ := hb.cases
    · have hmul : inf * inf = (inf : Float) := by decide
      rw [hmul]
      exact large_inf
    · rw [not_finite_mul (by decide) fb (by linarith)]
      exact large_inf
  · obtain rfl | ⟨fb, vb⟩ := hb.cases
    · obtain ⟨hneg, -⟩ | ⟨hzero, -⟩ | ⟨-, hmul⟩ := mul_inf_cases fa
      · linarith
      · linarith
      · rw [hmul]
        exact large_inf
    · have hr := rounded_mul fa fb (reduced_unpack _) (reduced_unpack _)
      have hone : (1 : ℚ) ≤ value a * value b := one_le_mul_of_one_le_of_one_le va vb
      have hge := hr.rounds.ge (b := 1) (by exact_mod_cast onGrid_natCast (n := 1) (by decide)) hone
      refine ⟨hr.place_pack.1, hr.place_pack.2.symm ▸ ?_⟩
      exact le_max_of_le_right (le_min one_le_limit hge)

theorem large_powNat_go (fuel n : ℕ) {r x : Float} (hr : Large r) (hx : Large x) : Large (Scalar.powNat.go fuel r x n) := by
  induction fuel generalizing r x n with
  | zero => exact hr
  | succ fuel ih =>
    have hnext : Large (if n % 2 = 1 then r * x else r) := by
      split
      · exact hr.mul hx
      · exact hr
    rw [Scalar.powNat.go]
    split
    · exact hnext
    · exact ih _ hnext (hx.mul hx)

theorem Large.one_div (h : Large a) : (ofNat 1 / a).isFinite = true ∧ 0 ≤ value (ofNat 1 / a) := by
  obtain rfl | ⟨hfinite, hvalue⟩ := h.cases
  · have hdiv : ofNat 1 / inf = (ofNat 0 : Float) := by decide
    obtain ⟨fzero, vzero⟩ := value_ofNat (n := 0) (by decide)
    rw [hdiv]
    exact ⟨fzero, vzero.symm ▸ Nat.cast_nonneg 0⟩
  · obtain ⟨fone, vone⟩ := value_ofNat (n := 1) (by decide)
    rw [Nat.cast_one] at vone
    have hnonneg : 0 ≤ value (ofNat 1 : Float) / value a := by
      rw [vone]
      exact div_nonneg zero_le_one (by linarith)
    have hone : value (ofNat 1 : Float) / value a ≤ 1 := by
      rw [vone]
      exact (div_le_one (by linarith)).2 hvalue
    have hc := computes_div fone hfinite (by linarith) (by
      rw [abs_of_nonneg hnonneg]
      exact hone.trans (two_pow_le_largest (k := 0) (by decide)))
    exact ⟨hc.finite, hc.nonneg hnonneg⟩

/-- A power of ten is infinite, or finite and not below zero. -/
theorem powInt_ten (e : ℤ) :
    (Scalar.powInt (ofNat 10) e : Float) = inf ∨
      (Scalar.powInt (ofNat 10) e : Float).isFinite = true ∧ 0 ≤ value (Scalar.powInt (ofNat 10) e) := by
  have hpow (n : ℕ) : Large (Scalar.powNat (ofNat 10) n) :=
    large_powNat_go _ _ (large_ofNat (n := 1) (by decide) (by decide)) (large_ofNat (by decide) (by decide))
  cases e with
  | ofNat n =>
    change (Scalar.powNat (ofNat 10) n : Float) = inf ∨
      (Scalar.powNat (ofNat 10) n : Float).isFinite = true ∧ 0 ≤ value (Scalar.powNat (ofNat 10) n)
    exact (hpow n).cases.imp_right fun ⟨hfinite, hvalue⟩ => ⟨hfinite, by linarith⟩
  | negSucc n => exact .inr (hpow (n + 1)).one_div

theorem roundTo_inf (x : Float) : round (x * inf) / inf = nan := by
  have hround {y : Float} (hy : y = nan ∨ y = inf ∨ y = -inf) : round y / inf = nan := by
    obtain rfl | rfl | rfl := hy <;> decide
  refine hround ?_
  by_cases hx : x.isFinite = true
  · obtain ⟨-, h⟩ | ⟨-, h⟩ | ⟨-, h⟩ := mul_inf_cases hx
    · exact .inr (.inr h)
    · exact .inl h
    · exact .inr (.inl h)
  · obtain rfl | rfl | rfl := not_finite_cases (Bool.not_eq_true _ ▸ hx)
    · exact .inl (nan_mul inf)
    · exact .inr (.inl (by decide))
    · exact .inr (.inr (by decide))

/-- A factor of zero leaves zero or "not a number", to be divided by zero. -/
theorem roundTo_zero (hc : c.isFinite = true) (hzero : value c = 0) (x : Float) : round (x * c) / c = nan := by
  have hmul : x * c = nan ∨ x * c = 0 ∨ x * c = -0 := by
    by_cases hx : x.isFinite = true
    · have h := computes_mul hx hc (by rw [hzero, mul_zero, abs_zero, largest]; norm_num)
      rw [hzero, mul_zero] at h
      exact .inr (eq_of_value_zero h.finite (h.rounds.eq onGrid_zero))
    · left
      obtain rfl | rfl | rfl := not_finite_cases (Bool.not_eq_true _ ▸ hx) <;>
        obtain rfl | rfl := eq_of_value_zero hc hzero <;> decide
  obtain h | h | h := hmul <;> rw [h] <;> obtain rfl | rfl := eq_of_value_zero hc hzero <;> decide

/-- What is rounded to a finite number is finite, and its factor is a finite number above zero. -/
theorem finite_of_roundTo {x : Float} {places : ℤ} (h : (Ticks.roundTo x places).isFinite = true) :
    x.isFinite = true ∧ (Scalar.powInt (ofNat 10) places : Float).isFinite = true ∧
      0 < value (Scalar.powInt (ofNat 10) places) := by
  change (round (x * Scalar.powInt (ofNat 10) places) / Scalar.powInt (ofNat 10) places).isFinite = true at h
  obtain hinf | ⟨hfinite, hnonneg⟩ := powInt_ten places
  · rw [hinf, roundTo_inf] at h
    cases h
  · rcases hnonneg.lt_or_eq with hpos | hzero
    · refine ⟨?_, hfinite, hpos⟩
      by_contra hx
      rw [Bool.not_eq_true] at hx
      rw [not_finite_mul hx hfinite hpos, round_of_not_finite hx, div_of_not_finite hx hfinite hpos, hx] at h
      cases h
    · rw [roundTo_zero hfinite hzero.symm] at h
      cases h

/-- Rounding to a power of ten in range keeps numbers. -/
theorem roundTo_ne_nan {x : Float} {places : ℤ} (hx : x ≠ nan)
    (hfinite : (Scalar.powInt (ofNat 10) places : Float).isFinite = true)
    (hpos : 0 < value (Scalar.powInt (ofNat 10) places)) : Ticks.roundTo x places ≠ nan := by
  have hdiv {y : Float} (hy : y ≠ nan) : round y / Scalar.powInt (ofNat 10) places ≠ nan := by
    by_cases fy : y.isFinite = true
    · exact (rounded_div (isFinite_round fy) hfinite hpos.ne').place_pack.1
    · have fy := Bool.not_eq_true _ ▸ fy
      rwa [round_of_not_finite fy, div_of_not_finite fy hfinite hpos]
  refine hdiv ?_
  by_cases fx : x.isFinite = true
  · exact (rounded_mul fx hfinite (reduced_unpack _) (reduced_unpack _)).place_pack.1
  · change x * Scalar.powInt (ofNat 10) places ≠ nan
    rwa [not_finite_mul (Bool.not_eq_true _ ▸ fx) hfinite hpos]

/-- Rounding to places keeps the order. -/
theorem not_roundTo_lt (h : ¬b < a) (places : ℤ) : ¬Ticks.roundTo b places < Ticks.roundTo a places := by
  change ¬round (b * Scalar.powInt (ofNat 10) places) / Scalar.powInt (ofNat 10) places <
    round (a * Scalar.powInt (ofNat 10) places) / Scalar.powInt (ofNat 10) places
  obtain hinf | ⟨hfinite, hnonneg⟩ := powInt_ten places
  · rw [hinf, roundTo_inf]
    exact not_nan_lt _
  · rcases hnonneg.lt_or_eq with hpos | hzero
    · refine not_div_lt_div (not_round_lt (not_mul_lt_mul h ?_)) hfinite hpos
      rw [not_lt_zero_iff (ne_nan hfinite), place_of_finite hfinite]
      exact hnonneg
    · rw [roundTo_zero hfinite hzero.symm]
      exact not_nan_lt _

namespace Ticks

theorem not_mul_lt_zero (ha : a.isFinite = true) (hnonneg : 0 ≤ value a) (hc : ¬c < ofNat 0) : ¬a * c < ofNat 0 := by
  obtain rfl | rfl | ⟨hfinite, hvalue⟩ := factor_cases hc
  · rw [mul_nan]
    exact not_nan_lt _
  · obtain ⟨hneg, -⟩ | ⟨-, hmul⟩ | ⟨-, hmul⟩ := mul_inf_cases ha
    · linarith
    · rw [hmul]
      exact not_nan_lt _
    · rw [hmul]
      exact not_inf_lt _
  · have hr := rounded_mul ha hfinite (reduced_unpack _) (reduced_unpack _)
    have hge := hr.rounds.ge onGrid_zero (mul_nonneg hnonneg hvalue)
    refine (not_lt_zero_iff hr.place_pack.1).2 (hr.place_pack.2.symm ▸ ?_)
    exact le_max_of_le_right (le_min limit_pos.le hge)

theorem not_tenPow_lt_zero (e : ℤ) : ¬tenPow e < ofNat 0 := by
  unfold tenPow
  split
  · rename_i he
    obtain ⟨hfinite, hvalue⟩ := value_natural (n := Nat.pow 10 e.toNat) (by
      calc 10 ^ e.toNat ≤ 10 ^ 15 := Nat.pow_le_pow_right (by decide) (by omega)
        _ < 2 ^ 53 := by decide)
    rw [not_lt_zero_iff (ne_nan hfinite), place_of_finite hfinite, hvalue]
    exact Nat.cast_nonneg _
  · exact not_abs_lt_zero _

theorem not_niceStep_lt_zero (range : Float) : ¬niceStep range < ofNat 0 := by
  have hfactor {n : ℕ} (hn : n < 2 ^ 53) (e : ℤ) : ¬ofNat n * Scalar.tenPow e < (ofNat 0 : Float) := by
    obtain ⟨hfinite, hvalue⟩ := value_ofNat hn
    exact not_mul_lt_zero hfinite (hvalue.symm ▸ Nat.cast_nonneg n) (not_tenPow_lt_zero e)
  have hchosen (r : Float) : ¬(if r / Scalar.tenPow (Scalar.decade r) ≤ ofNat 1 then (ofNat 1 : Float)
      else if r / Scalar.tenPow (Scalar.decade r) ≤ ofNat 2 then ofNat 2
      else if r / Scalar.tenPow (Scalar.decade r) ≤ ofNat 5 then ofNat 5
      else ofNat 10) * (Scalar.tenPow (Scalar.decade r) : Float) < ofNat 0 := by
    split
    · exact hfactor (by decide) _
    · split
      · exact hfactor (by decide) _
      · split
        · exact hfactor (by decide) _
        · exact hfactor (by decide) _
  unfold niceStep
  split
  · exact (by decide : ¬(ofNat 1 : Float) < ofNat 0)
  · exact hchosen _

theorem not_ofNat_lt {i j : ℕ} (h : i ≤ j) (hj : j < 2 ^ 53) : ¬(ofNat j : Float) < ofNat i := by
  obtain ⟨fi, vi⟩ := value_ofNat (h.trans_lt hj)
  obtain ⟨fj, vj⟩ := value_ofNat hj
  rw [lt_iff_value fj fi, vi, vj, not_lt]
  exact_mod_cast h

/-- A later tick is not below an earlier one. -/
theorem not_tick_lt {first step : Float} (hstep : ¬step < ofNat 0) (places : ℤ) {i j : ℕ} (h : i ≤ j) (hj : j < 2 ^ 53) :
    ¬roundTo (first + ofNat j * step) places < roundTo (first + ofNat i * step) places :=
  not_roundTo_lt (not_add_lt_add (float_lt_irrefl first) (not_mul_lt_mul (not_ofNat_lt h hj) hstep)) places

/-- The ticks of a range are its ends, or a few multiples of a step that is not below zero. -/
theorem cover_cases (low high : Float) {count : ℕ} (hcount : count ≤ most) :
    cover low high count = [low, high] ∨
      ∃ (first step : Float) (places : ℤ) (n : ℕ), ¬step < ofNat 0 ∧ n ≤ 12 ∧
        cover low high count = (List.range (n + 1)).map fun i => roundTo (first + ofNat i * step) places := by
  unfold cover
  split
  · exact .inl rfl
  · dsimp only
    split
    · exact .inl rfl
    · split
      · exact .inl rfl
      · rename_i hsteps
        simp only [Bool.or_eq_true, Bool.not_eq_true', decide_eq_true_eq, not_or, Bool.not_eq_false] at hsteps
        obtain ⟨⟨hfinite, -⟩, hlast⟩ := hsteps
        have hspaces : (max count fewest - 1 + 2) % UInt64.size ≤ 12 := by
          have hmax : max count fewest ≤ 11 := max_le hcount (by decide)
          exact (Nat.mod_le _ _).trans (by omega)
        obtain ⟨hf, hv⟩ := value_ofNat (n := (max count fewest - 1 + 2) % UInt64.size) (by omega)
        have hcount := toNat_le hfinite (hv ▸ value_le_of_not_lt hfinite hf hlast)
        exact .inr ⟨_, _, _, _, not_niceStep_lt_zero _, hcount.trans hspaces, rfl⟩

/-- Ticks rise or stay, in the order in which they are made. -/
theorem cover_ordered {low high : Float} (h : ¬high < low) {count : ℕ} (hcount : count ≤ most) :
    (cover low high count).Pairwise fun s t => ¬t < s := by
  obtain hpair | ⟨first, step, places, n, hstep, hn, hcover⟩ := cover_cases low high hcount
  · rw [hpair]
    simp [h]
  · rw [hcover, List.pairwise_map]
    refine List.pairwise_lt_range.imp_of_mem fun {i j} _ hj hij => ?_
    exact not_tick_lt hstep places hij.le (by have := List.mem_range.1 hj; omega)

/-- The first of the ticks is a finite number only if all of them are numbers. -/
theorem tick_ne_nan {first step : Float} (hstep : ¬step < ofNat 0) {places : ℤ}
    (h : (roundTo (first + ofNat 0 * step) places).isFinite = true) {i : ℕ} (hi : i < 2 ^ 53) :
    roundTo (first + ofNat i * step) places ≠ nan := by
  obtain ⟨hstart, hfactor, hpos⟩ := finite_of_roundTo h
  obtain ⟨hfirst, hzero⟩ := finite_of_add hstart
  -- Zero times an infinite step is no number.
  have hfinite : step.isFinite = true := by
    obtain rfl | rfl | ⟨hfinite, -⟩ := factor_cases hstep
    · rw [mul_nan] at hzero
      cases hzero
    · exact absurd hzero (by decide)
    · exact hfinite
  refine roundTo_ne_nan (add_ne_nan hfirst ?_) hfactor hpos
  exact (rounded_mul (value_ofNat hi).1 hfinite (reduced_unpack _) (reduced_unpack _)).place_pack.1

/-- If the outermost ticks are finite, all ticks are numbers. -/
theorem cover_ne_nan {low high : Float} {count : ℕ} (hcount : count ≤ most)
    (hfirst : ((cover low high count).headD low).isFinite = true)
    (hlast : ((cover low high count).getLastD high).isFinite = true) : ∀ t ∈ cover low high count, t ≠ nan := by
  obtain hpair | ⟨first, step, places, n, hstep, hn, hcover⟩ := cover_cases low high hcount
  · rw [hpair] at hfirst hlast ⊢
    simp only [List.forall_mem_cons]
    exact ⟨ne_nan hfirst, ne_nan hlast, nofun⟩
  · rw [hcover] at hfirst ⊢
    rw [List.range_succ_eq_map, List.map_cons, List.headD_cons] at hfirst
    rw [List.forall_mem_map]
    intro i hi
    exact tick_ne_nan hstep hfirst (by have := List.mem_range.1 hi; omega)

end Ticks

namespace Scale

open Ticks (cover count)

/-- The range of an extent is in order. -/
theorem finiteRange_ordered (extent : Option (Extent Float)) : ¬(finiteRange extent).2 < (finiteRange extent).1 := by
  have hunit : ¬(ofNat 1 : Float) < ofNat 0 := by decide
  unfold finiteRange
  split
  · split
    · rename_i e hfinite
      obtain ⟨hlow, hhigh⟩ := Bool.and_eq_true_iff.1 hfinite
      have hnan : Scalar.isNaN e.low = false := isNaN_of_isFinite hlow
      unfold Scalar.min Scalar.max
      rw [hnan, if_neg Bool.false_ne_true, if_neg Bool.false_ne_true]
      dsimp only
      split
      · rename_i hlt
        rw [if_neg (not_lt_of_lt hlt)]
        exact not_lt_of_lt hlt
      · rename_i hlt
        split
        · exact hlt
        · exact float_lt_irrefl _
    · exact hunit
  · exact hunit

theorem anchor_ordered {range : Float × Float} (h : ¬range.2 < range.1) : ¬(anchor range).2 < (anchor range).1 := by
  unfold anchor
  dsimp only
  split
  · rename_i hneg
    simp only [Bool.and_eq_true, decide_eq_true_eq] at hneg
    exact not_lt_of_lt hneg.1
  · split
    · rename_i hpos
      simp only [Bool.and_eq_true, decide_eq_true_eq] at hpos
      exact not_lt_of_lt hpos.2
    · exact h

theorem not_flatOffset_lt_zero (x : Float) : ¬flatOffset x < ofNat 0 := by
  unfold flatOffset
  split
  · exact not_abs_lt_zero _
  · exact (by decide : ¬(ofNat 1 : Float) < ofNat 0)

/-- A range is in order, or its explicit ends are taken as they are. -/
theorem tickRange_ordered (extent : Option (Extent Float)) (options : Options Float) :
    ¬(tickRange extent options).2 < (tickRange extent options).1 ∨
      ¬(options.min = none ∧ options.max = none) ∧
        options.min.getD (tickRange extent options).1 = (tickRange extent options).1 ∧
          options.max.getD (tickRange extent options).2 = (tickRange extent options).2 := by
  obtain ⟨low, high, hdata⟩ : ∃ low high, (if options.beginAtZero then anchor (finiteRange extent) else
      finiteRange extent) = (low, high) := ⟨_, _, rfl⟩
  have hrange : ¬high < low := by
    have hordered : ¬(if options.beginAtZero then anchor (finiteRange extent) else finiteRange extent).2 <
        (if options.beginAtZero then anchor (finiteRange extent) else finiteRange extent).1 := by
      split
      · exact anchor_ordered (finiteRange_ordered extent)
      · exact finiteRange_ordered extent
    rwa [hdata] at hordered
  unfold tickRange
  simp only [hdata]
  by_cases hflat : (options.min.getD low == options.max.getD high) = true
  · rw [if_pos hflat]
    left
    have hoffset := not_flatOffset_lt_zero (options.max.getD high)
    have hsame := not_lt_of_beq hflat
    dsimp only
    split
    · exact not_add_lt hsame hoffset
    · rw [float_sub_eq]
      exact not_add_lt_add hsame (not_lt_neg hoffset)
  · rw [if_neg hflat]
    by_cases hnone : options.min = none ∧ options.max = none
    · rw [hnone.1, hnone.2]
      exact .inl hrange
    · exact .inr ⟨hnone, getD_getD _ _, getD_getD _ _⟩

/-- Ticks in order lie between the first and the last of them. -/
theorem pairwise_between {ticks : List Float} (h : ticks.Pairwise fun s t => ¬t < s) (low high : Float) :
    ∀ t ∈ ticks, ¬t < ticks.headD low ∧ ¬ticks.getLastD high < t := by
  induction ticks generalizing high with
  | nil => exact fun _ ht => nomatch ht
  | cons s ticks ih =>
    obtain ⟨hs, hticks⟩ := List.pairwise_cons.1 h
    rw [List.headD_cons, List.getLastD_cons, List.forall_mem_cons]
    constructor
    · refine ⟨float_lt_irrefl s, ?_⟩
      obtain hlast | hlast := List.mem_cons.1 (List.getLastD_mem_cons (l := ticks) (a := s))
      · rw [hlast]
        exact float_lt_irrefl s
      · exact hs _ hlast
    · intro t ht
      exact ⟨hs t ht, (ih hticks s t ht).2⟩

theorem pairwise_ends {ticks : List Float} (h : ticks.Pairwise fun s t => ¬t < s) {low high : Float} (hends : ¬high < low) :
    ¬ticks.getLastD high < ticks.headD low := by
  cases ticks with
  | nil => exact hends
  | cons t ticks => exact (pairwise_between h low high t List.mem_cons_self).2

/-- The ticks are in order, or the range is turned around: then its ends are the ticks, and the explicit ends among
them. -/
theorem ticksFor_ordered (extent : Option (Extent Float)) (options : Options Float) (length : Float) :
    (ticksFor extent options length).1.Pairwise (fun s t => ¬t < s) ∧
        ¬(ticksFor extent options length).2.2 < (ticksFor extent options length).2.1 ∨
      ∃ low high : Float, high < low ∧ ticksFor extent options length = ([low, high], low, high) ∧
        ¬(options.min = none ∧ options.max = none) ∧ options.min.getD low = low ∧ options.max.getD high = high := by
  obtain ⟨low, high, hrange⟩ : ∃ low high, tickRange extent options = (low, high) := ⟨_, _, rfl⟩
  have hordered := tickRange_ordered extent options
  unfold ticksFor
  simp only [hrange] at hordered ⊢
  by_cases h : high < low
  · refine .inr ⟨low, high, h, ?_, hordered.resolve_left (not_not.2 h)⟩
    have hcover : cover low high (count length) = [low, high] := by
      unfold cover
      exact if_pos (by simp [float_le_of_lt h])
    rw [hcover]
    rfl
  · have hsorted := Ticks.cover_ordered h (Ticks.count_le length)
    exact .inl ⟨hsorted, pairwise_ends hsorted h⟩

theorem finite_of_spans {ends : Float × Float} (h : Spans ends) : ends.1.isFinite = true ∧ ends.2.isFinite = true :=
  ⟨isFinite_of_sub h.1, isFinite_of_sub_left h.1⟩

/-- Ticks in order lie between the outermost of them. -/
theorem within_ticksFor {extent : Option (Extent Float)} {options : Options Float} {length : Float}
    (hordered : (ticksFor extent options length).1.Pairwise fun s t => ¬t < s)
    (hspans : Spans (outermost extent options length)) :
    within (outermost extent options length).1 (outermost extent options length).2 (ticksFor extent options length).1 =
      (ticksFor extent options length).1 := by
  obtain ⟨hfirst, hlast⟩ := finite_of_spans hspans
  have hnan := Ticks.cover_ne_nan (Ticks.count_le length) hfirst hlast
  refine List.filter_eq_self.2 fun t ht => ?_
  obtain ⟨hlow, hhigh⟩ := pairwise_between hordered (tickRange extent options).1 (tickRange extent options).2 t ht
  rw [Bool.and_eq_true, decide_eq_true_eq, decide_eq_true_eq]
  exact ⟨(not_lt_iff_le (ne_nan hfirst) (hnan t ht)).1 hlow, (not_lt_iff_le (hnan t ht) (ne_nan hlast)).1 hhigh⟩

end Scale

/-- Without explicit ends no tick is left out. -/
theorem LinearScale.ticks_of_no_ends {axis : Axis} {extent : Option (Extent Float)} {options : Scale.Options Float}
    {pixels : PixelRange Float} {s : LinearScale Float} (h : fit axis extent options pixels = .ok s)
    (hmin : options.min = none) (hmax : options.max = none) : s.ticks = (Scale.ticksFor extent options pixels.span).1 := by
  obtain ⟨hdomain, hspans, -, -, hticks⟩ := fit_fields h
  have hends := hdomain.trans (domain_of_no_ends hmin hmax extent pixels.span)
  obtain ⟨hordered, -⟩ | ⟨low, high, -, -, hexplicit, -⟩ := Scale.ticksFor_ordered extent options pixels.span
  · rw [hends] at hspans
    obtain ⟨hfirst, hlast⟩ := Prod.ext_iff.1 hends
    rw [hticks, show s.first = _ from hfirst, show s.last = _ from hlast]
    exact Scale.within_ticksFor hordered hspans
  · exact absurd ⟨hmin, hmax⟩ hexplicit

end Whisker
