import Whisker.Proofs.Scalar.Rational
import Whisker.Scale.Linear

/-!
# Ticks are neighbouring multiples of a step

In exact arithmetic a step is 1, 2, 5 or 10 times a power of ten. Rounding to its places changes none of its multiples,
so the ticks that cover a range are all multiples from the last one at or below the range to the first one at or above
it. The step is hardly less than an equal share of the range, which keeps them few: a range asked to have up to 999 of
them never falls back to its two ends.
-/

namespace Whisker

open Exact

namespace Ticks

/-- One of the steps between ticks. -/
def IsStep (step : ℚ) : Prop := ∃ k ∈ ([1, 2, 5, 10] : List ℕ), ∃ d : ℤ, step = k * 10 ^ d

theorem IsStep.pos {step : ℚ} (h : IsStep step) : 0 < step := by
  obtain ⟨k, hk, d, rfl⟩ := h
  have hk : (0 : ℚ) < k := by
    simp only [List.mem_cons, List.not_mem_nil, or_false] at hk
    rcases hk with rfl | rfl | rfl | rfl <;> norm_num
  positivity

/-- A factor is chosen among four and multiplied by a power of ten: it is no less than the range asks for. -/
theorem chosen_eq (q : ℚ) : ∃ step, ((if finite q / Scalar.tenPow (Scalar.decade (finite q)) ≤ 1 then 1
    else if finite q / Scalar.tenPow (Scalar.decade (finite q)) ≤ 2 then 2
    else if finite q / Scalar.tenPow (Scalar.decade (finite q)) ≤ 5 then 5 else 10) *
      Scalar.tenPow (Scalar.decade (finite q)) : Exact) = finite step ∧ IsStep step ∧ (0 < q → q ≤ step) := by
  have hpower : (Scalar.tenPow (Scalar.decade (finite q)) : Exact) = finite (10 ^ decade q) := congrArg finite (power_eq _)
  have hpos : (0 : ℚ) < 10 ^ decade q := by positivity
  simp only [hpower, finite_div _ hpos.ne', literal_eq, finite_le, div_le_iff₀ hpos]
  split
  · rename_i hle
    exact ⟨_, by rw [finite_mul], ⟨1, by simp, _, rfl⟩, fun _ => hle⟩
  · split
    · rename_i hle
      exact ⟨_, by rw [finite_mul], ⟨2, by simp, _, rfl⟩, fun _ => hle⟩
    · split
      · rename_i hle
        exact ⟨_, by rw [finite_mul], ⟨5, by simp, _, rfl⟩, fun _ => hle⟩
      · refine ⟨_, by rw [finite_mul], ⟨10, by simp, _, rfl⟩, fun hq => ?_⟩
        have hlt := lt_power_decade hq
        rw [zpow_add_one₀ (by norm_num), mul_comm] at hlt
        exact_mod_cast hlt.le

/-- A range may be taken for the integer next to it, which is no smaller than by a thousandth. -/
theorem niceStep_eq (range : ℚ) :
    ∃ step, niceStep (finite range) = finite step ∧ IsStep step ∧ (0 < range → 999 / 1000 * range ≤ step) := by
  unfold niceStep
  split
  · rename_i hrange
    refine ⟨1, by simp, ⟨1, by simp, 0, by norm_num⟩, fun hpos => ?_⟩
    simp at hrange
    exact absurd hrange (not_le.2 hpos)
  · have hround : Scalar.round (finite range) = finite (nearest range) := rfl
    simp only [hround, finite_sub, finite_abs, literal_eq, finite_div _ (by norm_num : ((1000 : ℕ) : ℚ) ≠ 0), finite_le]
    split
    · rename_i hnear
      obtain ⟨step, hstep, hnice, hge⟩ := chosen_eq (nearest range)
      refine ⟨step, by simpa using hstep, hnice, fun hpos => ?_⟩
      have hlow := (abs_le.1 hnear).2
      push_cast at hlow
      exact le_trans (by linarith) (hge (by linarith))
    · obtain ⟨step, hstep, hnice, hge⟩ := chosen_eq range
      refine ⟨step, by simpa using hstep, hnice, fun hpos => ?_⟩
      exact le_trans (by linarith) (hge hpos)

/-- A step is a whole number of any power of ten that does not exceed it. -/
theorem IsStep.mul_power {step : ℚ} (h : IsStep step) {j : ℤ} (hj : (10 : ℚ) ^ (-j) ≤ step) :
    ∃ z : ℤ, step * 10 ^ j = z := by
  obtain ⟨k, hk, d, rfl⟩ := h
  have hk10 : k ≤ 10 := by
    simp only [List.mem_cons, List.not_mem_nil, or_false] at hk
    omega
  have hle : -j ≤ d + 1 := by
    have hkq : (k : ℚ) ≤ 10 := by exact_mod_cast hk10
    have hstep : (10 : ℚ) ^ (-j) ≤ 10 ^ (d + 1) := by
      calc (10 : ℚ) ^ (-j) ≤ k * 10 ^ d := hj
        _ ≤ 10 * 10 ^ d := by gcongr
        _ = 10 ^ (d + 1) := by rw [zpow_add_one₀ (by norm_num), mul_comm]
    exact (zpow_le_zpow_iff_right₀ (by norm_num)).1 hstep
  rcases lt_or_eq_of_le hle with hlt | heq
  · obtain ⟨n, hn⟩ := Int.eq_ofNat_of_zero_le (show 0 ≤ d + j by omega)
    refine ⟨k * 10 ^ n, ?_⟩
    rw [mul_assoc, ← zpow_add₀ (by norm_num), hn]
    push_cast
    rfl
  · -- Here only ten times the lower power will do.
    have hpow : (0 : ℚ) < 10 ^ d := by positivity
    have hk : k = 10 := by
      rw [heq, zpow_add_one₀ (by norm_num), mul_comm] at hj
      have := le_of_mul_le_mul_right hj hpow
      have : (10 : ℕ) ≤ k := by exact_mod_cast this
      omega
    have hj : j = -(d + 1) := by omega
    refine ⟨1, ?_⟩
    rw [hk, hj, mul_assoc, ← zpow_add₀ (by norm_num)]
    norm_num

theorem power_places_le {step : ℚ} (h : 0 < step) : (10 : ℚ) ^ (-places (finite step)) ≤ step := by
  unfold places
  split
  · rename_i hone
    simp only [isFinite_finite, literal_eq, finite_le, Bool.not_true, Bool.false_or, Bool.or_eq_true,
      decide_eq_true_eq, Nat.cast_zero, Nat.cast_one] at hone
    rcases hone with hone | hone
    · linarith
    · simpa using hone
  · rw [neg_neg]
    exact power_decade_le h

/-- Rounding keeps a multiple of the step. -/
theorem roundTo_multiple {step : ℚ} (h : IsStep step) (n : ℤ) :
    roundTo (finite (n * step)) (places (finite step)) = finite (n * step) := by
  obtain ⟨z, hz⟩ := h.mul_power (power_places_le h.pos)
  have hten : (10 : ℚ) ≠ 0 := by norm_num
  have hfactor : (10 : ℚ) ^ places (finite step) ≠ 0 := zpow_ne_zero _ hten
  have hvalue : n * step * 10 ^ places (finite step) = ((n * z : ℤ) : ℚ) := by
    rw [mul_assoc, hz]
    push_cast
    rfl
  unfold roundTo
  simp only [literal_eq, Nat.cast_ofNat, finite_powInt hten, finite_mul, hvalue, round_intCast]
  rw [finite_div _ hfactor, ← hvalue, mul_div_cancel_right₀ _ hfactor]

/-- The multiples of a step from the last one at or below a range to the first one at or above it. -/
structure Encloses (step : ℚ) (z : ℤ) (n : ℕ) (low high : ℚ) : Prop where
  isStep : IsStep step
  first_le : z * step ≤ low
  lt_second : low < (z + 1) * step
  lt_high : (z + n - 1) * step < high
  le_last : high ≤ (z + n) * step

/-- A range with an inside is covered by one step at least. -/
theorem Encloses.one_le {step low high : ℚ} {z : ℤ} {n : ℕ} (h : Encloses step z n low high) (hlt : low < high) :
    1 ≤ n := by
  rw [Nat.one_le_iff_ne_zero]
  rintro rfl
  have hlast := h.le_last
  rw [Nat.cast_zero, add_zero] at hlast
  linarith [h.first_le]

/-- If the step is hardly less than an equal share of the range, there are hardly more steps than shares. -/
theorem Encloses.le_shares {step low high : ℚ} {z : ℤ} {n shares : ℕ} (h : Encloses step z n low high)
    (hpos : 0 < shares) (hmany : shares ≤ 998) (hshare : 999 / 1000 * ((high - low) / shares) ≤ step) :
    n ≤ shares + 2 := by
  have hstep := h.isStep.pos
  have hshares : (0 : ℚ) < shares := by exact_mod_cast hpos
  have hmany : (shares : ℚ) ≤ 998 := by exact_mod_cast hmany
  have hinner : (n - 2) * step < high - low := by linarith [h.lt_second, h.lt_high]
  have hrange : high - low ≤ 1000 / 999 * shares * step := by
    rw [← mul_div_assoc, div_le_iff₀ hshares] at hshare
    linarith
  have hsteps : (n - 2 : ℚ) < 1000 / 999 * shares := lt_of_mul_lt_mul_right (hinner.trans_le hrange) hstep.le
  have hlt : (n : ℚ) < (shares + 2 + 1 : ℕ) := by
    push_cast
    linarith
  exact Nat.lt_succ_iff.1 (by exact_mod_cast hlt)

/-- From the one outer multiple to the other there is a whole number of steps. -/
theorem exists_encloses {step low high : ℚ} (hstep : IsStep step) (h : low < high) :
    ∃ n : ℕ, (⌈high / step⌉ : ℚ) = ⌊low / step⌋ + n ∧ Encloses step ⌊low / step⌋ n low high := by
  have hpos := hstep.pos
  have hlt : (⌊low / step⌋ : ℚ) < ⌈high / step⌉ :=
    (Int.floor_le _).trans_lt ((div_lt_div_of_pos_right h hpos).trans_le (Int.le_ceil _))
  have hlt : ⌊low / step⌋ < ⌈high / step⌉ := by exact_mod_cast hlt
  obtain ⟨n, hn⟩ := Int.eq_ofNat_of_zero_le (a := ⌈high / step⌉ - ⌊low / step⌋) (by omega)
  have hceil : ⌈high / step⌉ = ⌊low / step⌋ + n := by omega
  have hceil : (⌈high / step⌉ : ℚ) = ⌊low / step⌋ + n := by exact_mod_cast congrArg (Int.cast : ℤ → ℚ) hceil
  refine ⟨n, hceil, hstep, ?_, ?_, ?_, ?_⟩
  · exact (le_div_iff₀ hpos).1 (Int.floor_le _)
  · exact (div_lt_iff₀ hpos).1 (Int.lt_floor_add_one _)
  · rw [← hceil]
    exact (lt_div_iff₀ hpos).1 (by linarith [Int.ceil_lt_add_one (high / step)])
  · rw [← hceil]
    exact (div_le_iff₀ hpos).1 (Int.le_ceil _)

/-- Ticks are the multiples of a step that enclose the range, unless they are too many. -/
theorem cover_eq {low high : ℚ} (h : low < high) (most : ℕ) :
    ∃ (step : ℚ) (z : ℤ) (n : ℕ), Encloses step z n low high ∧
      999 / 1000 * ((high - low) / (max most fewest - 1 : ℕ)) ≤ step ∧
        cover (finite low) (finite high) most =
          if (max most fewest - 1 + 2) % UInt64.size < n then [finite low, finite high]
          else (List.range (n + 1)).map fun i : ℕ => finite ((z + i) * step) := by
  have hspaces : (0 : ℚ) < (max most fewest - 1 : ℕ) := by
    have : fewest ≤ max most fewest := le_max_right most fewest
    unfold fewest at *
    exact_mod_cast (by omega : 0 < max most 2 - 1)
  obtain ⟨step, hstep, hnice, hge⟩ := niceStep_eq ((high - low) / (max most fewest - 1 : ℕ))
  have hpos := hnice.pos
  obtain ⟨n, hn, hencloses⟩ := exists_encloses hnice h
  have hone : ¬(n : ℚ) < 1 := by exact_mod_cast not_lt.2 (hencloses.one_le h)
  have hsteps : (⌈high / step⌉ * step - ⌊low / step⌋ * step) / step = n := by
    rw [← sub_mul, mul_div_cancel_right₀ _ hpos.ne', hn, add_sub_cancel_left]
  have hround : Scalar.round (finite n) = finite n := round_intCast n
  have htick (i : ℕ) : roundTo (finite (⌊low / step⌋ * step + i * step)) (places (finite step)) =
      finite ((⌊low / step⌋ + i) * step) := by
    have h := roundTo_multiple hnice (⌊low / step⌋ + i)
    push_cast at h
    rw [← add_mul]
    exact h
  refine ⟨step, ⌊low / step⌋, n, hencloses, hge (div_pos (sub_pos.2 h) hspaces), ?_⟩
  unfold cover
  simp only [isFinite_finite, finite_le, not_le.2 h, decide_false, Bool.not_true, Bool.or_false, Bool.false_eq_true,
    if_false, finite_sub, ofNat_eq, finite_div _ hspaces.ne', hstep, finite_div _ hpos.ne', finite_floor, finite_ceil,
    finite_mul, hsteps, hround, finite_lt, literal_eq, Bool.false_or, finite_add, htick, Nat.cast_one, hone,
    Nat.cast_lt, decide_eq_true_eq]
  split
  · rfl
  · rename_i hmost
    have hsize : n < UInt64.size := (not_lt.1 hmost).trans_lt (Nat.mod_lt _ (by decide))
    rw [toNat_natCast hsize]

/-- The outermost ticks enclose the range. -/
theorem cover_ends {low high : ℚ} (h : low < high) (most : ℕ) (a b : Exact) :
    ∃ first last : ℚ, (cover (finite low) (finite high) most).headD a = finite first ∧
      (cover (finite low) (finite high) most).getLastD b = finite last ∧ first ≤ low ∧ high ≤ last := by
  obtain ⟨step, z, n, hencloses, -, hcover⟩ := cover_eq h most
  rw [hcover]
  split
  · exact ⟨low, high, rfl, rfl, le_rfl, le_rfl⟩
  · refine ⟨z * step, (z + n) * step, ?_, ?_, hencloses.first_le, hencloses.le_last⟩
    · simp [List.range_succ_eq_map]
    · simp [List.range_succ]

/-- Up to 999 ticks are never too many. -/
theorem cover_multiples {low high : ℚ} (h : low < high) {count : ℕ} (hcount : count ≤ 999) :
    ∃ (step : ℚ) (z : ℤ) (n : ℕ), Encloses step z n low high ∧ n ≤ max count fewest + 1 ∧
      cover (finite low) (finite high) count = (List.range (n + 1)).map fun i : ℕ => finite ((z + i) * step) := by
  obtain ⟨step, z, n, hencloses, hshare, hcover⟩ := cover_eq h count
  have hmax : max count fewest ≤ 999 := max_le hcount (by decide)
  have hmin : 2 ≤ max count fewest := le_max_right count fewest
  have hsize : 1000 < UInt64.size := by decide
  have hn := hencloses.le_shares (by omega) (by omega) hshare
  refine ⟨step, z, n, hencloses, by omega, ?_⟩
  rw [hcover, if_neg]
  rw [Nat.mod_eq_of_lt (by omega), not_lt]
  exact hn

/-- Ten times a power of ten is one times the next. -/
theorem IsStep.exists_lead {step : ℚ} (h : IsStep step) : ∃ k ∈ ([1, 2, 5] : List ℕ), ∃ d : ℤ, step = k * 10 ^ d := by
  obtain ⟨k, hk, d, rfl⟩ := h
  simp only [List.mem_cons, List.not_mem_nil, or_false] at hk
  obtain rfl | rfl | rfl | rfl := hk
  · exact ⟨1, by simp, d, rfl⟩
  · exact ⟨2, by simp, d, rfl⟩
  · exact ⟨5, by simp, d, rfl⟩
  · refine ⟨1, by simp, d + 1, ?_⟩
    rw [zpow_add_one₀ (by norm_num)]
    push_cast
    ring

/-- A range that is asked to have 2 to 999 ticks has neighbouring multiples of a step of 1, 2 or 5 times a power of ten, which
rounding to the places of the step does not change. The outer ones lie less than a step outside of the range, and there
are at most two more than asked for. -/
theorem cover_is_progression {low high : ℚ} (h : low < high) {count : ℕ} (hfew : 2 ≤ count) (hmany : count ≤ 999) :
    ∃ (step : ℚ) (z : ℤ) (n : ℕ), (∃ k ∈ ([1, 2, 5] : List ℕ), ∃ d : ℤ, step = k * 10 ^ d) ∧
      cover (finite low) (finite high) count = ((List.range (n + 1)).map fun i : ℕ => finite ((z + i) * step)) ∧
      (∀ i : ℤ, roundTo (finite (i * step)) (places (finite step)) = finite (i * step)) ∧
      (low - step < z * step ∧ z * step ≤ low) ∧ (high ≤ (z + n) * step ∧ (z + n) * step < high + step) ∧
      2 ≤ (cover (finite low) (finite high) count).length ∧
      (cover (finite low) (finite high) count).length ≤ count + 2 := by
  obtain ⟨step, z, n, hencloses, hn, hcover⟩ := cover_multiples h hmany
  have hone := hencloses.one_le h
  have hmax : max count fewest = count := max_eq_left hfew
  have hlength : (cover (finite low) (finite high) count).length = n + 1 := by
    rw [hcover, List.length_map, List.length_range]
  refine ⟨step, z, n, hencloses.isStep.exists_lead, hcover, roundTo_multiple hencloses.isStep, ⟨?_, hencloses.first_le⟩,
    ⟨hencloses.le_last, ?_⟩, by omega, by omega⟩
  · linarith [hencloses.lt_second]
  · linarith [hencloses.lt_high]

example : cover (finite 5) (finite 25) 11 = [4, 6, 8, 10, 12, 14, 16, 18, 20, 22, 24, 26] := by decide +kernel

/-- A range around zero whose ends are no decimals, with as many ticks as may be asked for. -/
theorem thirds_have_progression :
    (-1 / 3 : ℚ) < 2 / 3 ∧ 2 ≤ 999 ∧ 999 ≤ 999 ∧ 2 ≤ (cover (finite (-1 / 3)) (finite (2 / 3)) 999).length ∧
      (cover (finite (-1 / 3)) (finite (2 / 3)) 999).length ≤ 1001 := by
  have h : (-1 / 3 : ℚ) < 2 / 3 := by norm_num
  obtain ⟨-, -, -, -, -, -, -, -, hfew, hmany⟩ := cover_is_progression h (by decide : 2 ≤ 999) (le_refl 999)
  exact ⟨h, by decide, le_refl 999, hfew, hmany⟩

end Ticks

end Whisker
