import Whisker.Proofs.Decimal.Reading

/-!
# Shortest decimals read back

The interval that the search for a decimal works with is the one that is rounded to the number. The last grid that is
tried is finer than the interval, so the search ends inside, and reading the decimal gives the number back.
-/

namespace Whisker

open Binary (lowest highest Near)

namespace Decimal

def value (d : Decimal) : ℚ := d.coefficient * 10 ^ d.exponent

variable {m : ℕ} {q k : ℤ}

def tens (bits : ℕ) : ℕ := bits * 30103 / 100000

theorem ten_pow_tens_le {bits : ℕ} (h : bits ≤ 100000) : 10 ^ tens bits ≤ 10 * 2 ^ bits := by
  rw [← Nat.pow_le_pow_iff_left (n := 196) (by decide)]
  have hexponent : tens bits * 196 ≤ 196 + 59 * bits := by
    unfold tens
    omega
  have hratio : (10 : ℕ) ^ 59 ≤ 2 ^ 196 := by norm_num
  calc (10 ^ tens bits) ^ 196 = 10 ^ (tens bits * 196) := (pow_mul 10 _ _).symm
    _ ≤ 10 ^ (196 + 59 * bits) := Nat.pow_le_pow_right (by decide) hexponent
    _ = 10 ^ 196 * (10 ^ 59) ^ bits := by rw [pow_add, pow_mul]
    _ ≤ 10 ^ 196 * (2 ^ 196) ^ bits := Nat.mul_le_mul_left _ (Nat.pow_le_pow_left hratio bits)
    _ = (10 * 2 ^ bits) ^ 196 := by rw [mul_pow, pow_right_comm]

theorem two_pow_le_tens {bits : ℕ} (h : bits ≤ 100000) : 2 ^ (bits + 1) ≤ 10 ^ (tens bits + 2) := by
  rw [← Nat.pow_le_pow_iff_left (n := 485) (by decide)]
  have hexponent : 146 * (bits + 1) ≤ (tens bits + 2) * 485 := by
    unfold tens
    omega
  have hratio : (2 : ℕ) ^ 485 ≤ 10 ^ 146 := by omega
  calc (2 ^ (bits + 1)) ^ 485 = (2 ^ 485) ^ (bits + 1) := pow_right_comm 2 _ _
    _ ≤ (10 ^ 146) ^ (bits + 1) := Nat.pow_le_pow_left hratio _
    _ = 10 ^ (146 * (bits + 1)) := (pow_mul 10 _ _).symm
    _ ≤ 10 ^ ((tens bits + 2) * 485) := Nat.pow_le_pow_right (by decide) hexponent
    _ = (10 ^ (tens bits + 2)) ^ 485 := pow_mul 10 _ _

theorem shiftLeft_one_div (e : ℤ) : ((1 <<< e.toNat : ℕ) : ℚ) / (1 <<< (-e).toNat : ℕ) = 2 ^ e := by
  rw [Nat.one_shiftLeft, Nat.one_shiftLeft]
  push_cast
  obtain ⟨n, rfl | rfl⟩ := e.eq_nat_or_neg
  · simp
  · simp

theorem ten_pow_div (k : ℤ) : ((Nat.pow 10 k.toNat : ℕ) : ℚ) / (Nat.pow 10 (-k).toNat : ℕ) = 10 ^ k := by
  change ((10 ^ k.toNat : ℕ) : ℚ) / (10 ^ (-k).toNat : ℕ) = 10 ^ k
  push_cast
  obtain ⟨n, rfl | rfl⟩ := k.eq_nat_or_neg
  · simp
  · simp

/-- What quarter steps of a number and decimals on a grid are multiplied by to be compared as integers. -/
def common (q k : ℤ) : ℚ := ((1 <<< (2 - q).toNat : ℕ) : ℚ) * (Nat.pow 10 (-k).toNat : ℕ)

theorem common_pos (q k : ℤ) : 0 < common q k := by
  have h : 0 < 1 <<< (2 - q).toNat * Nat.pow 10 (-k).toNat := by
    rw [Nat.one_shiftLeft]
    exact Nat.mul_pos (by positivity) (Nat.pow_pos (by decide))
  unfold common
  exact_mod_cast h

theorem cast_quarters (a : ℕ) (q k : ℤ) :
    ((a * 1 <<< (q - 2).toNat * Nat.pow 10 (-k).toNat : ℕ) : ℚ) = a * 2 ^ (q - 2) * common q k := by
  have hpos : (0 : ℚ) < (1 <<< (2 - q).toNat : ℕ) := by
    rw [Nat.one_shiftLeft]
    positivity
  rw [← shiftLeft_one_div, neg_sub, common]
  push_cast
  field_simp

theorem cast_decimal (c : ℕ) (q k : ℤ) :
    ((c * Nat.pow 10 k.toNat * 1 <<< (2 - q).toNat : ℕ) : ℚ) = c * 10 ^ k * common q k := by
  have hpos : (0 : ℚ) < (Nat.pow 10 (-k).toNat : ℕ) := by exact_mod_cast Nat.pow_pos (by decide : 0 < 10)
  rw [← ten_pow_div, common]
  push_cast
  field_simp

/-- The interval of a number contains exactly the decimals near it, which are read as the number. -/
theorem contains_ofParts (hm : 0 < m) (c : ℕ) (k : ℤ) :
    (Interval.ofParts m q).contains c k = true ↔ Near m q (c * 10 ^ k) := by
  have hlow : ((4 * m - (if m = 1 <<< 52 ∧ -1074 < q then 1 else 2) : ℕ) : ℚ) * 2 ^ (q - 2) = lowest m q := by
    unfold lowest
    rw [Nat.one_shiftLeft]
    split
    · rw [Nat.cast_sub (by omega)]
      push_cast
      rfl
    · rw [Nat.cast_sub (by omega)]
      push_cast
      rfl
  have hhigh : ((4 * m + 2 : ℕ) : ℚ) * 2 ^ (q - 2) = highest m q := by
    unfold highest
    push_cast
    rfl
  have hpos := common_pos q k
  have hle (a : ℕ) : a * 1 <<< (q - 2).toNat * Nat.pow 10 (-k).toNat ≤ c * Nat.pow 10 k.toNat * 1 <<< (2 - q).toNat ↔
      (a * 2 ^ (q - 2) : ℚ) ≤ c * 10 ^ k := by
    rw [← Nat.cast_le (α := ℚ), cast_quarters, cast_decimal, mul_le_mul_iff_left₀ hpos]
  have hge (a : ℕ) : c * Nat.pow 10 k.toNat * 1 <<< (2 - q).toNat ≤ a * 1 <<< (q - 2).toNat * Nat.pow 10 (-k).toNat ↔
      (c * 10 ^ k : ℚ) ≤ a * 2 ^ (q - 2) := by
    rw [← Nat.cast_le (α := ℚ), cast_quarters, cast_decimal, mul_le_mul_iff_left₀ hpos]
  unfold Near Interval.contains
  rw [← hlow, ← hhigh]
  by_cases heven : m % 2 = 0
  · have hclosed : (Interval.ofParts m q).closed = true := decide_eq_true heven
    simp only [hclosed, if_true, Bool.and_eq_true, decide_eq_true_eq, if_pos heven]
    exact and_congr (hle _) (hge _)
  · have hclosed : (Interval.ofParts m q).closed = false := decide_eq_false heven
    simp only [hclosed, Bool.false_eq_true, if_false, Bool.and_eq_true, decide_eq_true_eq, if_neg heven]
    exact and_congr (lt_iff_lt_of_le_iff_le (hge _)) (lt_iff_lt_of_le_iff_le (hle _))

/-- The lower neighbour on a grid is less than a step below the number. -/
theorem below_ofParts (m : ℕ) (q k : ℤ) :
    (((Interval.ofParts m q).below k : ℚ) * 10 ^ k ≤ m * 2 ^ q ∧
      (m * 2 ^ q : ℚ) < ((Interval.ofParts m q).below k + 1) * 10 ^ k) := by
  have hpos := common_pos q k
  have hd : 0 < Nat.pow 10 k.toNat * 1 <<< (2 - q).toNat := by
    rw [Nat.one_shiftLeft]
    exact Nat.mul_pos (Nat.pow_pos (by decide)) (by positivity)
  have hvalue : (m * 2 ^ q : ℚ) = (4 * m : ℕ) * 2 ^ (q - 2) := by
    rw [zpow_sub₀ two_ne_zero]
    push_cast
    ring
  rw [hvalue]
  constructor
  · rw [← mul_le_mul_iff_left₀ hpos, ← cast_quarters, ← cast_decimal, Nat.cast_le, mul_assoc]
    exact Nat.div_mul_le_self _ _
  · rw [← mul_lt_mul_iff_left₀ hpos, ← cast_quarters, ← Nat.cast_succ, ← cast_decimal, Nat.cast_lt]
    exact (Nat.lt_mul_of_div_lt (Nat.lt_succ_self _) hd).trans_eq (mul_assoc _ _ _).symm

/-- A grid with steps of at most a quarter has a neighbour inside. -/
theorem contains_below (hm : 0 < m) (hk : (10 : ℚ) ^ k ≤ 2 ^ (q - 2)) :
    (Interval.ofParts m q).contains ((Interval.ofParts m q).below k) k = true := by
  obtain ⟨hle, hlt⟩ := below_ofParts m q k
  have hlow : lowest m q < (Interval.ofParts m q).below k * 10 ^ k := by
    have hquarter : (lowest m q) ≤ m * 2 ^ q - 2 ^ (q - 2) := by
      have hq : (2 : ℚ) ^ q = 4 * 2 ^ (q - 2) := by
        rw [zpow_sub₀ two_ne_zero]
        ring
      have hpow : (0 : ℚ) < 2 ^ (q - 2) := by positivity
      unfold lowest
      rw [hq]
      split <;> linarith
    linarith
  have hhigh : (Interval.ofParts m q).below k * 10 ^ k < highest m q := by
    rw [Binary.highest_eq]
    have hpow : (0 : ℚ) < 2 ^ q := by positivity
    linarith
  rw [contains_ofParts hm]
  unfold Near
  split
  · exact ⟨hlow.le, hhigh.le⟩
  · exact ⟨hlow, hhigh⟩

/-- A search that meets a fine grid in time stops inside the interval. -/
theorem search_contains {i : Interval} (tie : Tie) {fuel j : ℕ} (hj : j < fuel)
    (hfine : i.contains (i.below (k - j)) (k - j) = true) :
    i.contains (i.search tie fuel k).coefficient (i.search tie fuel k).exponent = true := by
  induction fuel generalizing k j with
  | zero => omega
  | succ fuel ih =>
    unfold Interval.search
    dsimp only
    split
    · rename_i hlower hupper
      split
      · exact hupper
      · exact hlower
    · rename_i hlower hupper
      exact hlower
    · rename_i hlower hupper
      exact hupper
    · rename_i hlower hupper
      -- This grid is too coarse, so the fine one is further on.
      cases j with
      | zero =>
        rw [Nat.cast_zero, sub_zero, hlower] at hfine
        cases hfine
      | succ j =>
        have h : k - ((j + 1 : ℕ) : ℤ) = k - 1 - j := by omega
        rw [h] at hfine
        exact ih (by omega) hfine

theorem ten_zpow_le_two_zpow {n k : ℕ} (h : (2 : ℕ) ^ n ≤ 10 ^ k) : (10 : ℚ) ^ (-k : ℤ) ≤ 2 ^ (-n : ℤ) := by
  have h : (2 : ℚ) ^ n ≤ 10 ^ k := by exact_mod_cast h
  rw [zpow_neg, zpow_neg, zpow_natCast, zpow_natCast]
  exact inv_anti₀ (by positivity) h

/-- The last grid of the search is fine enough. -/
theorem fine_grid {m : ℕ} {q : ℤ} (hm : 0 < m) (hshort : m < 2 ^ 53) (hq : -1074 ≤ q) (hq' : q ≤ 971) :
    (10 : ℚ) ^ ((m.log2 + q) * 30103 / 100000 + 2 - (23 : ℕ) : ℤ) ≤ 2 ^ (q - 2) := by
  have hlog : m.log2 < 53 := (Nat.log2_lt hm.ne').2 hshort
  obtain ⟨n, hn | hn⟩ := (m.log2 + q : ℤ).eq_nat_or_neg
  · have htens : (m.log2 + q) * 30103 / 100000 = (tens n : ℤ) := by
      rw [hn, tens]
      omega
    have hten : (10 : ℚ) ^ (tens n : ℤ) ≤ 10 * 2 ^ (n : ℤ) := by
      have hten : 10 ^ tens n ≤ 10 * 2 ^ n := ten_pow_tens_le (by omega)
      exact_mod_cast hten
    rw [htens]
    calc (10 : ℚ) ^ (tens n + 2 - (23 : ℕ) : ℤ) = 10 ^ (tens n : ℤ) * 10 ^ (-1 + -(20 : ℕ) : ℤ) := by
          rw [← Binary.ten_zpow_add]
          congr 1
          omega
      _ ≤ 10 * 2 ^ (n : ℤ) * 10 ^ (-1 + -(20 : ℕ) : ℤ) := by gcongr
      _ = 2 ^ (n : ℤ) * 10 ^ (-(20 : ℕ) : ℤ) := by
          rw [Binary.ten_zpow_add, zpow_neg_one]
          ring
      _ ≤ 2 ^ (n : ℤ) * 2 ^ (-(54 : ℕ) : ℤ) := by
          gcongr
          exact ten_zpow_le_two_zpow (by norm_num)
      _ = 2 ^ (n + -(54 : ℕ) : ℤ) := (Binary.two_zpow_add _ _).symm
      _ ≤ 2 ^ (q - 2) := Binary.two_zpow_mono (by omega)
  · have htens : (m.log2 + q) * 30103 / 100000 ≤ -(tens n : ℤ) := by
      rw [hn, tens]
      omega
    calc (10 : ℚ) ^ ((m.log2 + q) * 30103 / 100000 + 2 - (23 : ℕ) : ℤ)
        ≤ 10 ^ (-(tens n + 2 : ℕ) + -(19 : ℕ) : ℤ) := zpow_le_zpow_right₀ (by norm_num) (by omega)
      _ = 10 ^ (-(tens n + 2 : ℕ) : ℤ) * 10 ^ (-(19 : ℕ) : ℤ) := Binary.ten_zpow_add _ _
      _ ≤ 2 ^ (-(n + 1 : ℕ) : ℤ) * 2 ^ (-(53 : ℕ) : ℤ) := by
          gcongr
          · exact ten_zpow_le_two_zpow (two_pow_le_tens (by omega))
          · exact ten_zpow_le_two_zpow (by norm_num)
      _ = 2 ^ (-(n + 1 : ℕ) + -(53 : ℕ) : ℤ) := (Binary.two_zpow_add _ _).symm
      _ ≤ 2 ^ (q - 2) := Binary.two_zpow_mono (by omega)

/-- The shortest decimal of a number lies in its interval. -/
theorem shortest_near {m : ℕ} {q : ℤ} (tie : Tie) (hm : 0 < m) (hshort : m < 2 ^ 53) (hq : -1074 ≤ q) (hq' : q ≤ 971) :
    Near m q (shortest tie m q).value :=
  (contains_ofParts hm _ _).1 (search_contains tie (by decide : 23 < 24) (contains_below hm (fine_grid hm hshort hq hq')))

end Decimal

end Whisker
