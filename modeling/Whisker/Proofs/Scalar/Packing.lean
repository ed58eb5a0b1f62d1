import Whisker.Proofs.Scalar.Rounding

/-!
# Packed numbers and their values

A `Float` packs sign, exponent and mantissa into 64 bits. A number in reduced form comes back from it unchanged
if its exponent is in range, so a result of arithmetic has the value it was rounded to as long as the exact
number is not larger than the largest.
-/

namespace Whisker.Binary

open Float.Model (Format UnpackedFloat)
open Float.Model.UnpackedFloat (Sign unpackMantissa unpackExponent unpackSign packComponents)

theorem exponentBias_binary64 : Format.binary64.exponentBias = 1023 := by decide

theorem toNat_one_append (v : BitVec 52) : (1#1 ++ v).toNat = 2 ^ 52 + v.toNat := by
  rw [BitVec.toNat_append, ← Nat.shiftLeft_add_eq_or_of_lt v.isLt]
  rfl

/-- A finite number has at most 53 digits, an exponent in range, and a full mantissa unless the exponent is the
least. -/
theorem unpack_size {x : Float.Model} {s : Sign} {m : ℕ} {e : ℤ} {hm : 0 < m} (h : x.unpack = .finite s m e hm) :
    m < 2 ^ 53 ∧ -1074 ≤ e ∧ e ≤ 971 ∧ (2 ^ 52 ≤ m ∨ e = -1074) := by
  simp only [Float.Model.unpack, UnpackedFloat.unpack, exponentBias_binary64] at h
  have hmantissa : (@unpackMantissa .binary64 x.toBits.toBitVec).toNat < 2 ^ 52 := BitVec.isLt _
  have hexponent : (@unpackExponent .binary64 x.toBits.toBitVec).toNat < 2048 := BitVec.isLt _
  split at h
  · split at h <;> cases h
  · rename_i hmax
    have hmax : (@unpackExponent .binary64 x.toBits.toBitVec).toNat ≠ 2047 :=
      fun hn => hmax (BitVec.eq_of_toNat_eq hn)
    split at h
    · -- The exponent field is zero: the number is below the normal range.
      rename_i hlow
      split at h
      · cases h
      · injection h with _ hm he
        rw [hlow] at he
        have he : e = -1074 := he.symm
        omega
    · rename_i hlow
      have hlow : (@unpackExponent .binary64 x.toBits.toBitVec).toNat ≠ 0 :=
        fun hn => hlow (BitVec.eq_of_toNat_eq hn)
      injection h with _ hm he
      rw [toNat_one_append] at hm
      omega

theorem ofBitVec_unpackSign (s : Sign) (exponent : BitVec 11) (mantissa : BitVec 52) :
    Sign.ofBitVec (unpackSign (packComponents .binary64 s exponent mantissa)) = s := by
  rw [UnpackedFloat.unpackSign_packComponents, Sign.ofBitVec_toBitVec]

theorem finite_congr {s t : Sign} {m n : ℕ} {e f : ℤ} {hm : 0 < m} {hn : 0 < n} (hs : s = t) (h : m = n) (he : e = f) :
    UnpackedFloat.finite s m e hm = .finite t n f hn := by
  subst hs h he
  rfl

/-- A full mantissa is packed without its leading digit. -/
theorem unpack_normal (s : Sign) {exponent : BitVec 11} (mantissa : BitVec 52) {m : ℕ} {e : ℤ} {hm : 0 < m}
    (hlow : exponent.toNat ≠ 0) (hmax : exponent.toNat ≠ 2047) (hmantissa : 2 ^ 52 + mantissa.toNat = m)
    (hexponent : (exponent.toNat : ℤ) - 1075 = e) :
    UnpackedFloat.unpack .binary64 (packComponents .binary64 s exponent mantissa) = .finite s m e hm := by
  unfold UnpackedFloat.unpack
  dsimp only
  rw [if_neg, if_neg]
  · refine finite_congr (ofBitVec_unpackSign _ _ _) ?_ ?_
    · rw [UnpackedFloat.unpackMantissa_packComponents]
      exact (toNat_one_append mantissa).trans hmantissa
    · rw [UnpackedFloat.unpackExponent_packComponents]
      exact hexponent
  · rw [UnpackedFloat.unpackExponent_packComponents]
    exact fun h => hlow (congrArg BitVec.toNat h)
  · rw [UnpackedFloat.unpackExponent_packComponents]
    exact fun h => hmax (congrArg BitVec.toNat h)

/-- A mantissa that is not full is packed as it is, under the exponent zero. -/
theorem unpack_subnormal (s : Sign) {mantissa : BitVec 52} {m : ℕ} {hm : 0 < m} (h : mantissa.toNat = m) :
    UnpackedFloat.unpack .binary64 (packComponents .binary64 s 0#11 mantissa) = .finite s m (-1074) hm := by
  have hzero : mantissa ≠ 0#52 := by
    rintro rfl
    exact hm.ne h
  unfold UnpackedFloat.unpack
  dsimp only
  rw [if_neg, if_pos (UnpackedFloat.unpackExponent_packComponents ..), dif_neg]
  · refine finite_congr (ofBitVec_unpackSign _ _ _) ?_ ?_
    · rw [UnpackedFloat.unpackMantissa_packComponents]
      exact h
    · rw [UnpackedFloat.unpackExponent_packComponents]
      rfl
  · rw [UnpackedFloat.unpackMantissa_packComponents]
    exact hzero
  · rw [UnpackedFloat.unpackExponent_packComponents]
    decide

/-- Packing loses nothing of a reduced number with an exponent in range. -/
theorem unpack_pack {s : Sign} {m : ℕ} {e : ℤ} {hm : 0 < m} (h : Reduced (.finite s m e hm)) (he : e ≤ 971) :
    (Float.Model.pack (.finite s m e hm)).unpack = .finite s m e hm := by
  obtain ⟨hshort, hlow, hlong⟩ := h
  have hin : ¬2048 ≤ (e + 1023 + 52).toNat + 1 := by omega
  change UnpackedFloat.unpack .binary64 (if 2048 ≤ (e + 1023 + 52).toNat + 1 then _ else if m.log2 + 1 = 53 then
    packComponents .binary64 s (.ofNat 11 (e + 1023 + 52).toNat) (.ofNat 52 m) else
    packComponents .binary64 s 0#11 (.ofNat 52 m)) = _
  rw [if_neg hin]
  split
  · rename_i hlog
    have hm52 : 2 ^ 52 ≤ m := (Nat.le_log2 hm.ne').1 (by omega)
    have hexponent : (BitVec.ofNat 11 (e + 1023 + 52).toNat).toNat = (e + 1023 + 52).toNat := by
      rw [BitVec.toNat_ofNat, Nat.mod_eq_of_lt (by omega)]
    refine unpack_normal s _ ?_ ?_ ?_ ?_
    · omega
    · omega
    · rw [BitVec.toNat_ofNat]
      omega
    · omega
  · rename_i hlog
    have hm52 : ¬2 ^ 52 ≤ m := by
      intro hm52
      have hlong := (Nat.le_log2 hm.ne').2 hm52
      have hshort := (Nat.log2_lt hm.ne').2 hshort
      omega
    obtain rfl : e = -1074 := hlong.resolve_left hm52
    refine unpack_subnormal s ?_
    rw [BitVec.toNat_ofNat]
    omega

def largest : ℚ := (2 ^ 53 - 1) * 2 ^ (971 : ℤ)

theorem onGrid_ones {e : ℤ} (he : -1074 ≤ e) : OnGrid ((2 ^ 53 - 1) * 2 ^ e) := by
  have h := onGrid_mul_two_zpow (m := 2 ^ 53 - 1) (by decide) he
  rwa [show ((2 ^ 53 - 1 : ℕ) : ℚ) = 2 ^ 53 - 1 by norm_num] at h

theorem onGrid_largest : OnGrid largest := onGrid_ones (by decide)

theorem onGrid_half_largest : OnGrid (largest / 2) := by
  have h := onGrid_ones (e := 971 - 1) (by decide)
  rwa [zpow_sub_one₀ two_ne_zero, ← mul_assoc, ← div_eq_mul_inv] at h

theorem two_pow_le_largest {k : ℕ} (h : k ≤ 1023) : (2 : ℚ) ^ k ≤ largest := by
  calc (2 : ℚ) ^ k ≤ 2 ^ 1023 := pow_le_pow_right₀ one_le_two h
    _ = 2 ^ 52 * 2 ^ 971 := by rw [← pow_add]
    _ ≤ (2 ^ 53 - 1) * 2 ^ 971 := mul_le_mul_of_nonneg_right (by norm_num) (by positivity)
    _ = largest := by rw [largest, ← zpow_natCast]; rfl

/-- The rational number that a finite number stands for. -/
def value (x : Float) : ℚ := worth x.toModel.unpack

/-- Every number is read in reduced form. -/
theorem reduced_unpack (x : Float.Model) : Reduced x.unpack := by
  cases h : x.unpack with
  | infinity s => trivial
  | notANumber => trivial
  | zero s => trivial
  | finite s m e hm =>
    obtain ⟨hshort, hlow, _, hlong⟩ := unpack_size h
    exact ⟨hshort, hlow, hlong⟩

/-- Every value lies on the grid. -/
theorem onGrid_value (x : Float) : OnGrid (value x) := onGrid_worth (reduced_unpack _)

/-- No value lies above the largest. -/
theorem abs_value_le (x : Float) : |value x| ≤ largest := by
  have hzero : |(0 : ℚ)| ≤ largest := by norm_num [largest]
  unfold value
  cases h : x.toModel.unpack with
  | infinity s => exact hzero
  | notANumber => exact hzero
  | zero s => exact hzero
  | finite s m e hm =>
    obtain ⟨hshort, _, hhigh, _⟩ := unpack_size h
    have hm : (m : ℚ) ≤ 2 ^ 53 - 1 := by
      have hm : (m + 1 : ℕ) ≤ (2 ^ 53 : ℚ) := by exact_mod_cast hshort
      push_cast at hm
      linarith
    rw [worth, abs_signed, abs_of_nonneg (by positivity), largest]
    exact mul_le_mul hm (two_zpow_mono hhigh) (by positivity) (by norm_num)

/-- A rounded number has an exponent in range if the exact one is not larger than the largest. -/
theorem Rounded.unpack_pack {q : ℚ} {u : UnpackedFloat} (h : Rounded q u) (hq : |q| ≤ largest) :
    (Float.Model.pack u).unpack = u := by
  have hu : |worth u| ≤ largest :=
    abs_le.2 ⟨h.rounds.ge (onGrid_neg onGrid_largest) (abs_le.1 hq).1, h.rounds.le onGrid_largest (abs_le.1 hq).2⟩
  cases u with
  | infinity s => exact nomatch h.finite
  | notANumber => exact nomatch h.finite
  | zero s => cases s <;> rfl
  | finite s m e hm =>
    refine Binary.unpack_pack h.reduced ?_
    by_contra hhigh
    have hlong : (2 ^ 52 : ℚ) ≤ m := by exact_mod_cast h.reduced.2.2.resolve_right (by omega)
    have hlarge : largest < 2 ^ 52 * 2 ^ (972 : ℤ) := by
      rw [largest, show (972 : ℤ) = 1 + 971 by rfl, two_zpow_add, ← mul_assoc]
      exact mul_lt_mul_of_pos_right (by norm_num) (by positivity)
    have hpow : (2 : ℚ) ^ (972 : ℤ) ≤ 2 ^ e := two_zpow_mono (by omega)
    have hmul : (2 ^ 52 : ℚ) * 2 ^ (972 : ℤ) ≤ m * 2 ^ e := mul_le_mul hlong hpow (by positivity) (by positivity)
    rw [worth, abs_signed, abs_of_nonneg (by positivity)] at hu
    linarith

/-- A result of arithmetic: finite, and the exact number rounded. -/
structure Computes (x : Float) (q : ℚ) : Prop where
  finite : x.isFinite = true
  rounds : Rounds q (value x)

/-- What is rounded and stays in range is computed. -/
theorem Rounded.computes {q : ℚ} {u : UnpackedFloat} (h : Rounded q u) (hq : |q| ≤ largest) :
    Computes (.ofModel (.pack u)) q where
  finite := by
    rw [Float.isFinite, Float.Model.isFinite, h.unpack_pack hq]
    exact h.finite
  rounds := by
    rw [value, h.unpack_pack hq]
    exact h.rounds

theorem Computes.nonneg {x : Float} {q : ℚ} (h : Computes x q) (hq : 0 ≤ q) : 0 ≤ value x := h.rounds.ge onGrid_zero hq

theorem Computes.le_natCast {x : Float} {q : ℚ} (h : Computes x q) {n : ℕ} (hn : n < 2 ^ 53) (hq : q ≤ n) : value x ≤ n :=
  h.rounds.le (onGrid_natCast hn) hq

end Whisker.Binary
