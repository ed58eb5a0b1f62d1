import Whisker.Proofs.Decimal.Literal
import Whisker.Proofs.Decimal.Shortest
import Whisker.Proofs.Scalar.Rational

/-!
# Decimals as text

All layouts of a decimal put digits before and after a point, and one of them a power of ten behind. The number that
they spell is the decimal, and reading them takes all of the text.

In exact arithmetic a number has a decimal if its denominator divides a power of ten. The number of places that are
tried is enough for it, so it is written as this decimal, and reading the text gives the number again.
-/

namespace Whisker

open Numeral (isDigit)

namespace Decimal

theorem areDigits_zeros (n : ℕ) : AreDigits (List.replicate n '0') := by
  intro c hc
  rw [List.eq_of_mem_replicate hc]
  decide

theorem areDigits_digits (n : ℕ) : AreDigits (digits n) := fun _ hc => Nat.isDigit_of_mem_toDigits (by decide) (by decide) hc

theorem digits_ne_nil (n : ℕ) : digits n ≠ [] := Nat.toDigits_ne_nil

theorem length_digits_pos (n : ℕ) : 0 < (digits n).length := Nat.length_toDigits_pos

/-- No number but zero starts with a zero. -/
theorem head_digits {n : ℕ} (hn : n ≠ 0) : (digits n).head? ≠ some '0' := by
  induction n using Nat.strong_induction_on with
  | _ n ih =>
    unfold digits
    rw [Nat.toDigits_eq_if (by decide)]
    split
    · rename_i hlt
      interval_cases n <;> first | exact absurd rfl hn | decide
    · rename_i hlt
      rw [List.head?_append_of_ne_nil _ Nat.toDigits_ne_nil]
      exact ih (n / 10) (by omega) (by omega)

theorem ofDigits_digits (n : ℕ) : ofDigits (digits n) = n := Nat.ofDigitChars_ten_toDigits

theorem ofDigits_append (cs ds : List Char) : ofDigits (cs ++ ds) = 10 ^ ds.length * ofDigits cs + ofDigits ds := by
  change Nat.ofDigitChars 10 (cs ++ ds) 0 = _
  rw [Nat.ofDigitChars_append, Nat.ofDigitChars_eq_ofDigitChars_zero]
  rfl

theorem ofDigits_zeros (n : ℕ) : ofDigits (List.replicate n '0') = 0 := by
  change Nat.ofDigitChars 10 (List.replicate n '0') 0 = _
  rw [Nat.ofDigitChars_replicate_zero, mul_zero]

/-- Digits around a point that stand, times ten to `e`, for a decimal. -/
structure Spells (whole fraction : List Char) (e : ℤ) (d : Decimal) : Prop where
  before : AreDigits whole
  after : AreDigits fraction
  nonempty : whole ≠ []
  /-- A leading zero stands alone. -/
  first : whole.head? = some '0' → whole.length = 1
  value : (ofDigits (whole ++ fraction) * 10 ^ (e - fraction.length) : ℚ) = d.value

variable {d : Decimal}

/-- An integer is its digits. -/
theorem spells_digits (n : ℕ) : Spells (digits n) [] 0 ⟨n, 0⟩ where
  before := areDigits_digits n
  after := areDigits_nil
  nonempty := digits_ne_nil n
  first hhead := by
    have hn : n = 0 := by
      by_contra hn
      exact head_digits hn hhead
    subst hn
    rfl
  value := by simp [ofDigits_digits, value]

/-- The digits with a point among them. -/
theorem spells_split (h : d.coefficient ≠ 0) {k : ℕ} (hk : 0 < k) {e : ℤ}
    (he : e - ((digits d.coefficient).length - k : ℕ) = d.exponent) :
    Spells ((digits d.coefficient).take k) ((digits d.coefficient).drop k) e d where
  before c hc := areDigits_digits _ c (List.mem_of_mem_take hc)
  after c hc := areDigits_digits _ c (List.mem_of_mem_drop hc)
  nonempty hnil := by
    have := congrArg List.length hnil
    have := length_digits_pos d.coefficient
    rw [List.length_take, List.length_nil] at *
    omega
  first hhead := by
    rw [List.head?_take, if_neg (by omega)] at hhead
    exact absurd hhead (head_digits h)
  value := by rw [List.take_append_drop, ofDigits_digits, List.length_drop, he, value]

theorem spells_positional (h : d.coefficient ≠ 0) : Spells d.positional.1 d.positional.2 0 d := by
  have hdigits := areDigits_digits d.coefficient
  unfold positional
  dsimp only
  split
  · rename_i he
    obtain ⟨n, hn⟩ := Int.eq_ofNat_of_zero_le he
    rw [hn, Int.toNat_natCast]
    refine ⟨areDigits_append.2 ⟨hdigits, areDigits_zeros n⟩, areDigits_nil, ?_, ?_, ?_⟩
    · exact fun hnil => digits_ne_nil _ (List.append_eq_nil_iff.1 hnil).1
    · intro hhead
      rw [List.head?_append_of_ne_nil _ (digits_ne_nil _)] at hhead
      exact absurd hhead (head_digits h)
    · rw [List.append_nil, ofDigits_append, ofDigits_zeros, List.length_replicate, ofDigits_digits, value, hn]
      push_cast
      simp [mul_comm]
  · rename_i he
    split
    · exact spells_split h (by omega) (by omega)
    · rename_i hlong
      -- The number is below one: zeros fill the places before its first digit.
      have hlength : (List.replicate ((-d.exponent).toNat - (digits d.coefficient).length) '0' ++
          digits d.coefficient).length = (-d.exponent).toNat := by
        rw [List.length_append, List.length_replicate]
        omega
      have hexponent : (0 : ℤ) - (-d.exponent).toNat = d.exponent := by omega
      refine ⟨areDigits_zeros 1, areDigits_append.2 ⟨areDigits_zeros _, hdigits⟩, List.cons_ne_nil _ _, fun _ => rfl, ?_⟩
      rw [hlength, hexponent, ← List.append_assoc, ← List.replicate_one, List.replicate_append_replicate,
        ofDigits_append, ofDigits_zeros, mul_zero, zero_add, ofDigits_digits, value]

/-- A zero after the point changes nothing. -/
theorem Spells.pointZero {whole : List Char} (h : Spells whole [] 0 d) : Spells whole ['0'] 0 d where
  before := h.before
  after := areDigits_zeros 1
  nonempty := h.nonempty
  first := h.first
  value := by
    have hvalue := h.value
    have hzero : ofDigits ['0'] = 0 := by decide
    rw [List.append_nil, List.length_nil, Nat.cast_zero, sub_zero, zpow_zero, mul_one] at hvalue
    rw [ofDigits_append, hzero, ← hvalue, List.length_singleton]
    push_cast
    norm_num
    ring

/-- A zero behind the point changes nothing about what is spelled. -/
theorem spells_pointed (h : d.coefficient ≠ 0) :
    ∃ fraction, d.pointed = join (d.positional.1, fraction) ∧ Spells d.positional.1 fraction 0 d := by
  have hspells := spells_positional h
  refine ⟨if d.positional.2.isEmpty then ['0'] else d.positional.2, rfl, ?_⟩
  cases hfraction : d.positional.2 with
  | nil =>
    rw [hfraction] at hspells
    exact hspells.pointZero
  | cons c cs =>
    rw [hfraction] at hspells
    exact hspells

/-- One digit before the point and the exponent of the leading digit spell the decimal. -/
theorem spells_scientific (h : d.coefficient ≠ 0) :
    Spells ((digits d.coefficient).take 1) ((digits d.coefficient).drop 1) d.leading d := by
  have hlength := length_digits_pos d.coefficient
  refine spells_split h Nat.one_pos ?_
  unfold leading
  omega

/-- The texts that stand for a decimal. -/
inductive Layout (d : Decimal) : List Char → Prop
  | plain {whole fraction : List Char} (h : Spells whole fraction 0 d) : Layout d (join (whole, fraction))
  | power {whole fraction : List Char} {e : ℤ} (h : Spells whole fraction e d) :
    Layout d (join (whole, fraction) ++ 'e' :: (if e < 0 then '-' else '+') :: digits e.natAbs)

theorem layout_positional (h : d.coefficient ≠ 0) : Layout d (join d.positional) := .plain (spells_positional h)

theorem layout_pointed (h : d.coefficient ≠ 0) : Layout d d.pointed := by
  obtain ⟨fraction, hpointed, hspells⟩ := spells_pointed h
  rw [hpointed]
  exact .plain hspells

theorem layout_scientific (h : d.coefficient ≠ 0) : Layout d d.scientific := .power (spells_scientific h)

end Decimal

namespace Numeral

open Decimal (AreDigits Spells Layout join digits)

/-- What spells a decimal is a mantissa. -/
theorem isMantissa_join {whole fraction : List Char} {e : ℤ} {d : Decimal} (h : Spells whole fraction e d) :
    IsMantissa (join (whole, fraction)) whole fraction := by
  cases fraction with
  | nil => exact .whole h.before h.nonempty
  | cons c cs => exact .point h.before h.nonempty h.after

/-- A written mantissa is taken whole, up to what closes it. -/
theorem spanMagnitude?_join {whole fraction tail : List Char} {e : ℤ} {d : Decimal} (h : Spells whole fraction e d)
    (htail : Closes tail) (negative : Bool) :
    spanMagnitude? negative (join (whole, fraction) ++ tail) =
      some (ofParts negative whole fraction (spanExponent tail).1, (spanExponent tail).2) :=
  spanMagnitude?_append (isMantissa_join h) htail negative

theorem isPower_signed (e : ℤ) : IsPower ('e' :: (if e < 0 then '-' else '+') :: digits e.natAbs) e := by
  have hpower {sign : List Char} {negative : Bool} (hs : IsSign sign negative) :=
    IsPower.some (.inl rfl) hs (Decimal.areDigits_digits e.natAbs) (Decimal.digits_ne_nil _)
  rw [Decimal.ofDigits_digits] at hpower
  by_cases he : e < 0
  · have h := hpower .minus
    rw [if_pos rfl, show -(e.natAbs : ℤ) = e by omega] at h
    rw [if_pos he]
    exact h
  · have h := hpower .plus
    rw [if_neg Bool.false_ne_true, show (e.natAbs : ℤ) = e by omega] at h
    rw [if_neg he]
    exact h

theorem spanExponent_power (e : ℤ) : spanExponent ('e' :: (if e < 0 then '-' else '+') :: digits e.natAbs) = (e, []) :=
  (isPower_signed e).spanExponent_eq

/-- A layout is read whole, as digits and a power that make its decimal. -/
theorem spanMagnitude?_layout {d : Decimal} {text : List Char} (h : Layout d text) : ∃ (m : ℕ) (e : ℤ),
    (m * 10 ^ e : ℚ) = d.value ∧ ∀ negative, spanMagnitude? negative text = some (⟨negative, m, e⟩, []) := by
  cases h with
  | plain h =>
    refine ⟨_, _, h.value, fun negative => ?_⟩
    have hread := spanMagnitude?_join h closes_nil negative
    rwa [List.append_nil] at hread
  | power h =>
    refine ⟨_, _, h.value, fun negative => ?_⟩
    rw [spanMagnitude?_join h (closes_power _) negative, spanExponent_power]
    rfl

theorem layout_head {d : Decimal} {text : List Char} (h : Layout d text) : ∃ c cs, text = c :: cs ∧ isDigit c = true := by
  have hjoin {whole fraction : List Char} {e : ℤ} (h : Spells whole fraction e d) (tail : List Char) :
      ∃ c cs, join (whole, fraction) ++ tail = c :: cs ∧ isDigit c = true := by
    obtain ⟨c, cs, rfl⟩ := List.exists_cons_of_ne_nil h.nonempty
    have hc := h.before c List.mem_cons_self
    cases fraction with
    | nil => exact ⟨c, _, rfl, hc⟩
    | cons f fs => exact ⟨c, _, rfl, hc⟩
  cases h with
  | plain h =>
    have hhead := hjoin h []
    rwa [List.append_nil] at hhead
  | power h => exact hjoin h _

/-- A written sign is taken, and nothing of the digits behind it. -/
theorem spanSign_signed {c : Char} (hc : isDigit c = true) (cs : List Char) (negative : Bool) :
    spanSign (Decimal.signed negative (c :: cs)) = (negative, c :: cs) := by
  cases negative with
  | true => rfl
  | false => exact spanSign_append .none fun _ => unsigned_cons (.inl hc) cs

/-- A signed layout is read whole. -/
theorem ofText?_layout {α : Type} [Scalar α] [NumberText α] {d : Decimal} {body : List Char} (h : Layout d body)
    (negative : Bool) : ∃ (m : ℕ) (e : ℤ), (m * 10 ^ e : ℚ) = d.value ∧
      ofText? (Decimal.signed negative body) = some (NumberText.ofDigits negative m e : α) := by
  obtain ⟨m, e, hvalue, hspan⟩ := spanMagnitude?_layout h
  obtain ⟨c, cs, rfl, hc⟩ := layout_head h
  exact ⟨m, e, hvalue, ofText?_of_spanMagnitude? (spanSign_signed hc cs negative) (hspan negative)⟩

end Numeral

end Whisker

namespace Whisker.Exact

def IsDecimal (p : ℚ) : Prop := ∃ (z : ℤ) (k : ℕ), p * 10 ^ k = z

theorem isDecimal_intCast (n : ℤ) : IsDecimal n := ⟨n, 0, by rw [pow_zero, mul_one]⟩

/-- Each common factor with ten takes one place, and halves what is left at least. -/
theorem dvd_ten_pow_log2 {d k : ℕ} (hd : d ≠ 0) (h : d ∣ 10 ^ k) : d ∣ 10 ^ d.log2 := by
  induction d using Nat.strong_induction_on with
  | _ d ih =>
    by_cases hone : Nat.Coprime d 10
    · rw [Nat.Coprime.eq_one_of_dvd (hone.pow_right k) h]
      exact one_dvd _
    · obtain ⟨d', hd'⟩ := Nat.gcd_dvd_left d 10
      have hgcd : 2 ≤ Nat.gcd d 10 := by
        have hpos : 0 < Nat.gcd d 10 := Nat.gcd_pos_of_pos_right d (by decide)
        unfold Nat.Coprime at hone
        omega
      have hd0 : d' ≠ 0 := by
        rintro rfl
        exact hd hd'
      have hhalf : 2 * d' ≤ d := by
        calc 2 * d' ≤ Nat.gcd d 10 * d' := Nat.mul_le_mul_right d' hgcd
          _ = d := hd'.symm
      have hlog : d'.log2 + 1 ≤ d.log2 := by
        rw [Nat.le_log2 hd, pow_succ]
        have := Nat.log2_self_le hd0
        omega
      have hrest := ih d' (by omega) hd0 ((Dvd.intro_left _ hd'.symm).trans h)
      calc d = Nat.gcd d 10 * d' := hd'
        _ ∣ 10 * 10 ^ d'.log2 := mul_dvd_mul (Nat.gcd_dvd_right d 10) hrest
        _ = 10 ^ (d'.log2 + 1) := (pow_succ' 10 _).symm
        _ ∣ 10 ^ d.log2 := pow_dvd_pow 10 hlog

/-- A number with a decimal has a denominator that divides a power of ten. -/
theorem IsDecimal.den_dvd {p : ℚ} (h : IsDecimal p) : ∃ k : ℕ, p.den ∣ 10 ^ k := by
  obtain ⟨z, k, hz⟩ := h
  refine ⟨k, ?_⟩
  have hp : p = Rat.divInt z (10 ^ k : ℕ) := by
    rw [Rat.divInt_eq_div, ← hz]
    push_cast
    rw [mul_div_cancel_right₀ _ (by positivity)]
  have hden := Rat.den_dvd z (10 ^ k : ℕ)
  rw [← hp] at hden
  exact_mod_cast hden

theorem IsDecimal.places {p : ℚ} (h : IsDecimal p) : ∃ k, places? p = some k ∧ p.den ∣ 10 ^ k := by
  obtain ⟨k, hk⟩ := h.den_dvd
  have hlog := dvd_ten_pow_log2 p.den_nz hk
  obtain ⟨j, hj⟩ : ∃ j, places? p = some j := by
    rw [← Option.isSome_iff_exists, places?, List.find?_isSome]
    exact ⟨p.den.log2, List.mem_range.2 (Nat.lt_succ_self _), by simpa using Nat.mod_eq_zero_of_dvd hlog⟩
  refine ⟨j, hj, Nat.dvd_of_mod_eq_zero ?_⟩
  simpa using List.find?_some hj

theorem decimal_value {p : ℚ} {k : ℕ} (h : p.den ∣ 10 ^ k) : (decimal p k).value = |p| := by
  obtain ⟨c, hc⟩ := h
  have hden : (p.den : ℚ) ≠ 0 := by exact_mod_cast p.den_nz
  have hcoefficient : p.num.natAbs * Nat.pow 10 k / p.den = p.num.natAbs * c := by
    rw [show Nat.pow 10 k = p.den * c from hc, Nat.mul_left_comm, Nat.mul_div_cancel_left _ p.den_pos]
  have hpow : (10 : ℚ) ^ k = p.den * c := by exact_mod_cast hc
  have hnum : ((p.num.natAbs : ℕ) : ℚ) = |p| * p.den := by
    rw [Nat.cast_natAbs, Int.cast_abs, ← Rat.mul_den_eq_num p, abs_mul, Nat.abs_cast]
  have hc0 : (c : ℚ) ≠ 0 := by
    rintro hc0
    rw [hc0, mul_zero] at hpow
    exact absurd hpow (by positivity)
  rw [decimal, Decimal.value, hcoefficient]
  change ((p.num.natAbs * c : ℕ) : ℚ) * 10 ^ (-(k : ℤ)) = _
  rw [zpow_neg, zpow_natCast, hpow, Nat.cast_mul, hnum]
  field_simp

/-- A number with a decimal is read back from its text. -/
theorem ofText?_plain {p : ℚ} (h : IsDecimal p) (hp : p ≠ 0) :
    Numeral.ofText? (NumberText.plain (finite p)).toList = some (finite p) := by
  obtain ⟨k, hk, hdvd⟩ := h.places
  have htext : (NumberText.plain (finite p)).toList =
      Decimal.signed (decide (p < 0)) (Decimal.join (decimal p k).positional) := by
    change (signed p (magnitude p)).toList = _
    rw [magnitude, hk, signed, String.toList_ofList]
  have hvalue := decimal_value hdvd
  have hcoefficient : (decimal p k).coefficient ≠ 0 := by
    intro hzero
    rw [Decimal.value, hzero, Nat.cast_zero, zero_mul] at hvalue
    exact hp (abs_eq_zero.1 hvalue.symm)
  obtain ⟨m, e, hme, hread⟩ := Numeral.ofText?_layout (α := Exact) (Decimal.layout_positional hcoefficient)
    (decide (p < 0))
  rw [htext, hread]
  change some (finite (if decide (p < 0) = true then -(Rat.ofInt m * power e) else Rat.ofInt m * power e)) = _
  have hsize : Rat.ofInt (m : ℤ) * power e = |p| := by
    rw [power_eq, ← hvalue, ← hme]
    rfl
  rw [hsize]
  split
  · rename_i hneg
    rw [abs_of_neg (of_decide_eq_true hneg), neg_neg]
  · rename_i hneg
    rw [abs_of_nonneg (not_lt.1 fun hlt => hneg (decide_eq_true hlt))]

end Whisker.Exact
