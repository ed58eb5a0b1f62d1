import Whisker.Proofs.Decimal.Layout
import Whisker.Proofs.Scalar.Integers

/-!
# Numbers read back from their text

The texts that finite numbers are written as are layouts of a decimal next to them, or of zero, with a sign. Whatever
reads such a layout gets the number again, and also the sign of a zero. Blanks, commas and capital letters do not occur.
-/

namespace Whisker

namespace Binary

open Float.Model (UnpackedFloat)
open Float.Model.UnpackedFloat (Sign)

/-- All ways to make a decimal of digits and a power read as the number. -/
def IsDecimal (d : Decimal) (negative : Bool) (x : Float) : Prop :=
  ∀ {m : ℕ} {e : ℤ}, (m * 10 ^ e : ℚ) = d.value → NumberText.ofDigits negative m e = x

theorem isDecimal_shortest {x : Float} {s : Sign} {m : ℕ} {e : ℤ} {hm : 0 < m} (hx : x.toModel.unpack = .finite s m e hm)
    (tie : Decimal.Tie) : IsDecimal (.shortest tie m e) (isNegative s) x := by
  obtain ⟨hshort, hlow, hhigh, -⟩ := unpack_size hx
  have hnear := Decimal.shortest_near tie hm hshort hlow hhigh
  intro n k hvalue
  rw [← hvalue] at hnear
  rw [ofDigits_eq]
  cases s with
  | positive =>
    rw [isNegative, withSign_false]
    exact ofScientific_near hx hnear
  | negative =>
    have hneg : (-x).toModel.unpack = .finite .positive m e hm := by
      rw [unpack_neg, hx]
      rfl
    rw [isNegative, withSign_true, ofScientific_near hneg hnear, float_neg_neg]

/-- A decimal that is the number exactly. -/
theorem isDecimal_exact {x : Float} {m : ℕ} {e : ℤ} {hm : 0 < m} (hx : x.toModel.unpack = .finite .positive m e hm)
    {d : Decimal} (hd : d.value = m * 2 ^ e) : IsDecimal d false x := by
  intro n k hvalue
  rw [ofDigits_eq, withSign_false]
  refine ofScientific_near hx ?_
  rw [hvalue, hd]
  exact near_self m e

theorem isDecimal_zero {x : Float} {s : Sign} (hx : x.toModel.unpack = .zero s) : IsDecimal ⟨0, 0⟩ (isNegative s) x := by
  intro n k hvalue
  have hn : n = 0 := by
    have hpow : (10 : ℚ) ^ k ≠ 0 := by positivity
    rw [Decimal.value, Nat.cast_zero, zero_mul] at hvalue
    exact_mod_cast (mul_eq_zero.1 hvalue).resolve_right hpow
  rw [hn, eq_of_unpack_zero hx]
  rfl

/-- The shortest decimal of a number other than zero is not zero. -/
theorem shortest_coefficient {x : Float} {s : Sign} {m : ℕ} {e : ℤ} {hm : 0 < m} (hx : x.toModel.unpack = .finite s m e hm)
    (tie : Decimal.Tie) : (Decimal.shortest tie m e).coefficient ≠ 0 := by
  obtain ⟨hshort, hlow, hhigh, -⟩ := unpack_size hx
  have hpos := (Decimal.shortest_near tie hm hshort hlow hhigh).pos hm
  intro hzero
  rw [Decimal.value, hzero, Nat.cast_zero, zero_mul] at hpos
  exact lt_irrefl 0 hpos

/-- A sign and the layout of a decimal that reads as the number. -/
structure IsText (text : List Char) (x : Float) (negative : Bool) (body : List Char) (d : Decimal) : Prop where
  text : text = Decimal.signed negative body
  layout : Decimal.Layout d body
  decimal : IsDecimal d negative x

theorem isText_plain {x : Float} (hx : x.isFinite = true) : ∃ negative body d, IsText (plain x).toList x negative body d := by
  unfold plain
  rw [decode_eq]
  obtain ⟨s, hu⟩ | ⟨s, m, e, hm, hu⟩ := finite_cases hx
  · rw [hu]
    exact ⟨_, _, _, String.toList_ofList, .plain (Decimal.spells_digits 0), isDecimal_zero hu⟩
  · have hdecimal : decimal? .larger ⟨isNegative s, m, e⟩ = some (.shortest .larger m e) := if_neg hm.ne'
    rw [hu]
    simp only [Value.ofUnpacked, hdecimal]
    exact ⟨_, _, _, String.toList_ofList, Decimal.layout_positional (shortest_coefficient hu _), isDecimal_shortest hu _⟩

theorem isText_literal {x : Float} (hx : x.isFinite = true) :
    ∃ s negative body d, literal? x = some s ∧ IsText s.toList x negative body d := by
  unfold literal?
  rw [decode_eq]
  obtain ⟨s, hu⟩ | ⟨s, m, e, hm, hu⟩ := finite_cases hx
  · rw [hu]
    exact ⟨_, _, _, _, rfl, String.toList_ofList, .plain (Decimal.spells_digits 0).pointZero, isDecimal_zero hu⟩
  · have hdecimal : decimal? .even ⟨isNegative s, m, e⟩ = some (.shortest .even m e) := if_neg hm.ne'
    have hcoefficient := shortest_coefficient hu .even
    rw [hu]
    simp only [Value.ofUnpacked, hdecimal]
    refine ⟨_, _, _, _, rfl, String.toList_ofList, ?_, isDecimal_shortest hu .even⟩
    split
    · exact Decimal.layout_pointed hcoefficient
    · exact Decimal.layout_scientific hcoefficient

/-- The digits of a natural number. -/
theorem isText_digits {n : ℕ} (hn : n < 2 ^ 53) :
    IsText (Decimal.digits n) (Scalar.ofNat n) false (Decimal.digits n) ⟨n, 0⟩ := by
  refine ⟨rfl, .plain (Decimal.spells_digits n), ?_⟩
  obtain ⟨hfinite, hvalue⟩ := value_ofNat hn
  obtain ⟨s, hu⟩ | ⟨s, m, e, hm, hu⟩ := finite_cases hfinite
  · rw [value, hu, worth_zero] at hvalue
    obtain rfl : n = 0 := by exact_mod_cast hvalue.symm
    exact isDecimal_zero (s := .positive) rfl
  · obtain ⟨rfl, hsize⟩ := positive_of_value hu (by rw [hvalue]; positivity)
    refine isDecimal_exact hu ?_
    rw [← hsize, hvalue, Decimal.value, zpow_zero, mul_one]

end Binary

namespace Numeral

open Binary (IsText)
open Decimal (AreDigits Layout join)

variable {text body : List Char} {x : Float} {negative : Bool} {d : Decimal}

/-- The sign and the digits of a text. -/
theorem spans_of_isText (h : IsText text x negative body d) :
    ∃ n : Numeral, spanSign text = (negative, body) ∧ spanMagnitude? negative body = some (n, []) ∧ n.value = x := by
  obtain ⟨m, e, hvalue, hspan⟩ := spanMagnitude?_layout h.layout
  obtain ⟨c, cs, rfl, hc⟩ := layout_head h.layout
  exact ⟨_, h.text ▸ spanSign_signed hc cs negative, hspan negative, h.decimal hvalue⟩

theorem ofText?_of_isText (h : IsText text x negative body d) : ofText? text = some x := by
  obtain ⟨m, e, hvalue, hread⟩ := ofText?_layout (α := Float) h.layout negative
  rw [h.text, hread, h.decimal hvalue]

/-- The shortest text of a finite number reads back. -/
theorem ofText?_plain (hx : x.isFinite = true) : ofText? (NumberText.plain x).toList = some x := by
  obtain ⟨negative, body, d, h⟩ := Binary.isText_plain hx
  exact ofText?_of_isText h

def isMark (c : Char) : Bool := isDigit c || c = '.' || c = 'e' || c = '+' || c = '-'

theorem isMark_of_isDigit {c : Char} (h : isDigit c = true) : isMark c = true := by
  simp [isMark, h]

theorem isMark_join {whole fraction : List Char} (hwhole : AreDigits whole) (hfraction : AreDigits fraction) :
    ∀ c ∈ join (whole, fraction), isMark c = true := by
  intro c hc
  unfold join at hc
  split at hc
  · exact isMark_of_isDigit (hwhole c hc)
  · obtain hc | hc := List.mem_append.1 hc
    · exact isMark_of_isDigit (hwhole c hc)
    · obtain rfl | hc := List.mem_cons.1 hc
      · decide
      · exact isMark_of_isDigit (hfraction c hc)

theorem isMark_layout (h : Layout d text) : ∀ c ∈ text, isMark c = true := by
  cases h with
  | plain h => exact isMark_join h.before h.after
  | power h =>
    rw [List.forall_mem_append, List.forall_mem_cons, List.forall_mem_cons]
    have hexponent {n : ℕ} : ∀ c ∈ Decimal.digits n, isMark c = true :=
      fun c hc => isMark_of_isDigit (Decimal.areDigits_digits n c hc)
    exact ⟨isMark_join h.before h.after, by decide, by split <;> decide, hexponent⟩

theorem isMark_text (h : IsText text x negative body d) : ∀ c ∈ text, isMark c = true := by
  have hbody := isMark_layout h.layout
  rw [h.text]
  cases negative with
  | false => exact hbody
  | true => exact List.forall_mem_cons.2 ⟨by decide, hbody⟩

theorem exists_of_isDigit {c : Char} (h : isDigit c = true) : ∃ n < 10, c = Char.ofNat (48 + n) := by
  simp only [isDigit, Bool.and_eq_true, decide_eq_true_eq, Char.le_def, UInt32.le_iff_toNat_le] at h
  have hlow : 48 ≤ c.toNat := h.1
  have hhigh : c.toNat ≤ 57 := h.2
  refine ⟨c.toNat - 48, by omega, ?_⟩
  rw [Nat.add_sub_cancel' hlow, Char.ofNat_toNat]

/-- Such a character is no blank and no comma, and it is the same in small letters. -/
theorem mark_facts {c : Char} (h : isMark c = true) : Text.isBlank c = false ∧ c ≠ ',' ∧ c.toLower = c := by
  simp only [isMark, Bool.or_eq_true, decide_eq_true_eq] at h
  obtain (((h | rfl) | rfl) | rfl) | rfl := h
  · obtain ⟨n, hn, rfl⟩ := exists_of_isDigit h
    interval_cases n <;> decide
  all_goals decide

end Numeral

end Whisker
