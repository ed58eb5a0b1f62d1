import Whisker.Proofs.Decimal.Leading
import Whisker.Proofs.NumberText
import Whisker.Proofs.Scalar.Monotone
import Whisker.Proofs.Text.Pieces

/-!
# Numbers read back from labels

A literal is the longest one at the start of a text if what follows does not go on with it. The text of a number in a
label is such a literal, except for the one of "not a number", which starts with no literal. So the number is read back
from all texts that begin with its own and go on with something else.
-/

namespace Whisker.Numeral

open Scalar (nan inf ofNat same)
open Decimal (AreDigits Layout)
open Binary (IsText)

/-- What does not go on with a number. -/
def Ends (tail : List Char) : Prop := ∀ c ∈ tail.head?, isDigit c = false ∧ c ≠ '.' ∧ c ≠ 'e' ∧ c ≠ 'E'

variable {tail : List Char}

theorem Ends.closes (h : Ends tail) : Closes tail := fun c hc => ⟨(h c hc).1, (h c hc).2.1⟩

theorem Ends.not_power (h : Ends tail) : ∀ c ∈ tail.head?, isPower c = false := by
  intro c hc
  obtain ⟨-, -, he, hE⟩ := h c hc
  simp [isPower, he, hE]

/-- A mantissa is the longest one if what follows closes it. -/
theorem longest_mantissa {m whole fraction rest : List Char} (hm : IsMantissa m whole fraction) (h : Closes rest) :
    Longest IsDigits (m ++ rest) m := by
  have hpoint {ds fs : List Char} (hds : AreDigits ds) (hfs : AreDigits fs) (hne : ds ≠ [] ∨ fs ≠ []) :
      Longest IsDigits (ds ++ '.' :: (fs ++ rest)) (ds ++ '.' :: fs) := by
    obtain ⟨hwhole, hdrop⟩ := takeWhile_point hds (fs ++ rest)
    have hfraction := (takeWhile_digits hfs h.digit).1
    have hlongest := longest_point hdrop (by rwa [hwhole, hfraction])
    rwa [hwhole, hfraction] at hlongest
  cases hm with
  | whole hds _ =>
    obtain ⟨hwhole, hdrop⟩ := takeWhile_digits hds h.digit
    have hlongest : Longest IsDigits (m ++ rest) ((m ++ rest).takeWhile isDigit) := by
      refine longest_whole fun after hafter => ?_
      rw [hdrop] at hafter
      exact absurd rfl (h '.' (by rw [hafter]; rfl)).2
    rwa [hwhole] at hlongest
  | point hds hne hfs =>
    rw [List.append_assoc]
    exact hpoint hds hfs (.inl hne)
  | fraction hfs hne => exact hpoint Decimal.areDigits_nil hfs (.inr hne)

/-- A power is the longest one if what follows ends the number. -/
theorem longest_hasPower {power : List Char} {e : ℤ} (hp : IsPower power e) (h : Ends tail) :
    Longest HasPower (power ++ tail) power := by
  cases hp with
  | none =>
    refine longest_nothing fun {c _ _ _} hc _ _ heq => ?_
    rw [List.nil_append] at heq
    have hnot := h.not_power c (by rw [heq]; rfl)
    rw [hc] at hnot
    cases hnot
  | some hmark hs hds hne =>
    have hrun := (takeWhile_digits hds h.closes.digit).1
    have hlongest := longest_power (by simpa [isPower] using hmark) hs (fun _ => AreDigits.unsigned hds hne tail)
      (by rwa [hrun])
    rw [hrun] at hlongest
    rwa [List.cons_append, List.append_assoc]

/-- Of what does not go on with it a literal takes nothing. -/
theorem Literal.longest {p : List Char} {v : Meaning} (hp : Literal p v) (h : Ends tail) :
    Longest IsLiteral (p ++ tail) p := by
  cases hp with
  | infinity hs =>
    rw [List.append_assoc]
    exact longest_infinity hs (fun _ c hc => by cases hc; decide) (List.prefix_append _ _)
  | decimal hs hm hp =>
    have hlongest := longest_decimal hs (hm.not_infinity _) (longest_mantissa hm (hp.closes_append h.closes)) hm
      (longest_hasPower hp h)
    rwa [List.append_assoc, List.append_assoc]

theorem IsSign.append_head {sign : List Char} {negative : Bool} (hs : IsSign sign negative) {c : Char} (cs : List Char)
    (hc : Text.isBlank c = false) : (sign ++ c :: cs).head?.any Text.isBlank = false := by
  cases hs with
  | none => exact hc
  | plus => rfl
  | minus => rfl

/-- No literal starts with a blank. -/
theorem Literal.head_not_blank {p : List Char} {v : Meaning} (hp : Literal p v) (tail : List Char) :
    (p ++ tail).head?.any Text.isBlank = false := by
  cases hp with
  | infinity hs =>
    rw [List.append_assoc]
    exact hs.append_head _ (by decide)
  | decimal hs hm _ =>
    obtain ⟨c, cs, rfl, hc⟩ := hm.exists_head
    rw [List.append_assoc]
    refine hs.append_head _ (mark_facts ?_).1
    rcases hc with hc | rfl
    · exact isMark_of_isDigit hc
    · decide

/-- A literal with an end behind it is read as what it means. -/
theorem leading_literal {α : Type} [Scalar α] [NumberText α] {p : List Char} {v : Meaning} (hp : Literal p v)
    (h : Ends tail) : (leading (p ++ tail) : α) = v.value := by
  refine leading_of_longest ?_ hp
  rw [Text.trimStart_eq_self (hp.head_not_blank tail)]
  exact hp.longest h

variable {x : Float}

theorem isSign_signed (negative : Bool) (body : List Char) :
    ∃ sign, Decimal.signed negative body = sign ++ body ∧ IsSign sign negative := by
  cases negative with
  | false => exact ⟨[], rfl, .none⟩
  | true => exact ⟨['-'], rfl, .minus⟩

/-- A layout with a sign is a literal. -/
theorem exists_literal {d : Decimal} {body : List Char} (h : Layout d body) (negative : Bool) :
    ∃ n, Literal (Decimal.signed negative body) (.decimal n) := by
  obtain ⟨sign, hsigned, hs⟩ := isSign_signed negative body
  rw [hsigned]
  cases h with
  | plain h =>
    have hliteral := Literal.decimal hs (isMantissa_join h) .none
    rw [List.append_nil] at hliteral
    exact ⟨_, hliteral⟩
  | power h => exact ⟨_, .decimal hs (isMantissa_join h) (isPower_signed _)⟩

/-- A written number with an end behind it is read back. -/
theorem leading_text {text body : List Char} {negative : Bool} {d : Decimal} (h : IsText text x negative body d)
    (htail : Ends tail) : leading (text ++ tail) = x := by
  obtain ⟨n, hliteral⟩ := exists_literal h.layout negative
  rw [← h.text] at hliteral
  have hvalue := hliteral.ofText?_eq (α := Float)
  rw [ofText?_of_isText h, Option.some_inj] at hvalue
  rw [leading_literal hliteral htail, hvalue]
  rfl

theorem leading_notANumber (tail : List Char) : (leading ('N' :: tail) : Float) = nan := by
  have htrim : Text.trimStart ('N' :: tail) = 'N' :: tail := Text.trimStart_eq_self rfl
  refine leading_of_no_literal ?_
  rw [htrim]
  -- There is no sign, the word for "infinity" starts otherwise, and no digit or point stands first.
  refine no_literal .none (fun _ c hc => by cases hc; decide) (fun hword => ?_) (longest_whole fun after hafter => ?_)
  · exact absurd (List.cons_prefix_cons.1 hword).1 (by decide)
  · cases hafter

theorem same_self (x : Float) : same x x = true := by
  by_cases hx : x.isFinite = true
  · have hbeq : (x == x) = true := (Binary.beq_iff_value hx hx).2 rfl
    rw [same, hbeq, Bool.true_or]
  · obtain rfl | rfl | rfl := Binary.not_finite_cases (Bool.not_eq_true _ ▸ hx) <;> decide

/-- A finite number is spelled in its plain text, and both zeros as one. -/
theorem spelled_finite (hx : x.isFinite = true) :
    NumberText.spelled x = if x == 0 then "0" else NumberText.plain x := by
  have hnan : Scalar.isNaN x = false := Binary.isNaN_of_isFinite hx
  have hinf : Scalar.isInfinite x = false := by
    rw [Scalar.isInfinite, show Scalar.isFinite x = true from hx, Bool.not_true, Bool.and_false]
  unfold NumberText.spelled
  rw [hnan, hinf]
  rfl

/-- A number is read from all texts that begin with its label and do not go on with it: "not a number" as such, and each
zero as a zero. -/
theorem leading_spelled (x : Float) (tail : String) (h : Ends tail.toList) :
    same (leading (NumberText.spelled x ++ tail).toList) x = true := by
  rw [String.toList_append]
  by_cases hx : x.isFinite = true
  · rw [spelled_finite hx]
    split
    · -- A negative zero has the label of zero, so what is read is equal to it but need not be it.
      rename_i hzero
      have hread : leading ("0".toList ++ tail.toList) = (ofNat 0 : Float) :=
        leading_text (Binary.isText_digits (n := 0) (by decide)) h
      have hvalue := (Binary.beq_iff_value hx Binary.isFinite_zero).1 hzero
      rw [hread, same, (Binary.beq_iff_value Binary.isFinite_zero hx).2 hvalue.symm, Bool.true_or]
    · obtain ⟨negative, body, d, htext⟩ := Binary.isText_plain hx
      have hread : leading ((NumberText.plain x).toList ++ tail.toList) = x := leading_text htext h
      rw [hread]
      exact same_self x
  · obtain rfl | rfl | rfl := Binary.not_finite_cases (Bool.not_eq_true _ ▸ hx)
    · have hlabel : NumberText.spelled (nan : Float) = "NaN" := by decide
      have hread : leading ("NaN".toList ++ tail.toList) = (nan : Float) := leading_notANumber _
      rw [hlabel, hread]
      exact same_self nan
    · have hlabel : NumberText.spelled (inf : Float) = "Infinity" := by decide
      have hread : leading ("Infinity".toList ++ tail.toList) = (inf : Float) := leading_literal (.infinity .none) h
      rw [hlabel, hread]
      exact same_self inf
    · have hlabel : NumberText.spelled (-inf : Float) = "-Infinity" := by decide
      have hread : leading ("-Infinity".toList ++ tail.toList) = (-inf : Float) := leading_literal (.infinity .minus) h
      rw [hlabel, hread]
      exact same_self (-inf)

theorem leading_tenth :
    Ends "ms".toList ∧ NumberText.spelled (0.1 : Float) ++ "ms" = "0.1ms" ∧
      same (leading "0.1ms".toList) (0.1 : Float) = true := by
  have h : Ends "ms".toList := fun c hc => by cases hc; decide
  have htext : NumberText.spelled (0.1 : Float) ++ "ms" = "0.1ms" := by decide +kernel
  exact ⟨h, htext, htext ▸ leading_spelled 0.1 "ms" h⟩

end Whisker.Numeral
