import Mathlib
import Whisker.NumberText

/-!
# Number literals

The texts that are numbers: an infinity, or digits with at most one point among, before or behind them and perhaps a
power of ten. Reading a text as a whole takes each of them for the number that its digits make.
-/

namespace Whisker

namespace Decimal

open Numeral (isDigit)

def AreDigits (cs : List Char) : Prop := ∀ c ∈ cs, isDigit c = true

instance (cs : List Char) : Decidable (AreDigits cs) := List.decidableBAll _ cs

theorem areDigits_nil : AreDigits [] := fun _ hc => nomatch hc

theorem areDigits_append {cs ds : List Char} : AreDigits (cs ++ ds) ↔ AreDigits cs ∧ AreDigits ds :=
  List.forall_mem_append

end Decimal

namespace Numeral

open Decimal (AreDigits areDigits_nil)

inductive IsSign : List Char → (negative : Bool) → Prop
  | none : IsSign [] false
  | plus : IsSign ['+'] false
  | minus : IsSign ['-'] true

/-- Digits and a point, of which the digits before the point and those behind it are told apart. -/
inductive IsMantissa : (text whole fraction : List Char) → Prop
  | whole {ds : List Char} (h : AreDigits ds) (nonempty : ds ≠ []) : IsMantissa ds ds []
  | point {ds fs : List Char} (h : AreDigits ds) (nonempty : ds ≠ []) (fraction : AreDigits fs) :
    IsMantissa (ds ++ '.' :: fs) ds fs
  | fraction {fs : List Char} (h : AreDigits fs) (nonempty : fs ≠ []) : IsMantissa ('.' :: fs) [] fs

/-- A power of ten, or nothing for the power zero. -/
inductive IsPower : List Char → ℤ → Prop
  | none : IsPower [] 0
  | some {c : Char} {sign ds : List Char} {negative : Bool} (mark : c = 'e' ∨ c = 'E') (hs : IsSign sign negative)
    (h : AreDigits ds) (nonempty : ds ≠ []) :
    IsPower (c :: (sign ++ ds)) (if negative then -(Decimal.ofDigits ds : ℤ) else Decimal.ofDigits ds)

inductive Meaning where
  | infinity (negative : Bool)
  | decimal (n : Numeral)

/-- The texts that are numbers and what they mean. -/
inductive Literal : List Char → Meaning → Prop
  | infinity {sign : List Char} {negative : Bool} (h : IsSign sign negative) :
    Literal (sign ++ "Infinity".toList) (.infinity negative)
  | decimal {sign text power whole fraction : List Char} {negative : Bool} {e : ℤ} (hs : IsSign sign negative)
    (hm : IsMantissa text whole fraction) (hp : IsPower power e) :
    Literal (sign ++ (text ++ power)) (.decimal (ofParts negative whole fraction e))

/-- A mantissa has a digit before or behind its point. -/
theorem IsMantissa.nonempty {text whole fraction : List Char} (h : IsMantissa text whole fraction) :
    (whole.isEmpty && fraction.isEmpty) = false := by
  cases h with
  | whole _ hne => simp [hne]
  | point _ hne _ => simp [hne]
  | fraction _ hne => simp [hne]

/-- A mantissa starts with a digit or a point. -/
theorem IsMantissa.exists_head {text whole fraction : List Char} (h : IsMantissa text whole fraction) :
    ∃ c cs, text = c :: cs ∧ (isDigit c = true ∨ c = '.') := by
  cases h with
  | whole hds hne =>
    obtain ⟨c, cs, rfl⟩ := List.exists_cons_of_ne_nil hne
    exact ⟨c, cs, rfl, .inl (hds c List.mem_cons_self)⟩
  | point hds hne _ =>
    obtain ⟨c, cs, rfl⟩ := List.exists_cons_of_ne_nil hne
    exact ⟨c, _, rfl, .inl (hds c List.mem_cons_self)⟩
  | fraction _ _ => exact ⟨'.', _, rfl, .inr rfl⟩

/-- No mantissa starts as the word for infinity does. -/
theorem IsMantissa.not_infinity {text whole fraction : List Char} (h : IsMantissa text whole fraction) (tail : List Char) :
    ¬"Infinity".toList <+: text ++ tail := by
  obtain ⟨c, cs, rfl, hc⟩ := h.exists_head
  intro hword
  obtain ⟨rfl, -⟩ := List.cons_prefix_cons.1 hword
  exact absurd hc (by decide)

/-- What may follow the digits of a number. -/
def Closes (tail : List Char) : Prop := ∀ c ∈ tail.head?, isDigit c = false ∧ c ≠ '.'

theorem closes_nil : Closes [] := fun _ hc => nomatch hc

theorem Closes.digit {tail : List Char} (h : Closes tail) : ∀ c ∈ tail.head?, isDigit c = false := fun c hc => (h c hc).1

theorem closes_power (cs : List Char) : Closes ('e' :: cs) := by
  intro c hc
  cases hc
  decide

/-- Whatever stands behind a power, the mantissa before it is closed. -/
theorem IsPower.closes_append {power tail : List Char} {e : ℤ} (h : IsPower power e) (htail : Closes tail) :
    Closes (power ++ tail) := by
  cases h with
  | none => exact htail
  | some hmark _ _ _ =>
    rintro c hc
    cases hc
    rcases hmark with rfl | rfl <;> decide

theorem IsPower.closes {power : List Char} {e : ℤ} (h : IsPower power e) : Closes power := by
  have hcloses := h.closes_append closes_nil
  rwa [List.append_nil] at hcloses

/-- Digits are taken up to the first character that is none. -/
theorem spanDigits_append {ds tail : List Char} (hds : AreDigits ds) (h : ∀ c ∈ tail.head?, isDigit c = false) :
    spanDigits (ds ++ tail) = (ds, tail) := by
  have hhead : tail.takeWhile isDigit = [] ∧ tail.dropWhile isDigit = tail := by
    cases tail with
    | nil => exact ⟨rfl, rfl⟩
    | cons c cs => simp [h c rfl]
  rw [spanDigits, List.span_eq_takeWhile_dropWhile, List.takeWhile_append_of_pos hds, List.dropWhile_append_of_pos hds,
    hhead.1, hhead.2, List.append_nil]

theorem spanDigits_digits {ds : List Char} (hds : AreDigits ds) : spanDigits ds = (ds, []) := by
  have h := spanDigits_append hds closes_nil.digit
  rwa [List.append_nil] at h

theorem spanFraction_close {tail : List Char} (h : Closes tail) : spanFraction tail = ([], tail) := by
  cases tail with
  | nil => rfl
  | cons c cs =>
    unfold spanFraction
    split
    · rename_i heq
      injection heq with hc _
      exact absurd hc (h c rfl).2
    · rfl

def Unsigned (cs : List Char) : Prop := ∀ c ∈ cs.head?, c ≠ '+' ∧ c ≠ '-'

theorem unsigned_cons {c : Char} (hc : isDigit c = true ∨ c = '.') (cs : List Char) : Unsigned (c :: cs) := by
  intro x hx
  cases hx
  constructor <;> (rintro rfl; exact absurd hc (by decide))

theorem AreDigits.unsigned {ds : List Char} (hds : AreDigits ds) (hne : ds ≠ []) (tail : List Char) :
    Unsigned (ds ++ tail) := by
  obtain ⟨c, cs, rfl⟩ := List.exists_cons_of_ne_nil hne
  exact unsigned_cons (.inl (hds c List.mem_cons_self)) _

/-- A mantissa does not start with a sign. -/
theorem IsMantissa.unsigned {text whole fraction : List Char} (h : IsMantissa text whole fraction) (tail : List Char) :
    Unsigned (text ++ tail) := by
  obtain ⟨c, cs, rfl, hc⟩ := h.exists_head
  exact unsigned_cons hc _

/-- A sign is taken off whatever follows. -/
theorem spanSign_append {sign cs : List Char} {negative : Bool} (hs : IsSign sign negative) (h : sign = [] → Unsigned cs) :
    spanSign (sign ++ cs) = (negative, cs) := by
  cases hs with
  | plus => rfl
  | minus => rfl
  | none =>
    rw [List.nil_append]
    unfold spanSign
    split
    · exact absurd rfl (h rfl _ rfl).2
    · exact absurd rfl (h rfl _ rfl).1
    · rfl

/-- A mantissa is taken whole, with the power that may stand behind it. -/
theorem spanMagnitude?_append {text whole fraction tail : List Char} (h : IsMantissa text whole fraction)
    (htail : Closes tail) (negative : Bool) :
    spanMagnitude? negative (text ++ tail) =
      some (ofParts negative whole fraction (spanExponent tail).1, (spanExponent tail).2) := by
  have hne := h.nonempty
  have hpointed {ds fs : List Char} (hds : AreDigits ds) (hfs : AreDigits fs) (hne : (ds.isEmpty && fs.isEmpty) = false) :
      spanMagnitude? negative (ds ++ '.' :: (fs ++ tail)) =
        some (ofParts negative ds fs (spanExponent tail).1, (spanExponent tail).2) := by
    have hspan : spanDigits (ds ++ '.' :: (fs ++ tail)) = (ds, '.' :: (fs ++ tail)) :=
      spanDigits_append hds fun c hc => by cases hc; decide
    unfold spanMagnitude?
    simp only [hspan, spanFraction, spanDigits_append hfs htail.digit, hne, Bool.false_eq_true, if_false]
  cases h with
  | whole hds _ =>
    unfold spanMagnitude?
    simp only [spanDigits_append hds htail.digit, spanFraction_close htail, hne, Bool.false_eq_true, if_false]
  | point hds _ hfs =>
    rw [List.append_assoc]
    exact hpointed hds hfs hne
  | fraction hfs _ => exact hpointed areDigits_nil hfs hne

theorem IsPower.spanExponent_eq {power : List Char} {e : ℤ} (h : IsPower power e) : spanExponent power = (e, []) := by
  cases h with
  | none => rfl
  | some hmark hs hds hne =>
    have hsign := spanSign_append hs fun _ => by simpa using AreDigits.unsigned hds hne []
    have hempty := List.isEmpty_eq_false_iff.2 hne
    unfold spanExponent
    simp only [hsign, spanDigits_digits hds, hempty, Bool.false_eq_true, if_false]
    rw [if_pos hmark]

/-- A number is no word, so it is read wherever its digits take all of the text. -/
theorem ofText?_of_spanMagnitude? {α : Type} [Scalar α] [NumberText α] {cs rest : List Char} {negative : Bool} {n : Numeral}
    (hsign : spanSign cs = (negative, rest)) (hread : spanMagnitude? negative rest = some (n, [])) :
    ofText? cs = some (n.value : α) := by
  have hword {w : List Char} (hw : spanMagnitude? negative w = none) : rest ≠ w := by
    rintro rfl
    rw [hw] at hread
    cases hread
  unfold ofText?
  simp only [hsign, hread]
  rw [if_neg, if_neg (hword rfl)]
  rintro (heq | heq)
  · exact hword rfl heq
  · exact hword rfl heq

/-- Behind its sign a literal is the word for infinity or digits that are read whole. -/
theorem Literal.exists_span {cs : List Char} {v : Meaning} (h : Literal cs v) : ∃ negative rest,
    spanSign cs = (negative, rest) ∧ (rest = "Infinity".toList ∧ v = .infinity negative ∨
      ∃ n, spanMagnitude? negative rest = some (n, []) ∧ v = .decimal n) := by
  cases h with
  | infinity hs => exact ⟨_, _, spanSign_append hs fun _ c hc => by cases hc; decide, .inl ⟨rfl, rfl⟩⟩
  | decimal hs hm hp =>
    refine ⟨_, _, spanSign_append hs fun _ => hm.unsigned _, .inr ⟨_, ?_, rfl⟩⟩
    rw [spanMagnitude?_append hm hp.closes, hp.spanExponent_eq]

/-- A decimal literal is read as the number that its digits and its power say. -/
theorem Literal.ofText?_eq {α : Type} [Scalar α] [NumberText α] {cs : List Char} {n : Numeral}
    (h : Literal cs (.decimal n)) : ofText? cs = some (n.value : α) := by
  obtain ⟨negative, rest, hsign, ⟨-, hv⟩ | ⟨n', hread, hv⟩⟩ := h.exists_span
  · cases hv
  · cases hv
    exact ofText?_of_spanMagnitude? hsign hread

/-- A text has one meaning at most. -/
theorem Literal.unique {cs : List Char} {v w : Meaning} (hv : Literal cs v) (hw : Literal cs w) : v = w := by
  obtain ⟨negative, rest, hsign, hv⟩ := hv.exists_span
  obtain ⟨negative', rest', hsign', hw⟩ := hw.exists_span
  rw [hsign] at hsign'
  obtain ⟨rfl, rfl⟩ := Prod.mk.inj hsign'
  rcases hv with ⟨rfl, rfl⟩ | ⟨n, hread, rfl⟩ <;> rcases hw with ⟨hrest, rfl⟩ | ⟨n', hread', rfl⟩
  · rfl
  · cases hread'
  · subst hrest
    cases hread
  · rw [hread] at hread'
    cases hread'
    rfl

end Numeral

end Whisker
