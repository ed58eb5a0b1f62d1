import Whisker.Proofs.Svg.Markup

/-!
# Attribute values

Attribute values are written without escaping. They are numbers, colors and fixed words, and whatever the number,
finite or not, its text is plain; so every element of a document has a tag that reads back.
-/

namespace Whisker

open Markup (isPlain IsPlain IsSound)

namespace Markup

theorem isPlain_of_isMark {c : Char} (h : Numeral.isMark c = true) : isPlain c = true := by
  simp only [Numeral.isMark, Bool.or_eq_true, decide_eq_true_eq] at h
  obtain (((h | rfl) | rfl) | rfl) | rfl := h
  · obtain ⟨n, hn, rfl⟩ := Numeral.exists_of_isDigit h
    interval_cases n <;> decide
  all_goals decide

theorem isPlain_ofList {cs : List Char} (h : ∀ c ∈ cs, Numeral.isMark c = true) : IsPlain (String.ofList cs) := by
  intro c hc
  rw [String.toList_ofList] at hc
  exact isPlain_of_isMark (h c hc)

@[simp] theorem isPlain_append {s t : String} : IsPlain (s ++ t) ↔ IsPlain s ∧ IsPlain t := by
  unfold IsPlain
  rw [String.toList_append, List.forall_mem_append]

instance (s : String) : Decidable (IsPlain s) := decidable_of_iff (s.toList.all isPlain = true) List.all_eq_true

theorem isPlain_repr (n : Nat) : IsPlain n.repr :=
  isPlain_ofList fun c hc => Numeral.isMark_of_isDigit (Decimal.areDigits_digits n c hc)

theorem isPlain_outOfRange (v : Binary.Value) : IsPlain ((Binary.outOfRange v).getD "") := by
  cases v with
  | notANumber => exact (by decide : IsPlain "NaN")
  | infinite negative =>
    cases negative with
    | false => exact (by decide : IsPlain "inf")
    | true => exact (by decide : IsPlain "-inf")
  | finite p => exact (by decide : IsPlain "")

theorem isPlain_signed {cs : List Char} (h : ∀ c ∈ cs, Numeral.isMark c = true) (negative : Bool) :
    IsPlain (String.ofList (Decimal.signed negative cs)) := by
  refine isPlain_ofList ?_
  cases negative with
  | false => exact h
  | true => exact List.forall_mem_cons.2 ⟨by decide, h⟩

theorem areDigits_sublist {cs ds : List Char} (h : Decimal.AreDigits ds) (hcs : cs.Sublist ds) : Decimal.AreDigits cs :=
  fun c hc => h c (hcs.subset hc)

theorem areDigits_positional (d : Decimal) : Decimal.AreDigits d.positional.1 ∧ Decimal.AreDigits d.positional.2 := by
  have hdigits := Decimal.areDigits_digits d.coefficient
  unfold Decimal.positional
  split
  · exact ⟨Decimal.areDigits_append.2 ⟨hdigits, Decimal.areDigits_zeros _⟩, Decimal.areDigits_nil⟩
  · dsimp only
    split
    · exact ⟨areDigits_sublist hdigits (List.take_sublist _ _), areDigits_sublist hdigits (List.drop_sublist _ _)⟩
    · exact ⟨Decimal.areDigits_zeros 1, Decimal.areDigits_append.2 ⟨Decimal.areDigits_zeros _, hdigits⟩⟩

/-- A number in its shortest text is plain. -/
theorem isPlain_plain (x : Float) : IsPlain (NumberText.plain x) := by
  change IsPlain (Binary.plain x)
  unfold Binary.plain
  split
  · refine isPlain_signed ?_ _
    split
    · next d _ => exact Numeral.isMark_join (areDigits_positional d).1 (areDigits_positional d).2
    · exact List.forall_mem_singleton.2 (by decide)
  · exact isPlain_outOfRange _

theorem isPlain_fixed (places : Nat) (x : Float) : IsPlain (NumberText.fixed places x) := by
  change IsPlain (Binary.fixed places x)
  unfold Binary.fixed
  split
  · have hdigits (zeros n : Nat) : Decimal.AreDigits (List.replicate zeros '0' ++ Decimal.digits n) :=
      Decimal.areDigits_append.2 ⟨Decimal.areDigits_zeros zeros, Decimal.areDigits_digits n⟩
    refine isPlain_signed ?_ _
    exact Numeral.isMark_join (areDigits_sublist (hdigits _ _) (List.take_sublist _ _))
      (areDigits_sublist (hdigits _ _) (List.drop_sublist _ _))
  · exact isPlain_outOfRange _

theorem isPlain_toCss (c : Color Float) : IsPlain c.toCss := by
  have hcomma : IsPlain "," := by decide
  simp only [Color.toCss, Nat.toString_eq_repr, isPlain_append, isPlain_repr, isPlain_plain, hcomma, and_true]
  decide

/-- Plain texts joined by a plain separator are plain. -/
theorem isPlain_intercalate {separator : String} (hseparator : IsPlain separator) {texts : List String}
    (h : ∀ t ∈ texts, IsPlain t) : IsPlain (separator.intercalate texts) := by
  induction texts with
  | nil =>
    rw [String.intercalate_nil]
    decide
  | cons t texts ih =>
    obtain ⟨ht, htexts⟩ := List.forall_mem_cons.1 h
    by_cases hnil : texts = []
    · rwa [hnil, String.intercalate_singleton]
    · rw [String.intercalate_cons_of_ne_nil hnil, isPlain_append, isPlain_append]
      exact ⟨⟨ht, hseparator⟩, ih htexts⟩

end Markup

namespace Svg

open Markup

def Leaf.tag : Leaf → Tag
  | .bare tag => tag
  | .text tag _ => tag

def AreSound (attributes : List (String × String)) : Prop := ∀ a ∈ attributes, isName a.1.toList = true ∧ IsPlain a.2

theorem areSound_append {as bs : List (String × String)} : AreSound (as ++ bs) ↔ AreSound as ∧ AreSound bs :=
  List.forall_mem_append

theorem isPlain_coordinate (x : Float) : IsPlain (coordinate x) := isPlain_fixed 2 x

theorem areSound_stroke (color : Color Float) (width : Float) : AreSound (stroke color width) := by
  unfold stroke
  split
  · simp +decide [AreSound, isPlain_toCss, isPlain_plain]
  · exact fun _ ha => nomatch ha

theorem isSound_ofLine (l : Line Float) : IsSound (ofLine l).tag where
  name := (by decide : isName "line".toList = true)
  attributes := by simp +decide [ofLine, Leaf.tag, isPlain_toCss, isPlain_plain, isPlain_coordinate]

theorem isSound_ofRect (r : Rect Float) : IsSound (ofRect r).tag where
  name := (by decide : isName "rect".toList = true)
  attributes := by
    refine areSound_append.2 ⟨?_, areSound_stroke _ _⟩
    simp +decide [AreSound, isPlain_toCss, isPlain_coordinate]

theorem isSound_ofCircle (c : Circle Float) : IsSound (ofCircle c).tag where
  name := (by decide : isName "circle".toList = true)
  attributes := by
    refine areSound_append.2 ⟨?_, areSound_stroke _ _⟩
    simp +decide [AreSound, isPlain_toCss, isPlain_coordinate]

theorem isSound_ofPolygon (p : Polygon Float) : IsSound (ofPolygon p).tag where
  name := (by decide : isName "polygon".toList = true)
  attributes := by
    have hpoints : IsPlain (" ".intercalate (p.points.map fun q => coordinate q.1 ++ "," ++ coordinate q.2)) := by
      refine isPlain_intercalate (by decide) fun t ht => ?_
      obtain ⟨q, -, rfl⟩ := List.mem_map.1 ht
      simp +decide [isPlain_coordinate]
    simp +decide [ofPolygon, Leaf.tag, isPlain_toCss, hpoints]

theorem isSound_ofLabel (l : Label Float) : IsSound (ofLabel l).tag where
  name := (by decide : isName "text".toList = true)
  attributes := by
    have hanchor : IsPlain (anchor l.align) := by cases l.align <;> exact (by decide)
    refine areSound_append.2 ⟨?_, ?_⟩
    · simp +decide [AreSound, isPlain_toCss, isPlain_plain, isPlain_coordinate, hanchor]
    · split
      · exact fun _ ha => nomatch ha
      · simp +decide [AreSound, isPlain_coordinate]

theorem isPlain_outline (w : Wedge Float) : IsPlain (outline w) := by
  unfold outline
  dsimp only
  split <;> split <;> simp +decide [isPlain_coordinate]

/-- A sector that is written is a circle or a path. -/
theorem ofWedge?_cases {w : Wedge Float} {leaf : Leaf} (h : ofWedge? w = some leaf) :
    leaf = ofCircle ⟨w.x, w.y, w.outer, w.fill, w.border, w.borderWidth⟩ ∨
      leaf = .bare ⟨"path", [("d", outline w), ("fill", w.fill.toCss)] ++ stroke w.border w.borderWidth⟩ := by
  unfold ofWedge? at h
  dsimp only at h
  split at h
  · cases h
  · split at h
    · exact .inl (Option.some.inj h).symm
    · exact .inr (Option.some.inj h).symm

theorem isSound_ofWedge? {w : Wedge Float} {leaf : Leaf} (h : ofWedge? w = some leaf) : IsSound leaf.tag := by
  obtain rfl | rfl := ofWedge?_cases h
  · exact isSound_ofCircle _
  · refine ⟨(by decide : isName "path".toList = true), areSound_append.2 ⟨?_, areSound_stroke _ _⟩⟩
    simp +decide [AreSound, isPlain_toCss, isPlain_outline]

/-- Every shape is written with a tag that reads back. -/
theorem isSound_ofShape? {s : Shape Float} {leaf : Leaf} (h : ofShape? s = some leaf) : IsSound leaf.tag := by
  cases s with
  | line l => exact Option.some.inj h ▸ isSound_ofLine l
  | rect r => exact Option.some.inj h ▸ isSound_ofRect r
  | circle c => exact Option.some.inj h ▸ isSound_ofCircle c
  | wedge w => exact isSound_ofWedge? h
  | polygon p => exact Option.some.inj h ▸ isSound_ofPolygon p
  | label l => exact Option.some.inj h ▸ isSound_ofLabel l

end Svg

end Whisker
