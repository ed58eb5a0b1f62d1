import Whisker.Proofs.Scalar.Rational
import Whisker.Proofs.Text.Pieces
import Whisker.Series

/-!
# Entries of a series

Each line that is not empty makes one entry, whatever it holds, so a text that is put together of two has the entries of
both. A line that is written as a label and fields is read as they are; a field that it lacks counts as "not a number".

In exact arithmetic a value of a series is rounded to the hundredth that is nearest to it after a nudge, to the upper
one of two. Rounding keeps the order, so a value lies between the ends of its error bar, unless the value is "not a
number": then the ends are not, either.
-/

namespace Whisker.Series

open Scalar (nan)

theorem lines_eq (text : List Char) : lines text = ((text.splitOn '\n').filter (· ≠ [])).map (Text.split ' ') := by
  unfold lines
  rw [Text.split_eq_splitOn]
  congr 2
  funext line
  cases line <;> rfl

/-- A line end separates the lines before it from those behind it. -/
theorem lines_separated (a b : List Char) : lines (a ++ '\n' :: b) = lines a ++ lines b := by
  unfold lines
  rw [Text.split_separated, List.filter_append, List.map_append]

/-- Lines without line ends are found again, except for empty ones. -/
theorem lines_intercalate {ls : List (List Char)} (h : ∀ line ∈ ls, line ≠ [] ∧ '\n' ∉ line) :
    lines (['\n'].intercalate ls) = ls.map (Text.split ' ') := by
  cases ls with
  | nil => rfl
  | cons line ls =>
    unfold lines
    rw [Text.split_intercalate (fun line hline => (h line hline).2) (List.cons_ne_nil _ _), List.filter_eq_self.2]
    intro line hline
    simp [(h line hline).1]

/-- What a line is written from: a label, and fields that follow behind single spaces. -/
structure Row where
  label : String
  fields : List String

namespace Row

def pieces (r : Row) : List String := r.label :: r.fields

def line (r : Row) : String := " ".intercalate r.pieces

/-- No separator is in the label or a field, and the line is not empty. -/
structure IsPlain (r : Row) : Prop where
  free : ∀ piece ∈ r.pieces, ' ' ∉ piece.toList ∧ '\n' ∉ piece.toList
  nonempty : r.line ≠ ""

instance (r : Row) : Decidable r.IsPlain :=
  decidable_of_iff ((∀ piece ∈ r.pieces, ' ' ∉ piece.toList ∧ '\n' ∉ piece.toList) ∧ r.line ≠ "")
    ⟨fun h => ⟨h.1, h.2⟩, fun h => ⟨h.free, h.nonempty⟩⟩

variable {r : Row}

theorem toList_line (r : Row) : r.line.toList = [' '].intercalate (r.pieces.map String.toList) := String.toList_intercalate

theorem IsPlain.split_line (h : r.IsPlain) : Text.split ' ' r.line.toList = r.pieces.map String.toList := by
  rw [toList_line]
  refine Text.split_intercalate (fun cs hcs => ?_) (by simp [pieces])
  obtain ⟨piece, hpiece, rfl⟩ := List.mem_map.1 hcs
  exact (h.free piece hpiece).1

theorem IsPlain.is_line (h : r.IsPlain) : r.line.toList ≠ [] ∧ '\n' ∉ r.line.toList := by
  refine ⟨fun hnil => h.nonempty (String.toList_eq_nil_iff.1 hnil), fun hmem => ?_⟩
  rw [toList_line] at hmem
  obtain hmem | ⟨cs, hcs, hmem⟩ := Text.mem_intercalate hmem
  · exact absurd hmem (by decide)
  · obtain ⟨piece, hpiece, rfl⟩ := List.mem_map.1 hcs
    exact (h.free piece hpiece).2 hmem

/-- Plain rows, one on each line, are cut into their pieces again. -/
theorem lines_rows {rows : List Row} (h : ∀ r ∈ rows, r.IsPlain) :
    lines ("\n".intercalate (rows.map line)).toList = rows.map fun r => r.pieces.map String.toList := by
  rw [String.toList_intercalate, List.map_map]
  have hlines : ∀ cs ∈ rows.map (String.toList ∘ line), cs ≠ [] ∧ '\n' ∉ cs := by
    intro cs hcs
    obtain ⟨r, hr, rfl⟩ := List.mem_map.1 hcs
    exact (h r hr).is_line
  rw [show "\n".toList = ['\n'] from rfl, lines_intercalate hlines, List.map_map]
  exact List.map_congr_left fun r hr => (h r hr).split_line

end Row

variable {α : Type} [Scalar α] [NumberText α]

def rounded (value lower upper : α) : Datum α :=
  (Datum.ofY (roundPlaces value places)).setBounds .y (.single (roundPlaces lower places))
    (.single (roundPlaces upper places))

def Row.number (scale : α) (r : Row) (k : ℕ) : α :=
  (r.fields[k]?.elim nan fun s => Numeral.leading s.toList) * scale

/-- The first field is the value, the second and the third say how far the error bar goes up and down. -/
def Row.datum (errorBars : Bool) (scale : α) (r : Row) : Datum α :=
  let value := r.number scale 0
  if errorBars then rounded value (value - r.number scale 2) (value + r.number scale 1) else .ofY value

def entry (errorBars : Bool) (scale : α) (fields : List (List Char)) : String × Datum α :=
  (labelOf fields, if errorBars then barDatum scale fields else plainDatum scale fields)

variable (errorBars : Bool) (scale : α)

/-- Each line makes one entry. -/
theorem entries_parse (text : String) :
    (parse errorBars scale text).entries = (lines text.toList).map (entry errorBars scale) := rfl

theorem field_pieces (r : Row) (k : ℕ) : field (r.pieces.map String.toList) (k + 1) * scale = r.number scale k := by
  unfold field Row.pieces Row.number
  rw [List.map_cons, List.getElem?_cons_succ, List.getElem?_map]
  cases r.fields[k]? <;> rfl

/-- A row is read as its label and its datum. -/
theorem entry_pieces (r : Row) :
    entry errorBars scale (r.pieces.map String.toList) = (r.label, r.datum errorBars scale) := by
  have hlabel : labelOf (r.pieces.map String.toList) = r.label := String.ofList_toList
  unfold entry Row.datum barDatum plainDatum rounded
  simp only [hlabel, field_pieces]

/-- A text has one entry for each line that is not empty, with what stands before the first space as its label; the entries
of two texts that a line end separates are those of the one and those of the other; and rows come back from their lines. -/
theorem parse_by_lines :
    (∀ text : String, (parse errorBars scale text).data.length = (parse errorBars scale text).labels.length ∧
      (parse errorBars scale text).labels =
        ((text.toList.splitOn '\n').filter (· ≠ [])).map fun line => String.ofList (line.takeWhile (· ≠ ' '))) ∧
    (∀ a b : String, (parse errorBars scale (a ++ "\n" ++ b)).entries =
      (parse errorBars scale a).entries ++ (parse errorBars scale b).entries) ∧
    ∀ rows : List Row, (∀ r ∈ rows, r.IsPlain) →
      (parse errorBars scale ("\n".intercalate (rows.map Row.line))).entries =
        rows.map fun r => (r.label, r.datum errorBars scale) := by
  refine ⟨fun text => ⟨(length_labels _).symm, ?_⟩, fun a b => ?_, fun rows h => ?_⟩
  · rw [labels, entries_parse, lines_eq, List.map_map, List.map_map]
    refine List.map_congr_left fun line _ => ?_
    exact congrArg String.ofList (Text.headD_split line)
  · simp only [entries_parse, String.toList_append, List.append_assoc]
    rw [← List.map_append, ← lines_separated]
    rfl
  · rw [entries_parse, Row.lines_rows h, List.map_map]
    exact List.map_congr_left fun r _ => entry_pieces errorBars scale r

def sparseRows : List Row := [⟨"", ["7"]⟩, ⟨"c1", []⟩, ⟨"c2", ["10", "", "1"]⟩]

theorem sparse_rows_come_back :
    (∀ r ∈ sparseRows, r.IsPlain) ∧ "\n".intercalate (sparseRows.map Row.line) = " 7\nc1\nc2 10  1" ∧
      (parse true (1 : Float) " 7\nc1\nc2 10  1").entries = sparseRows.map fun r => (r.label, r.datum true 1) := by
  have hplain : ∀ r ∈ sparseRows, r.IsPlain := by decide
  have htext : "\n".intercalate (sparseRows.map Row.line) = " 7\nc1\nc2 10  1" := by decide
  exact ⟨hplain, htext, htext ▸ (parse_by_lines true (1 : Float)).2.2 sparseRows hplain⟩

open Exact
open Scalar (isSize)

/-- How much a number is raised before it is rounded. -/
def nudge : ℚ := 1 / 4503599627370496

theorem roundUp_finite (p : ℚ) : roundUp (finite p) = finite (round p) := by
  have hone : (1 : Exact) = finite 1 := by simp
  unfold roundUp
  simp only [isFinite_finite, Bool.not_true, Bool.false_eq_true, if_false, finite_floor, finite_sub, half_eq, finite_le,
    hone, finite_add]
  rw [round_eq]
  split
  · rename_i hhalf
    have hfloor : ⌊p + 1 / 2⌋ = ⌊p⌋ + 1 := by
      rw [Int.floor_eq_iff]
      push_cast
      constructor <;> linarith [Int.lt_floor_add_one p]
    rw [hfloor]
    push_cast
    rfl
  · rename_i hhalf
    have hfloor : ⌊p + 1 / 2⌋ = ⌊p⌋ := by
      rw [Int.floor_eq_iff]
      constructor <;> linarith [Int.floor_le p]
    rw [hfloor]

theorem roundPlaces_finite (p : ℚ) : roundPlaces (finite p) 2 = finite (round ((p + nudge) * 100) / 100) := by
  have hepsilon : (Scalar.epsilon : Exact) = finite nudge := by decide +kernel
  have hpower : Scalar.powInt (10 : Exact) 2 = finite 100 := by decide +kernel
  unfold roundPlaces
  simp only [hepsilon, hpower, finite_add, finite_mul, roundUp_finite]
  rw [finite_div _ (by norm_num)]

theorem roundPlaces_infinite (negative : Bool) : roundPlaces (infinite negative) 2 = infinite negative := by
  cases negative <;> decide +kernel

theorem roundPlaces_notANumber : roundPlaces notANumber 2 = notANumber := by decide +kernel

example : roundPlaces (1.005 : Exact) 2 = 1.01 ∧ roundPlaces (-1.005 : Exact) 2 = -1 := by decide +kernel

/-- Of the hundredths none is nearer to the number, and of two as near this is the upper one. -/
structure IsNearestUp (x : ℚ) (k : ℤ) : Prop where
  nearest : ∀ j : ℤ, |x - k / 100| ≤ |x - j / 100|
  upper : ∀ j : ℤ, |x - j / 100| = |x - k / 100| → j ≤ k

theorem distance_hundredth (x : ℚ) (j : ℤ) : |x - j / 100| = |x * 100 - j| / 100 := by
  rw [← abs_of_pos (by norm_num : (0 : ℚ) < 100), ← abs_div, abs_of_pos (by norm_num : (0 : ℚ) < 100)]
  congr 1
  ring

theorem isNearestUp_round (x : ℚ) : IsNearestUp x (round (x * 100)) where
  nearest j := by
    rw [distance_hundredth, distance_hundredth]
    exact div_le_div_of_nonneg_right (round_le _ j) (by norm_num)
  upper j h := by
    rw [distance_hundredth, distance_hundredth, div_left_inj' (by norm_num)] at h
    -- The distance to the nearest one is a half at most, so this one is not above the number and a half.
    have hhalf := abs_sub_round (x * 100)
    rw [← h] at hhalf
    rw [round_eq, Int.le_floor]
    linarith [(abs_le.1 hhalf).1]

theorem round_mono {p q : ℚ} (h : p ≤ q) : round p ≤ round q := by
  rw [round_eq, round_eq]
  exact Int.floor_mono (by linarith)

/-- Rounding keeps the order, infinities included. -/
theorem roundPlaces_mono {x y : Exact} (h : x ≤ y) : roundPlaces x 2 ≤ roundPlaces y 2 := by
  match x, y with
  | finite p, finite q =>
    have hround : round ((p + nudge) * 100) ≤ round ((q + nudge) * 100) := round_mono (by linarith [finite_le.1 h])
    have hround : (round ((p + nudge) * 100) : ℚ) ≤ round ((q + nudge) * 100) := by exact_mod_cast hround
    rw [roundPlaces_finite, roundPlaces_finite, finite_le]
    linarith
  | finite p, infinite n =>
    rw [roundPlaces_finite, roundPlaces_infinite]
    exact h
  | infinite n, finite q =>
    rw [roundPlaces_infinite, roundPlaces_finite]
    exact h
  | infinite m, infinite n => rwa [roundPlaces_infinite, roundPlaces_infinite]

/-- Rounding a second time changes nothing. -/
theorem roundPlaces_roundPlaces (x : Exact) : roundPlaces (roundPlaces x 2) 2 = roundPlaces x 2 := by
  match x with
  | finite p =>
    have hround (k : ℤ) : round ((k / 100 + nudge) * 100) = k := by
      rw [round_eq, Int.floor_eq_iff]
      unfold nudge
      constructor <;> linarith
    rw [roundPlaces_finite, roundPlaces_finite, hround]
  | infinite n => rw [roundPlaces_infinite, roundPlaces_infinite]
  | notANumber => rw [roundPlaces_notANumber, roundPlaces_notANumber]

theorem abs_rounded_sub_le (p : ℚ) : |(round ((p + nudge) * 100) / 100 : ℚ) - p| ≤ 1 / 200 + nudge := by
  have hround := abs_le.1 (abs_sub_round ((p + nudge) * 100))
  have hnudge : (0 : ℚ) < nudge := by norm_num [nudge]
  rw [abs_le]
  constructor <;> linarith

def IsOrdered (d : Datum Exact) : Prop :=
  ∃ low y high, d.values.get .y = some y ∧ d.bounds.get .y = ⟨some (.single low), some (.single high)⟩ ∧
    low ≤ y ∧ y ≤ high

theorem exists_of_isSize {x : Exact} (h : isSize x = true) : ∃ p : ℚ, x = finite p ∧ 0 ≤ p := by
  obtain ⟨hfinite, hsign⟩ := Bool.and_eq_true_iff.1 h
  obtain ⟨p, rfl⟩ := exists_finite hfinite
  refine ⟨p, rfl, ?_⟩
  simpa using hsign

theorem le_add_finite {x : Exact} (hx : x ≠ notANumber) {p : ℚ} (hp : 0 ≤ p) : x ≤ x + finite p := by
  cases x with
  | finite v => simpa using hp
  | infinite n => cases n <;> rfl
  | notANumber => exact absurd rfl hx

theorem sub_finite_le {x : Exact} (hx : x ≠ notANumber) {p : ℚ} (hp : 0 ≤ p) : x - finite p ≤ x := by
  cases x with
  | finite v => simpa using hp
  | infinite n => cases n <;> rfl
  | notANumber => exact absurd rfl hx

/-- A value with sizes up and down lies between the ends of its error bar, also when all three are rounded. -/
theorem isOrdered_rounded {value plus minus : Exact} (hvalue : value ≠ notANumber) (hplus : isSize plus = true)
    (hminus : isSize minus = true) : IsOrdered (rounded value (value - minus) (value + plus)) := by
  obtain ⟨p, rfl, hp⟩ := exists_of_isSize hplus
  obtain ⟨m, rfl, hm⟩ := exists_of_isSize hminus
  exact ⟨_, _, _, rfl, rfl, roundPlaces_mono (sub_finite_le hvalue hm), roundPlaces_mono (le_add_finite hvalue hp)⟩

/-- What is not a number has no ends, either. -/
def lost : Datum Exact := (Datum.ofY nan).setBounds .y (.single nan) (.single nan)

/-- A value that is "not a number" takes the ends of its error bar with it. -/
theorem rounded_nan {plus minus : Exact} : rounded nan (nan - minus) (nan + plus) = lost := by
  have hsub : (nan : Exact) - minus = nan := rfl
  have hadd : (nan : Exact) + plus = nan := rfl
  have hround : roundPlaces (nan : Exact) places = nan := roundPlaces_notANumber
  unfold rounded lost
  rw [hsub, hadd, hround]

/-- Rounding takes the hundredth nearest to the nudged number, of two the upper one, so it keeps the order, changes nothing
when it is repeated and moves a number by half a hundredth and the nudge at most. Where the second and the third field of a
line are sizes, the value lies between the ends of its error bar or is not a number, and then none of the three is. -/
theorem rounding_keeps_bars_ordered :
    (∀ v : ℚ, ∃ k : ℤ, roundPlaces (finite v) 2 = finite (k / 100) ∧ IsNearestUp (v + nudge) k ∧
      |(k / 100 : ℚ) - v| ≤ 1 / 200 + nudge) ∧
    (∀ x y : Exact, x ≤ y → roundPlaces x 2 ≤ roundPlaces y 2) ∧
    (∀ x : Exact, roundPlaces (roundPlaces x 2) 2 = roundPlaces x 2) ∧
    ∀ (scale : Exact) (text : String), List.Forall₂ (fun fields d => isSize (field fields 2 * scale) = true →
        isSize (field fields 3 * scale) = true →
          (field fields 1 * scale ≠ nan → IsOrdered d) ∧ (field fields 1 * scale = nan → d = lost))
      (lines text.toList) (parse true scale text).data := by
  refine ⟨fun v => ⟨_, roundPlaces_finite v, isNearestUp_round _, abs_rounded_sub_le v⟩, fun x y => roundPlaces_mono,
    roundPlaces_roundPlaces, fun scale text => ?_⟩
  rw [data, entries_parse, List.map_map, List.forall₂_map_right_iff, List.forall₂_same]
  intro fields _ hplus hminus
  refine ⟨fun hvalue => isOrdered_rounded hvalue hplus hminus, fun hvalue => ?_⟩
  change rounded (field fields 1 * scale) _ _ = lost
  rw [hvalue]
  exact rounded_nan

def milliseconds : List (List Char) := ["c1".toList, "-1235".toList, "0".toList, "20".toList]

def unread : List (List Char) := ["a".toList, "x".toList, "1".toList, "1".toList]

theorem scaled_bar_is_ordered :
    ((0.004 : Exact) ≤ 0.005 ∧ roundPlaces (0.004 : Exact) 2 ≤ roundPlaces 0.005 2) ∧
    (isSize (field milliseconds 2 * (0.001 : Exact)) = true ∧ isSize (field milliseconds 3 * (0.001 : Exact)) = true ∧
      field milliseconds 1 * (0.001 : Exact) ≠ nan ∧ IsOrdered (barDatum 0.001 milliseconds)) ∧
    isSize (field unread 2 * (0.001 : Exact)) = true ∧ isSize (field unread 3 * (0.001 : Exact)) = true ∧
      field unread 1 * (0.001 : Exact) = nan ∧ barDatum (0.001 : Exact) unread = lost := by
  have hle : (0.004 : Exact) ≤ 0.005 := by decide +kernel
  have hplus : isSize (field milliseconds 2 * (0.001 : Exact)) = true := by decide +kernel
  have hminus : isSize (field milliseconds 3 * (0.001 : Exact)) = true := by decide +kernel
  have hvalue : field milliseconds 1 * (0.001 : Exact) ≠ nan := by decide +kernel
  have hup : isSize (field unread 2 * (0.001 : Exact)) = true := by decide +kernel
  have hdown : isSize (field unread 3 * (0.001 : Exact)) = true := by decide +kernel
  have hnan : field unread 1 * (0.001 : Exact) = nan := by decide +kernel
  have hlines : lines "c1 -1235 0 20\na x 1 1".toList = [milliseconds, unread] := by decide
  obtain ⟨-, hmono, -, hall⟩ := rounding_keeps_bars_ordered
  have hall := hall 0.001 "c1 -1235 0 20\na x 1 1"
  rw [data, entries_parse, hlines] at hall
  obtain _ | ⟨hbar, _ | ⟨hlost, -⟩⟩ := hall
  exact ⟨⟨hle, hmono _ _ hle⟩, ⟨hplus, hminus, hvalue, (hbar hplus hminus).1 hvalue⟩, hup, hdown, hnan,
    (hlost hup hdown).2 hnan⟩

/-- A value that is no number lies between nothing, although both sizes are read. -/
theorem unread_value_is_not_ordered :
    lines "a x 1 1".toList = [unread] ∧ isSize (field unread 2 * (1 : Exact)) = true ∧
      isSize (field unread 3 * (1 : Exact)) = true ∧ (parse true (1 : Exact) "a x 1 1").data = [lost] ∧
      ¬IsOrdered lost := by
  have hlines : lines "a x 1 1".toList = [unread] := by decide
  have hvalue : field unread 1 * (1 : Exact) = nan := by decide +kernel
  refine ⟨hlines, by decide +kernel, by decide +kernel, ?_, ?_⟩
  · rw [data, entries_parse, hlines]
    change [rounded (field unread 1 * (1 : Exact)) _ _] = [lost]
    rw [hvalue]
    exact congrArg (fun d => [d]) rounded_nan
  · rintro ⟨low, y, high, hy, -, hle, -⟩
    cases hy
    cases low <;> cases hle

end Whisker.Series
