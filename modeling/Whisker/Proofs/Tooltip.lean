import Whisker.Proofs.Engine.Hover
import Whisker.Proofs.NumberText
import Whisker.Proofs.Scalar.Monotone

/-!
# What a tooltip shows

A tooltip has a piece for each axis that it shows: the value after a name, and behind it the two sides of an interval if
there is a bound on the axis. A side without a bound shows the value of the axis itself. For bars, lines and points this
is the value in front of the interval. A sector without a radial value shows `y` in front, and in the interval it shows
that there is none.
-/

namespace Whisker

open Scalar (nan)
open NumberText (spelled)

theorem spelled_nan : spelled (nan : Float) = "NaN" := rfl

/-- No other number is spelled like "not a number". -/
theorem spelled_eq_nan {x : Float} (h : spelled x = "NaN") : x = nan := by
  by_contra hnan
  rw [spelled, Binary.isNaN_eq_false hnan, if_neg Bool.false_ne_true] at h
  by_cases hinfinite : Scalar.isInfinite x = true
  · rw [if_pos hinfinite] at h
    split at h <;> exact absurd h (by decide)
  · rw [if_neg hinfinite] at h
    have hfinite : x.isFinite = true := by
      by_contra hx
      obtain rfl | rfl := (Binary.not_finite_cases (Bool.not_eq_true _ ▸ hx)).resolve_left hnan <;>
        exact hinfinite (by decide)
    split at h
    · exact absurd h (by decide)
    · obtain ⟨negative, body, d, htext⟩ := Binary.isText_plain hfinite
      have hmark : Numeral.isMark 'N' = true := Numeral.isMark_text htext 'N' (by
        change 'N' ∈ (NumberText.plain x).toList
        rw [h]
        decide)
      exact absurd hmark (by decide)

namespace Bounds

/-- There is a bound on one side and none on the other. -/
def IsOneSided {α : Type} (b : Bounds α) : Prop := b.lower.isSome ≠ b.upper.isSome

end Bounds

namespace Tooltip

variable {α : Type} [Scalar α] [NumberText α]

/-- A value that a tooltip shows of an axis, with the name in front of it. -/
structure Piece (α : Type) where
  axis : Axis
  name : Option String
  value : α

namespace Piece

def base (p : Piece α) : String := Tooltip.base p.name p.value

/-- The piece with the interval of bounds in brackets, if there are any; a side without a bound shows the given text. -/
def text (p : Piece α) (brackets : String × String) (b : Bounds α) (missing : String) : String :=
  if b.isEmpty then p.base
  else p.base ++ brackets.1 ++ (b.lower.elim missing (·.reversed.text) ++ " .. " ++ b.upper.elim missing Bound.text) ++
    brackets.2

/-- The text for a missing side is seen where just one side is missing. -/
theorem text_eq_iff (p : Piece α) (brackets : String × String) (b : Bounds α) (s t : String) :
    p.text brackets b s = p.text brackets b t ↔ (b.IsOneSided → s = t) := by
  obtain ⟨lower, upper⟩ := b
  cases lower <;> cases upper <;>
    simp [text, Bounds.isEmpty, Bounds.IsOneSided, String.append_assoc]

def own (p : Piece α) (d : Datum α) : String := spelled ((d.values.get p.axis).getD nan)

/-- The text of a bar is its base with the bounds of its axis in round brackets. -/
theorem bar_eq (p : Piece α) (d : Datum α) :
    Tooltip.bar p.base d p.axis = p.text (" (", ")") (d.bounds.get p.axis) (p.own d) := by
  unfold Tooltip.bar boundsText? Datum.hasBounds text
  cases (d.bounds.get p.axis).isEmpty <;> rfl

/-- The text of a bracketed axis is its base with the bounds in square brackets. -/
theorem bracketed_eq (p : Piece α) (d : Datum α) :
    Tooltip.bracketed p.base d p.axis = p.text (" [", "]") (d.bounds.get p.axis) (p.own d) := by
  unfold Tooltip.bracketed boundsText? Datum.hasBounds text
  cases (d.bounds.get p.axis).isEmpty <;> rfl

end Piece

end Tooltip

namespace ChartKind

open Tooltip (Piece)

variable {α : Type} [Scalar α] [NumberText α] (kind : ChartKind)

/-- What the tooltip for a datum of a dataset shows. -/
def pieces (c : Chart α) (s : Dataset α) (index : ℕ) (d : Datum α) : List (Piece α) :=
  match kind with
  | .bar => [⟨Layout.barValueAxis c, s.label, (d.values.get (Layout.barValueAxis c)).getD nan⟩]
  | .line => [⟨.y, s.label, d.values.y.getD nan⟩]
  | .scatter => [⟨.x, none, d.values.x.getD nan⟩, ⟨.y, none, d.values.y.getD nan⟩]
  | .polar => [⟨.r, c.categoryLabels[index]?, Dataset.radialValue d⟩]

def brackets : String × String :=
  match kind with
  | .bar | .line => (" (", ")")
  | .scatter | .polar => (" [", "]")

def joined (texts : List String) : String :=
  let all := ", ".intercalate texts
  if kind = .scatter then "(" ++ all ++ ")" else all

variable {c : Chart α} {ref : ElementRef} {s : Dataset α} {d : Datum α}

/-- A tooltip is made of the pieces of its chart, each with the bounds of its own axis. -/
theorem tooltip_eq (hs : c.datasets[ref.dataset]? = some s) (hd : s.data[ref.index]? = some d) :
    kind.tooltip c ref = .ok (kind.joined ((kind.pieces c s ref.index d).map fun p =>
      p.text kind.brackets (d.bounds.get p.axis) (p.own d))) := by
  have hdataset : c.dataset ref.dataset = .ok s := Chart.dataset_of_getElem? hs
  have hdatum : c.datum ref = .ok d := bind_eq_ok.2 ⟨s, hdataset, by rw [hd]⟩
  cases kind with
  | bar =>
    refine bind_eq_ok.2 ⟨d, hdatum, bind_eq_ok.2 ⟨s, hdataset, ?_⟩⟩
    exact congrArg Except.ok (Piece.bar_eq ⟨Layout.barValueAxis c, s.label, _⟩ d)
  | line =>
    refine bind_eq_ok.2 ⟨d, hdatum, bind_eq_ok.2 ⟨s, hdataset, ?_⟩⟩
    exact congrArg Except.ok (Piece.bar_eq ⟨.y, s.label, _⟩ d)
  | scatter =>
    refine bind_eq_ok.2 ⟨d, hdatum, ?_⟩
    have hjoin (x y : String) : "(" ++ x ++ ", " ++ y ++ ")" = joined .scatter [x, y] := by
      simp [joined, String.append_assoc]
    have hpieces := congrArg₂ (fun x y => "(" ++ x ++ ", " ++ y ++ ")")
      (Piece.bracketed_eq ⟨.x, none, d.values.x.getD nan⟩ d) (Piece.bracketed_eq ⟨.y, none, d.values.y.getD nan⟩ d)
    exact congrArg Except.ok (hpieces.trans (hjoin _ _))
  | polar =>
    refine bind_eq_ok.2 ⟨d, hdatum, ?_⟩
    exact congrArg Except.ok (Piece.bracketed_eq ⟨.r, c.categoryLabels[ref.index]?, _⟩ d)

omit [NumberText α] in
/-- A piece shows the value of its axis, but that of a sector without a radial value shows `y`. -/
theorem value_of_mem_pieces {p : Piece α} (hp : p ∈ kind.pieces c s ref.index d) :
    if kind = .polar ∧ d.values.r = none then p.axis = .r ∧ p.value = d.values.y.getD nan
    else p.value = (d.values.get p.axis).getD nan := by
  cases kind with
  | bar =>
    obtain rfl := List.mem_singleton.1 hp
    rfl
  | line =>
    obtain rfl := List.mem_singleton.1 hp
    rfl
  | scatter =>
    obtain rfl | hp := List.mem_cons.1 hp
    · rfl
    · obtain rfl := List.mem_singleton.1 hp
      rfl
  | polar =>
    obtain rfl := List.mem_singleton.1 hp
    cases hr : d.values.r <;> simp [Dataset.radialValue, PerAxis.get, hr]

/-- The tooltip of every record shows each of its axes by the base label, and by the interval of its bounds if it has one. A
side without a bound shows the value of the base label, except in a sector that shows `y` there for want of a radial value. -/
theorem missing_side_shows_value_iff (kind : ChartKind) {c : Chart Float} {ref : ElementRef} {s : Dataset Float}
    {d : Datum Float} (hs : c.datasets[ref.dataset]? = some s) (hd : s.data[ref.index]? = some d) :
    kind.tooltip c ref = .ok (kind.joined ((kind.pieces c s ref.index d).map fun p =>
        p.text kind.brackets (d.bounds.get p.axis) (p.own d))) ∧
      ∀ p ∈ kind.pieces c s ref.index d,
        ((d.bounds.get p.axis).isEmpty = true → p.text kind.brackets (d.bounds.get p.axis) (p.own d) = p.base) ∧
        (p.text kind.brackets (d.bounds.get p.axis) (p.own d) =
            p.text kind.brackets (d.bounds.get p.axis) (spelled p.value) ↔
          ¬(kind = .polar ∧ d.values.r = none ∧ d.values.y.getD nan ≠ nan ∧ d.bounds.r.IsOneSided)) := by
  refine ⟨kind.tooltip_eq hs hd, fun p hp => ⟨fun hempty => if_pos hempty, ?_⟩⟩
  have hvalue := kind.value_of_mem_pieces hp
  rw [p.text_eq_iff]
  split at hvalue
  · rename_i hsector
    obtain ⟨hpolar, hr⟩ := hsector
    obtain ⟨haxis, hvalue⟩ := hvalue
    -- The axis has no value, which is spelled like no number.
    have hown : p.own d = "NaN" := by
      rw [Piece.own, haxis]
      exact congrArg (fun v => spelled (v.getD nan)) hr
    have hspelled : "NaN" = spelled p.value ↔ d.values.y.getD nan = nan := by
      rw [hvalue]
      refine ⟨fun h => spelled_eq_nan h.symm, fun h => ?_⟩
      rw [h, spelled_nan]
    have hbounds : d.bounds.get p.axis = d.bounds.r := haxis ▸ rfl
    rw [hown, hspelled, hbounds]
    tauto
  · rename_i hother
    exact iff_of_true (fun _ => hvalue ▸ rfl) fun h => hother ⟨h.1, h.2.1⟩

def ofDatum (name : String) (d : Datum Float) : Chart Float := ⟨name, ["a"], [.ofData [d]], .default⟩

def leaningPoint : Datum Float := (Datum.ofXY 2 3).setLower .x (.stack [1, 0.5])

theorem leaning_point_shows_its_value :
    scatter.tooltip (ofDatum "scatterWithErrorBars" leaningPoint) ⟨0, 0⟩ = .ok "(2 [0.5,1 .. 2], 3)" ∧
      ∀ p ∈ scatter.pieces (ofDatum "scatterWithErrorBars" leaningPoint) (.ofData [leaningPoint]) 0 leaningPoint,
        p.text (" [", "]") (leaningPoint.bounds.get p.axis) (p.own leaningPoint) =
          p.text (" [", "]") (leaningPoint.bounds.get p.axis) (spelled p.value) := by
  have hs : (ofDatum "scatterWithErrorBars" leaningPoint).datasets[(⟨0, 0⟩ : ElementRef).dataset]? =
    some (.ofData [leaningPoint]) := rfl
  have hd : (Dataset.ofData [leaningPoint]).data[(⟨0, 0⟩ : ElementRef).index]? = some leaningPoint := rfl
  obtain ⟨htext, hpieces⟩ := missing_side_shows_value_iff scatter hs hd
  refine ⟨htext.trans ?_, fun p hp => (hpieces p hp).2.2 fun h => nomatch h.1⟩
  decide

def borrowingSector : Datum Float := (Datum.ofY 5).setUpper .r (.single 6)

theorem borrowed_value_is_missing :
    Tooltip.base (some "a") (Dataset.radialValue borrowingSector) = "a: 5" ∧
      polar.tooltip (ofDatum "polarAreaWithErrorBars" borrowingSector) ⟨0, 0⟩ = .ok "a: 5 [NaN .. 6]" := by
  constructor <;> decide

end ChartKind

end Whisker
