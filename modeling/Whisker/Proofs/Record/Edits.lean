import Whisker.Proofs.Extent.Hull
import Whisker.Proofs.Scalar.Zeros

/-!
# The reach of a record that is edited

A record starts with values alone; then values are set and bounds are attached, in any order. The reach of an axis is
kept beside its value. It is taken anew with bounds and, as long as an axis has none, with a value. So a side with a
bound always ends at the outermost entry of it; a side without one ends at the value that the axis had when the other
side was attached, which a value set later leaves behind.
-/

namespace Whisker

open Scalar (nan inf isNaN)
open Binary (place)

/-- The number that comes first of all in an order. It is "not a number" if one of them is, and a given limit if there are
none. -/
def IsFirst (R : Float → Float → Prop) (limit : Float) (vs : List Float) (x : Float) : Prop :=
  (nan ∈ vs ∧ x = nan) ∨ (vs = [] ∧ x = limit) ∨ (nan ∉ vs ∧ x ∈ vs ∧ ∀ v ∈ vs, R x v)

/-- A first number stays first for any order that follows from the given one. -/
theorem IsFirst.imp {R S : Float → Float → Prop} {limit x : Float} {vs : List Float} (h : IsFirst R limit vs x)
    (hRS : ∀ {u v}, u ≠ nan → v ≠ nan → R u v → S u v) : IsFirst S limit vs x := by
  obtain h | h | ⟨hnan, hmem, hfirst⟩ := h
  · exact .inl h
  · exact .inr (.inl h)
  · have hne : ∀ v ∈ vs, v ≠ nan := fun v hv => ne_of_mem_of_not_mem hv hnan
    exact .inr (.inr ⟨hnan, hmem, fun v hv => hRS (hne x hmem) (hne v hv) (hfirst v hv)⟩)

/-- What is picked from two numbers, and "not a number" if one of them is that. -/
def orNaN (pick : Float → Float → Float) (u v : Float) : Float := if isNaN u || isNaN v then nan else pick u v

section

variable {γ : Type} [LinearOrder γ] {key : Float → γ} (pick : Float → Float → Float) {start : Float} {vs : List Float}

theorem orNaN_eq {u v : Float} (hu : u ≠ nan) (hv : v ≠ nan) : orNaN pick u v = pick u v := by
  rw [orNaN, Binary.isNaN_eq_false hu, Binary.isNaN_eq_false hv]
  rfl

/-- "Not a number" spoils all that comes after it. -/
theorem foldl_from_nan : vs.foldl (orNaN pick) nan = nan := by
  induction vs with
  | nil => rfl
  | cons v vs ih => exact ih

theorem foldl_of_nan_mem (h : nan ∈ vs) : vs.foldl (orNaN pick) start = nan := by
  induction vs generalizing start with
  | nil => cases h
  | cons v vs ih =>
    rw [List.foldl_cons]
    rcases List.mem_cons.1 h with rfl | h
    · have hstep : orNaN pick start nan = nan := if_pos (Bool.or_true _)
      rw [hstep, foldl_from_nan]
    · exact ih h

/-- Without such an entry the choice leads to the first in order. -/
theorem isFirst_foldl (hne : start ≠ nan) (hstart : ∀ {v}, v ≠ nan → pick start v = v)
    (hpick : ∀ {u v}, u ≠ nan → v ≠ nan → pick u v = lesser key u v) :
    IsFirst (fun u v => key u ≤ key v) start vs (vs.foldl (orNaN pick) start) := by
  by_cases hnan : nan ∈ vs
  · exact .inl ⟨hnan, foldl_of_nan_mem pick hnan⟩
  · have hvs : ∀ v ∈ vs, v ≠ nan := fun v hv => ne_of_mem_of_not_mem hv hnan
    have hmem {t : Float} (ht : t ∈ vs) :
        vs.foldl (orNaN pick) start ∈ vs ∧ key (vs.foldl (orNaN pick) start) ≤ key t :=
      foldl_lesser_mem (fun {u v} hu hv => (orNaN_eq pick hu hv).trans (hpick hu hv))
        (fun {v} hv => (orNaN_eq pick hne hv).trans (hstart hv)) hvs ht
    cases vs with
    | nil => exact .inr (.inl ⟨rfl, rfl⟩)
    | cons v vs => exact .inr (.inr ⟨hnan, (hmem List.mem_cons_self).1, fun t ht => (hmem ht).2⟩)

end

namespace Bound

theorem isFirst_least (b : Bound Float) : IsFirst (· ≤ ·) inf b.entries b.least := by
  suffices h : IsFirst (fun u v => place u ≤ place v) inf b.entries b.least from
    h.imp fun hu hv => (Binary.le_iff_place hu hv).2
  refine isFirst_foldl Scalar.min (by decide) (fun {v} hv => ?_) (fun {u v} hu hv => ?_)
  · by_cases h : v < inf
    · exact if_pos h
    · exact (if_neg h).trans ((Binary.eq_of_not_lt_inf h).resolve_left hv).symm
  · rw [Scalar.min, Binary.isNaN_eq_false hu, if_neg Bool.false_ne_true]
    simp only [lesser, Binary.lt_iff_place hv hu]

theorem isFirst_greatest (b : Bound Float) : IsFirst (· ≥ ·) (-inf) b.entries b.greatest := by
  suffices h : IsFirst (fun u v => (OrderDual.toDual ∘ place) u ≤ (OrderDual.toDual ∘ place) v) (-inf) b.entries b.greatest from
    h.imp fun hu hv => (Binary.le_iff_place hv hu).2
  refine isFirst_foldl Scalar.max (by decide) (fun {v} hv => ?_) (fun {u v} hu hv => ?_)
  · by_cases h : -inf < v
    · exact if_pos h
    · exact (if_neg h).trans (Binary.eq_of_not_negInf_lt hv h).symm
  · rw [Scalar.max, Binary.isNaN_eq_false hu, if_neg Bool.false_ne_true]
    simp only [lesser, Function.comp_apply, OrderDual.toDual_lt_toDual, Binary.lt_iff_place hu hv]

end Bound

namespace Reach

/-- A side with a bound ends at the outermost entry of it. -/
structure EndsAtBounds (e : Reach Float) : Prop where
  lower : ∀ s, e.bounds.lower = some s → IsFirst (· ≤ ·) inf s.entries e.lowest
  upper : ∀ s, e.bounds.upper = some s → IsFirst (· ≥ ·) (-inf) s.entries e.highest

/-- And a side without one ends at the value. -/
structure Fits (e : Reach Float) (v : Float) : Prop where
  bounds : e.EndsAtBounds
  noLower : e.bounds.lower = none → e.lowest = v
  noUpper : e.bounds.upper = none → e.highest = v

theorem endsAtBounds_around (v : Float) (b : Bounds Float) : (Reach.around v b).EndsAtBounds where
  lower s hs := by
    have hlowest : (Reach.around v b).lowest = s.least := congrArg (·.elim v Bound.least) hs
    rw [hlowest]
    exact s.isFirst_least
  upper s hs := by
    have hhighest : (Reach.around v b).highest = s.greatest := congrArg (·.elim v Bound.greatest) hs
    rw [hhighest]
    exact s.isFirst_greatest

/-- A value other than the one that a reach is taken around fits it only where the value is not used. -/
theorem around_fits_iff (v w : Float) (b : Bounds Float) :
    (Reach.around v b).Fits w ↔ (b.lower.isSome = true ∧ b.upper.isSome = true) ∨ v = w := by
  constructor
  · intro h
    cases hlower : b.lower with
    | none =>
      have hlowest : (Reach.around v b).lowest = v := congrArg (·.elim v Bound.least) hlower
      exact .inr (hlowest.symm.trans (h.noLower hlower))
    | some s =>
      cases hupper : b.upper with
      | none =>
        have hhighest : (Reach.around v b).highest = v := congrArg (·.elim v Bound.greatest) hupper
        exact .inr (hhighest.symm.trans (h.noUpper hupper))
      | some t => exact .inl ⟨rfl, rfl⟩
  · rintro (⟨hlower, hupper⟩ | rfl)
    · obtain ⟨s, hs⟩ := Option.isSome_iff_exists.1 hlower
      obtain ⟨t, ht⟩ := Option.isSome_iff_exists.1 hupper
      refine ⟨endsAtBounds_around v b, fun hnone => ?_, fun hnone => ?_⟩
      · cases hnone.symm.trans hs
      · cases hnone.symm.trans ht
    · exact ⟨endsAtBounds_around v b, fun hnone => congrArg (·.elim v Bound.least) hnone,
        fun hnone => congrArg (·.elim v Bound.greatest) hnone⟩

end Reach

theorem Bounds.eq_empty_of_isEmpty {α : Type} {b : Bounds α} (h : b.isEmpty = true) : b = .empty := by
  obtain ⟨lower, upper⟩ := b
  cases lower <;> cases upper <;> first | rfl | cases h

namespace Record

section

variable {α : Type} {a b : Axis}

theorem reach_setValue_other (r : Record α) (hab : a ≠ b) (v : α) : (r.setValue b v).reach.get a = r.reach.get a := by
  rw [setValue]
  split
  · exact PerAxis.get_set_other _ hab _
  · rfl

/-- Without bounds the reach of an axis follows its value. -/
theorem reach_setValue_same (r : Record α) (a : Axis) (v : α) : (r.setValue a v).reach.get a =
    if (r.reach.get a).bounds.isEmpty then .central v else r.reach.get a := by
  rw [setValue]
  split
  · exact PerAxis.get_set_same _ _ _
  · rfl

inductive Edit (α : Type) where
  | setValue (a : Axis) (v : α)
  | attach (a : Axis) (d : Datum α)

def Edit.bounds? (a : Axis) : Edit α → Option (Bounds α)
  | .setValue _ _ => none
  | .attach b d => if b = a then some (d.bounds.get a) else none

/-- The bounds that were attached to an axis last; before that it has none. -/
def attached (a : Axis) (edits : List (Edit α)) : Bounds α := (edits.filterMap (Edit.bounds? a)).getLast?.getD .empty

/-- The bounds attached are those of the last edit that attached some. -/
theorem attached_concat (a : Axis) (edits : List (Edit α)) (e : Edit α) :
    attached a (edits ++ [e]) = (e.bounds? a).getD (attached a edits) := by
  unfold attached
  rw [List.filterMap_append]
  cases he : e.bounds? a <;> simp [he]

end

section

variable {α : Type} [Scalar α]

def edit (r : Record α) : Edit α → Record α
  | .setValue a v => r.setValue a v
  | .attach a d => r.attach a d

def edited (values : PerAxis α) (edits : List (Edit α)) : Record α := edits.foldl edit (ofValues values)

/-- The value that an axis had when bounds were attached to it last. -/
def valueAtAttach (a : Axis) (values : PerAxis α) (edits : List (Edit α)) : α :=
  (edited values (edits.rdropWhile fun e => (e.bounds? a).isNone)).values.get a

variable (values : PerAxis α) (edits : List (Edit α)) (e : Edit α) (a : Axis)

theorem edited_concat : edited values (edits ++ [e]) = (edited values edits).edit e := List.foldl_concat ..

/-- The value at the time of attaching is that of the last edit that attached some. -/
theorem valueAtAttach_concat : valueAtAttach a values (edits ++ [e]) =
    if (e.bounds? a).isNone then valueAtAttach a values edits else (edited values (edits ++ [e])).values.get a := by
  unfold valueAtAttach
  rw [List.rdropWhile_concat]
  split <;> rfl

/-- The value that the reach of an axis is taken around: the present one as long as there are no bounds, and then the one
that the bounds were attached to. -/
def pivot : α := if (attached a edits).isEmpty then (edited values edits).values.get a else valueAtAttach a values edits

/-- The reach of an axis is around its pivot. -/
def FollowsPivot : Prop := (edited values edits).reach.get a = .around (pivot values edits a) (attached a edits)

variable {values edits a}

/-- A value moves the pivot of its axis as long as there are no bounds, and nothing otherwise. -/
theorem FollowsPivot.setValue (h : FollowsPivot values edits a) (b : Axis) (v : α) :
    FollowsPivot values (edits ++ [.setValue b v]) a := by
  have hbounds : (Edit.setValue b v).bounds? a = none := rfl
  rw [FollowsPivot, pivot, valueAtAttach_concat, attached_concat, edited_concat]
  simp only [hbounds, Option.getD_none, Option.isNone_none, if_true]
  by_cases hab : a = b
  · subst hab
    have hvalue : ((edited values edits).edit (.setValue a v)).values.get a = v := PerAxis.get_set_same _ _ _
    have hreach := reach_setValue_same (edited values edits) a v
    rw [h] at hreach
    rw [hvalue]
    refine hreach.trans ?_
    by_cases hempty : (attached a edits).isEmpty = true
    · rw [Bounds.eq_empty_of_isEmpty hempty]
      rfl
    · rw [pivot, if_neg hempty, if_neg hempty]
      exact if_neg hempty
  · have hvalue : ((edited values edits).edit (.setValue b v)).values.get a = (edited values edits).values.get a :=
      PerAxis.get_set_other _ hab _
    rw [hvalue]
    exact (reach_setValue_other _ hab v).trans h

/-- Bounds are taken around the value that their axis has then. -/
theorem FollowsPivot.attach (h : FollowsPivot values edits a) (b : Axis) (d : Datum α) :
    FollowsPivot values (edits ++ [.attach b d]) a := by
  rw [FollowsPivot, pivot, valueAtAttach_concat, attached_concat, edited_concat]
  by_cases hab : a = b
  · subst hab
    have hbounds : (Edit.attach a d).bounds? a = some (d.bounds.get a) := if_pos rfl
    simp only [hbounds, Option.getD_some, Option.isNone_some, Bool.false_eq_true, if_false, ite_self]
    exact PerAxis.get_set_same _ _ _
  · have hbounds : (Edit.attach b d).bounds? a = none := if_neg fun hba => hab hba.symm
    simp only [hbounds, Option.getD_none, Option.isNone_none, if_true]
    exact (PerAxis.get_set_other _ hab _).trans h

variable (values edits a)

/-- Edits keep the reach of an axis around its pivot. -/
theorem reach_edited : (edited values edits).reach.get a = .around (pivot values edits a) (attached a edits) := by
  suffices h : FollowsPivot values edits a from h
  induction edits using List.reverseRecOn with
  | nil => exact PerAxis.get_map _ _ _
  | append_singleton edits e ih =>
    cases e with
    | setValue b v => exact ih.setValue b v
    | attach b d => exact ih.attach b d

end

/-- However a record is edited, each side of an axis that has a bound ends at the outermost entry of it. The reach fits the
value of the axis exactly if both sides have a bound, or none of them has, or the value is the one that the axis had when its
bounds were attached. -/
theorem reach_fits_iff (values : PerAxis Float) (edits : List (Edit Float)) (a : Axis) :
    let r := edited values edits
    (r.reach.get a).bounds = attached a edits ∧ (r.reach.get a).EndsAtBounds ∧
      ((r.reach.get a).Fits (r.values.get a) ↔
        (attached a edits).lower.isSome = (attached a edits).upper.isSome ∨ valueAtAttach a values edits = r.values.get a) := by
  intro r
  have hreach : r.reach.get a = .around (pivot values edits a) (attached a edits) := reach_edited values edits a
  rw [hreach]
  refine ⟨rfl, Reach.endsAtBounds_around _ _, ?_⟩
  rw [Reach.around_fits_iff, pivot]
  cases hlower : (attached a edits).lower <;> cases hupper : (attached a edits).upper <;>
    simp [Bounds.isEmpty, hlower, hupper, r]

/-- A lower bound is attached, and then the value is moved. -/
def moved : List (Edit Float) := [.attach .y (Datum.empty.setLower .y (.single 8)), .setValue .y 20]

/-- The upper side still ends at the value of before. -/
theorem moved_value_is_left_behind :
    let r := edited ⟨nan, 10, nan⟩ moved
    r.values.y = 20 ∧ r.reach.y.bounds.upper.isNone = true ∧ r.reach.y.highest = 10 ∧ ¬r.reach.y.Fits r.values.y := by
  have hvalue : (edited ⟨nan, 10, nan⟩ moved).values.y = 20 := by decide
  have hnone : (edited ⟨nan, 10, nan⟩ moved).reach.y.bounds.upper.isNone = true := by decide
  have hhighest : (edited ⟨nan, 10, nan⟩ moved).reach.y.highest = 10 := by decide
  refine ⟨hvalue, hnone, hhighest, fun hfits => ?_⟩
  have hfit := hfits.noUpper (Option.isNone_iff_eq_none.1 hnone)
  rw [hhighest, hvalue] at hfit
  exact absurd hfit (by decide)

end Record

end Whisker
