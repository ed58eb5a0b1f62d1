import Whisker.Element
import Whisker.Proofs.Engine.Hover
import Whisker.Proofs.Scalar.NotFinite

/-!
# Records without a place

The mark of a record that is not a number, or out of range, has no finite center. A point of this kind is never drawn,
and hit only if its reach is infinite. The other two marks have gaps: the ends of a bar are a minimum and a maximum, in
which a missing value gives way to the base, and the distance tests of a sector hold of what is not a number.

Such records are kept, so that positions stay what they are, and their elements are meant to be neither drawn nor hit.
Both can fail: a missing bar is drawn and hit on its base. The main statement says what is left of the rule, with the
exceptions of the three marks.
-/

namespace Whisker

open Scalar (isFinite nan inf)
open Binary

namespace Bar

section

variable {α : Type}

def index (b : Bar α) : α := if b.horizontal then b.y else b.x

def value (b : Bar α) : α := if b.horizontal then b.x else b.y

def turned (b : Bar α) (x y : α) : α × α := if b.horizontal then (y, x) else (x, y)

variable [Scalar α]

def half (b : Bar α) : α := b.thickness / 2

def Covers (b : Bar α) (p : α) : Prop := b.index - b.half ≤ p ∧ p ≤ b.index + b.half

/-- A box contains a point if the bar covers it along the index axis and it lies between value and base. -/
theorem contains_box (b : Bar α) (x y : α) : b.box.contains x y = true ↔ b.Covers (b.turned x y).1 ∧
    Scalar.min b.value b.base ≤ (b.turned x y).2 ∧ (b.turned x y).2 ≤ Scalar.max b.value b.base := by
  cases h : b.horizontal <;>
    simp only [box, half, Covers, Area.contains, index, value, turned, h, Bool.and_eq_true, decide_eq_true_eq] <;> grind

end

/-- A bar covers something finite only if its index is finite. -/
theorem Covers.isFinite {b : Bar Float} {p : Float} (h : b.Covers p) (hp : p.isFinite = true) : b.index.isFinite = true := by
  by_contra hindex
  rw [Bool.not_eq_true] at hindex
  obtain ⟨hlow, hhigh⟩ := h
  have hsub := sub_of_not_finite hindex b.half
  have hadd := add_of_not_finite hindex b.half
  generalize b.index = c at hindex hlow hhigh hsub hadd
  obtain rfl | rfl | rfl := not_finite_cases hindex
  · obtain hsub | hsub := hsub <;> exact not_nan_le p (hsub ▸ hlow)
  · obtain hsub | hsub := hsub
    · exact not_inf_le hp (hsub ▸ hlow)
    · exact not_nan_le p (hsub ▸ hlow)
  · obtain hadd | hadd := hadd
    · exact not_le_negInf hp (hadd ▸ hhigh)
    · exact not_le_nan p (hadd ▸ hhigh)

/-- A point is between the base and a value that is not finite. -/
def Beyond (value base v : Float) : Prop :=
  value = nan ∧ base ≤ v ∧ v ≤ base ∨ value = inf ∧ base ≤ v ∨ value = -inf ∧ v ≤ base

/-- Of a value that is not finite only the base, or one side of it, is left between the two ends. -/
theorem beyond_iff {value base v : Float} (hvalue : value.isFinite = false) (hv : v.isFinite = true) :
    (Scalar.min value base ≤ v ∧ v ≤ Scalar.max value base) ↔ Beyond value base v := by
  unfold Beyond
  obtain rfl | rfl | rfl := not_finite_cases hvalue
  · rw [min_nan, max_nan]
    simp +decide
  · rw [min_inf_le hv, max_inf]
    simp +decide [le_inf hv]
  · rw [min_negInf, le_max_negInf hv]
    simp +decide [negInf_le hv]

/-- A bar has a finite center if both coordinates are finite. -/
theorem finite_center {b : Bar Float} (hindex : b.index.isFinite = true) (hvalue : b.value.isFinite = true) :
    b.x.isFinite = true ∧ b.y.isFinite = true := by
  unfold index at hindex
  unfold value at hvalue
  cases h : b.horizontal with
  | false =>
    rw [h] at hindex hvalue
    exact ⟨hindex, hvalue⟩
  | true =>
    rw [h] at hindex hvalue
    exact ⟨hvalue, hindex⟩

theorem finite_turned (b : Bar Float) {x y : Float} (hx : x.isFinite = true) (hy : y.isFinite = true) :
    (b.turned x y).1.isFinite = true ∧ (b.turned x y).2.isFinite = true := by
  unfold turned
  split
  · exact ⟨hy, hx⟩
  · exact ⟨hx, hy⟩

/-- The ends of a rectangle that keeps the rules. -/
theorem finite_ends {b : Bar Float} (h : b.rect.validate = .ok ()) :
    (b.index - b.half).isFinite = true ∧ (Scalar.min b.value b.base).isFinite = true ∧
      (Scalar.max b.value b.base).isFinite = true := by
  simp only [Rect.validate, seq_eq_ok, check_eq_ok, Bool.and_eq_true, Scalar.isSize] at h
  obtain ⟨⟨hx, hy⟩, ⟨⟨hwidth, -⟩, hheight, -⟩, -⟩ := h
  unfold rect box at hx hy hwidth hheight
  unfold index value
  cases hh : b.horizontal with
  | false =>
    rw [hh] at hx hy hwidth hheight
    exact ⟨hx, hy, isFinite_of_sub_left hheight⟩
  | true =>
    rw [hh] at hx hy hwidth hheight
    exact ⟨hy, hx, isFinite_of_sub_left hwidth⟩

/-- A bar without a finite center is drawn only for want of a value, and flat on its base. -/
theorem drawn_without_center {b : Bar Float} (hcenter : ¬(b.x.isFinite = true ∧ b.y.isFinite = true))
    (h : b.rect.validate = .ok ()) : b.value = nan ∧ b.index.isFinite = true ∧ b.base.isFinite = true := by
  obtain ⟨hindex, hmin, hmax⟩ := finite_ends h
  have hindex := isFinite_of_sub_left hindex
  have hvalue : b.value.isFinite = false := Bool.not_eq_true _ ▸ fun hv => hcenter (finite_center hindex hv)
  obtain hv | hv | hv := not_finite_cases hvalue
  · rw [hv, min_nan] at hmin
    exact ⟨hv, hindex, hmin⟩
  · rw [hv, max_inf] at hmax
    cases hmax
  · rw [hv, min_negInf] at hmin
    cases hmin

/-- A bar without a finite center is hit where it would be: between its base and the value, on the base if there is none. -/
theorem hit_without_center {b : Bar Float} (hcenter : ¬(b.x.isFinite = true ∧ b.y.isFinite = true)) {x y : Float}
    (hx : x.isFinite = true) (hy : y.isFinite = true) (h : b.box.contains x y = true) :
    b.Covers (b.turned x y).1 ∧ Beyond b.value b.base (b.turned x y).2 := by
  obtain ⟨hcovers, hbetween⟩ := (b.contains_box x y).1 h
  obtain ⟨hp, hv⟩ := b.finite_turned hx hy
  have hvalue : b.value.isFinite = false :=
    Bool.not_eq_true _ ▸ fun hv => hcenter (finite_center (hcovers.isFinite hp) hv)
  exact ⟨hcovers, (beyond_iff hvalue hv).1 hbetween⟩

end Bar

namespace Point

theorem hit_without_center {p : Point Float} (hcenter : ¬(p.x.isFinite = true ∧ p.y.isFinite = true)) {x y : Float}
    (h : Circular.hypot (x - p.x) (y - p.y) ≤ p.radius + p.hitRadius) : p.radius + p.hitRadius = inf := by
  have hside : (x - p.x).isFinite = false ∨ (y - p.y).isFinite = false := by
    by_contra hside
    rw [not_or, Bool.not_eq_false, Bool.not_eq_false] at hside
    exact hcenter ⟨isFinite_of_sub hside.1, isFinite_of_sub hside.2⟩
  change Binary.hypot (x - p.x) (y - p.y) ≤ _ at h
  obtain hdistance | hdistance := hypot_of_not_finite hside
  · rw [hdistance] at h
    exact eq_inf_of_inf_le h
  · rw [hdistance] at h
    exact absurd h (not_nan_le _)

end Point

namespace Sector

/-- What a hit says about the distance and the angles. -/
theorem hit_facts {s : Sector Float} {x y : Float} (h : s.contains x y = true) :
    ¬s.outer < Circular.hypot (x - s.x) (y - s.y) ∧ s.stop - s.start ≠ nan := by
  unfold contains at h
  dsimp only at h
  split at h
  · cases h
  · next hdistance =>
    rw [Bool.or_eq_true, not_or, decide_eq_true_eq, decide_eq_true_eq] at hdistance
    refine ⟨hdistance.2, fun hspan => ?_⟩
    rw [hspan] at h
    split at h
    · next hturn => exact not_le_nan _ hturn
    · exact not_le_nan _ (of_decide_eq_true h)

/-- A sector is hit only if its angles are numbers, and at an infinite place only if its radius has no end. -/
theorem hit_without_center {s : Sector Float} {x y : Float} (hx : x.isFinite = true) (hy : y.isFinite = true)
    (h : s.contains x y = true) :
    s.start ≠ nan ∧ s.stop ≠ nan ∧
      (s.outer.isFinite = true → Scalar.isInfinite s.x = false ∧ Scalar.isInfinite s.y = false) := by
  obtain ⟨hdistance, hspan⟩ := hit_facts h
  have hstart : s.start ≠ nan := fun h => hspan (h.symm ▸ sub_nan s.stop)
  have hstop : s.stop ≠ nan := fun h => hspan (h.symm ▸ nan_sub s.start)
  refine ⟨hstart, hstop, fun houter => ?_⟩
  by_contra hplace
  have hside : (x - s.x = inf ∨ x - s.x = -inf) ∨ y - s.y = inf ∨ y - s.y = -inf := by
    rw [not_and_or, Bool.not_eq_false, Bool.not_eq_false] at hplace
    exact hplace.imp (fun h => sub_infinite hx (eq_of_isInfinite h)) fun h => sub_infinite hy (eq_of_isInfinite h)
  have hinfinite : Circular.hypot (x - s.x) (y - s.y) = inf := hypot_of_infinite hside
  rw [hinfinite] at hdistance
  exact hdistance (lt_inf houter)

end Sector

namespace Mark

/-- How a mark without a finite center can come to be drawn: a bar for want of a value, flat on its base, and a sector
whose numbers are finite but whose middle is not. -/
def DrawnAnyway : Mark Float → Prop
  | .bar b => b.value = nan ∧ b.index.isFinite = true ∧ b.base.isFinite = true
  | .point _ => False
  | .sector s => [s.x, s.y, s.inner, s.outer, s.start, s.stop].all isFinite = true

/-- How such a mark can come to be hit: a bar between its base and a value that is not finite, or on the base if there is
no value, a point of infinite reach, and a sector with angles unless it is finite in size and infinitely far. -/
def HitAnyway : Mark Float → Float → Float → Prop
  | .bar b, x, y => b.Covers (b.turned x y).1 ∧ Bar.Beyond b.value b.base (b.turned x y).2
  | .point p, _, _ => p.radius + p.hitRadius = inf
  | .sector s, _, _ => s.start ≠ nan ∧ s.stop ≠ nan ∧
    (s.outer.isFinite = true → Scalar.isInfinite s.x = false ∧ Scalar.isInfinite s.y = false)

variable {m : Mark Float} (hcenter : ¬(m.center.1.isFinite = true ∧ m.center.2.isFinite = true))

include hcenter

theorem drawnAnyway {hovered : Bool} {s : Shape Float} (h : m.shape? hovered = some s) : m.DrawnAnyway := by
  cases m with
  | bar b =>
    obtain ⟨hvalid, -⟩ := Option.ite_none_right_eq_some.1 h
    exact Bar.drawn_without_center hcenter (isOk_iff.1 hvalid)
  | point p =>
    obtain ⟨hvalid, -⟩ := Option.ite_none_right_eq_some.1 h
    have hcircle := isOk_iff.1 (Bool.and_eq_true_iff.1 hvalid).1
    simp only [Circle.validate, seq_eq_ok, check_eq_ok, Bool.and_eq_true] at hcircle
    exact hcenter hcircle.1
  | sector s =>
    obtain ⟨hvalid, -⟩ := Option.ite_none_right_eq_some.1 h
    have hwedge := isOk_iff.1 (Bool.and_eq_true_iff.1 hvalid).1
    simp only [Wedge.validate, seq_eq_ok, check_eq_ok] at hwedge
    exact hwedge.1

/-- A mark without a finite center is hit only where the listed exceptions say so. -/
theorem hitAnyway {x y : Float} (hx : x.isFinite = true) (hy : y.isFinite = true) (h : m.contains x y = true) :
    m.HitAnyway x y := by
  cases m with
  | bar b => exact Bar.hit_without_center hcenter hx hy h
  | point p => exact Point.hit_without_center hcenter (of_decide_eq_true h)
  | sector s => exact Sector.hit_without_center hx hy h

end Mark

end Whisker

namespace Whisker.Engine

/-- The hit of a coherent engine is the element of the layout with that reference. -/
theorem Coherent.contains_of_elementAt? {e : Engine Float} (h : e.Coherent) {element : Element Float}
    (helement : element ∈ e.layout.elements) {x y : Float} (hat : e.elementAt? x y = some element.ref) :
    x.isFinite = true ∧ y.isFinite = true ∧ element.contains x y = true := by
  obtain ⟨hit, hhit, hcontains, href⟩ := exists_of_elementAt? hat
  have heq : hit = element := List.inj_on_of_nodup_map h.enumerates.nodup_refs hhit helement href
  have hfinite : (Scalar.isFinite x && Scalar.isFinite y) = true := by
    by_contra hfinite
    rw [elementAt?, if_neg hfinite] at hat
    cases hat
  obtain ⟨hx, hy⟩ := Bool.and_eq_true_iff.1 hfinite
  exact ⟨hx, hy, heq ▸ hcontains⟩

/-- An element without a finite center is not drawn, not hit and never what the pointer rests on, with the exceptions
of its mark. -/
theorem unplaced_element_is_hidden (element : Element Float)
    (hcenter : ¬(element.center.1.isFinite = true ∧ element.center.2.isFinite = true)) :
    (element.mark.DrawnAnyway ∨ ∀ hovered, element.mark.shape? hovered = none) ∧
    (∀ x y, x.isFinite = true → y.isFinite = true → element.mark.HitAnyway x y ∨ element.contains x y = false) ∧
    ∀ e : Engine Float, e.Reachable → element ∈ e.layout.elements →
      ∀ x y, e.elementAt? x y = some element.ref → element.mark.HitAnyway x y := by
  refine ⟨?_, fun x y hx hy => ?_, fun e he helement x y hat => ?_⟩
  · by_contra hdrawn
    obtain ⟨hanyway, hshape⟩ := not_or.1 hdrawn
    obtain ⟨hovered, hshape⟩ := not_forall.1 hshape
    obtain ⟨s, hs⟩ := Option.ne_none_iff_exists'.1 hshape
    exact hanyway (Mark.drawnAnyway hcenter hs)
  · cases hcontains : element.contains x y with
    | true => exact .inl (Mark.hitAnyway hcenter hx hy hcontains)
    | false => exact .inr rfl
  · obtain ⟨hx, hy, hcontains⟩ := he.coherent.contains_of_elementAt? helement hat
    exact Mark.hitAnyway hcenter hx hy hcontains

def lostPoint : Element Float :=
  ⟨0, 0, .point ⟨10, Scalar.nan, 3, 4, 1, .black, .black, 1⟩, .const Bounds.empty, .default⟩

theorem lost_point_is_hidden : ¬(lostPoint.center.1.isFinite = true ∧ lostPoint.center.2.isFinite = true) ∧
    (∀ hovered, lostPoint.mark.shape? hovered = none) ∧
    ∀ x y, x.isFinite = true → y.isFinite = true → lostPoint.contains x y = false := by
  have hcenter : ¬(lostPoint.center.1.isFinite = true ∧ lostPoint.center.2.isFinite = true) := by decide
  have hreach : ∀ x y, ¬lostPoint.mark.HitAnyway x y := fun _ _ => (by decide : (3 + 1 : Float) ≠ Scalar.inf)
  obtain ⟨hdrawn, hhit, -⟩ := unplaced_element_is_hidden lostPoint hcenter
  exact ⟨hcenter, hdrawn.resolve_left id, fun x y hx hy => (hhit x y hx hy).resolve_left (hreach x y)⟩

def gapChart : Chart Float := { plainChart with chartType := "barWithErrorBars", datasets := [.ofData [.empty]] }

/-- In an engine with this chart the missing bar is drawn and hit. -/
theorem missing_bar_is_drawn_and_hit : ∃ e : Engine Float, e.Reachable ∧ ∃ element ∈ e.layout.elements,
    element.center.2.isFinite = false ∧ (element.mark.shape? false).isSome = true ∧
      e.elementAt? 150 192 = some element.ref := by
  have hs : (start .counting .standard ⟨⟨300, 200⟩, gapChart⟩).toOption.map (fun e =>
      (e.layout.elements.map (fun element =>
        (element.center.2.isFinite, (element.mark.shape? false).isSome, element.ref)), e.elementAt? 150 192)) =
      some ([(false, true, ⟨0, 0⟩)], some ⟨0, 0⟩) := by decide +kernel
  obtain ⟨e, he, hparts⟩ := Option.map_eq_some_iff.1 hs
  obtain ⟨helements, hat⟩ := Prod.mk.inj hparts
  obtain ⟨element, hlist, hparts⟩ := List.map_eq_singleton_iff.1 helements
  obtain ⟨hcenter, hparts⟩ := Prod.mk.inj hparts
  obtain ⟨hshape, href⟩ := Prod.mk.inj hparts
  have hmem : element ∈ e.layout.elements := hlist ▸ List.mem_singleton_self element
  exact ⟨e, .start (toOption_eq_some.1 he), element, hmem, hcenter, hshape, href ▸ hat⟩

end Whisker.Engine
