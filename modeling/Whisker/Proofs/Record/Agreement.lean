import Whisker.Proofs.Layout.Skeleton
import Whisker.Proofs.Record.Edits

/-!
# Records that agree

Two records agree if they are the same up to the sign of zeros, where two values that are missing are the same. Bounds
are compared entry by entry as numbers, and there "not a number" differs from itself. So agreement is symmetric and
transitive, and a record agrees with itself exactly if no entry of its bounds is "not a number".
-/

namespace Whisker

open Scalar (nan same)
open Binary (oneZero beq_iff_oneZero same_iff_oneZero)

theorem entries_beq_iff {vs ws : List Float} : (vs == ws) = true ↔ nan ∉ vs ∧ vs.map oneZero = ws.map oneZero := by
  induction vs generalizing ws with
  | nil => cases ws <;> simp
  | cons v vs ih =>
    cases ws with
    | nil => simp
    | cons w ws =>
      rw [List.cons_beq_cons, Bool.and_eq_true, ih, beq_iff_oneZero]
      simp only [List.mem_cons, not_or, List.map_cons, List.cons.injEq, ne_comm (a := v), ne_eq]
      tauto

theorem Bound.beq_iff {b c : Bound Float} : (b == c) = true ↔ nan ∉ b.entries ∧ b.map oneZero = c.map oneZero := by
  cases b with
  | single v =>
    cases c with
    | single w =>
      refine beq_iff_oneZero.trans ?_
      simp [Bound.entries, Bound.map, eq_comm]
    | stack ws => exact iff_of_false Bool.false_ne_true fun h => by cases h.2
  | stack vs =>
    cases c with
    | single w => exact iff_of_false Bool.false_ne_true fun h => by cases h.2
    | stack ws =>
      refine entries_beq_iff.trans ?_
      simp [Bound.entries, Bound.map]

namespace Bounds

theorem side_beq_iff {s t : Option (Bound Float)} :
    (s == t) = true ↔ nan ∉ s.elim [] Bound.entries ∧ s.map (·.map oneZero) = t.map (·.map oneZero) := by
  cases s <;> cases t <;> simp [Bound.beq_iff]

theorem beq_iff {b c : Bounds Float} : (b == c) = true ↔ nan ∉ b.entries ∧ b.map oneZero = c.map oneZero := by
  have hbeq : (b == c) = (b.lower == c.lower && b.upper == c.upper) := rfl
  rw [hbeq, Bool.and_eq_true, side_beq_iff, side_beq_iff, entries, List.mem_append, map, map, Bounds.mk.injEq]
  tauto

end Bounds

namespace Reach

/-- The reach with zero for every negative zero. -/
def oneZero (e : Reach Float) : Reach Float :=
  ⟨e.bounds.map Binary.oneZero, Binary.oneZero e.lowest, Binary.oneZero e.highest⟩

theorem beq_iff {e f : Reach Float} : (e == f) = true ↔ nan ∉ e.bounds.entries ∧ e.oneZero = f.oneZero := by
  have hbeq : (e == f) = (e.bounds == f.bounds && same e.lowest f.lowest && same e.highest f.highest) := rfl
  rw [hbeq, Bool.and_eq_true, Bool.and_eq_true, Bounds.beq_iff, same_iff_oneZero, same_iff_oneZero, oneZero, oneZero,
    Reach.mk.injEq]
  tauto

theorem nan_mem_oneZero {e : Reach Float} : nan ∈ e.oneZero.bounds.entries ↔ nan ∈ e.bounds.entries := by
  have hentries : e.oneZero.bounds.entries = e.bounds.entries.map Binary.oneZero := Bounds.entries_map _ _
  simp [hentries, Binary.oneZero_eq_nan]

end Reach

namespace Record

def oneZero (r : Record Float) : Record Float := ⟨r.values.map Binary.oneZero, r.reach.map Reach.oneZero⟩

def HasNumbers (r : Record Float) : Prop := ∀ a, nan ∉ (r.reach.get a).bounds.entries

variable {p q r : Record Float}

/-- A record has numbers throughout if the bounds of each axis do. -/
theorem hasNumbers_iff : p.HasNumbers ↔
    nan ∉ p.reach.x.bounds.entries ∧ nan ∉ p.reach.y.bounds.entries ∧ nan ∉ p.reach.r.bounds.entries := by
  refine ⟨fun h => ⟨h .x, h .y, h .r⟩, fun ⟨hx, hy, hr⟩ a => ?_⟩
  cases a <;> assumption

/-- Records agree if they are the same up to the sign of zeros and no entry of their bounds is "not a number". -/
theorem beq_iff : (p == q) = true ↔ p.HasNumbers ∧ p.oneZero = q.oneZero := by
  have hbeq : (p == q) = (same p.values.x q.values.x && same p.values.y q.values.y && same p.values.r q.values.r
    && p.reach.x == q.reach.x && p.reach.y == q.reach.y && p.reach.r == q.reach.r) := rfl
  have hsame : p.oneZero = q.oneZero ↔ (p.values.map Binary.oneZero = q.values.map Binary.oneZero ∧
      p.reach.map Reach.oneZero = q.reach.map Reach.oneZero) := by
    rw [oneZero, oneZero, Record.mk.injEq]
  simp only [hbeq, hsame, Bool.and_eq_true, same_iff_oneZero, Reach.beq_iff, hasNumbers_iff, PerAxis.map, PerAxis.mk.injEq]
  tauto

theorem hasNumbers_oneZero : p.oneZero.HasNumbers ↔ p.HasNumbers := by
  refine forall_congr' fun a => not_congr ?_
  rw [oneZero, PerAxis.get_map, Reach.nan_mem_oneZero]

/-- Equality of records goes both ways. -/
theorem beq_symm (h : (p == q) = true) : (q == p) = true := by
  obtain ⟨hnumbers, hsame⟩ := beq_iff.1 h
  refine beq_iff.2 ⟨?_, hsame.symm⟩
  rwa [← hasNumbers_oneZero, ← hsame, hasNumbers_oneZero]

/-- Agreement of records is symmetric and transitive; a record agrees with itself exactly if no entry of its bounds is "not a
number", whatever its values are. -/
theorem agreement_is_equivalence (p q r : Record Float) :
    (p == q) = (q == p) ∧ ((p == q) = true → (q == r) = true → (p == r) = true) ∧ ((p == p) = true ↔ p.HasNumbers) := by
  refine ⟨Bool.eq_iff_iff.2 ⟨beq_symm, beq_symm⟩, fun hpq hqr => ?_, beq_iff.trans (and_iff_left rfl)⟩
  obtain ⟨hnumbers, hsame⟩ := beq_iff.1 hpq
  exact beq_iff.2 ⟨hnumbers, hsame.trans (beq_iff.1 hqr).2⟩

/-- A record with one zero for its value and the innermost entry of its lower bound. -/
def around (zero : Float) : Record Float :=
  edited ⟨nan, zero, nan⟩ [.attach .y (Datum.empty.setBounds .y (.stack [zero, -1]) (.single 2))]

theorem records_around_zeros_agree :
    (around 0 == around (-0)) = true ∧ (around (-0) == around 0) = true ∧ (around 0 == around 0) = true := by
  have hthere : (around 0 == around (-0)) = true := by decide
  have hback : (around (-0) == around 0) = true := by decide
  exact ⟨hthere, hback, (agreement_is_equivalence _ _ _).2.1 hthere hback⟩

def unread : Record Float := edited ⟨nan, 4, nan⟩ [.attach .y (Datum.empty.setLower .y (.single nan))]

theorem unread_bound_differs_from_itself : (unread == unread) = false := by decide

end Record

end Whisker
