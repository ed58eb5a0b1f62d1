import Whisker.Proofs.Layout.Inside
import Whisker.Proofs.Scalar.Zeros

/-!
# Sectors go round once

The sectors of a settled dataset follow one another from the top of the circle, each one starting where the last one
ended, and a record without a value takes no angle. In exact arithmetic the other records take equal angles and together
a full turn. The angle is found by counting, the ends by adding up; that both agree is an invariant of the running end.
-/

namespace Whisker

open Exact
open Scalar (isNaN)

section

variable {α : Type}

def Mark.arc? : Mark α → Option (α × α)
  | .sector s => some (s.start, s.stop)
  | _ => none

/-- Arcs that lead from one angle to another, each one starting where the last one stopped. -/
inductive Chained : α → List (α × α) → α → Prop where
  | nil (a : α) : Chained a [] a
  | cons {b c : α} {arcs : List (α × α)} (a : α) : Chained b arcs c → Chained a ((a, b) :: arcs) c

variable [Scalar α]

/-- The elements of a dataset are sectors that follow one another from the top to an angle, one for each record; a record
without a value has no angle. -/
structure DatasetLayout.Unrolls [Circular α] (d : DatasetLayout α) (arcs : List (α × α)) (stop : α) : Prop where
  marks : d.elements.map (·.mark.arc?) = arcs.map some
  chained : Chained Layout.startAngle arcs stop
  missing : List.Forall₂ (fun r arc => isNaN r.values.r = true → arc.1 = arc.2) d.records arcs

namespace Layout

def share (angle : α) (r : Record α) : α := if isNaN r.values.r then 0 else angle

def finish (angle cursor : α) (rs : List (Record α)) : α := rs.foldl (fun cursor r => cursor + share angle r) cursor

/-- Each sweep begins where the one before it ends. -/
theorem chained_sweeps (angle cursor : α) (rs : List (Record α)) :
    Chained cursor (sweeps angle cursor rs) (finish angle cursor rs) := by
  induction rs generalizing cursor with
  | nil => exact .nil cursor
  | cons r rs ih => exact .cons cursor (ih (cursor + share angle r))

/-- What holds of the first start and is kept by each step holds of all starts. -/
theorem forall₂_sweeps {angle : α} {P : α → Prop} {Q : Record α → α × α → Prop}
    (hstep : ∀ cursor r, P cursor → P (cursor + share angle r) ∧ Q r (cursor, cursor + share angle r)) {cursor : α}
    (hcursor : P cursor) (rs : List (Record α)) : List.Forall₂ Q rs (sweeps angle cursor rs) := by
  induction rs generalizing cursor with
  | nil => exact .nil
  | cons r rs ih =>
    obtain ⟨hnext, hr⟩ := hstep cursor r hcursor
    exact .cons hr (ih hnext)

variable [Circular α]

/-- A settled layout has the sectors of its sweeps. -/
theorem polar_arcs {c : Chart α} {v : Viewport} {l : Layout α} (h : polar c v false = .ok l) {d : DatasetLayout α}
    (hd : d ∈ l.datasets) :
    d.elements.map (·.mark.arc?) = (sweeps (sectorAngle d.records) startAngle d.records).map some := by
  obtain ⟨_, h⟩ := seq_eq_ok.1 h
  obtain ⟨area, _, h⟩ := bind_eq_ok.1 h
  obtain ⟨scale, _, h⟩ := bind_eq_ok.1 h
  cases h
  obtain ⟨s, _, rfl⟩ := List.mem_map.1 hd
  apply List.ext_getElem
  · simp [length_sweeps]
  · intro i hi hi'
    simp [sectorElement, Mark.arc?]

/-- Sectors follow one another wherever adding zero changes no end that is reached. -/
theorem unrolls {P : α → Prop} {d : DatasetLayout α} (hstart : P startAngle) (hzero : ∀ x, P x → x + 0 = x)
    (hangle : ∀ x, P x → P (x + sectorAngle d.records))
    (hmarks : d.elements.map (·.mark.arc?) = (sweeps (sectorAngle d.records) startAngle d.records).map some) :
    d.Unrolls (sweeps (sectorAngle d.records) startAngle d.records)
      (finish (sectorAngle d.records) startAngle d.records) where
  marks := hmarks
  chained := chained_sweeps _ _ _
  missing := by
    refine forall₂_sweeps (P := P) (fun cursor r hcursor => ?_) hstart d.records
    rw [share]
    split
    · rw [hzero cursor hcursor]
      exact ⟨hcursor, fun _ => rfl⟩
    · rename_i hvalue
      exact ⟨hangle cursor hcursor, fun hnan => absurd hnan hvalue⟩

end Layout

end

namespace Layout

theorem share_finite (q : ℚ) (r : Record Exact) : share (finite q) r = finite (if isNaN r.values.r then 0 else q) := by
  have hzero : (0 : Exact) = finite 0 := by simp
  rw [share, hzero]
  split <;> rfl

/-- Adding up the angles is multiplying one of them by how many there are. -/
theorem finish_finite (q p : ℚ) (rs : List (Record Exact)) :
    finish (finite q) (finite p) rs = finite (p + q * (rs.filter fun r => !isNaN r.values.r).length) := by
  induction rs generalizing p with
  | nil => simp [finish]
  | cons r rs ih =>
    change finish (finite q) (finite p + share (finite q) r) rs = _
    rw [share_finite, finite_add, ih]
    cases hr : isNaN r.values.r with
    | true => simp [hr]
    | false =>
      simp only [hr, Bool.not_false, List.filter_cons_of_pos, List.length_cons, Bool.false_eq_true, if_false]
      push_cast
      congr 1
      ring

variable [Circular Exact] {t : ℚ} (hturn : Circular.turn = finite t)

include hturn

theorem startAngle_eq : (startAngle : Exact) = finite (-(t / 4)) := by
  have hfour : (4 : Exact) = finite 4 := by simp
  rw [startAngle, hturn, hfour, finite_div _ four_ne_zero, finite_neg]

/-- The sectors of a dataset with a value add up to the turn. -/
theorem sectorAngle_eq (rs : List (Record Exact)) :
    ∃ q : ℚ, sectorAngle rs = finite q ∧
      q * (rs.filter fun r => !isNaN r.values.r).length = if rs.any (!isNaN ·.values.r) then t else 0 := by
  have hany : rs.any (!isNaN ·.values.r) = true ↔ 0 < (rs.filter fun r => !isNaN r.values.r).length := by
    rw [List.any_eq_true, List.length_filter_pos_iff]
  unfold sectorAngle
  cases hcount : (rs.filter fun r => !isNaN r.values.r).length with
  | zero =>
    have hnone : ¬rs.any (!isNaN ·.values.r) = true := by rw [hany, hcount]; exact lt_irrefl 0
    exact ⟨0, by simp, by rw [if_neg hnone, zero_mul]⟩
  | succ n =>
    have hsome : rs.any (!isNaN ·.values.r) = true := by rw [hany, hcount]; exact Nat.succ_pos n
    have hn : ((n + 1 : ℕ) : ℚ) ≠ 0 := Nat.cast_ne_zero.2 (Nat.succ_ne_zero n)
    refine ⟨t / (n + 1 : ℕ), ?_, ?_⟩
    · rw [hturn]
      simp only [ofNat_eq]
      exact finite_div t hn
    · rw [if_pos hsome, div_mul_cancel₀ _ hn]

/-- In exact arithmetic the sectors go around once, if there is any value. -/
theorem unrolls_exact {d : DatasetLayout Exact}
    (hmarks : d.elements.map (·.mark.arc?) = (sweeps (sectorAngle d.records) startAngle d.records).map some) :
    ∃ arcs, d.Unrolls arcs (if d.records.any (!isNaN ·.values.r) then startAngle + Circular.turn else startAngle) ∧
      List.Forall₂ (fun r arc => isNaN r.values.r = false → arc.2 - arc.1 = sectorAngle d.records) d.records arcs := by
  have hstart : (startAngle : Exact) = finite (-(t / 4)) := startAngle_eq hturn
  obtain ⟨q, hq, hsum⟩ := sectorAngle_eq hturn d.records
  have hfinite : Scalar.isFinite (startAngle : Exact) = true := by rw [hstart]; rfl
  have hzero : ∀ x : Exact, Scalar.isFinite x = true → x + 0 = x := by
    intro x hx
    obtain ⟨p, rfl⟩ := exists_finite hx
    simp
  have hangle : ∀ x : Exact, Scalar.isFinite x = true → Scalar.isFinite (x + sectorAngle d.records) = true := by
    intro x hx
    obtain ⟨p, rfl⟩ := exists_finite hx
    rw [hq, finite_add]
    rfl
  have hend : finish (sectorAngle d.records) startAngle d.records =
      if d.records.any (!isNaN ·.values.r) then startAngle + Circular.turn else startAngle := by
    rw [hstart, hq, hturn, finish_finite, hsum]
    split <;> simp
  refine ⟨_, hend ▸ unrolls hfinite hzero hangle hmarks, ?_⟩
  refine forall₂_sweeps (P := fun x => Scalar.isFinite x = true) (fun cursor r hcursor => ?_) hfinite d.records
  obtain ⟨p, rfl⟩ := exists_finite hcursor
  rw [hq, share_finite, finite_add]
  refine ⟨rfl, fun hvalue => ?_⟩
  rw [hvalue, finite_sub]
  simp

end Layout

/-- The sectors of a settled dataset follow one another from the top, and a record without a value has no angle. In exact
arithmetic all others have the same angle, and they end one turn after the start, or at the start if there are none. -/
theorem Layout.sectors_go_round :
    (∀ (c : Chart Float) (v : Viewport) (l : Layout Float), polar c v false = .ok l →
        ∀ d ∈ l.datasets, ∃ arcs stop, d.Unrolls arcs stop) ∧
      ∀ [Circular Exact] (t : ℚ), Circular.turn = finite t →
        ∀ (c : Chart Exact) (v : Viewport) (l : Layout Exact), polar c v false = .ok l → ∀ d ∈ l.datasets,
          ∃ arcs, d.Unrolls arcs (if d.records.any (!isNaN ·.values.r) then startAngle + Circular.turn else startAngle) ∧
            List.Forall₂ (fun r arc => isNaN r.values.r = false → arc.2 - arc.1 = sectorAngle d.records) d.records arcs := by
  constructor
  · intro c v l h d hd
    have hstart : (startAngle : Float) ≠ -Scalar.ofNat 0 := by decide +kernel
    exact ⟨_, _, unrolls hstart (fun x hx => Binary.float_add_zero hx) (fun x hx => Binary.add_ne_negZero hx _)
      (polar_arcs h hd)⟩
  · intro circle t hturn c v l h d hd
    exact unrolls_exact hturn (polar_arcs h hd)

def partedChart {α : Type} [Scalar α] : Chart α :=
  ⟨"polarAreaWithErrorBars", [], [.ofData [.onAxis .r 2, .empty, .onAxis .r 3]],
    { ChartOptions.default with axes := .const { AxisOptions.default with min := some 0, max := some 6 } }⟩

theorem Layout.parted_sectors_go_round :
    (∃ l : Layout Float, polar partedChart ⟨300, 200⟩ false = .ok l ∧ l.elements.length = 3 ∧
        ∀ d ∈ l.datasets, ∃ arcs stop, d.Unrolls arcs stop) ∧
      ∃ l : Layout Exact, @polar Exact _ quarterTurns partedChart ⟨300, 200⟩ false = .ok l ∧ l.elements.length = 3 ∧
        ∀ d ∈ l.datasets, ∃ arcs, @DatasetLayout.Unrolls Exact _ quarterTurns d arcs
          (if d.records.any (!isNaN ·.values.r) then @startAngle Exact _ quarterTurns + 4
            else @startAngle Exact _ quarterTurns) := by
  constructor
  · have hs : (polar (partedChart (α := Float)) ⟨300, 200⟩ false).toOption.map (fun l => l.elements.length) = some 3 := by
      decide +kernel
    obtain ⟨l, hl, hlength⟩ := Option.map_eq_some_iff.1 hs
    have hl := toOption_eq_some.1 hl
    exact ⟨l, hl, hlength, sectors_go_round.1 _ _ l hl⟩
  · have hs : (@polar Exact _ quarterTurns partedChart ⟨300, 200⟩ false).toOption.map (fun l => l.elements.length) =
        some 3 := by
      decide +kernel
    obtain ⟨l, hl, hlength⟩ := Option.map_eq_some_iff.1 hs
    have hl := toOption_eq_some.1 hl
    have hturn : @Circular.turn Exact quarterTurns = finite 4 := by
      change (4 : Exact) = finite 4
      simp
    let _ : Circular Exact := quarterTurns
    refine ⟨l, hl, hlength, fun d hd => ?_⟩
    obtain ⟨arcs, hunrolls, _⟩ := sectors_go_round.2 4 hturn _ _ l hl d hd
    exact ⟨arcs, hunrolls⟩

end Whisker
