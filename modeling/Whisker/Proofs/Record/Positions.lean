import Mathlib.Data.Nat.Notation
import Whisker.Record

/-!
# Positions of data that records take their bounds from

The bounds of the data from a start on are carried into records, in order and for one axis. A record takes the bounds of
the datum at its position and reaches around its own value; where the data have no such position it stays as it is.
Positions are words: behind the last one they go on at zero. So a record behind the last word finds one of the first
data, although its position as a number is beyond all of them.
-/

namespace Whisker

open Scalar (nan)

namespace PerAxis

variable {β : Type}

theorem ext_get {p q : PerAxis β} (h : ∀ a, p.get a = q.get a) : p = q := by
  obtain ⟨px, py, pr⟩ := p
  obtain ⟨qx, qy, qr⟩ := q
  exact (PerAxis.mk.injEq ..).mpr ⟨h .x, h .y, h .r⟩

theorem set_comm (p : PerAxis β) {a b : Axis} (h : a ≠ b) (v w : β) : (p.set a v).set b w = (p.set b w).set a v := by
  cases a <;> cases b <;> simp_all [set]

end PerAxis

namespace Record

variable {α : Type} [Scalar α]

/-- The second record is the first one with the bounds of a datum on an axis, each side ending at the outermost entry of its
bound or, without one, at the value of the record. -/
structure TakesBounds (a : Axis) (d : Datum α) (r s : Record α) : Prop where
  values : s.values = r.values
  others : ∀ b, b ≠ a → s.reach.get b = r.reach.get b
  bounds : (s.reach.get a).bounds = d.bounds.get a
  lowest : (s.reach.get a).lowest = (d.bounds.get a).lower.elim (r.values.get a) Bound.least
  highest : (s.reach.get a).highest = (d.bounds.get a).upper.elim (r.values.get a) Bound.greatest

theorem takesBounds_attach (a : Axis) (d : Datum α) (r : Record α) : TakesBounds a d r (r.attach a d) := by
  have hreach : (r.attach a d).reach.get a = .around (r.values.get a) (d.bounds.get a) := PerAxis.get_set_same _ _ _
  exact ⟨rfl, fun b hb => PerAxis.get_set_other _ hb _, congrArg Reach.bounds hreach, congrArg Reach.lowest hreach,
    congrArg Reach.highest hreach⟩

theorem takesBounds_iff {a : Axis} {d : Datum α} {r s : Record α} : TakesBounds a d r s ↔ s = r.attach a d := by
  refine ⟨fun h => ?_, fun h => h ▸ takesBounds_attach a d r⟩
  have hattach := takesBounds_attach a d r
  have hreach : s.reach = (r.attach a d).reach := by
    refine PerAxis.ext_get fun b => ?_
    by_cases hb : b = a
    · subst hb
      have hbounds := h.bounds.trans hattach.bounds.symm
      have hlowest := h.lowest.trans hattach.lowest.symm
      have hhighest := h.highest.trans hattach.highest.symm
      exact (Reach.mk.injEq ..).mpr ⟨hbounds, hlowest, hhighest⟩
    · exact (h.others b hb).trans (hattach.others b hb).symm
  exact (Record.mk.injEq ..).mpr ⟨h.values, hreach⟩

def attach? (a : Axis) (d : Option (Datum α)) (r : Record α) : Record α := d.elim r (r.attach a ·)

/-- Bounds are taken around the values, which they leave alone, so the order of the axes does not matter. -/
theorem attach_comm {a b : Axis} (h : a ≠ b) (d e : Datum α) (r : Record α) :
    (r.attach a d).attach b e = (r.attach b e).attach a d :=
  (Record.mk.injEq ..).mpr ⟨rfl, PerAxis.set_comm _ h _ _⟩

/-- Attaching on different axes may be done in either order. -/
theorem attach?_comm {a b : Axis} (h : a ≠ b) (d e : Option (Datum α)) (r : Record α) :
    (r.attach? a d).attach? b e = (r.attach? b e).attach? a d := by
  cases d with
  | none => rfl
  | some d =>
    cases e with
    | none => rfl
    | some e => exact attach_comm h d e r

/-- Each record takes the bounds of the datum at its position, and stays as it is if there is none. -/
structure TakesAt (a : Axis) (data : List (Datum α)) (position : ℕ → ℕ) (rs ss : List (Record α)) : Prop where
  length : ss.length = rs.length
  taken : ∀ i r s d, rs[i]? = some r → ss[i]? = some s → data[position i]? = some d → TakesBounds a d r s
  kept : ∀ i, data.length ≤ position i → ss[i]? = rs[i]?

variable {a : Axis} {data : List (Datum α)} {rs : List (Record α)}

/-- The positions determine what becomes of the records. -/
theorem takesAt_iff {position : ℕ → ℕ} {ss : List (Record α)} :
    TakesAt a data position rs ss ↔ ss = rs.mapIdx fun i r => r.attach? a data[position i]? := by
  constructor
  · intro h
    -- The lists agree at each place: by what is kept if the place has no datum, and by what is taken if it has one.
    refine List.ext_getElem? fun i => ?_
    rw [List.getElem?_mapIdx]
    cases hd : data[position i]? with
    | none =>
      rw [h.kept i (List.getElem?_eq_none_iff.1 hd)]
      exact Option.map_id'.symm
    | some d =>
      cases hr : rs[i]? with
      | none =>
        refine List.getElem?_eq_none ?_
        rw [h.length]
        exact List.getElem?_eq_none_iff.1 hr
      | some r =>
        have hi : i < ss.length := h.length ▸ (List.getElem?_eq_some_iff.1 hr).1
        have htaken := h.taken i r ss[i] d hr (List.getElem?_eq_getElem hi) hd
        rw [List.getElem?_eq_getElem hi, takesBounds_iff.1 htaken]
        rfl
  · rintro rfl
    refine ⟨List.length_mapIdx, fun i r s d hr hs hd => ?_, fun i hi => ?_⟩
    · rw [List.getElem?_mapIdx, hr, hd] at hs
      exact takesBounds_iff.2 (Option.some.inj hs).symm
    · rw [List.getElem?_mapIdx, List.getElem?_eq_none hi]
      exact Option.map_id'

theorem toNat_position (start : UInt64) (i : ℕ) : (start + i.toUInt64).toNat = (start.toNat + i) % UInt64.size := by
  have hi : i.toUInt64.toNat = i % UInt64.size := UInt64.toNat_ofNat'
  rw [UInt64.toNat_add, hi]
  exact Nat.add_mod_mod ..

/-- Each record takes the bounds of the datum at its position modulo `2 ^ 64`, if there is one. -/
theorem attachAll_eq (a : Axis) (data : List (Datum α)) (start : UInt64) (rs : List (Record α)) :
    attachAll a data start rs = rs.mapIdx fun i r => r.attach? a data[(start.toNat + i) % UInt64.size]? := by
  unfold attachAll
  congr 1
  funext i r
  rw [toNat_position]
  cases data[(start.toNat + i) % UInt64.size]? <;> rfl

/-- Attaching all bounds on different axes may be done in either order. -/
theorem attachAll_comm {b : Axis} (h : a ≠ b) (data data' : List (Datum α)) (start start' : UInt64)
    (rs : List (Record α)) :
    attachAll b data' start' (attachAll a data start rs) = attachAll a data start (attachAll b data' start' rs) := by
  simp only [attachAll_eq, List.mapIdx_mapIdx]
  congr 1
  funext i r
  exact attach?_comm h _ _ r

/-- In data that words can count, a number and its word differ only behind the last word, where the number has no datum. -/
theorem attach?_word_iff (hfits : data.length ≤ UInt64.size) (r : Record α) (n : ℕ) :
    r.attach? a data[n % UInt64.size]? = r.attach? a data[n]? ↔
      (UInt64.size ≤ n → ∀ d, data[n % UInt64.size]? = some d → TakesBounds a d r r) := by
  by_cases hn : UInt64.size ≤ n
  · rw [List.getElem?_eq_none (Nat.le_trans hfits hn)]
    simp only [hn, true_imp_iff, takesBounds_iff]
    cases data[n % UInt64.size]? with
    | none => simp [attach?]
    | some d => simp [attach?, eq_comm]
  · rw [Nat.mod_eq_of_lt (Nat.lt_of_not_le hn)]
    exact iff_of_true rfl fun h => absurd h hn

/-- Whatever the records, the data and the start are, each record takes on its axis the bounds of the datum at its position,
counted from the start modulo 2^64, and nothing else changes. Where words can count the data, the positions are those of the
numbers exactly if each record behind the last word that finds a datum there has its bounds already. Axes can be done in any
order. -/
theorem positions_are_numbers_iff (a : Axis) (data : List (Datum α)) (start : UInt64) (rs : List (Record α)) :
    TakesAt a data (fun i => (start.toNat + i) % UInt64.size) rs (attachAll a data start rs) ∧
      (data.length ≤ UInt64.size → (TakesAt a data (fun i => start.toNat + i) rs (attachAll a data start rs) ↔
        ∀ i r d, rs[i]? = some r → UInt64.size ≤ start.toNat + i → data[(start.toNat + i) % UInt64.size]? = some d →
          TakesBounds a d r r)) ∧
      ∀ b, a ≠ b → ∀ data' start', attachAll b data' start' (attachAll a data start rs) =
        attachAll a data start (attachAll b data' start' rs) := by
  refine ⟨takesAt_iff.2 (attachAll_eq a data start rs), fun hfits => ?_, fun b hab data' start' =>
    attachAll_comm hab data data' start start' rs⟩
  rw [takesAt_iff, attachAll_eq, List.mapIdx_eq_mapIdx_iff]
  simp only [attach?_word_iff hfits]
  constructor
  · intro h i r d hr hword hd
    obtain ⟨hi, rfl⟩ := List.getElem?_eq_some_iff.1 hr
    exact h i hi hword d hd
  · intro h i hi hword d hd
    exact h i rs[i] d (List.getElem?_eq_getElem hi) hword hd

/-- A value with a bound below it and a value with a bound above it. -/
def halfBars : List (Datum Float) := [(Datum.ofY 1).setLower .y (.single 0), (Datum.ofY 2).setUpper .y (.single 3)]

def bareValues : List (Record Float) := [ofValues ⟨nan, 1, nan⟩, ofValues ⟨nan, 2, nan⟩]

theorem later_half_bar_is_taken :
    halfBars.length ≤ UInt64.size ∧
      TakesAt .y halfBars (fun i => (1 : UInt64).toNat + i) bareValues (attachAll .y halfBars 1 bareValues) ∧
      (attachAll .y halfBars 1 bareValues).map (·.reach.y.highest) = [3, 2] ∧
      attachAll .r halfBars 0 (attachAll .y halfBars 1 bareValues) =
        attachAll .y halfBars 1 (attachAll .r halfBars 0 bareValues) := by
  have hfits : halfBars.length ≤ UInt64.size := by decide
  obtain ⟨-, hnumbers, hcomm⟩ := positions_are_numbers_iff .y halfBars 1 bareValues
  refine ⟨hfits, (hnumbers hfits).2 fun i r d hr hword hd => ?_, by decide, hcomm .r (by decide) halfBars 0⟩
  -- Both records are far from the last word.
  have hi : i < 2 := (List.getElem?_eq_some_iff.1 hr).1
  have hone : (1 : UInt64).toNat = 1 := rfl
  rw [hone, UInt64.size] at hword
  omega

def lastPosition : UInt64 := 18446744073709551615

/-- From the last position on there are no data, and still the second record takes the bounds of the first datum. -/
theorem datum_is_taken_behind_last_position :
    halfBars.length ≤ lastPosition.toNat ∧
      (attachAll .y halfBars lastPosition bareValues).map (·.reach.y.lowest) = [1, 0] ∧
      ¬TakesAt .y halfBars (fun i => lastPosition.toNat + i) bareValues (attachAll .y halfBars lastPosition bareValues) := by
  have hlength : halfBars.length ≤ lastPosition.toNat := by decide
  refine ⟨hlength, by decide, fun h => ?_⟩
  have hsecond := congrArg (Option.map (·.reach.y.lowest)) (h.kept 1 (by omega))
  exact absurd hsecond (by decide)

end Record

end Whisker
