import Whisker.Proofs.Record
import Whisker.Proofs.Scalar.Zeros

/-!
# Extents of split records

A record that reaches to finite ends on both sides, or on neither, has an extent of its own or none, and the extent of
many such records is the hull of these. So the records may be laid out in any groups, and another order of them changes
at most the sign of an end that is zero.
-/

namespace Whisker

open Binary (value)
open Scalar (isFinite)

namespace Extent

def Same (e f : Extent Float) : Prop := (e.low == f.low) = true ∧ (e.high == f.high) = true

/-- In another order the hull has the same ends, up to the sign of zeros. -/
theorem same_hull {es fs : List (Extent Float)} (h : es.Perm fs) (hes : ∀ e ∈ es, e.IsFinite) :
    Option.Rel Same (hull es) (hull fs) := by
  have hfs : ∀ e ∈ fs, e.IsFinite := fun e he => hes e (h.mem_iff.2 he)
  cases hx : hull es with
  | none =>
    rw [hull_eq_none.1 hx] at h
    rw [h.nil_eq.symm]
    exact .none
  | some x =>
    cases hy : hull fs with
    | none =>
      rw [hull_eq_none.1 hy] at h
      rw [h.eq_nil] at hx
      cases hx
    | some y =>
      obtain ⟨⟨hlow, hleast⟩, hhigh, hgreatest⟩ := hull_ends Binary.ordered hes hx
      obtain ⟨⟨hlow', hleast'⟩, hhigh', hgreatest'⟩ := hull_ends Binary.ordered hfs hy
      have hxf : x.IsFinite := isFinite_hull Binary.ordered hes hx
      have hyf : y.IsFinite := isFinite_hull Binary.ordered hfs hy
      have hlows : value x.low = value y.low :=
        le_antisymm (hleast _ ((h.map low).mem_iff.2 hlow')) (hleast' _ ((h.map low).mem_iff.1 hlow))
      have hhighs : value x.high = value y.high :=
        le_antisymm (hgreatest' _ ((h.map high).mem_iff.1 hhigh)) (hgreatest _ ((h.map high).mem_iff.2 hhigh'))
      exact .some ⟨(Binary.beq_iff_value hxf.low hyf.low).2 hlows, (Binary.beq_iff_value hxf.high hyf.high).2 hhighs⟩

end Extent

namespace Record

/-- On an axis both ends of the reach are finite or none is. -/
def TwoSided (a : Axis) (r : Record Float) : Prop := isFinite (r.read a .lowest) = isFinite (r.read a .highest)

def extent? (a : Axis) (r : Record Float) : Option (Extent Float) :=
  if isFinite (r.read a .lowest) = true then some ⟨r.read a .lowest, r.read a .highest⟩ else none

variable {a : Axis} {rs : List (Record Float)}

theorem isFinite_extent? (h : ∀ r ∈ rs, r.TwoSided a) : ∀ e ∈ rs.filterMap (extent? a), e.IsFinite := by
  intro e he
  obtain ⟨r, hr, hre⟩ := List.mem_filterMap.1 he
  have htwo : isFinite (r.read a .lowest) = isFinite (r.read a .highest) := h r hr
  rw [extent?] at hre
  split at hre
  · rename_i hlow
    cases hre
    exact ⟨hlow, htwo.symm.trans hlow⟩
  · cases hre

/-- The finite lowest numbers are the lower ends of the records that have an extent. -/
theorem filter_lowest (rs : List (Record Float)) :
    (rs.map (·.read a .lowest)).filter isFinite = (rs.filterMap (extent? a)).map Extent.low := by
  induction rs with
  | nil => rfl
  | cons r rs ih => by_cases hr : isFinite (r.read a .lowest) = true <;> simp [extent?, hr, ih]

theorem filter_highest (h : ∀ r ∈ rs, r.TwoSided a) :
    (rs.map (·.read a .highest)).filter isFinite = (rs.filterMap (extent? a)).map Extent.high := by
  induction rs with
  | nil => rfl
  | cons r rs ih =>
    obtain ⟨htwo, hrs⟩ := List.forall_mem_cons.1 h
    have htwo : isFinite (r.read a .lowest) = isFinite (r.read a .highest) := htwo
    by_cases hr : isFinite (r.read a .highest) = true <;> simp [extent?, htwo, hr, ih hrs]

end Record

namespace Extent

variable {a : Axis} {rs : List (Record Float)}

theorem ofErrorBars_eq_hull (h : ∀ r ∈ rs, r.TwoSided a) : ofErrorBars rs a = hull (rs.filterMap (Record.extent? a)) := by
  rw [ofErrorBars, ofRecords, ofRecords, ofValues_eq, ofValues_eq, Record.filter_lowest, Record.filter_highest h,
    List.map_map, List.map_map]
  -- The lower ends and the upper ends that are finite belong to the same records, so both folds have a result or none has.
  cases rs.filterMap (Record.extent? a) with
  | nil => rfl
  | cons e es =>
    simp only [List.map_cons, hull_cons, List.map_map]
    rfl

/-- The extent of what is shown is the hull over all records shown. -/
theorem extent_shown {shown : List (Layout.Shown Float)} (h : ∀ r ∈ shown.flatMap Layout.Shown.records, r.TwoSided a) :
    Layout.extent shown a = hull ((shown.flatMap Layout.Shown.records).filterMap (Record.extent? a)) := by
  have hrecords : ∀ s ∈ shown, ∀ r ∈ s.records, r.TwoSided a := fun s hs r hr => h r (List.mem_flatMap.2 ⟨s, hs, hr⟩)
  have hparts : shown.map (fun s => ofErrorBars s.records a) =
      (shown.map fun s => s.records.filterMap (Record.extent? a)).map hull := by
    rw [List.map_map]
    exact List.map_congr_left fun s hs => ofErrorBars_eq_hull (hrecords s hs)
  rw [Layout.extent, hparts, merge_hulls Binary.ordered, List.filterMap_flatMap, List.flatMap]
  exact List.forall_mem_map.2 fun s hs => Record.isFinite_extent? (hrecords s hs)

open Layout (Shown)

/-- The extent of an axis depends on the records only, not on how they are split into datasets, and on their order at most
in the sign of an end that is zero; there is none if no record reaches to anything finite. -/
theorem extent_of_twoSided (a : Axis) {rs : List (Record Float)} (h : ∀ r ∈ rs, r.TwoSided a) :
    (∀ xs ys, xs ++ ys = rs → ofErrorBars rs a = merge [ofErrorBars xs a, ofErrorBars ys a]) ∧
      (∀ shown : List (Shown Float), shown.flatMap Shown.records = rs → Layout.extent shown a = ofErrorBars rs a) ∧
      (∀ shown shown' : List (Shown Float), (shown.flatMap Shown.records).Perm rs →
        (shown'.flatMap Shown.records).Perm rs → Option.Rel Same (Layout.extent shown a) (Layout.extent shown' a)) ∧
      ∀ shown : List (Shown Float), (shown.flatMap Shown.records).Perm rs →
        (Layout.extent shown a = none ↔
          ∀ r ∈ rs, isFinite (r.read a .lowest) = false ∧ isFinite (r.read a .highest) = false) := by
  have hperm : ∀ {shown : List (Shown Float)}, (shown.flatMap Shown.records).Perm rs →
      ∀ r ∈ shown.flatMap Shown.records, r.TwoSided a := fun hp r hr => h r (hp.mem_iff.1 hr)
  refine ⟨fun xs ys hrs => ?_, fun shown hrs => ?_, fun shown shown' hp hp' => ?_, fun shown hp => ?_⟩
  · subst hrs
    obtain ⟨hxs, hys⟩ := List.forall_mem_append.1 h
    rw [merge_pair, ofErrorBars_eq_hull h, ofErrorBars_eq_hull hxs, ofErrorBars_eq_hull hys, List.filterMap_append]
    exact hull_append Binary.ordered (Record.isFinite_extent? hxs) (Record.isFinite_extent? hys)
  · subst hrs
    rw [extent_shown h, ofErrorBars_eq_hull h]
  · rw [extent_shown (hperm hp), extent_shown (hperm hp')]
    exact same_hull ((hp.trans hp'.symm).filterMap _) (Record.isFinite_extent? (hperm hp))
  · rw [extent_shown (hperm hp), hull_eq_none, List.filterMap_eq_nil_iff]
    refine ⟨fun hnone r hr => ?_, fun hnone r hr => ?_⟩
    · have htwo : isFinite (r.read a .lowest) = isFinite (r.read a .highest) := h r hr
      have hlow : isFinite (r.read a .lowest) = false := by simpa [Record.extent?] using hnone r (hp.mem_iff.2 hr)
      exact ⟨hlow, htwo ▸ hlow⟩
    · simp [Record.extent?, (hnone r (hp.mem_iff.1 hr)).1]

def mixedRecords : List (Record Float) :=
  Dataset.categoryRecords .y
    (.ofData [(Datum.ofY 3).setBounds .y (.stack [2, 1]) (.single 5), .empty, Datum.ofY (-4)])

theorem mixed_records_merge :
    (∀ r ∈ mixedRecords, r.TwoSided .y) ∧
      ofErrorBars mixedRecords .y = merge [ofErrorBars (mixedRecords.take 1) .y, ofErrorBars (mixedRecords.drop 1) .y] ∧
      (ofErrorBars mixedRecords .y).isSome = true := by
  have htwo : ∀ r ∈ mixedRecords, r.TwoSided .y := by
    unfold Record.TwoSided
    decide +kernel
  refine ⟨htwo, ?_, by decide +kernel⟩
  exact (extent_of_twoSided .y htwo).1 _ _ (List.take_append_drop 1 mixedRecords)

end Extent

end Whisker
