import Whisker.Proofs.Extent.Hull
import Whisker.Proofs.Layout.Skeleton
import Whisker.Proofs.Record.Positions
import Whisker.Proofs.Scalar.Rational

/-!
# Extents cover their records

The reach of a record goes from its lowest lower bound to its highest upper bound, and the extent of all
records from the lowest to the highest reach. So where every value lies between its bounds the extent
contains each value and each bound. Numbers that are not finite take no part in it.
-/

namespace Whisker

open Exact

/-- A finite value between its bounds, which are finite; a side that is given has an entry. -/
structure Bounds.Encloses {α : Type} [Scalar α] (b : Bounds α) (v : α) : Prop where
  value : Scalar.isFinite v = true
  lower : ∀ s, b.lower = some s → s.entries ≠ [] ∧ ∀ u ∈ s.entries, Scalar.isFinite u = true ∧ u ≤ v
  upper : ∀ s, b.upper = some s → s.entries ≠ [] ∧ ∀ u ∈ s.entries, Scalar.isFinite u = true ∧ v ≤ u

namespace Exact

def number : Exact → ℚ
  | finite p => p
  | _ => 0

theorem ordered : Scalar.OrderedBy number where
  isNaN_eq ha := by
    obtain ⟨p, rfl⟩ := exists_finite ha
    rfl
  lt_iff ha hb := by
    obtain ⟨p, rfl⟩ := exists_finite ha
    obtain ⟨q, rfl⟩ := exists_finite hb
    exact finite_lt
  isNaN_inf := rfl
  isNaN_negInf := rfl
  lt_inf ha := by
    obtain ⟨p, rfl⟩ := exists_finite ha
    rfl
  negInf_lt ha := by
    obtain ⟨p, rfl⟩ := exists_finite ha
    rfl

end Exact

namespace Bound

variable {b : Bound Exact} (hne : b.entries ≠ []) (hfinite : ∀ v ∈ b.entries, Scalar.isFinite v = true)

include hne hfinite

theorem least_eq : ∃ u, b.least = finite u ∧ ∀ w, finite w ∈ b.entries → u ≤ w := by
  obtain ⟨v, hv⟩ := List.exists_mem_of_ne_nil _ hne
  obtain ⟨u, hu⟩ := exists_finite (hfinite _ (least_mem ordered hfinite hv).1)
  refine ⟨u, hu, fun w hw => ?_⟩
  have hle : number b.least ≤ number (finite w) := (least_mem ordered hfinite hw).2
  rwa [hu] at hle

theorem greatest_eq : ∃ u, b.greatest = finite u ∧ ∀ w, finite w ∈ b.entries → w ≤ u := by
  obtain ⟨v, hv⟩ := List.exists_mem_of_ne_nil _ hne
  obtain ⟨u, hu⟩ := exists_finite (hfinite _ (greatest_mem ordered hfinite hv).1)
  refine ⟨u, hu, fun w hw => ?_⟩
  have hle : number (finite w) ≤ number b.greatest := (greatest_mem ordered hfinite hw).2
  rwa [hu] at hle

end Bound

namespace Bounds.Encloses

variable {b : Bounds Exact} {v : ℚ} (h : b.Encloses (finite v))

include h

/-- The lower side reaches down to its least entry, and its entries lie between that and the value. -/
theorem lower_reach : ∃ u, b.lower.elim (finite v) Bound.least = finite u ∧ u ≤ v ∧
    ∀ x ∈ b.lower.elim [] Bound.entries, ∃ t, x = finite t ∧ u ≤ t ∧ t ≤ v := by
  cases hl : b.lower with
  | none => exact ⟨v, rfl, le_rfl, fun x hx => absurd hx List.not_mem_nil⟩
  | some s =>
    obtain ⟨hne, hall⟩ := h.lower s hl
    obtain ⟨u, hu, hbelow⟩ := Bound.least_eq hne fun x hx => (hall x hx).1
    have hentries : ∀ x ∈ s.entries, ∃ t, x = finite t ∧ u ≤ t ∧ t ≤ v := by
      intro x hx
      obtain ⟨hfinite, hle⟩ := hall x hx
      obtain ⟨t, rfl⟩ := exists_finite hfinite
      exact ⟨t, rfl, hbelow t hx, finite_le.1 hle⟩
    obtain ⟨x, hx⟩ := List.exists_mem_of_ne_nil _ hne
    obtain ⟨t, _, hut, htv⟩ := hentries x hx
    exact ⟨u, hu, hut.trans htv, hentries⟩

/-- With bounds around the value the highest end is above the value and all upper entries. -/
theorem upper_reach : ∃ w, b.upper.elim (finite v) Bound.greatest = finite w ∧ v ≤ w ∧
    ∀ x ∈ b.upper.elim [] Bound.entries, ∃ t, x = finite t ∧ v ≤ t ∧ t ≤ w := by
  cases hl : b.upper with
  | none => exact ⟨v, rfl, le_rfl, fun x hx => absurd hx List.not_mem_nil⟩
  | some s =>
    obtain ⟨hne, hall⟩ := h.upper s hl
    obtain ⟨w, hw, habove⟩ := Bound.greatest_eq hne fun x hx => (hall x hx).1
    have hentries : ∀ x ∈ s.entries, ∃ t, x = finite t ∧ v ≤ t ∧ t ≤ w := by
      intro x hx
      obtain ⟨hfinite, hle⟩ := hall x hx
      obtain ⟨t, rfl⟩ := exists_finite hfinite
      exact ⟨t, rfl, finite_le.1 hle, habove t hx⟩
    obtain ⟨x, hx⟩ := List.exists_mem_of_ne_nil _ hne
    obtain ⟨t, _, hvt, htw⟩ := hentries x hx
    exact ⟨w, hw, hvt.trans htw, hentries⟩

end Bounds.Encloses

/-- The reach around a value that lies between its bounds goes past the value and all entries. -/
theorem Reach.around_eq {b : Bounds Exact} {v : ℚ} (h : b.Encloses (finite v)) :
    ∃ u w : ℚ, (Reach.around (finite v) b).lowest = finite u ∧ (Reach.around (finite v) b).highest = finite w ∧
      u ≤ v ∧ v ≤ w ∧ ∀ x ∈ b.entries, ∃ t, x = finite t ∧ u ≤ t ∧ t ≤ w := by
  obtain ⟨u, hu, huv, hlower⟩ := h.lower_reach
  obtain ⟨w, hw, hvw, hupper⟩ := h.upper_reach
  refine ⟨u, w, hu, hw, huv, hvw, fun x hx => ?_⟩
  rcases List.mem_append.1 hx with hx | hx
  · obtain ⟨t, ht, hut, htv⟩ := hlower x hx
    exact ⟨t, ht, hut, htv.trans hvw⟩
  · obtain ⟨t, ht, hvt, htw⟩ := hupper x hx
    exact ⟨t, ht, huv.trans hvt, htw⟩

namespace Extent

def Proper (e : Option (Extent Exact)) : Prop := ∀ x, e = some x → ∃ u w : ℚ, x = ⟨finite u, finite w⟩

def Covers (e : Option (Extent Exact)) (t : ℚ) : Prop := ∃ u w : ℚ, e = some ⟨finite u, finite w⟩ ∧ u ≤ t ∧ t ≤ w

theorem proper_none : Proper none := fun _ h => nomatch h

theorem IsFinite.ends_eq {e : Extent Exact} (h : e.IsFinite) : ∃ u w : ℚ, e = ⟨finite u, finite w⟩ := by
  obtain ⟨u, hu⟩ := exists_finite h.low
  obtain ⟨w, hw⟩ := exists_finite h.high
  exact ⟨u, w, by rw [← hu, ← hw]⟩

theorem Proper.isFinite {e : Extent Exact} (h : Proper (some e)) : e.IsFinite := by
  obtain ⟨u, w, rfl⟩ := h e rfl
  exact ⟨rfl, rfl⟩

section

variable {es : List (Extent Exact)} (hes : ∀ e ∈ es, e.IsFinite)

include hes

theorem proper_hull : Proper (hull es) := fun _ hx => (isFinite_hull ordered hes hx).ends_eq

/-- The hull covers what one of the extents covers. -/
theorem covers_hull {e : Extent Exact} (he : e ∈ es) {t : ℚ} (ht : Covers (some e) t) : Covers (hull es) t := by
  cases hx : hull es with
  | none =>
    rw [hull_eq_none.1 hx] at he
    cases he
  | some x =>
    obtain ⟨u, w, hends, hu, hw⟩ := ht
    cases hends
    obtain ⟨u', w', rfl⟩ := (isFinite_hull ordered hes hx).ends_eq
    obtain ⟨⟨_, hleast⟩, _, hgreatest⟩ := hull_ends ordered hes hx
    have hlow : u' ≤ u := hleast (finite u) (List.mem_map_of_mem he)
    have hhigh : w ≤ w' := hgreatest (finite w) (List.mem_map_of_mem he)
    exact ⟨u', w', rfl, hlow.trans hu, hw.trans hhigh⟩

end

theorem proper_ofValues (vs : List Exact) : Proper (ofValues vs) := by
  rw [ofValues_eq]
  exact proper_hull isFinite_ofValue

theorem covers_ofValues {vs : List Exact} {t : ℚ} (h : finite t ∈ vs) : Covers (ofValues vs) t := by
  rw [ofValues_eq]
  refine covers_hull isFinite_ofValue ?_ ⟨t, t, rfl, le_rfl, le_rfl⟩
  exact List.mem_map.2 ⟨finite t, List.mem_filter.2 ⟨h, rfl⟩, rfl⟩

theorem proper_ofErrorBars (rs : List (Record Exact)) (a : Axis) : Proper (ofErrorBars rs a) := by
  have hlow : Proper (ofRecords rs a .lowest) := proper_ofValues _
  have hhigh : Proper (ofRecords rs a .highest) := proper_ofValues _
  unfold ofErrorBars
  split
  · rename_i e f he hf
    obtain ⟨u, w, rfl⟩ := hlow e he
    obtain ⟨u', w', rfl⟩ := hhigh f hf
    rintro _ ⟨⟩
    exact ⟨u, w', rfl⟩
  · rename_i e he _
    obtain ⟨u, w, rfl⟩ := hlow e he
    rintro _ ⟨⟩
    exact ⟨u, u, rfl⟩
  · rename_i f _ hf
    obtain ⟨u, w, rfl⟩ := hhigh f hf
    rintro _ ⟨⟩
    exact ⟨w, w, rfl⟩
  · exact proper_none

/-- An extent of error bars covers all between the ends of a record. -/
theorem covers_ofErrorBars {rs : List (Record Exact)} {a : Axis} {r : Record Exact} (hr : r ∈ rs) {u w t : ℚ}
    (hlow : (r.reach.get a).lowest = finite u) (hhigh : (r.reach.get a).highest = finite w) (hu : u ≤ t) (hw : t ≤ w) :
    Covers (ofErrorBars rs a) t := by
  have hlow : finite u ∈ rs.map (·.read a .lowest) := List.mem_map.2 ⟨r, hr, hlow⟩
  have hhigh : finite w ∈ rs.map (·.read a .highest) := List.mem_map.2 ⟨r, hr, hhigh⟩
  obtain ⟨u₁, w₁, he, hu₁, _⟩ := covers_ofValues hlow
  obtain ⟨u₂, w₂, hf, _, hw₂⟩ := covers_ofValues hhigh
  unfold ofErrorBars
  rw [ofRecords, he, ofRecords, hf]
  exact ⟨u₁, w₂, rfl, hu₁.trans hu, hw.trans hw₂⟩

/-- A merged extent covers what its parts cover. -/
theorem covers_merge {es : List (Option (Extent Exact))} (hes : ∀ e ∈ es, Proper e) {e : Option (Extent Exact)}
    (he : e ∈ es) {t : ℚ} (ht : Covers e t) : Covers (merge es) t := by
  have hcovers := ht
  obtain ⟨u, w, rfl, _, _⟩ := ht
  have hparts : ∀ x ∈ es.filterMap id, x.IsFinite := by
    intro x hx
    obtain ⟨y, hy, hxy⟩ := List.mem_filterMap.1 hx
    have hyx : y = some x := hxy
    exact (hyx ▸ hes y hy : Proper (some x)).isFinite
  exact covers_hull hparts (List.mem_filterMap.2 ⟨_, he, rfl⟩) hcovers

end Extent

/-- On an axis the record holds a value with its bounds around it. -/
def Record.Enclosed (a : Axis) (r : Record Exact) : Prop :=
  ∃ b : Bounds Exact, r.reach.get a = .around (r.values.get a) b ∧ b.Encloses (r.values.get a)

/-- The extent of all datasets covers the value and the bounds of each record. -/
theorem Layout.covers_extent {shown : List (Shown Exact)} {a : Axis} {s : Shown Exact} (hs : s ∈ shown)
    {r : Record Exact} (hr : r ∈ s.records) (h : r.Enclosed a) :
    ∀ x, x = r.values.get a ∨ x ∈ (r.reach.get a).bounds.entries →
      ∃ t, x = finite t ∧ Extent.Covers (extent shown a) t := by
  obtain ⟨b, hreach, hb⟩ := h
  obtain ⟨v, hv⟩ := exists_finite hb.value
  rw [hv] at hreach hb
  obtain ⟨u, w, hlow, hhigh, huv, hvw, hentries⟩ := Reach.around_eq hb
  have hcovers : ∀ t, u ≤ t → t ≤ w → Extent.Covers (extent shown a) t := by
    intro t hut htw
    refine Extent.covers_merge ?_ (List.mem_map_of_mem hs) (Extent.covers_ofErrorBars hr ?_ ?_ hut htw)
    · intro e he
      obtain ⟨s', _, rfl⟩ := List.mem_map.1 he
      exact Extent.proper_ofErrorBars _ a
    · rw [hreach, hlow]
    · rw [hreach, hhigh]
  rintro x (rfl | hx)
  · exact ⟨v, hv, hcovers v huv hvw⟩
  · rw [hreach] at hx
    obtain ⟨t, ht, hut, htw⟩ := hentries x hx
    exact ⟨t, ht, hcovers t hut htw⟩

namespace Record

theorem enclosed_attach {a : Axis} {d : Datum Exact} {r : Record Exact}
    (h : (d.bounds.get a).Encloses (r.values.get a)) : (r.attach a d).Enclosed a :=
  ⟨d.bounds.get a, PerAxis.get_set_same _ _ _, h⟩

/-- Bounds on one axis leave those on another as they are. -/
theorem Enclosed.attach {a b : Axis} {r : Record Exact} (h : r.Enclosed a) (hab : a ≠ b) (d : Datum Exact) :
    (r.attach b d).Enclosed a := by
  obtain ⟨bounds, hreach, hb⟩ := h
  exact ⟨bounds, (PerAxis.get_set_other _ hab _).trans hreach, hb⟩

/-- In a list that fits a word, each record takes the bounds of the datum at its own position. -/
theorem getElem?_attachAll {a : Axis} {data : List (Datum Exact)} {rs : List (Record Exact)}
    (hfits : data.length ≤ UInt64.size) (hlength : rs.length = data.length) {i : ℕ} {r' : Record Exact}
    (hr' : (attachAll a data 0 rs)[i]? = some r') :
    ∃ r d, rs[i]? = some r ∧ data[i]? = some d ∧ r' = r.attach a d := by
  rw [attachAll_eq, List.getElem?_mapIdx] at hr'
  obtain ⟨r, hr, hattach⟩ := Option.map_eq_some_iff.1 hr'
  have hi : i < data.length := by
    rw [← hlength]
    exact (List.getElem?_eq_some_iff.1 hr).1
  have hword : ((0 : UInt64).toNat + i) % UInt64.size = i := by
    rw [UInt64.toNat_zero, Nat.zero_add]
    exact Nat.mod_eq_of_lt (hi.trans_le hfits)
  rw [hword, List.getElem?_eq_getElem hi] at hattach
  exact ⟨r, data[i], hr, List.getElem?_eq_getElem hi, hattach.symm⟩

end Record

namespace Dataset

variable {d : Dataset Exact} (hfits : d.data.length ≤ UInt64.size)

include hfits

/-- Records of a category axis are enclosed by the bounds of their data. -/
theorem enclosed_categoryRecords {a : Axis} (ha : a = .x ∨ a = .y)
    (h : ∀ datum ∈ d.data, (datum.bounds.get a).Encloses ((datum.values.get a).getD Scalar.nan)) :
    ∀ r ∈ d.categoryRecords a, r.Enclosed a := by
  intro r hr
  obtain ⟨i, hi⟩ := List.mem_iff_getElem?.1 hr
  obtain ⟨r₀, datum, hr₀, hdatum, rfl⟩ := Record.getElem?_attachAll hfits List.length_mapIdx hi
  rw [List.getElem?_mapIdx, hdatum] at hr₀
  have hvalue : r₀.values.get a = (datum.values.get a).getD Scalar.nan := by
    rcases ha with rfl | rfl <;> cases hr₀ <;> rfl
  exact Record.enclosed_attach (hvalue ▸ h datum (List.mem_of_getElem? hdatum))

theorem enclosed_pointRecords {a : Axis} (ha : a = .x ∨ a = .y)
    (h : ∀ datum ∈ d.data, (datum.bounds.get a).Encloses ((datum.values.get a).getD Scalar.nan)) :
    ∀ r ∈ d.pointRecords, r.Enclosed a := by
  intro r hr
  obtain ⟨i, hi⟩ := List.mem_iff_getElem?.1 hr
  have hlength : (Record.attachAll .x d.data 0 (d.data.map fun datum =>
      Record.ofValues ⟨datum.values.x.getD Scalar.nan, datum.values.y.getD Scalar.nan, Scalar.nan⟩)).length =
        d.data.length := by
    simp [Record.length_attachAll]
  obtain ⟨r₁, datum, hr₁, hdatum, rfl⟩ := Record.getElem?_attachAll hfits hlength hi
  obtain ⟨r₀, datum', hr₀, hdatum', rfl⟩ := Record.getElem?_attachAll hfits (List.length_map _) hr₁
  cases hdatum.symm.trans hdatum'
  rw [List.getElem?_map, hdatum] at hr₀
  cases hr₀
  have henclosed := h datum (List.mem_of_getElem? hdatum)
  rcases ha with rfl | rfl
  · exact (Record.enclosed_attach henclosed).attach (by decide) datum
  · exact Record.enclosed_attach henclosed

theorem enclosed_radialRecords (h : ∀ datum ∈ d.data, datum.bounds.r.Encloses (radialValue datum)) :
    ∀ r ∈ d.radialRecords, r.Enclosed .r := by
  intro r hr
  obtain ⟨i, hi⟩ := List.mem_iff_getElem?.1 hr
  obtain ⟨r₀, datum, hr₀, hdatum, rfl⟩ := Record.getElem?_attachAll hfits List.length_mapIdx hi
  rw [List.getElem?_mapIdx, hdatum] at hr₀
  cases hr₀
  exact Record.enclosed_attach (h datum (List.mem_of_getElem? hdatum))

end Dataset

end Whisker
