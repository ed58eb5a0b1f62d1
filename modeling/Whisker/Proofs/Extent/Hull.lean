import Whisker.Proofs.Scalar.Lesser
import Whisker.Record

/-!
# Unions of extents

The hull of some extents is their union, one after the other. In an arithmetic that orders the finite numbers each end
of it is an end of one of the extents and the outermost of all, and extents may be united in any groups.
-/

namespace Whisker

variable {α : Type} [Scalar α] {key : α → ℚ}

open Scalar (isFinite isNaN nan OrderedBy)

namespace Bound

theorem step_eq (hkey : OrderedBy key) {u v : α} (hu : isNaN u = false) (hv : isFinite v = true) (w : α) :
    (if isNaN u || isNaN v then nan else w) = w := by
  rw [hu, hkey.isNaN_eq hv]
  rfl

variable (hkey : OrderedBy key) {b : Bound α} {t : α} (hb : ∀ u ∈ b.entries, isFinite u = true) (ht : t ∈ b.entries)

include hkey hb ht

/-- The smallest of finite entries is one of them, and no other one is smaller. -/
theorem least_mem : b.least ∈ b.entries ∧ key b.least ≤ key t := by
  refine foldl_lesser_mem (fun {u v} hu hv => ?_) (fun {v} hv => ?_) hb ht
  · rw [step_eq hkey (hkey.isNaN_eq hu) hv, hkey.min_eq hu hv]
  · rw [step_eq hkey hkey.isNaN_inf hv, hkey.min_inf hv]

theorem greatest_mem : b.greatest ∈ b.entries ∧ key t ≤ key b.greatest := by
  suffices h : b.greatest ∈ b.entries ∧ (OrderDual.toDual ∘ key) b.greatest ≤ (OrderDual.toDual ∘ key) t from h
  refine foldl_lesser_mem (fun {u v} hu hv => ?_) (fun {v} hv => ?_) hb ht
  · rw [step_eq hkey (hkey.isNaN_eq hu) hv, hkey.max_eq hu hv]
  · rw [step_eq hkey hkey.isNaN_negInf hv, hkey.max_negInf hv]

end Bound

namespace Extent

structure IsFinite (e : Extent α) : Prop where
  low : isFinite e.low = true
  high : isFinite e.high = true

/-- The smallest extent with all given ones. -/
def hull (es : List (Extent α)) : Option (Extent α) := es.foldl extend none

/-- Extending by extents moves each end on its own. -/
theorem foldl_extend_some (es : List (Extent α)) (e : Extent α) :
    es.foldl extend (some e) = some ⟨(es.map low).foldl Scalar.min e.low, (es.map high).foldl Scalar.max e.high⟩ := by
  induction es generalizing e with
  | nil => rfl
  | cons f es ih => exact ih (e.union f)

theorem hull_cons (e : Extent α) (es : List (Extent α)) :
    hull (e :: es) = some ⟨(es.map low).foldl Scalar.min e.low, (es.map high).foldl Scalar.max e.high⟩ :=
  foldl_extend_some es e

theorem hull_eq_none {es : List (Extent α)} : hull es = none ↔ es = [] := by
  cases es with
  | nil => exact ⟨fun _ => rfl, fun _ => rfl⟩
  | cons e es => simp [hull_cons]

theorem merge_pair (e f : Option (Extent α)) : merge [e, f] = Option.merge union e f := by
  cases e <;> cases f <;> rfl

theorem ofValues_eq (vs : List α) : ofValues vs = hull ((vs.filter isFinite).map fun v => ⟨v, v⟩) := by
  rw [ofValues, hull, List.foldl_map]

theorem isFinite_ofValue {vs : List α} : ∀ e ∈ (vs.filter isFinite).map fun v => (⟨v, v⟩ : Extent α), e.IsFinite := by
  intro e he
  obtain ⟨v, hv, rfl⟩ := List.mem_map.1 he
  exact ⟨(List.mem_filter.1 hv).2, (List.mem_filter.1 hv).2⟩

variable (hkey : OrderedBy key) {es fs : List (Extent α)} {e f g x y : Extent α}

include hkey

/-- Each end of the hull is an end of one of the extents, and no other one lies beyond it. -/
theorem hull_ends (hes : ∀ e ∈ es, e.IsFinite) (h : hull es = some x) :
    (x.low ∈ es.map low ∧ ∀ v ∈ es.map low, key x.low ≤ key v) ∧
      (x.high ∈ es.map high ∧ ∀ v ∈ es.map high, key v ≤ key x.high) := by
  cases es with
  | nil => cases h
  | cons e es =>
    obtain ⟨he, hes⟩ := List.forall_mem_cons.1 hes
    rw [hull_cons] at h
    cases h
    have hlows : ∀ v ∈ es.map low, isFinite v = true := List.forall_mem_map.2 fun f hf => (hes f hf).low
    have hhighs : ∀ v ∈ es.map high, isFinite v = true := List.forall_mem_map.2 fun f hf => (hes f hf).high
    exact ⟨foldl_lesser hkey.min_eq hlows he.low, foldl_lesser hkey.max_eq hhighs he.high⟩

theorem isFinite_hull (hes : ∀ e ∈ es, e.IsFinite) (h : hull es = some x) : x.IsFinite := by
  obtain ⟨⟨hlow, _⟩, hhigh, _⟩ := hull_ends hkey hes h
  obtain ⟨e, he, hlow⟩ := List.mem_map.1 hlow
  obtain ⟨f, hf, hhigh⟩ := List.mem_map.1 hhigh
  exact ⟨hlow ▸ (hes e he).low, hhigh ▸ (hes f hf).high⟩

/-- Unions may be grouped in any way. -/
theorem union_assoc (he : e.IsFinite) (hf : f.IsFinite) (hg : g.IsFinite) :
    (e.union f).union g = e.union (f.union g) := by
  simp only [union, hkey.min_assoc he.low hf.low hg.low, hkey.max_assoc he.high hf.high hg.high]

theorem foldl_extend_union (hx : x.IsFinite) (hy : y.IsFinite) (hes : ∀ e ∈ es, e.IsFinite) :
    es.foldl extend (some (x.union y)) = (es.foldl extend (some y)).map x.union := by
  induction es generalizing y with
  | nil => rfl
  | cons e es ih =>
    obtain ⟨he, hes⟩ := List.forall_mem_cons.1 hes
    have hye : (y.union e).IsFinite := ⟨hkey.isFinite_min hy.low he.low, hkey.isFinite_max hy.high he.high⟩
    calc (e :: es).foldl extend (some (x.union y)) = es.foldl extend (some (x.union (y.union e))) := by
          rw [← union_assoc hkey hx hy he]
          rfl
      _ = (es.foldl extend (some (y.union e))).map x.union := ih hye hes

/-- The hull of two lists is the union of their hulls. -/
theorem hull_append (hes : ∀ e ∈ es, e.IsFinite) (hfs : ∀ e ∈ fs, e.IsFinite) :
    hull (es ++ fs) = Option.merge union (hull es) (hull fs) := by
  rw [hull, List.foldl_append, ← hull]
  cases hx : hull es with
  | none => cases hf : hull fs <;> exact hf
  | some x =>
    cases fs with
    | nil => rfl
    | cons f fs =>
      obtain ⟨hf, hfs⟩ := List.forall_mem_cons.1 hfs
      rw [List.foldl_cons, extend, foldl_extend_union hkey (isFinite_hull hkey hes hx) hf hfs, hull_cons, foldl_extend_some]
      rfl

/-- Merging the hulls of groups is the hull of all. -/
theorem merge_hulls {groups : List (List (Extent α))} (h : ∀ es ∈ groups, ∀ e ∈ es, e.IsFinite) :
    merge (groups.map hull) = hull groups.flatten := by
  induction groups with
  | nil => rfl
  | cons es groups ih =>
    obtain ⟨hes, hgroups⟩ := List.forall_mem_cons.1 h
    have hparts : (hull es :: groups.map hull).filterMap id = (hull es).toList ++ (groups.map hull).filterMap id := by
      cases hx : hull es <;> simp
    have hfirst : ∀ e ∈ (hull es).toList, e.IsFinite := fun e he => isFinite_hull hkey hes (Option.mem_toList.1 he)
    have hrest : ∀ e ∈ (groups.map hull).filterMap id, e.IsFinite := by
      intro e he
      obtain ⟨o, ho, hoe⟩ := List.mem_filterMap.1 he
      obtain ⟨fs, hfs, rfl⟩ := List.mem_map.1 ho
      exact isFinite_hull hkey (hgroups fs hfs) hoe
    have hflat : ∀ e ∈ groups.flatten, e.IsFinite := by
      intro e he
      obtain ⟨fs, hfs, he⟩ := List.mem_flatten.1 he
      exact hgroups fs hfs e he
    calc merge (hull es :: groups.map hull) = hull ((hull es).toList ++ (groups.map hull).filterMap id) := by
          rw [merge, hparts]
          rfl
      _ = Option.merge union (hull (hull es).toList) (merge (groups.map hull)) := hull_append hkey hfirst hrest
      _ = Option.merge union (hull es) (hull groups.flatten) := by
          rw [ih hgroups]
          cases hull es <;> rfl
      _ = hull (es ++ groups.flatten) := (hull_append hkey hes hflat).symm

end Extent

end Whisker
