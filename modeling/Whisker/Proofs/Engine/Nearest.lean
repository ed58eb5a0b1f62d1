import Whisker.Engine
import Whisker.Proofs.Scalar.Lesser
import Whisker.Proofs.Scalar.Monotone

/-!
# The element under a point

Elements may overlap, and several of them may be equally far from a point, or at a distance that is "not a number". With
the latter above every number the order of distances is total. The element under a point is the first one, by datasets
and then by records, of those that contain the point at the least distance.
-/

namespace Whisker

open Scalar (isFinite isNaN nan)

/-- A distance is at most another one, where "not a number" lies above every number. -/
def AtMost (a b : Float) : Prop := isNaN b = true ∨ a ≤ b

def rank (a : Float) : WithTop ℚ := if isNaN a then ⊤ else Binary.place a

theorem rank_nan : rank nan = ⊤ := rfl

theorem rank_of_ne {a : Float} (h : a ≠ nan) : rank a = Binary.place a := by
  rw [rank, Binary.isNaN_eq_false h, if_neg Bool.false_ne_true]

theorem atMost_iff (a b : Float) : AtMost a b ↔ rank a ≤ rank b := by
  by_cases hb : b = nan
  · rw [hb, rank_nan]
    exact iff_of_true (.inl rfl) le_top
  · have hnumber : AtMost a b ↔ a ≤ b := by
      rw [AtMost, Binary.isNaN_eq_false hb]
      exact or_iff_right Bool.false_ne_true
    rw [hnumber, rank_of_ne hb]
    by_cases ha : a = nan
    · rw [ha, rank_nan]
      exact iff_of_false (Binary.not_nan_le b) (not_le.2 (WithTop.coe_lt_top _))
    · rw [rank_of_ne ha, WithTop.coe_le_coe, Binary.le_iff_place ha hb]

theorem nearer_iff (a b : Float) : Engine.nearer a b = true ↔ rank a < rank b := by
  rw [Engine.nearer, Bool.or_eq_true, Bool.and_eq_true, Bool.not_eq_true', decide_eq_true_eq]
  by_cases ha : a = nan
  · rw [ha, rank_nan]
    refine iff_of_false ?_ not_top_lt
    rintro (hlt | ⟨-, hnumber⟩)
    · exact Binary.not_nan_lt b hlt
    · cases hnumber
  · rw [rank_of_ne ha, Binary.isNaN_eq_false ha]
    by_cases hb : b = nan
    · rw [hb, rank_nan]
      exact iff_of_true (.inr ⟨rfl, rfl⟩) (WithTop.coe_lt_top _)
    · rw [rank_of_ne hb, Binary.isNaN_eq_false hb, WithTop.coe_lt_coe, Binary.lt_iff_place ha hb]
      exact or_iff_left fun h => Bool.false_ne_true h.1

/-- A position comes before another one: in an earlier dataset, or in the same one with an earlier record. -/
def Precedes (p q : ℕ × ℕ) : Prop := p.1 < q.1 ∨ p.1 = q.1 ∧ p.2 < q.2

theorem Precedes.asymm {p q : ℕ × ℕ} (h : Precedes p q) : ¬Precedes q p := by
  unfold Precedes at *
  omega

theorem pairwise_zipIdx {β : Type} (xs : List β) : xs.zipIdx.Pairwise fun p q => p.2 < q.2 := by
  have h : (xs.zipIdx.map Prod.snd).Pairwise (· < ·) := by
    rw [List.zipIdx_map_snd]
    exact List.pairwise_lt_range'
  exact List.pairwise_map.1 h

namespace Layout

section

variable {α : Type}

/-- The elements of a layout with their positions: the datasets that are shown are numbered, and in each the records. -/
def placed (l : Layout α) : List ((ℕ × ℕ) × Element α) :=
  l.datasets.zipIdx.flatMap fun (s, d) => s.elements.zipIdx.map fun (e, i) => ((d, i), e)

theorem map_placed (l : Layout α) : l.placed.map Prod.snd = l.elements := by
  have hdatasets : l.elements = (l.datasets.zipIdx.map Prod.fst).flatMap DatasetLayout.elements := by
    rw [List.zipIdx_map_fst]
    rfl
  rw [hdatasets, List.flatMap_map, placed, List.map_flatMap]
  congr 1
  funext s
  rw [List.map_map]
  exact List.zipIdx_map_fst 0 s.1.elements

def At (l : Layout α) (p : ℕ × ℕ) (e : Element α) : Prop := ∃ s, l.datasets[p.1]? = some s ∧ s.elements[p.2]? = some e

theorem mem_placed (l : Layout α) (p : ℕ × ℕ) (e : Element α) : (p, e) ∈ l.placed ↔ l.At p e := by
  simp only [placed, At, List.mem_flatMap, List.mem_map, Prod.exists, List.mk_mem_zipIdx_iff_getElem?]
  constructor
  · rintro ⟨s, d, hs, f, i, hf, heq⟩
    cases heq
    exact ⟨s, hs, hf⟩
  · rintro ⟨s, hs, he⟩
    exact ⟨s, p.1, hs, e, p.2, he, rfl⟩

theorem At.mem_elements {l : Layout α} {p : ℕ × ℕ} {e : Element α} (h : l.At p e) : e ∈ l.elements :=
  l.map_placed ▸ List.mem_map_of_mem ((l.mem_placed p e).2 h)

/-- Elements are listed by datasets, and those of a dataset by records. -/
theorem pairwise_placed (l : Layout α) : l.placed.Pairwise fun p q => Precedes p.1 q.1 := by
  rw [placed, List.pairwise_flatMap]
  constructor
  · rintro ⟨s, d⟩ -
    exact List.pairwise_map.2 ((pairwise_zipIdx s.elements).imp fun h => .inr ⟨rfl, h⟩)
  · refine (pairwise_zipIdx l.datasets).imp fun {s t} hlt p hp q hq => .inl ?_
    obtain ⟨_, -, rfl⟩ := List.mem_map.1 hp
    obtain ⟨_, -, rfl⟩ := List.mem_map.1 hq
    exact hlt

end

/-- An element contains a point at the least distance, and is the first of those that do. -/
structure IsHit (l : Layout Float) (x y : Float) (p : ℕ × ℕ) (e : Element Float) : Prop where
  here : l.At p e
  contains : e.contains x y = true
  nearest : ∀ q f, l.At q f → f.contains x y = true → AtMost (e.distance x y) (f.distance x y)
  first : ∀ q f, l.At q f → f.contains x y = true → AtMost (f.distance x y) (e.distance x y) → p = q ∨ Precedes p q

variable {l : Layout Float} {x y : Float}

/-- There is at most one such element. -/
theorem IsHit.unique {p q : ℕ × ℕ} {e f : Element Float} (he : l.IsHit x y p e) (hf : l.IsHit x y q f) : e = f := by
  have hpq := he.first q f hf.here hf.contains (hf.nearest p e he.here he.contains)
  have hqp := hf.first p e he.here he.contains (he.nearest q f hf.here hf.contains)
  obtain rfl : p = q := by
    rcases hpq with rfl | hlt
    · rfl
    · exact (hqp.resolve_right hlt.asymm).symm
  obtain ⟨s, hs, he⟩ := he.here
  obtain ⟨t, ht, hf⟩ := hf.here
  rw [hs] at ht
  cases ht
  rw [he] at hf
  exact Option.some.inj hf

def hits (l : Layout Float) (x y : Float) : List ((ℕ × ℕ) × Element Float) := l.placed.filter fun p => p.2.contains x y

theorem mem_hits {p : ℕ × ℕ} {e : Element Float} : (p, e) ∈ l.hits x y ↔ l.At p e ∧ e.contains x y = true := by
  rw [hits, List.mem_filter, mem_placed]

theorem map_hits : (l.hits x y).map Prod.snd = l.elements.filter (·.contains x y) := by
  rw [← l.map_placed, List.filter_map]
  rfl

theorem pairwise_hits : (l.hits x y).Pairwise fun p q => Precedes p.1 q.1 := l.pairwise_placed.filter _

/-- The nearest of the hits is nearer than those before it, and as near as those after it. -/
theorem exists_split_of_nearest? {e : Element Float}
    (h : Engine.nearest? (·.distance x y) (l.elements.filter (·.contains x y)) = some e) :
    ∃ p earlier later, l.hits x y = earlier ++ (p, e) :: later ∧
      (∀ q ∈ earlier, rank (e.distance x y) < rank (q.2.distance x y)) ∧
      ∀ q ∈ later, rank (e.distance x y) ≤ rank (q.2.distance x y) := by
  rw [← map_hits] at h
  cases hlist : (l.hits x y).map Prod.snd with
  | nil =>
    rw [hlist] at h
    cases h
  | cons v vs =>
    have hstep : (fun best f : Element Float => if Engine.nearer (f.distance x y) (best.distance x y) then f else best) =
        lesser fun f => rank (f.distance x y) := by
      funext best f
      simp only [lesser, nearer_iff]
    rw [hlist, Engine.nearest?, hstep, Option.some.injEq] at h
    obtain ⟨before, after, hsplit, hbefore, hafter⟩ := foldl_lesser_split (fun f => rank (f.distance x y)) v vs
    rw [h] at hsplit hbefore hafter
    obtain ⟨earlier, rest, hhits, rfl, hrest⟩ := List.map_eq_append_iff.1 (hlist.trans hsplit)
    obtain ⟨⟨p, f⟩, later, rfl, rfl, rfl⟩ := List.map_eq_cons_iff.1 hrest
    exact ⟨p, earlier, later, hhits, fun q hq => hbefore q.2 (List.mem_map_of_mem hq),
      fun q hq => hafter q.2 (List.mem_map_of_mem hq)⟩

/-- What the search answers is the first of the nearest hits. -/
theorem isHit_of_nearest? {e : Element Float}
    (h : Engine.nearest? (·.distance x y) (l.elements.filter (·.contains x y)) = some e) : ∃ p, l.IsHit x y p e := by
  obtain ⟨p, earlier, later, hhits, hbefore, hafter⟩ := exists_split_of_nearest? h
  have hordered := l.pairwise_hits (x := x) (y := y)
  rw [hhits, List.pairwise_append, List.pairwise_cons] at hordered
  obtain ⟨-, ⟨hlater, -⟩, -⟩ := hordered
  have hplaces {q f} (hf : (q, f) ∈ l.hits x y) :
      rank (e.distance x y) < rank (f.distance x y) ∨
        rank (e.distance x y) ≤ rank (f.distance x y) ∧ (p = q ∨ Precedes p q) := by
    rw [hhits, List.mem_append, List.mem_cons] at hf
    obtain hf | hf | hf := hf
    · exact .inl (hbefore (q, f) hf)
    · cases hf
      exact .inr ⟨le_rfl, .inl rfl⟩
    · exact .inr ⟨hafter (q, f) hf, .inr (hlater (q, f) hf)⟩
  obtain ⟨hhere, hcontains⟩ := mem_hits.1 (hhits ▸ List.mem_append_right _ List.mem_cons_self)
  refine ⟨p, hhere, hcontains, fun q f hf hfc => ?_, fun q f hf hfc hle => ?_⟩
  · rw [atMost_iff]
    exact (hplaces (mem_hits.2 ⟨hf, hfc⟩)).elim le_of_lt And.left
  · rw [atMost_iff] at hle
    exact ((hplaces (mem_hits.2 ⟨hf, hfc⟩)).resolve_left hle.not_gt).2

end Layout

namespace Engine

/-- The search answers nothing exactly if there is nothing to choose from. -/
theorem nearest?_eq_none {distance : Element Float → Float} {es : List (Element Float)} :
    nearest? distance es = none ↔ es = [] := by
  cases es with
  | nil => exact ⟨fun _ => rfl, fun _ => rfl⟩
  | cons e es => exact ⟨nofun, nofun⟩

/-- Nothing is under a point exactly if the point is not finite or no element contains it. Otherwise the element under it is
the first of those that contain it at the least distance. -/
theorem hit_is_first_of_nearest (e : Engine Float) (x y : Float) :
    (e.elementAt? x y = none ↔
      x.isFinite = false ∨ y.isFinite = false ∨ ∀ element ∈ e.layout.elements, element.contains x y = false) ∧
    ∀ ref, e.elementAt? x y = some ref ↔
      x.isFinite = true ∧ y.isFinite = true ∧ ∃ p element, e.layout.IsHit x y p element ∧ element.ref = ref := by
  by_cases hfinite : x.isFinite = true ∧ y.isFinite = true
  · obtain ⟨hx, hy⟩ := hfinite
    have hat : e.elementAt? x y =
        (nearest? (·.distance x y) (e.layout.elements.filter (·.contains x y))).map Element.ref :=
      if_pos (Bool.and_eq_true_iff.2 ⟨hx, hy⟩)
    rw [hat, hx, hy]
    cases hnearest : nearest? (·.distance x y) (e.layout.elements.filter (·.contains x y)) with
    | none =>
      have hnone : ∀ element ∈ e.layout.elements, element.contains x y = false := fun element helement =>
        Bool.not_eq_true _ ▸ List.filter_eq_nil_iff.1 (nearest?_eq_none.1 hnearest) element helement
      refine ⟨iff_of_true rfl (.inr (.inr hnone)), fun ref => iff_of_false nofun ?_⟩
      rintro ⟨-, -, p, element, hhit, -⟩
      exact Bool.false_ne_true ((hnone element hhit.here.mem_elements).symm.trans hhit.contains)
    | some element =>
      obtain ⟨p, hhit⟩ := Layout.isHit_of_nearest? hnearest
      refine ⟨iff_of_false nofun ?_, fun ref => ⟨fun href => ?_, ?_⟩⟩
      · rintro (h | h | hnone)
        · cases h
        · cases h
        · exact Bool.false_ne_true ((hnone element hhit.here.mem_elements).symm.trans hhit.contains)
      · exact ⟨rfl, rfl, p, element, hhit, Option.some.inj href⟩
      · rintro ⟨-, -, q, other, hother, rfl⟩
        rw [hhit.unique hother]
        rfl
  · have hat : e.elementAt? x y = none := if_neg fun h => hfinite (Bool.and_eq_true_iff.1 h)
    rw [hat]
    refine ⟨iff_of_true rfl ?_, fun ref => iff_of_false nofun fun h => hfinite ⟨h.1, h.2.1⟩⟩
    rw [Decidable.not_and_iff_or_not, Bool.not_eq_true, Bool.not_eq_true] at hfinite
    exact hfinite.imp_right .inl

end Engine

end Whisker
