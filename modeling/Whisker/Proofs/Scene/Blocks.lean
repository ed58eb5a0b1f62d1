import Mathlib.Algebra.Order.Group.Nat
import Whisker.Scene

/-!
# Lines with gaps

The line of a dataset joins each point to the next one where both are finite, and the area under it is cut into one
polygon for each block of neighbouring finite points, as long as it can be. The scan that finds the blocks is followed
here along the gaps of the list: a point that is not finite, or a whole block up to the next such point.
-/

namespace Whisker.Scene

open Scalar (isFinite isPositive)

variable {α : Type} [Scalar α] {p : α × α} {points run rest : List (α × α)}

def isSolid (p : α × α) : Bool := isFinite p.1 && isFinite p.2

/-- A list does not go on with a finite point. -/
def Stops (rest : List (α × α)) : Prop := ∀ p ∈ rest.head?, isSolid p = false

theorem blocks_gap (h : isSolid p = false) (points : List (α × α)) : blocks (p :: points) = blocks points := by
  unfold isSolid at h
  cases points with
  | nil => simp [blocks, h]
  | cons q points => simp [blocks, h]

/-- A run of solid points up to a gap is a block. -/
theorem blocks_run (hrun : ∀ p ∈ run, isSolid p = true) (hne : run ≠ []) (hrest : Stops rest) :
    blocks (run ++ rest) = run :: blocks rest := by
  induction run with
  | nil => exact absurd rfl hne
  | cons p run ih =>
    obtain ⟨hp, hrun⟩ := List.forall_mem_cons.1 hrun
    unfold isSolid at hp
    cases run with
    | nil =>
      cases rest with
      | nil => simp [blocks, hp]
      | cons q rest =>
        have hq : (isFinite q.1 && isFinite q.2) = false := hrest q rfl
        rw [List.singleton_append, blocks, hp, if_pos rfl]
        simp only [hq, Bool.false_eq_true, if_false]
    | cons q run =>
      have hq : (isFinite q.1 && isFinite q.2) = true := hrun q List.mem_cons_self
      have ih := ih hrun (List.cons_ne_nil _ _)
      rw [List.cons_append] at ih
      rw [List.cons_append, List.cons_append, blocks, hp, if_pos rfl]
      simp only [hq, if_true, ih]

/-- A list of points is taken apart from the front: a point that is not finite, or all finite points up to the next one
that is not. -/
theorem gapInduction {motive : List (α × α) → Prop} (nil : motive [])
    (gap : ∀ p points, isSolid p = false → motive points → motive (p :: points))
    (run : ∀ run rest, run ≠ [] → (∀ p ∈ run, isSolid p = true) → Stops rest → motive rest → motive (run ++ rest))
    (points : List (α × α)) : motive points := by
  -- Beside the list the rest after its first run is kept, for a point that makes this run longer.
  suffices h : motive points ∧ ∃ first rest, points = first ++ rest ∧ (∀ p ∈ first, isSolid p = true) ∧ Stops rest ∧
      motive rest from h.1
  induction points with
  | nil => exact ⟨nil, [], [], rfl, List.forall_mem_nil _, nofun, nil⟩
  | cons p points ih =>
    obtain ⟨hpoints, first, rest, rfl, hfirst, hstops, hrest⟩ := ih
    cases hp : isSolid p with
    | false =>
      have hall := gap p _ hp hpoints
      refine ⟨hall, [], p :: (first ++ rest), rfl, List.forall_mem_nil _, ?_, hall⟩
      rintro q ⟨⟩
      exact hp
    | true =>
      have hmore : ∀ q ∈ p :: first, isSolid q = true := List.forall_mem_cons.2 ⟨hp, hfirst⟩
      exact ⟨run (p :: first) rest (List.cons_ne_nil _ _) hmore hstops hrest, p :: first, rest, rfl, hmore, hstops, hrest⟩

def joints (points : List (α × α)) : List ((α × α) × (α × α)) :=
  (points.zip points.tail).filter fun (p, q) => isSolid p && isSolid q

def segment (style : LineStyle α) (joint : (α × α) × (α × α)) : Line α :=
  ⟨joint.1.1, joint.1.2, joint.2.1, joint.2.2, style.width, style.color⟩

omit [Scalar α] in
/-- The segments of a block join its neighbours. -/
theorem segments_eq (style : LineStyle α) (block : List (α × α)) :
    segments style block = (block.zip block.tail).map (segment style) := by
  rw [segments, ← List.map_uncurry_zip_eq_zipWith]
  rfl

theorem joints_gap (h : isSolid p = false) (points : List (α × α)) : joints (p :: points) = joints points := by
  cases points with
  | nil => rfl
  | cons q points => simp [joints, h]

/-- A run joins its neighbours, and nothing joins it to what follows the gap. -/
theorem joints_run (hrun : ∀ p ∈ run, isSolid p = true) (hrest : Stops rest) :
    joints (run ++ rest) = run.zip run.tail ++ joints rest := by
  induction run with
  | nil => rfl
  | cons p run ih =>
    obtain ⟨hp, hrun⟩ := List.forall_mem_cons.1 hrun
    cases run with
    | nil =>
      cases rest with
      | nil => rfl
      | cons q rest => simp [joints, show isSolid q = false from hrest q rfl]
    | cons q run =>
      have ih := ih hrun
      simp only [joints, List.cons_append, List.tail_cons, List.zip_cons_cons] at ih ⊢
      rw [List.filter_cons_of_pos (by simp [hp, hrun q List.mem_cons_self]), ih]

/-- The segments of the blocks are those between neighbours that are finite: none leads across a gap, and none is missing. -/
theorem flatMap_segments (style : LineStyle α) (points : List (α × α)) :
    (blocks points).flatMap (segments style) = (joints points).map (segment style) := by
  induction points using gapInduction with
  | nil => rfl
  | gap p points hp ih => rw [blocks_gap hp, joints_gap hp, ih]
  | run run rest hne hrun hrest ih =>
    rw [blocks_run hrun hne hrest, joints_run hrun hrest, List.flatMap_cons, List.map_append, ih, segments_eq]

def SolidAt (points : List (α × α)) (k : ℕ) : Prop := ∃ p, points[k]? = some p ∧ isSolid p = true

/-- The points from one position up to another one are finite, and neither the one before nor the one after them is. -/
structure IsBlock (points : List (α × α)) (i j : ℕ) : Prop where
  nonempty : i < j
  solid : ∀ k, i ≤ k → k < j → SolidAt points k
  starts : ∀ k, k + 1 = i → ¬SolidAt points k
  stops : ¬SolidAt points j

/-- Positions count from the start of the whole line. -/
theorem solidAt_append (front rest : List (α × α)) (k : ℕ) :
    SolidAt (front ++ rest) (k + front.length) ↔ SolidAt rest k := by
  rw [SolidAt, List.getElem?_append_right (Nat.le_add_left _ _), Nat.add_sub_cancel]
  rfl

theorem SolidAt.lt_length {k : ℕ} (h : SolidAt points k) : k < points.length := by
  obtain ⟨p, hp, -⟩ := h
  exact (List.getElem?_eq_some_iff.1 hp).1

theorem solidAt_run (hrun : ∀ p ∈ run, isSolid p = true) {k : ℕ} (hk : k < run.length) : SolidAt (run ++ rest) k := by
  refine ⟨run[k], ?_, hrun _ (List.getElem_mem hk)⟩
  rw [List.getElem?_append_left hk, List.getElem?_eq_getElem hk]

theorem Stops.not_solidAt (h : Stops rest) : ¬SolidAt rest 0 := by
  rintro ⟨p, hp, hsolid⟩
  rw [← List.head?_eq_getElem?] at hp
  exact Bool.false_ne_true ((h p hp).symm.trans hsolid)

def shift (n : ℕ) (span : ℕ × ℕ) : ℕ × ℕ := (span.1 + n, span.2 + n)

/-- Behind some points the blocks are those of the rest, moved along, if none of them is cut off. -/
theorem isBlock_append {front rest : List (α × α)} {i j : ℕ} (hi : front.length ≤ i)
    (hcut : ∀ k, k + 1 = front.length → SolidAt (front ++ rest) k → ¬SolidAt rest 0) :
    IsBlock (front ++ rest) i j ↔ ∃ span, IsBlock rest span.1 span.2 ∧ shift front.length span = (i, j) := by
  constructor
  · intro h
    obtain ⟨i, rfl⟩ := Nat.exists_eq_add_of_le' hi
    obtain ⟨j, rfl⟩ := Nat.exists_eq_add_of_le' (hi.trans h.nonempty.le)
    refine ⟨(i, j), ⟨by have := h.nonempty; omega, fun k hik hkj => ?_, fun k hk => ?_, ?_⟩, rfl⟩
    · exact (solidAt_append front rest k).1 (h.solid _ (by omega) (by omega))
    · exact fun hs => h.starts (k + front.length) (by omega) ((solidAt_append front rest k).2 hs)
    · exact fun hs => h.stops ((solidAt_append front rest j).2 hs)
  · rintro ⟨⟨i', j'⟩, h, heq⟩
    obtain ⟨rfl, rfl⟩ := Prod.mk.inj heq
    refine ⟨Nat.add_lt_add_right h.nonempty _, fun k hik hkj => ?_, fun k hk hs => ?_, ?_⟩
    · obtain ⟨k, rfl⟩ := Nat.exists_eq_add_of_le' (hi.trans hik)
      exact (solidAt_append front rest k).2 (h.solid k (by omega) (by omega))
    · cases i' with
      | zero => exact hcut k (by omega) hs (h.solid 0 le_rfl h.nonempty)
      | succ i' =>
        obtain rfl : k = i' + front.length := by omega
        exact h.starts i' rfl ((solidAt_append front rest i').1 hs)
    · exact fun hs => h.stops ((solidAt_append front rest j').1 hs)

/-- Behind a gap the blocks are those of the rest, moved by one. -/
theorem isBlock_gap (hp : isSolid p = false) {i j : ℕ} :
    IsBlock (p :: points) i j ↔ ∃ span, IsBlock points span.1 span.2 ∧ shift 1 span = (i, j) := by
  have hfirst : ¬SolidAt (p :: points) 0 := Stops.not_solidAt fun q hq => Option.some.inj hq ▸ hp
  have happend (hi : 1 ≤ i) : IsBlock ([p] ++ points) i j ↔ ∃ span, IsBlock points span.1 span.2 ∧ shift 1 span = (i, j) :=
    isBlock_append hi fun k hk hs => absurd ((show k = 0 from Nat.succ.inj hk) ▸ hs) hfirst
  constructor
  · intro h
    have hi : 1 ≤ i := Nat.pos_of_ne_zero fun hi => hfirst (h.solid 0 hi.le (hi ▸ h.nonempty))
    exact (happend hi).1 h
  · rintro ⟨span, hspan, heq⟩
    have hi : 1 ≤ i := (Nat.le_add_left 1 span.1).trans_eq (congrArg Prod.fst heq)
    exact (happend hi).2 ⟨span, hspan, heq⟩

/-- Behind a run the blocks are the run and those of the rest, moved by its length. -/
theorem isBlock_run (hrun : ∀ p ∈ run, isSolid p = true) (hne : run ≠ []) (hrest : Stops rest) {i j : ℕ} :
    IsBlock (run ++ rest) i j ↔
      (0, run.length) = (i, j) ∨ ∃ span, IsBlock rest span.1 span.2 ∧ shift run.length span = (i, j) := by
  have hafter : ¬SolidAt (run ++ rest) run.length := fun hs =>
    hrest.not_solidAt ((solidAt_append run rest 0).1 (by rwa [Nat.zero_add]))
  have happend (hi : run.length ≤ i) :
      IsBlock (run ++ rest) i j ↔ ∃ span, IsBlock rest span.1 span.2 ∧ shift run.length span = (i, j) :=
    isBlock_append hi fun _ _ _ => hrest.not_solidAt
  constructor
  · intro h
    by_cases hi : run.length ≤ i
    · exact .inr ((happend hi).1 h)
    · -- A block that starts in the run is the run.
      have hzero : i = 0 := by
        by_contra hpos
        exact h.starts (i - 1) (by omega) (solidAt_run hrun (by omega))
      have hle : j ≤ run.length := not_lt.1 fun hj => hafter (h.solid _ (by omega) hj)
      have hge : run.length ≤ j := not_lt.1 fun hj => h.stops (solidAt_run hrun hj)
      exact .inl (Prod.ext hzero.symm (le_antisymm hge hle))
  · rintro (heq | ⟨span, hspan, heq⟩)
    · obtain ⟨rfl, rfl⟩ := Prod.mk.inj heq
      exact ⟨List.length_pos_iff.2 hne, fun k _ hk => solidAt_run hrun hk, nofun, hafter⟩
    · have hi : run.length ≤ i := (Nat.le_add_left _ span.1).trans_eq (congrArg Prod.fst heq)
      exact (happend hi).2 ⟨span, hspan, heq⟩

def cut (points : List (α × α)) (span : ℕ × ℕ) : List (α × α) := points.extract span.1 span.2

omit [Scalar α] in
/-- To move a span is to cut out the same points further on. -/
theorem cut_shift (front rest : List (α × α)) (span : ℕ × ℕ) :
    cut (front ++ rest) (shift front.length span) = cut rest span := by
  rw [cut, cut, List.extract_eq_take_drop, List.extract_eq_take_drop, shift, Nat.add_sub_add_right, Nat.add_comm,
    List.drop_length_add_append]

/-- Spans in order, with a gap between any two of them: all those with a property. -/
structure Spans (P : ℕ → ℕ → Prop) (spans : List (ℕ × ℕ)) : Prop where
  ordered : spans.Pairwise fun s t => s.2 < t.1
  mem_iff : ∀ i j, (i, j) ∈ spans ↔ P i j

/-- The scan cuts a list into its blocks, in order. -/
theorem exists_spans (points : List (α × α)) :
    ∃ spans, Spans (IsBlock points) spans ∧ blocks points = spans.map (cut points) := by
  induction points using gapInduction with
  | nil =>
    refine ⟨[], ⟨.nil, fun i j => iff_of_false List.not_mem_nil fun h => ?_⟩, rfl⟩
    exact absurd (h.solid i le_rfl h.nonempty).lt_length (Nat.not_lt_zero i)
  | gap p points hp ih =>
    obtain ⟨spans, hspans, hblocks⟩ := ih
    refine ⟨spans.map (shift 1), ⟨?_, fun i j => ?_⟩, ?_⟩
    · exact List.pairwise_map.2 (hspans.ordered.imp Nat.succ_lt_succ)
    · simp only [List.mem_map, isBlock_gap hp, ← hspans.mem_iff]
    · rw [blocks_gap hp, hblocks, List.map_map]
      exact List.map_congr_left fun span _ => (cut_shift [p] points span).symm
  | run run rest hne hrun hrest ih =>
    obtain ⟨spans, hspans, hblocks⟩ := ih
    refine ⟨(0, run.length) :: spans.map (shift run.length), ⟨?_, fun i j => ?_⟩, ?_⟩
    · -- The rest starts with a gap, so its first block starts behind it.
      have hgap (span : ℕ × ℕ) (hspan : span ∈ spans) : 0 < span.1 := by
        have h := (hspans.mem_iff span.1 span.2).1 hspan
        exact Nat.pos_of_ne_zero fun hzero => hrest.not_solidAt (h.solid 0 hzero.le (hzero ▸ h.nonempty))
      refine List.pairwise_cons.2 ⟨List.forall_mem_map.2 fun span hspan => ?_, List.pairwise_map.2 ?_⟩
      · exact Nat.lt_add_of_pos_left (hgap span hspan)
      · exact hspans.ordered.imp fun h => Nat.add_lt_add_right h run.length
    · rw [isBlock_run hrun hne hrest]
      simp only [List.mem_cons, List.mem_map, ← hspans.mem_iff, @eq_comm _ (i, j) (0, run.length)]
    · have hfirst : cut (run ++ rest) (0, run.length) = run := by
        rw [cut, List.extract_eq_take_drop, List.drop_zero, Nat.sub_zero, List.take_left]
      rw [blocks_run hrun hne hrest, hblocks, List.map_cons, List.map_map, hfirst]
      exact congrArg _ (List.map_congr_left fun span _ => (cut_shift run rest span).symm)

end Whisker.Scene
