import Whisker.Proofs.Extent.Split
import Whisker.Proofs.Record.Edits
import Whisker.Proofs.Record.Positions

/-!
# Which bounds an extent covers

The extent of error bars goes from the lowest lower end to the highest upper end, and a missing side of a bar ends at
the value. So it always starts below every lower bound and stops above every upper bound. Bounds that lie the other way
round are covered only as far as other bars, or their own, reach over them.
-/

namespace Whisker

open Binary (value)
open Scalar (isFinite)

/-- A record made of values by setting values and attaching bounds. -/
inductive Record.Parsed {α : Type} [Scalar α] : Record α → Prop where
  | ofValues (values : PerAxis α) : Parsed (.ofValues values)
  | setValue {r : Record α} (a : Axis) (v : α) : Parsed r → Parsed (r.setValue a v)
  | attach {r : Record α} (a : Axis) (d : Datum α) : Parsed r → Parsed (r.attach a d)

namespace Record.Parsed

variable {α : Type} [Scalar α] {r : Record α}

theorem exists_edits (h : r.Parsed) : ∃ values edits, r = edited values edits := by
  induction h with
  | ofValues values => exact ⟨values, [], rfl⟩
  | setValue a v _ ih =>
    obtain ⟨values, edits, rfl⟩ := ih
    exact ⟨values, edits ++ [Edit.setValue a v], (edited_concat values edits (.setValue a v)).symm⟩
  | attach a d _ ih =>
    obtain ⟨values, edits, rfl⟩ := ih
    exact ⟨values, edits ++ [Edit.attach a d], (edited_concat values edits (.attach a d)).symm⟩

/-- The ends of a reach are those of its bounds, around some value for a missing side. -/
theorem reach_eq (h : r.Parsed) (a : Axis) : ∃ v, r.reach.get a = .around v (r.reach.get a).bounds := by
  obtain ⟨values, edits, rfl⟩ := h.exists_edits
  rw [reach_edited]
  exact ⟨_, rfl⟩

/-- Attaching bounds keeps records parsed. -/
theorem attachAll {a : Axis} {data : List (Datum α)} {start : UInt64} {rs : List (Record α)} (h : ∀ r ∈ rs, r.Parsed) :
    ∀ r ∈ Record.attachAll a data start rs, r.Parsed := by
  intro r hr
  obtain ⟨i, hi⟩ := List.mem_iff_getElem?.1 hr
  rw [Record.attachAll_eq, List.getElem?_mapIdx] at hi
  obtain ⟨r₀, hr₀, rfl⟩ := Option.map_eq_some_iff.1 hi
  have hparsed : r₀.Parsed := h r₀ (List.mem_of_getElem? hr₀)
  cases data[(start.toNat + i) % UInt64.size]? with
  | none => exact hparsed
  | some d => exact hparsed.attach a d

end Record.Parsed

/-- However a dataset is read, its records are parsed ones. -/
theorem Dataset.parsed_records {α : Type} [Scalar α] (d : Dataset α) :
    (∀ a, ∀ r ∈ d.categoryRecords a, r.Parsed) ∧ (∀ r ∈ d.pointRecords, r.Parsed) ∧ ∀ r ∈ d.radialRecords, r.Parsed := by
  refine ⟨fun a => .attachAll fun r hr => ?_, .attachAll (.attachAll fun r hr => ?_), .attachAll fun r hr => ?_⟩
  · obtain ⟨i, hi, rfl⟩ := List.mem_mapIdx.1 hr
    cases a <;> exact .ofValues _
  · obtain ⟨datum, _, rfl⟩ := List.mem_map.1 hr
    exact .ofValues _
  · obtain ⟨i, hi, rfl⟩ := List.mem_mapIdx.1 hr
    exact .ofValues _

namespace Bounds

variable {α : Type}

def lowerEntries (b : Bounds α) : List α := b.lower.elim [] Bound.entries

def upperEntries (b : Bounds α) : List α := b.upper.elim [] Bound.entries

theorem mem_entries {b : Bounds α} {t : α} : t ∈ b.entries ↔ t ∈ b.lowerEntries ∨ t ∈ b.upperEntries := List.mem_append

end Bounds

namespace Record

def ends (rs : List (Record Float)) (a : Axis) (m : Measure) : List Float := (rs.map (·.read a m)).filter isFinite

/-- An error bar stops at a number or above it; where no bar has an upper end, all of them start there. -/
def ReachUpTo (rs : List (Record Float)) (a : Axis) (t : Float) : Prop :=
  (∃ v ∈ ends rs a .highest, t ≤ v) ∨ ends rs a .highest = [] ∧ ∀ v ∈ ends rs a .lowest, t ≤ v

/-- An error bar starts at a number or below it; where no bar has a lower end, all of them stop there. -/
def ReachDownTo (rs : List (Record Float)) (a : Axis) (t : Float) : Prop :=
  (∃ v ∈ ends rs a .lowest, v ≤ t) ∨ ends rs a .lowest = [] ∧ ∀ v ∈ ends rs a .highest, v ≤ t

variable {rs : List (Record Float)} {r : Record Float} {a : Axis} {m : Measure} {t : Float}

theorem isFinite_of_mem_ends (h : t ∈ ends rs a m) : t.isFinite = true := (List.mem_filter.1 h).2

section

variable {R : Float → Float → Prop} {side : Option (Bound Float)} {pick : Bound Float → Float} {v : Float} (hr : r ∈ rs)
  (hread : r.read a m = side.elim v pick)
  (hpick : ∀ s : Bound Float, (∀ u ∈ s.entries, u.isFinite = true) → t ∈ s.entries → pick s ∈ s.entries ∧ R (pick s) t)

include hr hread hpick

/-- A bound lies on the inner side of the end that its own record has on its side. -/
theorem ends_reach (hfinite : ∀ u ∈ side.elim [] Bound.entries, u.isFinite = true) (ht : t ∈ side.elim [] Bound.entries) :
    ∃ u ∈ ends rs a m, R u t := by
  cases side with
  | none => cases ht
  | some s =>
    obtain ⟨hmem, hreach⟩ := hpick s hfinite ht
    exact ⟨pick s, List.mem_filter.2 ⟨List.mem_map.2 ⟨r, hr, hread⟩, hfinite _ hmem⟩, hreach⟩

end

section

variable (hr : r ∈ rs) (hparsed : r.Parsed) (hfinite : ∀ u ∈ (r.reach.get a).bounds.entries, u.isFinite = true)

include hr hparsed hfinite

theorem reachDownTo_lower (ht : t ∈ (r.reach.get a).bounds.lowerEntries) : ReachDownTo rs a t := by
  obtain ⟨v, hreach⟩ := hparsed.reach_eq a
  have hread : r.read a .lowest = (r.reach.get a).bounds.lower.elim v Bound.least := by
    rw [read, hreach, Reach.around]
  refine .inl (ends_reach (R := (· ≤ ·)) hr hread (fun s hs hts => ?_)
    (fun u hu => hfinite u (Bounds.mem_entries.2 (.inl hu))) ht)
  obtain ⟨hmem, hle⟩ := Bound.least_mem Binary.ordered hs hts
  exact ⟨hmem, (Binary.le_iff_value (hs _ hmem) (hs _ hts)).2 hle⟩

theorem reachUpTo_upper (ht : t ∈ (r.reach.get a).bounds.upperEntries) : ReachUpTo rs a t := by
  obtain ⟨v, hreach⟩ := hparsed.reach_eq a
  have hread : r.read a .highest = (r.reach.get a).bounds.upper.elim v Bound.greatest := by
    rw [read, hreach, Reach.around]
  refine .inl (ends_reach (R := (· ≥ ·)) hr hread (fun s hs hts => ?_)
    (fun u hu => hfinite u (Bounds.mem_entries.2 (.inr hu))) ht)
  obtain ⟨hmem, hle⟩ := Bound.greatest_mem Binary.ordered hs hts
  exact ⟨hmem, (Binary.le_iff_value (hs _ hts) (hs _ hmem)).2 hle⟩

end

end Record

namespace Extent

open Record (ends ReachUpTo ReachDownTo isFinite_of_mem_ends)

variable {rs : List (Record Float)} {a : Axis} {m : Measure} {e : Extent Float} {t : Float}

theorem ofRecords_eq_hull (rs : List (Record Float)) (a : Axis) (m : Measure) :
    ofRecords rs a m = hull ((ends rs a m).map fun v => ⟨v, v⟩) := ofValues_eq _

theorem ofRecords_eq_none : ofRecords rs a m = none ↔ ends rs a m = [] := by
  rw [ofRecords_eq_hull, hull_eq_none, List.map_eq_nil_iff]

/-- The extent of a measure ends at its outermost finite numbers. -/
theorem ofRecords_ends (h : ofRecords rs a m = some e) :
    (e.low ∈ ends rs a m ∧ ∀ v ∈ ends rs a m, e.low ≤ v) ∧ (e.high ∈ ends rs a m ∧ ∀ v ∈ ends rs a m, e.high ≥ v) := by
  rw [ofRecords_eq_hull] at h
  have hmap : ∀ f : Extent Float → Float, (∀ v, f ⟨v, v⟩ = v) → ((ends rs a m).map fun v => ⟨v, v⟩).map f = ends rs a m :=
    fun f hf => by simp [Function.comp_def, hf]
  have hfinite : ∀ e ∈ (ends rs a m).map fun v => (⟨v, v⟩ : Extent Float), e.IsFinite := isFinite_ofValue
  have hends := hull_ends Binary.ordered hfinite h
  rw [hmap low fun _ => rfl, hmap high fun _ => rfl] at hends
  obtain ⟨⟨hlow, hleast⟩, hhigh, hgreatest⟩ := hends
  exact ⟨⟨hlow, fun v hv => (Binary.le_iff_value (isFinite_of_mem_ends hlow) (isFinite_of_mem_ends hv)).2 (hleast v hv)⟩,
    hhigh, fun v hv => (Binary.le_iff_value (isFinite_of_mem_ends hv) (isFinite_of_mem_ends hhigh)).2 (hgreatest v hv)⟩

/-- A number is the outermost one on its own side or, if there is none, the one on the other side that lies nearest. -/
def Outermost (R : Float → Float → Prop) (us ws : List Float) (x : Float) : Prop :=
  (x ∈ us ∧ ∀ v ∈ us, R x v) ∨ us = [] ∧ x ∈ ws ∧ ∀ v ∈ ws, R v x

/-- What the outermost number reaches is reached by one of the numbers, or by all others if there are none. -/
theorem Outermost.reach_iff {R : Float → Float → Prop} {us ws : List Float} {x : Float} (hx : Outermost R us ws x)
    (htrans : ∀ {u v w : Float}, u.isFinite = true → v.isFinite = true → w.isFinite = true → R u v → R v w → R u w)
    (hus : ∀ v ∈ us, v.isFinite = true) (hws : ∀ v ∈ ws, v.isFinite = true) (ht : t.isFinite = true) :
    R x t ↔ (∃ v ∈ us, R v t) ∨ us = [] ∧ ∀ v ∈ ws, R v t := by
  rcases hx with ⟨hmem, houter⟩ | ⟨rfl, hmem, hinner⟩
  · refine ⟨fun hxt => .inl ⟨x, hmem, hxt⟩, ?_⟩
    rintro (⟨v, hv, hvt⟩ | ⟨rfl, -⟩)
    · exact htrans (hus x hmem) (hus v hv) ht (houter v hv) hvt
    · cases hmem
  · refine ⟨fun hxt => .inr ⟨rfl, fun v hv => htrans (hws v hv) (hws x hmem) ht (hinner v hv) hxt⟩, ?_⟩
    rintro (⟨v, hv, -⟩ | ⟨-, hall⟩)
    · cases hv
    · exact hall x hmem

/-- The two ends of an extent of error bars. -/
theorem ofErrorBars_ends (h : ofErrorBars rs a = some e) :
    Outermost (· ≤ ·) (ends rs a .lowest) (ends rs a .highest) e.low ∧
      Outermost (· ≥ ·) (ends rs a .highest) (ends rs a .lowest) e.high := by
  unfold ofErrorBars at h
  split at h
  · rename_i f g hf hg
    cases h
    exact ⟨.inl (ofRecords_ends hf).1, .inl (ofRecords_ends hg).2⟩
  · rename_i f hf hg
    cases h
    exact ⟨.inl (ofRecords_ends hf).1, .inr ⟨ofRecords_eq_none.1 hg, (ofRecords_ends hf).1⟩⟩
  · rename_i g hf hg
    cases h
    exact ⟨.inr ⟨ofRecords_eq_none.1 hf, (ofRecords_ends hg).2⟩, .inl (ofRecords_ends hg).2⟩
  · cases h

theorem low_le_iff (h : ofErrorBars rs a = some e) (ht : t.isFinite = true) : e.low ≤ t ↔ ReachDownTo rs a t :=
  (ofErrorBars_ends h).1.reach_iff Binary.float_le_trans (fun _ => isFinite_of_mem_ends) (fun _ => isFinite_of_mem_ends) ht

theorem le_high_iff (h : ofErrorBars rs a = some e) (ht : t.isFinite = true) : t ≤ e.high ↔ ReachUpTo rs a t :=
  (ofErrorBars_ends h).2.reach_iff (fun hu hv hw huv hvw => Binary.float_le_trans hw hv hu hvw huv)
    (fun _ => isFinite_of_mem_ends) (fun _ => isFinite_of_mem_ends) ht

/-- The extent of parsed records with finite bounds starts below their lower bounds and stops above their upper bounds; it
covers all bounds exactly if error bars reach up to each lower and down to each upper one. -/
theorem ofErrorBars_covers_iff (hparsed : ∀ r ∈ rs, r.Parsed)
    (hfinite : ∀ r ∈ rs, ∀ t ∈ (r.reach.get a).bounds.entries, isFinite t = true) (h : ofErrorBars rs a = some e) :
    (∀ r ∈ rs, (∀ t ∈ (r.reach.get a).bounds.lowerEntries, e.low ≤ t) ∧
        ∀ t ∈ (r.reach.get a).bounds.upperEntries, t ≤ e.high) ∧
      ((∀ r ∈ rs, ∀ t ∈ (r.reach.get a).bounds.entries, e.low ≤ t ∧ t ≤ e.high) ↔
        ∀ r ∈ rs, (∀ t ∈ (r.reach.get a).bounds.lowerEntries, ReachUpTo rs a t) ∧
          ∀ t ∈ (r.reach.get a).bounds.upperEntries, ReachDownTo rs a t) := by
  have hlower : ∀ r ∈ rs, ∀ t ∈ (r.reach.get a).bounds.lowerEntries, t.isFinite = true :=
    fun r hr t ht => hfinite r hr t (Bounds.mem_entries.2 (.inl ht))
  have hupper : ∀ r ∈ rs, ∀ t ∈ (r.reach.get a).bounds.upperEntries, t.isFinite = true :=
    fun r hr t ht => hfinite r hr t (Bounds.mem_entries.2 (.inr ht))
  have hown : ∀ r ∈ rs, (∀ t ∈ (r.reach.get a).bounds.lowerEntries, e.low ≤ t) ∧
      ∀ t ∈ (r.reach.get a).bounds.upperEntries, t ≤ e.high := by
    intro r hr
    constructor
    · intro t ht
      exact (low_le_iff h (hlower r hr t ht)).2 (Record.reachDownTo_lower hr (hparsed r hr) (hfinite r hr) ht)
    · intro t ht
      exact (le_high_iff h (hupper r hr t ht)).2 (Record.reachUpTo_upper hr (hparsed r hr) (hfinite r hr) ht)
  refine ⟨hown, fun hcover r hr => ⟨fun t ht => ?_, fun t ht => ?_⟩, fun hreach r hr t ht => ?_⟩
  · exact (le_high_iff h (hlower r hr t ht)).1 (hcover r hr t (Bounds.mem_entries.2 (.inl ht))).2
  · exact (low_le_iff h (hupper r hr t ht)).1 (hcover r hr t (Bounds.mem_entries.2 (.inr ht))).1
  · rcases Bounds.mem_entries.1 ht with ht | ht
    · exact ⟨(hown r hr).1 t ht, (le_high_iff h (hlower r hr t ht)).2 ((hreach r hr).1 t ht)⟩
    · exact ⟨(low_le_iff h (hupper r hr t ht)).2 ((hreach r hr).2 t ht), (hown r hr).2 t ht⟩

/-- A bar with its bounds around the value, and beside it a smaller one whose bounds lie the other way round. -/
def shieldedRecords : List (Record Float) :=
  Dataset.categoryRecords .y (.ofData [(Datum.ofY 3).setBounds .y (.stack [2, 1]) (.single 5),
    (Datum.ofY 4).setBounds .y (.single 4.5) (.single 2)])

theorem shielded_bounds_covered :
    ∃ e, ofErrorBars shieldedRecords .y = some e ∧
      ∀ r ∈ shieldedRecords, ∀ t ∈ (r.reach.get .y).bounds.entries, e.low ≤ t ∧ t ≤ e.high := by
  have hparsed : ∀ r ∈ shieldedRecords, r.Parsed := (Dataset.parsed_records _).1 .y
  have hfinite : ∀ r ∈ shieldedRecords, ∀ t ∈ (r.reach.get .y).bounds.entries, isFinite t = true := by decide +kernel
  have hsome : (ofErrorBars shieldedRecords .y).isSome = true := by decide +kernel
  obtain ⟨e, he⟩ := Option.isSome_iff_exists.1 hsome
  refine ⟨e, he, (ofErrorBars_covers_iff hparsed hfinite he).2.2 ?_⟩
  unfold ReachUpTo ReachDownTo
  decide +kernel

def invertedRecords : List (Record Float) :=
  Dataset.categoryRecords .y (.ofData [(Datum.ofY (-10)).setBounds .y (.single (-6)) (.single (-11)),
    (Datum.ofY (-8)).setBounds .y (.single (-8)) (.single (-8))])

theorem inverted_bounds_stick_out :
    (∀ r ∈ invertedRecords, r.Parsed) ∧
      (∀ r ∈ invertedRecords, ∀ t ∈ (r.reach.get .y).bounds.entries, isFinite t = true) ∧
      ∃ e, ofErrorBars invertedRecords .y = some e ∧
        ¬∀ r ∈ invertedRecords, ∀ t ∈ (r.reach.get .y).bounds.entries, e.low ≤ t ∧ t ≤ e.high := by
  refine ⟨(Dataset.parsed_records _).1 .y, by decide +kernel, ?_⟩
  have hany : (ofErrorBars invertedRecords .y).any (fun e =>
      !decide (∀ r ∈ invertedRecords, ∀ t ∈ (r.reach.get .y).bounds.entries, e.low ≤ t ∧ t ≤ e.high)) = true := by
    decide +kernel
  obtain ⟨e, he, hnot⟩ := (Option.any_eq_true _ _).1 hany
  exact ⟨e, he, by simpa using hnot⟩

end Extent

end Whisker
