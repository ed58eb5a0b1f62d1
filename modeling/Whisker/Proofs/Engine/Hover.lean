import Whisker.Proofs.Engine.Runs
import Whisker.Proofs.Layout.Elements

/-!
# What the pointer rests on

Hits are positions in a layout and tooltips are looked up in the chart. The layout of an engine has an
element for each record that its chart shows and for no other, so the two agree. Some calls keep what is
hovered: they keep the chart too, and a new layout of the same chart has the same records.
-/

namespace Whisker

variable {α : Type}

namespace Chart

/-- The dataset of a reference exists, is shown and has the record. -/
def Shows (c : Chart α) (ref : ElementRef) : Prop :=
  ∃ d, c.datasets[ref.dataset]? = some d ∧ d.hidden = false ∧ ref.index < d.data.length

theorem dataset_of_getElem? {c : Chart α} {i : Nat} {d : Dataset α} (h : c.datasets[i]? = some d) :
    c.dataset i = .ok d := by
  unfold dataset
  rw [h]

/-- A reference that is shown finds its dataset and its datum. -/
theorem Shows.exists_datum {c : Chart α} {ref : ElementRef} (h : c.Shows ref) :
    ∃ s d, c.dataset ref.dataset = .ok s ∧ c.datum ref = .ok d := by
  obtain ⟨s, hs, -, hk⟩ := h
  have hs := dataset_of_getElem? hs
  refine ⟨s, s.data[ref.index], hs, bind_eq_ok.2 ⟨s, hs, ?_⟩⟩
  rw [List.getElem?_eq_getElem hk]

end Chart

variable [Scalar α] [NumberText α]

/-- Every record that is shown has a tooltip. -/
theorem ChartKind.tooltip_of_shows (kind : ChartKind) {c : Chart α} {ref : ElementRef} (h : c.Shows ref) :
    ∃ text, kind.tooltip c ref = .ok text := by
  obtain ⟨s, d, hs, hd⟩ := h.exists_datum
  cases kind with
  | bar => exact ⟨_, bind_eq_ok.2 ⟨d, hd, bind_eq_ok.2 ⟨s, hs, rfl⟩⟩⟩
  | line => exact ⟨_, bind_eq_ok.2 ⟨d, hd, bind_eq_ok.2 ⟨s, hs, rfl⟩⟩⟩
  | scatter => exact ⟨_, bind_eq_ok.2 ⟨d, hd, rfl⟩⟩
  | polar => exact ⟨_, bind_eq_ok.2 ⟨d, hd, rfl⟩⟩

namespace Engine

omit [NumberText α] in
/-- The nearest element is one of those that it was chosen from. -/
theorem mem_of_nearest? {distance : Element α → α} {es : List (Element α)} {best : Element α}
    (h : nearest? distance es = some best) : best ∈ es := by
  cases es with
  | nil => cases h
  | cons e es =>
    cases h
    -- The best element so far is the first one or one of those already passed.
    have hfold (best : Element α) :
        es.foldl (fun best f => if nearer (distance f) (distance best) then f else best) best ∈ best :: es := by
      induction es generalizing best with
      | nil => exact List.mem_singleton.2 rfl
      | cons f fs ih =>
        rw [List.foldl_cons]
        split
        · exact List.mem_cons_of_mem _ (ih f)
        · exact List.cons_subset_cons best (List.subset_cons_self f fs) (ih best)
    exact hfold e

variable [Circular α]

omit [NumberText α] in
/-- A hit is an element of the layout that contains the point. -/
theorem exists_of_elementAt? {e : Engine α} {x y : α} {ref : ElementRef} (h : e.elementAt? x y = some ref) :
    ∃ element ∈ e.layout.elements, element.contains x y = true ∧ element.ref = ref := by
  unfold elementAt? at h
  split at h
  · obtain ⟨element, hbest, href⟩ := Option.map_eq_some_iff.1 h
    obtain ⟨hmem, hcontains⟩ := List.mem_filter.1 (mem_of_nearest? hbest)
    exact ⟨element, hmem, hcontains, href⟩
  · cases h

theorem Coherent.enumerates {e : Engine α} (h : e.Coherent) : e.layout.Enumerates e.chart :=
  ChartKind.enumerates h.layout

/-- What is hit is shown: its dataset is visible and holds the record. -/
theorem Coherent.shows_of_elementAt? {e : Engine α} (h : e.Coherent) {x y : α} {ref : ElementRef}
    (hat : e.elementAt? x y = some ref) : e.chart.Shows ref := by
  obtain ⟨element, hmem, -, href⟩ := exists_of_elementAt? hat
  refine (h.enumerates.mem_refs ref).1 ?_
  rw [← href]
  exact List.mem_map_of_mem hmem

/-- What is hovered is a record that the chart shows. -/
def Tracks (e : Engine α) : Prop := ∀ ref, e.hovered = some ref → e.chart.Shows ref

omit [Scalar α] [NumberText α] [Circular α] in
theorem tracks_of_none {e : Engine α} (h : e.hovered = none) : e.Tracks := by
  intro ref href
  rw [h] at href
  cases href

/-- A call leads to a new hit, to none, or keeps both the hit and the chart. -/
theorem Tracks.outcome {e e' : Engine α} (h : e.Tracks) (hc : e.Coherent) {c : Call α} (ho : c.outcome e = .ok e') :
    e'.Tracks := by
  cases c with
  | setViewport v =>
    obtain ⟨_, ho⟩ := seq_eq_ok.1 ho
    obtain ⟨_, _, rfl⟩ := relaid_eq_ok ho
    exact h
  | setChart c =>
    obtain ⟨_, ho⟩ := seq_eq_ok.1 ho
    obtain ⟨_, _, ho⟩ := bind_eq_ok.1 ho
    obtain ⟨_, _, rfl⟩ := replaced_eq_ok ho
    exact tracks_of_none rfl
  | setData i data =>
    obtain ⟨_, _, ho⟩ := bind_eq_ok.1 ho
    obtain ⟨_, _, rfl⟩ := replaced_eq_ok ho
    exact tracks_of_none rfl
  | pushDataset d =>
    obtain ⟨_, ho⟩ := seq_eq_ok.1 ho
    obtain ⟨_, _, rfl⟩ := replaced_eq_ok ho
    exact tracks_of_none rfl
  | update =>
    obtain ⟨_, _, rfl⟩ := relaid_eq_ok ho
    exact h
  | hoverAt x y =>
    cases ho
    intro ref href
    exact hc.shows_of_elementAt? href
  | clearHover =>
    cases ho
    exact tracks_of_none rfl
  | render =>
    obtain ⟨_, rfl⟩ := drawn_eq_ok ho
    exact h
  | renderAnimated t =>
    obtain ⟨_, rfl⟩ := drawn_eq_ok ho
    exact h

/-- A call leaves the hovered element among those shown, or nothing hovered. -/
theorem Tracks.after {e : Engine α} (h : e.Tracks) (hc : e.Coherent) (c : Call α) : (c.after e).Tracks := by
  cases ho : c.outcome e with
  | ok e' =>
    rw [Call.after_of_outcome_ok ho]
    exact h.outcome hc ho
  | error err =>
    rw [Call.after_of_outcome_error ho]
    exact h

theorem tracks_start {renderer : Renderer α} {registry : Registry} {setup : Setup α} {e : Engine α}
    (h : start renderer registry setup = .ok e) : e.Tracks := by
  simp only [start, seq_eq_ok] at h
  obtain ⟨_, _, h⟩ := h
  obtain ⟨_, _, h⟩ := bind_eq_ok.1 h
  obtain ⟨_, _, h⟩ := bind_eq_ok.1 h
  cases h
  exact tracks_of_none rfl

/-- In every run the hovered element, if there is one, is shown. -/
theorem Reachable.tracks {e : Engine α} (h : e.Reachable) : e.Tracks := by
  induction h with
  | start h => exact tracks_start h
  | call c hr ih => exact ih.after hr.coherent c

/-- In every engine that calls lead to, what is hovered is an element of the present layout and has a tooltip, and so
has every element that is hit; asking for the tooltip at a point never fails. -/
theorem hovered_element_has_tooltip (e : Engine α) (h : e.Reachable) :
    (∀ ref, e.hovered = some ref → (∃ element, e.layout.element? ref = some element ∧ element.ref = ref) ∧
      ∃ text, e.tooltip ref = .ok text) ∧
    (∀ x y ref, e.elementAt? x y = some ref → ∃ text, e.tooltip ref = .ok text) ∧
    ∀ x y, ∃ text?, e.tooltipAt x y = .ok text? := by
  have hc := h.coherent
  have hhit (x y : α) (ref : ElementRef) (hat : e.elementAt? x y = some ref) : ∃ text, e.tooltip ref = .ok text :=
    e.chartType.kind.tooltip_of_shows (hc.shows_of_elementAt? hat)
  refine ⟨fun ref href => ?_, hhit, fun x y => ?_⟩
  · have hshows := h.tracks ref href
    obtain ⟨element, helement⟩ := Option.isSome_iff_exists.1 ((hc.enumerates.element?_isSome ref).2 hshows)
    exact ⟨⟨element, helement, (hc.enumerates.element?_eq_some helement).2⟩,
      e.chartType.kind.tooltip_of_shows hshows⟩
  · unfold tooltipAt
    split
    · next ref hat =>
      obtain ⟨text, htext⟩ := hhit x y ref hat
      rw [htext]
      exact ⟨_, rfl⟩
    · exact ⟨none, rfl⟩

def pointed (e : Engine Float) : Engine Float :=
  let (x, y) := ((e.layout.elements.head?).map Element.center).getD (0, 0)
  (Call.setViewport ⟨120, 90⟩).after ((Call.hoverAt x y).after e)

theorem pointed_engine_has_tooltip :
    ∃ e : Engine Float, e.Reachable ∧ e.viewport = ⟨120, 90⟩ ∧ e.hovered = some ⟨0, 0⟩ ∧
      (∃ element, e.layout.element? ⟨0, 0⟩ = some element ∧ element.ref = ⟨0, 0⟩) ∧
      ∃ text, e.tooltip ⟨0, 0⟩ = .ok text := by
  have hs : (start .counting .standard ⟨⟨300, 200⟩, plainChart⟩).toOption.map
      (fun e => (e.pointed.viewport, e.pointed.hovered)) = some (⟨120, 90⟩, some ⟨0, 0⟩) := by decide +kernel
  obtain ⟨e, he, hparts⟩ := Option.map_eq_some_iff.1 hs
  obtain ⟨hviewport, hhovered⟩ := Prod.mk.inj hparts
  have hr : e.pointed.Reachable := .call _ (.call _ (.start (toOption_eq_some.1 he)))
  exact ⟨e.pointed, hr, hviewport, hhovered, (hovered_element_has_tooltip e.pointed hr).1 _ hhovered⟩

end Engine

end Whisker
