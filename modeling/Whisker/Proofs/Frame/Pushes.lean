import Mathlib.Data.List.Nodup
import Whisker.Proofs.Frame
import Whisker.Scene

/-!
# Frames along pushes

Shapes of six sorts are pushed to layers of five kinds, in any order. The layers that a frame has stay where they are,
and a kind that is missing gets its layer on top when it is used first. What a layer then holds is what it held,
followed by the shapes that were pushed to its kind: each sort keeps the order of its pushes, and no other layer sees
them.
-/

namespace Whisker

variable {α : Type}

namespace Shape

def polygon? : Shape α → Option (Polygon α)
  | .polygon p => some p
  | _ => none

def rect? : Shape α → Option (Rect α)
  | .rect r => some r
  | _ => none

def wedge? : Shape α → Option (Wedge α)
  | .wedge w => some w
  | _ => none

def line? : Shape α → Option (Line α)
  | .line l => some l
  | _ => none

def circle? : Shape α → Option (Circle α)
  | .circle c => some c
  | _ => none

def label? : Shape α → Option (Label α)
  | .label l => some l
  | _ => none

end Shape

namespace Layer

/-- The layer with more shapes, those of each sort behind the ones it has. -/
def extended (l : Layer α) (ss : List (Shape α)) : Layer α where
  kind := l.kind
  polygons := l.polygons ++ ss.filterMap Shape.polygon?
  rects := l.rects ++ ss.filterMap Shape.rect?
  wedges := l.wedges ++ ss.filterMap Shape.wedge?
  lines := l.lines ++ ss.filterMap Shape.line?
  circles := l.circles ++ ss.filterMap Shape.circle?
  labels := l.labels ++ ss.filterMap Shape.label?

theorem pushAll_eq_extended (l : Layer α) (ss : List (Shape α)) : l.pushAll ss = l.extended ss := by
  induction ss generalizing l with
  | nil => simp [pushAll, extended]
  | cons s ss ih =>
    change (l.push s).pushAll ss = l.extended (s :: ss)
    rw [ih]
    cases s <;>
      simp [extended, push, List.filterMap_cons, Shape.polygon?, Shape.rect?, Shape.wedge?, Shape.line?, Shape.circle?,
        Shape.label?]

theorem lines_push (l : Layer α) (s : Shape α) : (l.push s).lines = l.lines ++ s.line?.toList := by
  cases s <;> simp [push, Shape.line?]

theorem labels_push (l : Layer α) (s : Shape α) : (l.push s).labels = l.labels ++ s.label?.toList := by
  cases s <;> simp [push, Shape.label?]

end Layer

/-- The shapes for one kind of layer, in order. -/
def shapesFor (kind : LayerKind) (shapes : Placed α) : List (Shape α) := (shapes.filter (·.1 = kind)).map Prod.snd

/-- The kinds of layers that shapes go to beyond the given ones, in order of first use. -/
def newKinds (kinds : List LayerKind) (shapes : Placed α) : List LayerKind :=
  ((shapes.map Prod.fst).filter (· ∉ kinds)).eraseDups

/-- A kind that is there already is not made. -/
theorem newKinds_cons_of_mem {kinds : List LayerKind} {s : LayerKind × Shape α} (h : s.1 ∈ kinds) (shapes : Placed α) :
    newKinds kinds (s :: shapes) = newKinds kinds shapes := by
  simp [newKinds, h]

/-- A kind used for the first time is known from then on. -/
theorem newKinds_cons_of_not_mem {kinds : List LayerKind} {s : LayerKind × Shape α} (h : s.1 ∉ kinds) (shapes : Placed α) :
    newKinds kinds (s :: shapes) = s.1 :: newKinds (kinds ++ [s.1]) shapes := by
  simp [newKinds, h, List.eraseDups_cons, List.filter_filter, and_comm, not_or, Bool.beq_eq_decide_eq]

/-- Layers are made only for kinds that were missing. -/
theorem not_mem_of_newKinds {kinds : List LayerKind} {shapes : Placed α} {kind : LayerKind}
    (h : kind ∈ newKinds kinds shapes) : kind ∉ kinds := by
  simp only [newKinds, List.mem_eraseDups, List.mem_filter, decide_eq_true_eq] at h
  exact h.2

theorem newKinds_all (shapes : Placed α) : newKinds LayerKind.all shapes = [] := by
  have hall (kind : LayerKind) : kind ∈ LayerKind.all := by cases kind <;> decide
  simp [newKinds, hall]

namespace Frame

def kinds (f : Frame α) : List LayerKind := f.layers.map Layer.kind

@[simp] theorem kinds_empty (v : Viewport) : (empty v : Frame α).kinds = LayerKind.all := rfl

/-- A push makes a layer only if its kind was missing, and then on top. -/
theorem kinds_push (f : Frame α) (kind : LayerKind) (s : Shape α) :
    (f.push kind s).kinds = if kind ∈ f.kinds then f.kinds else f.kinds ++ [kind] := by
  have h (ls : List (Layer α)) : (pushTo kind s ls).map Layer.kind =
      if kind ∈ ls.map Layer.kind then ls.map Layer.kind else ls.map Layer.kind ++ [kind] := by
    induction ls with
    | nil => simp [pushTo, Layer.empty]
    | cons l ls ih =>
      by_cases hl : l.kind = kind
      · simp [pushTo, hl]
      · have hl' : ¬kind = l.kind := fun h => hl h.symm
        simp only [pushTo, hl, if_false, List.map_cons, ih, List.mem_cons, hl', false_or]
        split <;> rfl
  exact h f.layers

theorem mem_kinds_push {f : Frame α} {kind : LayerKind} (h : kind ∈ f.kinds) (other : LayerKind) (s : Shape α) :
    kind ∈ (f.push other s).kinds := by
  rw [kinds_push]
  split
  · exact h
  · exact List.mem_append_left _ h

theorem mem_kinds_pushAll {f : Frame α} {kind : LayerKind} (h : kind ∈ f.kinds) (other : LayerKind) (ss : List (Shape α)) :
    kind ∈ (f.pushAll other ss).kinds := by
  induction ss generalizing f with
  | nil => exact h
  | cons s ss ih => exact ih (mem_kinds_push h other s)

/-- A push finds its layer or makes one of a kind that was missing. -/
theorem nodup_kinds_push {f : Frame α} (hf : f.kinds.Nodup) (kind : LayerKind) (s : Shape α) :
    (f.push kind s).kinds.Nodup := by
  rw [kinds_push]
  split
  · exact hf
  · next hnew => exact (List.nodup_middle.2 (by simpa using ⟨hnew, hf⟩) : (f.kinds ++ kind :: []).Nodup)

theorem nodup_kinds_place {f : Frame α} (hf : f.kinds.Nodup) (shapes : Placed α) : (f.place shapes).kinds.Nodup := by
  induction shapes generalizing f with
  | nil => exact hf
  | cons s shapes ih => exact ih (nodup_kinds_push hf s.1 s.2)

theorem kinds_place (f : Frame α) (shapes : Placed α) : (f.place shapes).kinds = f.kinds ++ newKinds f.kinds shapes := by
  induction shapes generalizing f with
  | nil => simp [place, newKinds]
  | cons s shapes ih =>
    change ((f.push s.1 s.2).place shapes).kinds = _
    rw [ih, kinds_push]
    by_cases h : s.1 ∈ f.kinds
    · rw [if_pos h, newKinds_cons_of_mem h]
    · rw [if_neg h, newKinds_cons_of_not_mem h]
      simp

/-- Each layer receives the shapes of its kind, in order. -/
theorem contents_place (f : Frame α) (shapes : Placed α) (kind : LayerKind) :
    (f.place shapes).contents kind = (f.contents kind).pushAll (shapesFor kind shapes) := by
  induction shapes generalizing f with
  | nil => rfl
  | cons s shapes ih =>
    change ((f.push s.1 s.2).place shapes).contents kind = _
    rw [ih]
    by_cases h : s.1 = kind
    · subst h
      rw [contents_push, shapesFor, shapesFor, List.filter_cons_of_pos (by simp)]
      rfl
    · rw [contents_push_other f (Ne.symm h), shapesFor, shapesFor, List.filter_cons_of_neg (by simp [h])]

theorem contents_of_not_mem {f : Frame α} {kind : LayerKind} (h : kind ∉ f.kinds) : f.contents kind = .empty kind := by
  have hnone : f.layer? kind = none := by
    simp only [layer?, List.find?_eq_none, decide_eq_true_eq]
    intro l hl hkind
    exact h (hkind ▸ List.mem_map_of_mem hl)
  rw [contents, hnone, Option.getD_none]

/-- Where kinds are distinct, every layer is the one found for its kind. -/
theorem contents_of_mem {f : Frame α} (hf : f.kinds.Nodup) {l : Layer α} (h : l ∈ f.layers) : f.contents l.kind = l := by
  have hfind (ls : List (Layer α)) (hls : (ls.map Layer.kind).Nodup) (hl : l ∈ ls) :
      ls.find? (·.kind = l.kind) = some l := by
    induction ls with
    | nil => cases hl
    | cons m ls ih =>
      rw [List.map_cons, List.nodup_cons] at hls
      rcases List.mem_cons.1 hl with rfl | hl
      · simp
      · have hne : m.kind ≠ l.kind := fun hkind => hls.1 (hkind ▸ List.mem_map_of_mem hl)
        simp [hne, ih hls.2 hl]
  rw [contents, layer?, hfind f.layers hf h, Option.getD_some]

/-- The layers are determined by their kinds and by what is found for each. -/
theorem layers_eq {f : Frame α} (hf : f.kinds.Nodup) : f.layers = f.kinds.map f.contents := by
  rw [kinds, List.map_map]
  conv_lhs => rw [← List.map_id f.layers]
  exact List.map_congr_left fun l hl => (contents_of_mem hf hl).symm

/-- Layers that were there are extended by their shapes, and those that were missing follow once each. -/
theorem layers_place {f : Frame α} (hf : f.kinds.Nodup) (shapes : Placed α) :
    (f.place shapes).layers =
      f.layers.map (fun l => l.extended (shapesFor l.kind shapes)) ++
        (newKinds f.kinds shapes).map fun kind => (Layer.empty kind).extended (shapesFor kind shapes) := by
  rw [layers_eq (nodup_kinds_place hf shapes), kinds_place, List.map_append]
  congr 1
  · rw [kinds, List.map_map]
    refine List.map_congr_left fun l hl => ?_
    rw [Function.comp_apply, contents_place, contents_of_mem hf hl, Layer.pushAll_eq_extended]
  · refine List.map_congr_left fun kind hkind => ?_
    rw [contents_place, contents_of_not_mem (not_mem_of_newKinds hkind), Layer.pushAll_eq_extended]

/-- A sort of shapes grows with its pushes, whatever the layers. -/
theorem length_flatMap_place {β : Type} {sort : Layer α → List β} {part : Shape α → Option β}
    (hpush : ∀ l s, sort (l.push s) = sort l ++ (part s).toList) (hempty : ∀ kind, sort (.empty kind) = [])
    (f : Frame α) (shapes : Placed α) :
    ((f.place shapes).layers.flatMap sort).length =
      (f.layers.flatMap sort).length + shapes.countP fun s => (part s.2).isSome := by
  have hstep (kind : LayerKind) (s : Shape α) (ls : List (Layer α)) :
      ((pushTo kind s ls).flatMap sort).length = (ls.flatMap sort).length + (part s).toList.length := by
    induction ls with
    | nil => simp [pushTo, hpush, hempty]
    | cons l ls ih =>
      unfold pushTo
      split
      · simp only [List.flatMap_cons, List.length_append, hpush]
        omega
      · simp only [List.flatMap_cons, List.length_append, ih]
        omega
  induction shapes generalizing f with
  | nil => rfl
  | cons s shapes ih =>
    change (((f.push s.1 s.2).place shapes).layers.flatMap sort).length = _
    rw [ih, push, hstep, List.countP_cons]
    cases part s.2 with
    | none => simp
    | some b => simp; omega

/-- The count of lines grows by the lines drawn. -/
theorem lineCount_place (f : Frame α) (shapes : Placed α) :
    (f.place shapes).lineCount = f.lineCount + shapes.countP fun s => s.2.line?.isSome :=
  length_flatMap_place Layer.lines_push (fun _ => rfl) f shapes

/-- The count of labels grows by the labels drawn. -/
theorem labelCount_place (f : Frame α) (shapes : Placed α) :
    (f.place shapes).labelCount = f.labelCount + shapes.countP fun s => s.2.label?.isSome :=
  length_flatMap_place Layer.labels_push (fun _ => rfl) f shapes

theorem linesOf_eq (f : Frame α) (kind : LayerKind) : f.linesOf kind = (f.contents kind).lines := by
  unfold linesOf contents
  cases f.layer? kind <;> rfl

/-- Whatever is pushed to a frame whose layers are of distinct kinds, they stay distinct and in order, and missing kinds
follow in order of first use. Each layer holds what it held and then the shapes pushed to its kind, sort by sort; so the
frame has one line more for each pushed line and one label more for each pushed label. A frame with all layers keeps error
bars above the series and below the axes. -/
theorem pushed_shapes_keep_layers {f : Frame α} (hf : f.kinds.Nodup) (shapes : Placed α) :
    let g := f.place shapes
    g.kinds.Nodup ∧ g.kinds = f.kinds ++ newKinds f.kinds shapes ∧
    g.layers = f.layers.map (fun l => l.extended (shapesFor l.kind shapes)) ++
      (newKinds f.kinds shapes).map (fun kind => (Layer.empty kind).extended (shapesFor kind shapes)) ∧
    (∀ kind, g.contents kind = (f.contents kind).extended (shapesFor kind shapes)) ∧
    (∀ kind, g.linesOf kind = f.linesOf kind ++ (shapesFor kind shapes).filterMap Shape.line?) ∧
    g.lineCount = f.lineCount + shapes.countP (fun s => s.2.line?.isSome) ∧
    g.labelCount = f.labelCount + shapes.countP (fun s => s.2.label?.isSome) ∧
    (f.kinds = LayerKind.all → g.kinds = LayerKind.all ∧ [.series, .errorBars, .axis].Sublist g.kinds) := by
  intro g
  have hcontents (kind : LayerKind) : g.contents kind = (f.contents kind).extended (shapesFor kind shapes) := by
    rw [contents_place, Layer.pushAll_eq_extended]
  refine ⟨nodup_kinds_place hf shapes, kinds_place f shapes, layers_place hf shapes, hcontents, fun kind => ?_,
    lineCount_place f shapes, labelCount_place f shapes, fun hall => ?_⟩
  · rw [linesOf_eq, linesOf_eq, hcontents]
    rfl
  · have hkinds : g.kinds = LayerKind.all := by rw [kinds_place, hall, newKinds_all, List.append_nil]
    exact ⟨hkinds, hkinds ▸ by decide⟩

def crossing (width : Float) : Line Float := ⟨0, 0, 40, 30, width, .black⟩

/-- A frame that has no layers but two finds the others when they are used, in the order of their use; a new frame has them. -/
theorem two_layers_completed :
    let f : Frame Float := ⟨⟨40, 30⟩, [.empty .series, { Layer.empty .grid with lines := [crossing 1] }]⟩
    let shapes : Placed Float := [(.axis, .line (crossing 2)), (.grid, .line (crossing 3)), (.errorBars, .line (crossing 4)),
      (.axis, .label ⟨"0", 20, 15, 12, .black, .center, 0⟩), (.grid, .line (crossing 5))]
    f.kinds.Nodup ∧ (f.place shapes).kinds = [.series, .grid, .axis, .errorBars] ∧
      (f.place shapes).linesOf .grid = [crossing 1, crossing 3, crossing 5] ∧ (f.place shapes).lineCount = 5 ∧
      (f.place shapes).labelCount = 1 ∧ ((empty ⟨40, 30⟩ : Frame Float).place shapes).kinds = LayerKind.all := by
  intro f shapes
  have hf : f.kinds.Nodup := by decide
  obtain ⟨-, hkinds, -, -, hlines, hlineCount, hlabelCount, -⟩ := pushed_shapes_keep_layers hf shapes
  have hempty : (empty ⟨40, 30⟩ : Frame Float).kinds.Nodup := by decide
  obtain ⟨-, -, -, -, -, -, -, hall⟩ := pushed_shapes_keep_layers hempty shapes
  exact ⟨hf, hkinds.trans (by decide), (hlines .grid).trans rfl, hlineCount, hlabelCount, (hall rfl).1⟩

end Frame

end Whisker
