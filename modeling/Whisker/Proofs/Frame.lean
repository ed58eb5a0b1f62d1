import Whisker.Frame

/-!
# What a frame holds

Shapes that are added to a layer change this layer only: the first one of its kind, or a new one on top where the frame
has none. Several shapes in a row find the same layer, so together they make one change. Of a layer they change only the
list of shapes of their sort.

A frame is valid exactly if its viewport and all its shapes are, whatever their layers, so a drawing that adds valid
shapes only keeps a frame as valid as it was.
-/

namespace Whisker

variable {α : Type}

namespace Layer

def pushAll (l : Layer α) (ss : List (Shape α)) : Layer α := ss.foldl push l

theorem pushAll_lines (l : Layer α) (ls : List (Line α)) : l.pushAll (ls.map .line) = { l with lines := l.lines ++ ls } := by
  induction ls generalizing l with
  | nil => simp [pushAll]
  | cons s ls ih =>
    change (l.push (.line s)).pushAll (ls.map .line) = _
    rw [ih]
    simp [push]

theorem pushAll_append (l : Layer α) (ss ts : List (Shape α)) : l.pushAll (ss ++ ts) = (l.pushAll ss).pushAll ts :=
  List.foldl_append

/-- Polygons added to a layer come behind its polygons. -/
theorem pushAll_polygons (l : Layer α) (ps : List (Polygon α)) :
    l.pushAll (ps.map .polygon) = { l with polygons := l.polygons ++ ps } := by
  induction ps generalizing l with
  | nil => simp [pushAll]
  | cons p ps ih =>
    change (l.push (.polygon p)).pushAll (ps.map .polygon) = _
    rw [ih]
    simp [push]

end Layer

namespace Frame

/-- The second frame is the first with a change to the first layer of a kind; if there is none, an empty one is
changed and put on top. -/
inductive Changes (kind : LayerKind) (change : Layer α → Layer α) : Frame α → Frame α → Prop
  | found {viewport : Viewport} {before after : List (Layer α)} {l : Layer α} (h : l.kind = kind)
    (hbefore : ∀ m ∈ before, m.kind ≠ kind) :
    Changes kind change ⟨viewport, before ++ l :: after⟩ ⟨viewport, before ++ change l :: after⟩
  | made {viewport : Viewport} {layers : List (Layer α)} (h : ∀ m ∈ layers, m.kind ≠ kind) :
    Changes kind change ⟨viewport, layers⟩ ⟨viewport, layers ++ [change (.empty kind)]⟩

/-- A shape goes to the first layer of its kind. -/
theorem pushTo_found {kind : LayerKind} {before after : List (Layer α)} {l : Layer α} (s : Shape α) (h : l.kind = kind)
    (hbefore : ∀ m ∈ before, m.kind ≠ kind) :
    pushTo kind s (before ++ l :: after) = before ++ l.push s :: after := by
  induction before with
  | nil => simp [pushTo, h]
  | cons m before ih =>
    obtain ⟨hm, hbefore⟩ := List.forall_mem_cons.1 hbefore
    simp [pushTo, hm, ih hbefore]

/-- Without a layer of its kind a shape gets a new one on top. -/
theorem pushTo_made {kind : LayerKind} {layers : List (Layer α)} (s : Shape α) (h : ∀ m ∈ layers, m.kind ≠ kind) :
    pushTo kind s layers = layers ++ [(Layer.empty kind).push s] := by
  induction layers with
  | nil => rfl
  | cons m layers ih =>
    obtain ⟨hm, h⟩ := List.forall_mem_cons.1 h
    simp [pushTo, hm, ih h]

/-- Several shapes go to the layer that the first one finds. -/
theorem pushAll_found {kind : LayerKind} {before after : List (Layer α)} {l : Layer α} (viewport : Viewport)
    (ss : List (Shape α)) (h : l.kind = kind) (hbefore : ∀ m ∈ before, m.kind ≠ kind) :
    pushAll ⟨viewport, before ++ l :: after⟩ kind ss = ⟨viewport, before ++ l.pushAll ss :: after⟩ := by
  induction ss generalizing l with
  | nil => rfl
  | cons s ss ih =>
    change pushAll ⟨viewport, pushTo kind s (before ++ l :: after)⟩ kind ss = _
    rw [pushTo_found s h hbefore, ih (by rw [Layer.kind_push, h])]
    rfl

/-- A first layer of a kind splits the layers, or there is none. -/
theorem split_kind (kind : LayerKind) (layers : List (Layer α)) :
    (∃ before l after, layers = before ++ l :: after ∧ l.kind = kind ∧ ∀ m ∈ before, m.kind ≠ kind) ∨
      ∀ m ∈ layers, m.kind ≠ kind := by
  induction layers with
  | nil => exact .inr fun _ hm => nomatch hm
  | cons m layers ih =>
    by_cases hm : m.kind = kind
    · exact .inl ⟨[], m, layers, rfl, hm, fun _ hm => nomatch hm⟩
    · obtain ⟨before, l, after, rfl, hl, hbefore⟩ | hnone := ih
      · exact .inl ⟨m :: before, l, after, rfl, hl, List.forall_mem_cons.2 ⟨hm, hbefore⟩⟩
      · exact .inr (List.forall_mem_cons.2 ⟨hm, hnone⟩)

/-- Shapes added in a row are one change. -/
theorem changes_pushAll (f : Frame α) (kind : LayerKind) {ss : List (Shape α)} (hss : ss ≠ []) :
    Changes kind (·.pushAll ss) f (f.pushAll kind ss) := by
  obtain ⟨viewport, layers⟩ := f
  obtain ⟨before, l, after, rfl, hl, hbefore⟩ | hnone := split_kind kind layers
  · rw [pushAll_found viewport ss hl hbefore]
    exact .found hl hbefore
  · obtain ⟨s, ss, rfl⟩ := List.exists_cons_of_ne_nil hss
    -- The first shape makes the layer that the others find.
    change Changes kind _ _ (pushAll ⟨viewport, pushTo kind s layers⟩ kind ss)
    have hkind : ((Layer.empty kind).push s : Layer α).kind = kind := Layer.kind_push _ s
    rw [pushTo_made s hnone, pushAll_found viewport ss hkind hnone]
    exact .made hnone

/-- The first layer of a kind, an empty one if there is none. -/
def contents (f : Frame α) (kind : LayerKind) : Layer α := (f.layer? kind).getD (.empty kind)

/-- A shape is added to what its layer holds. -/
theorem contents_push (f : Frame α) (kind : LayerKind) (s : Shape α) :
    (f.push kind s).contents kind = (f.contents kind).push s := by
  have h (layers : List (Layer α)) : ((pushTo kind s layers).find? (·.kind = kind)).getD (.empty kind) =
      ((layers.find? (·.kind = kind)).getD (.empty kind)).push s := by
    induction layers with
    | nil => cases s <;> simp [pushTo, Layer.push, Layer.empty]
    | cons l layers ih => by_cases hl : l.kind = kind <;> simp [pushTo, hl, ih]
  exact h f.layers

theorem contents_push_other (f : Frame α) {kind other : LayerKind} (h : other ≠ kind) (s : Shape α) :
    (f.push kind s).contents other = f.contents other := by
  have h (layers : List (Layer α)) : (pushTo kind s layers).find? (·.kind = other) = layers.find? (·.kind = other) := by
    induction layers with
    | nil => simp [pushTo, Layer.empty, h.symm]
    | cons l layers ih =>
      by_cases hl : l.kind = kind
      · simp [pushTo, hl, h.symm]
      · simp only [pushTo, hl, if_false, List.find?_cons, ih]
  exact congrArg (·.getD (.empty other)) (h f.layers)

/-- Several shapes are added to what their layer holds. -/
theorem contents_pushAll (f : Frame α) (kind : LayerKind) (ss : List (Shape α)) :
    (f.pushAll kind ss).contents kind = (f.contents kind).pushAll ss := by
  induction ss generalizing f with
  | nil => rfl
  | cons s ss ih =>
    change ((f.push kind s).pushAll kind ss).contents kind = ((f.contents kind).push s).pushAll ss
    rw [ih, contents_push]

/-- What other layers hold is not changed by adding several shapes. -/
theorem contents_pushAll_other (f : Frame α) {kind other : LayerKind} (h : other ≠ kind) (ss : List (Shape α)) :
    (f.pushAll kind ss).contents other = f.contents other := by
  induction ss generalizing f with
  | nil => rfl
  | cons s ss ih =>
    change ((f.push kind s).pushAll kind ss).contents other = f.contents other
    rw [ih, contents_push_other f h]

end Frame

theorem Layer.mem_shapes_push (l : Layer α) (s t : Shape α) : t ∈ (l.push s).shapes ↔ t ∈ l.shapes ∨ t = s := by
  cases s <;>
    simp only [push, shapes, List.map_append, List.map_cons, List.map_nil, List.mem_append, List.mem_singleton] <;>
    grind

namespace Frame

def shapes (f : Frame α) : List (Shape α) := f.layers.flatMap Layer.shapes

theorem mem_shapes_pushTo (kind : LayerKind) (s t : Shape α) (ls : List (Layer α)) :
    t ∈ (pushTo kind s ls).flatMap Layer.shapes ↔ t ∈ ls.flatMap Layer.shapes ∨ t = s := by
  induction ls with
  | nil =>
    simp only [pushTo, List.flatMap_cons, List.flatMap_nil, List.append_nil, Layer.mem_shapes_push]
    rfl
  | cons l ls ih =>
    by_cases h : l.kind = kind
    · rw [pushTo, if_pos h]
      simp only [List.flatMap_cons, List.mem_append, Layer.mem_shapes_push, or_right_comm]
    · rw [pushTo, if_neg h]
      simp only [List.flatMap_cons, List.mem_append, ih, or_assoc]

/-- Adding a shape adds this shape and no other, wherever it goes. -/
theorem mem_shapes_push (f : Frame α) (kind : LayerKind) (s t : Shape α) :
    t ∈ (f.push kind s).shapes ↔ t ∈ f.shapes ∨ t = s :=
  mem_shapes_pushTo kind s t f.layers

@[simp] theorem shapes_empty (v : Viewport) : (empty v : Frame α).shapes = [] := rfl

variable [Scalar α]

/-- A frame is valid exactly if its viewport and all its shapes are. -/
theorem validate_eq_ok (f : Frame α) :
    f.validate = .ok () ↔ f.viewport.validate = .ok () ∧ ∀ s ∈ f.shapes, s.validate = .ok () := by
  simp only [validate, seq_eq_ok, forM_eq_ok, Layer.validate, shapes, List.mem_flatMap]
  constructor
  · rintro ⟨hv, h⟩
    refine ⟨hv, ?_⟩
    rintro s ⟨l, hl, hs⟩
    exact h l hl s hs
  · rintro ⟨hv, h⟩
    exact ⟨hv, fun l hl s hs => h s ⟨l, hl, hs⟩⟩

/-- The second frame has the shapes of the first and besides them only valid ones. -/
structure AddsValid (f g : Frame α) : Prop where
  viewport : g.viewport = f.viewport
  kept : ∀ s ∈ f.shapes, s ∈ g.shapes
  added : ∀ s ∈ g.shapes, s ∈ f.shapes ∨ s.validate = .ok ()

namespace AddsValid

theorem refl (f : Frame α) : f.AddsValid f := ⟨rfl, fun _ h => h, fun _ h => .inl h⟩

theorem trans {f g h : Frame α} (hfg : f.AddsValid g) (hgh : g.AddsValid h) : f.AddsValid h where
  viewport := hgh.viewport.trans hfg.viewport
  kept s hs := hgh.kept s (hfg.kept s hs)
  added s hs := (hgh.added s hs).elim (hfg.added s) .inr

theorem push (f : Frame α) (kind : LayerKind) {s : Shape α} (h : s.validate = .ok ()) :
    f.AddsValid (f.push kind s) where
  viewport := rfl
  kept t ht := (mem_shapes_push f kind s t).2 (.inl ht)
  added t ht := by
    rcases (mem_shapes_push f kind s t).1 ht with ht | rfl
    · exact .inl ht
    · exact .inr h

/-- Drawing one thing after the other. -/
theorem foldl {β : Type} {draw : Frame α → β → Frame α} (h : ∀ (f : Frame α) b, f.AddsValid (draw f b)) (bs : List β)
    (f : Frame α) : f.AddsValid (bs.foldl draw f) := by
  induction bs generalizing f with
  | nil => exact refl f
  | cons b bs ih => exact (h f b).trans (ih (draw f b))

theorem pushAll (f : Frame α) (kind : LayerKind) {ss : List (Shape α)} (h : ∀ s ∈ ss, s.validate = .ok ()) :
    f.AddsValid (f.pushAll kind ss) := by
  induction ss generalizing f with
  | nil => exact refl f
  | cons s ss ih =>
    obtain ⟨hs, hss⟩ := List.forall_mem_cons.1 h
    exact (push f kind hs).trans (ih (f.push kind s) hss)

/-- A drawing that adds valid shapes only leaves a frame as valid or invalid as it was. -/
theorem validate_iff {f g : Frame α} (h : f.AddsValid g) : g.validate = .ok () ↔ f.validate = .ok () := by
  rw [validate_eq_ok, validate_eq_ok, h.viewport]
  constructor
  · rintro ⟨hv, hg⟩
    exact ⟨hv, fun s hs => hg s (h.kept s hs)⟩
  · rintro ⟨hv, hf⟩
    exact ⟨hv, fun s hs => (h.added s hs).elim (hf s) id⟩

end AddsValid

end Frame

variable [Scalar α]

theorem Layer.validate_push (l : Layer α) {s : Shape α} (h : s.validate = .ok ()) : (l.push s).validate = l.validate := by
  have hs : s.validate = pure () := h
  have hok (r : Result Unit) : (r >>= fun _ => pure ()) = r := by cases r <;> rfl
  cases s <;> simp [validate, shapes, push, hs, hok]

namespace Frame

/-- With a valid shape more, a frame is refused for the same reason as before. -/
theorem validate_push (f : Frame α) (kind : LayerKind) {s : Shape α} (h : s.validate = .ok ()) :
    (f.push kind s).validate = f.validate := by
  have hlayers (ls : List (Layer α)) : (pushTo kind s ls).forM Layer.validate = ls.forM Layer.validate := by
    induction ls with
    | nil =>
      change ((Layer.empty kind).push s).validate >>= (fun _ => pure ()) = pure ()
      rw [Layer.validate_push _ h]
      rfl
    | cons l ls ih =>
      unfold pushTo
      split
      · change ((l.push s).validate >>= fun _ => ls.forM Layer.validate) = (l.validate >>= fun _ => ls.forM Layer.validate)
        rw [Layer.validate_push l h]
      · change (l.validate >>= fun _ => (pushTo kind s ls).forM Layer.validate) = (l.validate >>= fun _ => ls.forM Layer.validate)
        rw [ih]
  simp [validate, push, hlayers]

/-- Valid shapes leave the answer of the check of the frame as it was, the error included. -/
theorem validate_pushAll (f : Frame α) (kind : LayerKind) {ss : List (Shape α)} (h : ∀ s ∈ ss, s.validate = .ok ()) :
    (f.pushAll kind ss).validate = f.validate := by
  induction ss generalizing f with
  | nil => rfl
  | cons s ss ih =>
    obtain ⟨hs, hss⟩ := List.forall_mem_cons.1 h
    exact (ih (f.push kind s) hss).trans (validate_push f kind hs)

end Frame

end Whisker
