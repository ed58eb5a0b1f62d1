import Whisker.Proofs.Element.Drawing

/-!
# Bars of both orientations

With the axes exchanged a horizontal bar is an upright one, and all that is seen of it is exchanged in the same way: its
edges, the points that hit it, its rectangle and the lines of its error bars. No formula sees which axis it works on, so
the numbers are the same to the last digit. Widths, colors and the order along each axis stay, and what cannot be drawn
is left out of both.
-/

namespace Whisker

variable {α : Type}

def PerAxis.transpose {β : Type} (p : PerAxis β) : PerAxis β := ⟨p.y, p.x, p.r⟩

def Area.transpose (a : Area α) : Area α := ⟨a.top, a.left, a.bottom, a.right⟩

def Rect.transpose (r : Rect α) : Rect α := { r with x := r.y, y := r.x, width := r.height, height := r.width }

def Line.transpose (l : Line α) : Line α := { l with x1 := l.y1, y1 := l.x1, x2 := l.y2, y2 := l.x2 }

def ErrorBar.Anchor.transpose (a : ErrorBar.Anchor α) : ErrorBar.Anchor α := ⟨a.y, a.x, a.height, a.width⟩

def Bar.transpose (b : Bar α) : Bar α := { b with x := b.y, y := b.x, horizontal := !b.horizontal }

variable [Scalar α]

theorem Rect.validate_transpose (r : Rect α) : r.transpose.validate = r.validate := by
  simp only [validate, transpose, Bool.and_comm]

theorem Line.validate_transpose (l : Line α) : l.transpose.validate = l.validate := by
  simp only [validate, transpose, Bool.and_comm, Bool.and_left_comm, Bool.and_assoc]

theorem Line.isDrawable_transpose (l : Line α) : l.transpose.isDrawable = l.isDrawable := by
  rw [isDrawable, isDrawable, validate_transpose]

theorem Area.contains_transpose (a : Area α) (x y : α) : a.transpose.contains y x = a.contains x y := by
  unfold contains transpose
  rw [Bool.and_assoc, Bool.and_comm, ← Bool.and_assoc]

namespace Bar

variable (b : Bar α)

theorem width_transpose : b.transpose.width = b.height := by
  cases h : b.horizontal <;> simp [width, height, transpose, h]

theorem height_transpose : b.transpose.height = b.width := by
  cases h : b.horizontal <;> simp [width, height, transpose, h]

theorem box_transpose : b.transpose.box = b.box.transpose := by
  cases h : b.horizontal <;> simp [box, transpose, Area.transpose, h]

theorem rect_transpose : b.transpose.rect = b.rect.transpose := by
  simp only [rect, box_transpose]
  rfl

theorem anchor_transpose : b.transpose.anchor = b.anchor.transpose := by
  simp only [anchor, width_transpose, height_transpose]
  rfl

end Bar

namespace ErrorBar

omit [Scalar α] in
/-- A reflection of all lines of a stack reflects those of each bar. -/
theorem map_stackLines (bars : List (α × α)) (lines : Nat → α × α → List (Line α)) (f : Line α → Line α) :
    (stackLines bars lines).map f = stackLines bars fun i bar => (lines i bar).map f := by
  rw [stackLines, stackLines, List.map_flatten, List.map_reverse, List.mapIdx_eq_zipIdx_map, List.mapIdx_eq_zipIdx_map,
    List.map_map]
  rfl

/-- Upright error bars are the level ones reflected. -/
theorem vertical_transpose (a : Anchor α) (s : Bounds α) (style : Style α) :
    vertical a.transpose s style = (horizontal a s style).map Line.transpose := by
  rw [horizontal, map_stackLines]
  rfl

theorem horizontal_transpose (a : Anchor α) (s : Bounds α) (style : Style α) :
    horizontal a.transpose s style = (vertical a s style).map Line.transpose := by
  rw [vertical, map_stackLines]
  rfl

/-- Line by line the axes are exchanged, also if those lines are left out that cannot be drawn. -/
structure Mirrored (ls ms : List (Line α)) : Prop where
  lines : ms = ls.map Line.transpose
  drawn : ms.filter Line.isDrawable = (ls.filter Line.isDrawable).map Line.transpose

theorem mirrored_map (ls : List (Line α)) : Mirrored ls (ls.map Line.transpose) where
  lines := rfl
  drawn := by
    rw [List.filter_map]
    congr 1
    exact List.filter_congr fun l _ => l.isDrawable_transpose

end ErrorBar

/-- The frame with rectangles added to the series and lines to the error bars, and the number of lines. -/
def Frame.adding (f : Frame α) (rects : List (Rect α)) (lines : List (Line α)) : Frame α × Nat :=
  ((f.pushAll .series (rects.map .rect)).pushAll .errorBars (lines.map .line), lines.length)

namespace Bar

variable (b : Bar α)

def drawn : List (Rect α) := if b.rect.validate.isOk then [b.rect] else []

/-- The lines of a level error bar that can be drawn; without bounds there is no such bar. -/
def level (s : Bounds α) (style : Style α) : List (Line α) :=
  if s.isEmpty then [] else (ErrorBar.horizontal b.anchor s style).filter Line.isDrawable

def upright (s : Bounds α) (style : Style α) : List (Line α) :=
  if s.isEmpty then [] else (ErrorBar.vertical b.anchor s style).filter Line.isDrawable

theorem drawn_transpose : b.transpose.drawn = b.drawn.map Rect.transpose := by
  rw [drawn, drawn, rect_transpose, Rect.validate_transpose]
  split <;> rfl

/-- The level lines that are drawn for the reflected bar are the upright ones of the bar, reflected. -/
theorem level_transpose (s : Bounds α) (style : Style α) :
    b.transpose.level s style = (b.upright s style).map Line.transpose := by
  rw [level, upright, anchor_transpose, ErrorBar.horizontal_transpose, (ErrorBar.mirrored_map _).drawn]
  split <;> rfl

theorem upright_transpose (s : Bounds α) (style : Style α) :
    b.transpose.upright s style = (b.level s style).map Line.transpose := by
  rw [level, upright, anchor_transpose, ErrorBar.vertical_transpose, (ErrorBar.mirrored_map _).drawn]
  split <;> rfl

/-- A bar adds its rectangle to the series, and then its level and its upright error bar. -/
theorem draw_eq [Circular α] (dataset index : Nat) (bounds : PerAxis (Bounds α)) (style : Style α) (hovered : Bool)
    (f : Frame α) : (Element.mk dataset index (.bar b) bounds style).draw hovered f =
      f.adding b.drawn (b.level bounds.x style ++ b.upright bounds.y style) := by
  have hlines : (ErrorBar.cartesian b.anchor bounds style).filter Line.isDrawable =
      b.level bounds.x style ++ b.upright bounds.y style := by
    rw [ErrorBar.cartesian, List.filter_append, level, upright]
    congr 1 <;> split <;> rfl
  have hshape : ((Mark.bar b).shape? hovered).toList = b.drawn.map .rect := by
    rw [Mark.shape?, drawn]
    split <;> rfl
  rw [Element.draw, ErrorBar.draw_eq, Element.errorLines, hlines, hshape, Frame.adding]

end Bar

/-- With the axes of a bar and of its error bars exchanged, they are exchanged in its edges, its width and height, the points
that hit it, its rectangle and every line: the lines of each of its two error bars stay in order. -/
theorem transposed_bar_draws_transposed [Circular α] (b : Bar α) (bounds : PerAxis (Bounds α)) (style : Style α) :
    (b.transpose.box = b.box.transpose ∧ b.transpose.width = b.height ∧ b.transpose.height = b.width ∧
      b.transpose.rect = b.rect.transpose ∧ ∀ x y, (Mark.bar b.transpose).contains y x = (Mark.bar b).contains x y) ∧
    (∀ (a : ErrorBar.Anchor α) (s : Bounds α),
      ErrorBar.Mirrored (ErrorBar.horizontal a s style) (ErrorBar.vertical a.transpose s style) ∧
      ErrorBar.Mirrored (ErrorBar.vertical a s style) (ErrorBar.horizontal a.transpose s style)) ∧
    ∀ (dataset index : Nat) (hovered : Bool) (f : Frame α),
      let rects := b.drawn
      let level := b.level bounds.x style
      let upright := b.upright bounds.y style
      (Element.mk dataset index (.bar b) bounds style).draw hovered f = f.adding rects (level ++ upright) ∧
      (Element.mk dataset index (.bar b.transpose) bounds.transpose style).draw hovered f =
        f.adding (rects.map Rect.transpose) (upright.map Line.transpose ++ level.map Line.transpose) := by
  refine ⟨⟨b.box_transpose, b.width_transpose, b.height_transpose, b.rect_transpose, fun x y => ?_⟩, fun a s => ⟨?_, ?_⟩,
    fun dataset index hovered f => ⟨b.draw_eq dataset index bounds style hovered f, ?_⟩⟩
  · change b.transpose.box.contains y x = b.box.contains x y
    rw [b.box_transpose, Area.contains_transpose]
  · exact ErrorBar.vertical_transpose a s style ▸ ErrorBar.mirrored_map _
  · exact ErrorBar.horizontal_transpose a s style ▸ ErrorBar.mirrored_map _
  · rw [Bar.draw_eq, Bar.drawn_transpose, Bar.level_transpose, Bar.upright_transpose]
    rfl

end Whisker
