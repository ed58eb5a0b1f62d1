import Whisker.Proofs.Color.Mix
import Whisker.Proofs.Layout.Coordinates
import Whisker.Proofs.Scale.Domain
import Whisker.Proofs.Style

/-!
# What a blend of layouts keeps

In exact arithmetic a blend of two layouts of one skeleton has this skeleton too, but for the colors of its marks. Each
of them is the same in both layouts, is blended with itself, and stays what it is if it is steady. The coordinates lie
between those of the two layouts, and are those of the first one where the blend begins.
-/

namespace Whisker

open Exact
open Scalar (isFinite)

section

variable {α : Type}

def Mark.colors : Mark α → List (Color α)
  | .bar b => [b.fill, b.border]
  | .point p => [p.fill, p.border]
  | .sector s => [s.fill, s.border]

def Mark.recolor (f : Color α → Color α) : Mark α → Mark α
  | .bar b => .bar { b with fill := f b.fill, border := f b.border }
  | .point p => .point { p with fill := f p.fill, border := f p.border }
  | .sector s => .sector { s with fill := f s.fill, border := f s.border }

def Element.recolor (f : Color α → Color α) (e : Element α) : Element α := { e with mark := e.mark.recolor f }

def DatasetLayout.recolor (f : Color α → Color α) (d : DatasetLayout α) : DatasetLayout α :=
  { d with elements := d.elements.map (Element.recolor f) }

namespace Layout

def colors (l : Layout α) : List (Color α) := l.elements.flatMap (·.mark.colors)

def recolor (f : Color α → Color α) (l : Layout α) : Layout α :=
  { l with datasets := l.datasets.map (DatasetLayout.recolor f) }

end Layout

variable [Scalar α] {f : Color α → Color α}

theorem Mark.skeleton_recolor_eq_iff (m : Mark α) : (m.recolor f).skeleton = m.skeleton ↔ ∀ k ∈ m.colors, f k = k := by
  cases m with
  | bar b =>
    obtain ⟨_, _, _, _, horizontal, _, _, _⟩ := b
    cases horizontal <;> simp [skeleton, recolor, colors]
  | point p => simp [skeleton, recolor, colors]
  | sector s => simp [skeleton, recolor, colors]

theorem Element.skeleton_recolor_eq_iff (e : Element α) :
    (e.recolor f).skeleton = e.skeleton ↔ ∀ k ∈ e.mark.colors, f k = k := by
  rw [← e.mark.skeleton_recolor_eq_iff]
  constructor
  · exact congrArg Skeleton.mark
  · intro h
    exact congrArg (fun m => { e.skeleton with mark := m }) h

theorem DatasetLayout.skeleton_recolor_eq_iff (d : DatasetLayout α) :
    (d.recolor f).skeleton = d.skeleton ↔ ∀ e ∈ d.elements, ∀ k ∈ e.mark.colors, f k = k := by
  have helements : (d.recolor f).elements.map Element.skeleton = d.elements.map Element.skeleton ↔
      ∀ e ∈ d.elements, ∀ k ∈ e.mark.colors, f k = k := by
    rw [recolor, List.map_map, List.map_inj_left]
    exact forall₂_congr fun e _ => e.skeleton_recolor_eq_iff
  rw [← helements]
  constructor
  · exact congrArg Skeleton.elements
  · intro h
    exact congrArg (fun es => { d.skeleton with elements := es }) h

/-- New colors leave no trace exactly if they are the old ones. -/
theorem Layout.skeleton_recolor_eq_iff (l : Layout α) :
    (l.recolor f).skeleton = l.skeleton ↔ ∀ k ∈ l.colors, f k = k := by
  have hdatasets : (l.recolor f).datasets.map DatasetLayout.skeleton = l.datasets.map DatasetLayout.skeleton ↔
      ∀ k ∈ l.colors, f k = k := by
    rw [recolor, List.map_map, List.map_inj_left]
    simp only [colors, elements, List.forall_mem_flatMap]
    exact forall₂_congr fun d _ => d.skeleton_recolor_eq_iff
  rw [← hdatasets]
  constructor
  · exact congrArg Skeleton.datasets
  · intro h
    exact congrArg (fun ds => { l.skeleton with datasets := ds }) h

end

namespace Blend

section

variable {α β γ : Type}

/-- What a blend keeps of two things it keeps where they may be missing. -/
theorem map_option {p : β → γ} {blend : β → β → β} (h : ∀ x y, p x = p y → p (blend x y) = p y) {o o' : Option β}
    (ho : o.map p = o'.map p) : (option blend o o').map p = o'.map p := by
  match o, o', ho with
  | none, none, _ => rfl
  | some x, some y, ho => exact congrArg some (h x y (Option.some.inj ho))

theorem map_blendAll {p q : β → γ} {blend : β → β → β} {xs ys : List β}
    (h : ∀ x, ∀ y ∈ ys, p x = p y → p (blend x y) = q y) (hxs : xs.map p = ys.map p) :
    (Layout.blendAll blend xs ys).map p = ys.map q := by
  induction xs generalizing ys with
  | nil =>
    rw [List.map_eq_nil_iff.1 hxs.symm]
    rfl
  | cons x xs ih =>
    cases ys with
    | nil => cases hxs
    | cons y ys =>
      obtain ⟨hhead, htail⟩ := List.cons.inj hxs
      rw [Layout.blendAll, List.map_cons, List.map_cons, h x y List.mem_cons_self hhead,
        ih (fun x y hy => h x y (List.mem_cons_of_mem _ hy)) htail]

variable [Scalar α] {t : α}

theorem form_bound (b c : Bound α) (h : b.map (fun _ => ()) = c.map fun _ => ()) :
    (bound b c t).map (fun _ => ()) = c.map fun _ => () := by
  match b, c, h with
  | .single _, .single _, _ => rfl
  | .stack vs, .stack ws, h =>
    have hlength : vs.length = ws.length := byNumbers_bound.length (t := t) h
    simp only [bound, entries, if_pos hlength, Bound.map, Bound.stack.injEq]
    apply List.ext_getElem <;> simp [hlength]

theorem form_bounds {b c : Bounds α} (h : b.form = c.form) : (bounds b c t).form = c.form := by
  obtain ⟨hlower, hupper⟩ := Bounds.mk.inj h
  exact congrArg₂ Bounds.mk (map_option form_bound hlower) (map_option form_bound hupper)

theorem form_pixels {p q : PerAxis (Bounds α)} (h : p.map Bounds.form = q.map Bounds.form) :
    (pixels p q t).map Bounds.form = q.map Bounds.form := by
  obtain ⟨hx, hy, hr⟩ := PerAxis.mk.inj h
  simp only [PerAxis.map, pixels, form_bounds hx, form_bounds hy, form_bounds hr]

variable (hsame : ∀ x : α, number x x t = x)

include hsame

/-- What the two marks have in common is blended with itself. -/
theorem skeleton_mark {m n : Mark α} (h : m.skeleton = n.skeleton) :
    (m.blend n t).skeleton = (n.recolor fun k => color k k t).skeleton := by
  match m, n, h with
  | .bar ⟨_, _, _, _, horizontal, _, _, _⟩, .bar ⟨_, _, _, _, horizontal', _, _, _⟩, h =>
    cases horizontal <;> cases horizontal' <;> cases h <;>
      simp [Mark.skeleton, Mark.blend, Bar.blend, Mark.recolor, hsame]
  | .point ⟨_, _, _, _, _, _, _, _⟩, .point ⟨_, _, _, _, _, _, _, _⟩, h =>
    cases h
    simp [Mark.skeleton, Mark.blend, Point.blend, Mark.recolor, hsame]
  | .sector ⟨_, _, _, _, _, _, _, _, _⟩, .sector ⟨_, _, _, _, _, _, _, _, _⟩, h =>
    cases h
    simp [Mark.skeleton, Mark.blend, Sector.blend, Mark.recolor, hsame]

/-- A blend of elements of one skeleton has this skeleton with its colors blended. -/
theorem skeleton_element {e f : Element α} (h : e.skeleton = f.skeleton) (hstyle : style f.style f.style t = f.style) :
    (e.blend f t).skeleton = (f.recolor fun k => color k k t).skeleton := by
  obtain ⟨-, -, hmark, hform, hstyles⟩ := Element.Skeleton.mk.inj h
  simp only [Element.skeleton, Element.blend, Element.recolor, Element.Skeleton.mk.injEq, true_and]
  exact ⟨skeleton_mark hsame hmark, form_pixels hform, hstyles.symm ▸ hstyle⟩

theorem line_self (l : Option (LineStyle α)) : option (Layout.blendLine · · t) l l = l := by
  cases l with
  | none => rfl
  | some l => rw [option, Layout.blendLine, hsame]

theorem skeleton_dataset {d e : DatasetLayout α} (h : d.skeleton = e.skeleton)
    (hstyles : ∀ element ∈ e.elements, style element.style element.style t = element.style) :
    (Layout.blendDataset t d e).skeleton = (e.recolor fun k => color k k t).skeleton := by
  obtain ⟨-, -, helements, hline⟩ := DatasetLayout.Skeleton.mk.inj h
  have hblend : (Layout.blendAll (·.blend · t) d.elements e.elements).map Element.skeleton =
      e.elements.map fun f => (f.recolor fun k => color k k t).skeleton :=
    map_blendAll (fun _ f hf hform => skeleton_element hsame hform (hstyles f hf)) helements
  simp only [DatasetLayout.skeleton, Layout.blendDataset, DatasetLayout.recolor, hblend, hline, line_self hsame,
    List.map_map, Function.comp_def]

/-- A blend of two layouts of one skeleton has this skeleton again, apart from the colors. -/
theorem skeleton_layout {l m : Layout α} (h : l.skeleton = m.skeleton)
    (hstyles : ∀ element ∈ m.elements, style element.style element.style t = element.style) :
    (l.blend m t).skeleton = (m.recolor fun k => color k k t).skeleton := by
  obtain ⟨-, -, hdatasets⟩ := Layout.Skeleton.mk.inj h
  have hblend : (Layout.blendAll (Layout.blendDataset t) l.datasets m.datasets).map DatasetLayout.skeleton =
      m.datasets.map fun e => (e.recolor fun k => color k k t).skeleton :=
    map_blendAll (fun _ e he hform => skeleton_dataset hsame hform fun element helement =>
      hstyles element (List.mem_flatMap.2 ⟨e, he, helement⟩)) hdatasets
  simp only [Layout.skeleton, Layout.blend, Layout.recolor, hblend, List.map_map, Function.comp_def]

end

end Blend

theorem Blend.number_start {x y : Exact} (hx : isFinite x = true) (hy : isFinite y = true) : number x y 0 = x := by
  obtain ⟨p, rfl⟩ := exists_finite hx
  obtain ⟨q, rfl⟩ := exists_finite hy
  unfold number
  split
  · rename_i h
    rw [finite_beq, decide_eq_true_iff] at h
    rw [h]
  · simp

/-- A blend lies between the numbers it is made of. -/
theorem Blend.contains_number {x y : Exact} (hx : isFinite x = true) (hy : isFinite y = true) {f : ℚ} (h0 : 0 ≤ f)
    (h1 : f ≤ 1) : PixelRange.Contains ⟨x, y⟩ (number x y (finite f)) := by
  obtain ⟨p, rfl⟩ := exists_finite hx
  obtain ⟨q, rfl⟩ := exists_finite hy
  unfold number
  split
  · rename_i h
    rw [finite_beq, decide_eq_true_iff] at h
    left
    simp [h]
  · have h := PixelRange.contains_lerp p q h0 h1
    simpa only [PixelRange.lerp, PixelRange.length, finite_sub, finite_mul, finite_add, mul_comm f] using h

namespace Layout

def Finite (l : Layout Exact) : Prop := ∀ x ∈ l.coordinates, isFinite x = true

/-- Each coordinate of the third layout lies between those of the other two. -/
structure Between (l m n : Layout Exact) : Prop where
  length : l.coordinates.length = m.coordinates.length
  contains : List.Forall₂ (fun (x, y) z => PixelRange.Contains ⟨x, y⟩ z) (l.coordinates.zip m.coordinates) n.coordinates

variable {l m : Layout Exact} (h : l.skeleton = m.skeleton) (hl : l.Finite) (hm : m.Finite)

include h hl hm

theorem coordinates_start : (l.blend m 0).coordinates = l.coordinates := by
  rw [Blend.byNumbers_layout.blend h]
  have hlength := (Blend.byNumbers_layout (t := (0 : Exact))).length h
  apply List.ext_getElem
  · simp [hlength]
  · intro i hi hi'
    rw [List.getElem_zipWith]
    exact Blend.number_start (hl _ (List.getElem_mem _)) (hm _ (List.getElem_mem _))

theorem between_blend {f : ℚ} (h0 : 0 ≤ f) (h1 : f ≤ 1) : l.Between m (l.blend m (finite f)) := by
  refine ⟨(Blend.byNumbers_layout (t := (0 : Exact))).length h, ?_⟩
  rw [Blend.byNumbers_layout.blend h, ← List.map_uncurry_zip_eq_zipWith, List.forall₂_map_right_iff, List.forall₂_same]
  rintro ⟨x, y⟩ hxy
  obtain ⟨hx, hy⟩ := List.of_mem_zip hxy
  exact Blend.contains_number (hl x hx) (hm y hy) h0 h1

end Layout

end Whisker
