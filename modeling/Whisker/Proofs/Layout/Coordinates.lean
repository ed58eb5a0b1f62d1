import Whisker.Engine
import Whisker.Proofs.Layout.Skeleton

/-!
# The coordinates of a layout

An animation moves coordinates, radii, angles and the ends of error bars. What it moves fills up what a skeleton leaves
out: a layout is its skeleton and its coordinates. In a blend of two layouts of one skeleton the coordinates are those
of the two layouts, blended one by one. Both facts hold of a bound, and they pass on to pairs, options and lists.
-/

namespace Whisker

variable {α β γ : Type}

def Mark.coordinates : Mark α → List α
  | .bar b => [b.x, b.y, b.base]
  | .point p => [p.x, p.y, p.radius, p.hoverRadius]
  | .sector s => [s.x, s.y, s.inner, s.outer, s.start, s.stop]

def Mark.withCoordinates : Mark α → List α → Mark α
  | .bar b, [x, y, base] => .bar { b with x, y, base }
  | .point p, [x, y, radius, hoverRadius] => .point { p with x, y, radius, hoverRadius }
  | .sector s, [x, y, inner, outer, start, stop] => .sector { s with x, y, inner, outer, start, stop }
  | m, _ => m

theorem Mark.withCoordinates_skeleton [Scalar α] (m : Mark α) : m.skeleton.withCoordinates m.coordinates = m := by
  cases m with
  | bar b =>
    obtain ⟨_, _, _, _, horizontal, _, _, _⟩ := b
    cases horizontal <;> rfl
  | point p => rfl
  | sector s => rfl

def PerAxis.ends (p : PerAxis (Bounds α)) : List α := p.x.entries ++ (p.y.entries ++ p.r.entries)

def Element.coordinates (e : Element α) : List α := e.mark.coordinates ++ e.errorBars.ends

def DatasetLayout.coordinates (d : DatasetLayout α) : List α := d.elements.flatMap Element.coordinates

def Layout.coordinates (l : Layout α) : List α := l.datasets.flatMap DatasetLayout.coordinates

namespace Blend

variable [Scalar α]

/-- Things of one form have as many numbers, are equal if these are, and are blended number by number. -/
structure ByNumbers (form : β → γ) (numbers : β → List α) (blend : β → β → β) (t : α) : Prop where
  length : ∀ {x y}, form x = form y → (numbers x).length = (numbers y).length
  ext : ∀ {x y}, form x = form y → numbers x = numbers y → x = y
  blend : ∀ {x y}, form x = form y → numbers (blend x y) = List.zipWith (number · · t) (numbers x) (numbers y)

variable {t : α}

namespace ByNumbers

variable {δ ε : Type} {form : β → γ} {numbers : β → List α} {blend : β → β → β} {form' : δ → ε} {numbers' : δ → List α}
  {blend' : δ → δ → δ}

/-- Each of two parts has its own numbers, since their count is a matter of form. -/
theorem pair (h : ByNumbers form numbers blend t) (h' : ByNumbers form' numbers' blend' t) :
    ByNumbers (Prod.map form form') (fun p => numbers p.1 ++ numbers' p.2)
      (fun p q => (blend p.1 q.1, blend' p.2 q.2)) t where
  length hform := by
    obtain ⟨hfst, hsnd⟩ := Prod.mk.inj hform
    rw [List.length_append, List.length_append, h.length hfst, h'.length hsnd]
  ext hform hnumbers := by
    obtain ⟨hfst, hsnd⟩ := Prod.mk.inj hform
    obtain ⟨hx, hx'⟩ := List.append_inj hnumbers (h.length hfst)
    exact Prod.ext (h.ext hfst hx) (h'.ext hsnd hx')
  blend hform := by
    obtain ⟨hfst, hsnd⟩ := Prod.mk.inj hform
    rw [h.blend hfst, h'.blend hsnd, List.zipWith_append (h.length hfst)]

/-- What is blended part by part and is no more than its form and these parts. -/
theorem of_parts (h : ByNumbers form numbers blend t) (parts : δ → β)
    (hparts : ∀ {x y}, form' x = form' y → form (parts x) = form (parts y))
    (hext : ∀ {x y}, form' x = form' y → parts x = parts y → x = y)
    (hnumbers : ∀ x, numbers' x = numbers (parts x)) (hblend : ∀ x y, parts (blend' x y) = blend (parts x) (parts y)) :
    ByNumbers form' numbers' blend' t where
  length hform := by rw [hnumbers, hnumbers, h.length (hparts hform)]
  ext hform heq := by
    rw [hnumbers, hnumbers] at heq
    exact hext hform (h.ext (hparts hform) heq)
  blend hform := by rw [hnumbers, hnumbers, hnumbers, hblend, h.blend (hparts hform)]

/-- What is blended by its numbers is so where it may be missing. -/
theorem option (h : ByNumbers form numbers blend t) :
    ByNumbers (Option.map form) (·.elim [] numbers) (Blend.option blend) t where
  length {o p} hform := by
    match o, p, hform with
    | none, none, _ => rfl
    | some _, some _, hform => exact h.length (Option.some.inj hform)
  ext {o p} hform hnumbers := by
    match o, p, hform with
    | none, none, _ => rfl
    | some _, some _, hform => exact congrArg some (h.ext (Option.some.inj hform) hnumbers)
  blend {o p} hform := by
    match o, p, hform with
    | none, none, _ => rfl
    | some _, some _, hform => exact h.blend (Option.some.inj hform)

/-- What is blended by its numbers is so in lists. -/
theorem list (h : ByNumbers form numbers blend t) :
    ByNumbers (List.map form) (List.flatMap numbers) (Layout.blendAll blend) t where
  length {xs ys} hform := by
    induction xs generalizing ys with
    | nil => rw [List.map_eq_nil_iff.1 hform.symm]
    | cons x xs ih =>
      cases ys with
      | nil => cases hform
      | cons y ys =>
        obtain ⟨hhead, htail⟩ := List.cons.inj hform
        rw [List.flatMap_cons, List.flatMap_cons, List.length_append, List.length_append, h.length hhead, ih htail]
  ext {xs ys} hform hnumbers := by
    induction xs generalizing ys with
    | nil => rw [List.map_eq_nil_iff.1 hform.symm]
    | cons x xs ih =>
      cases ys with
      | nil => cases hform
      | cons y ys =>
        obtain ⟨hhead, htail⟩ := List.cons.inj hform
        rw [List.flatMap_cons, List.flatMap_cons] at hnumbers
        obtain ⟨hx, hxs⟩ := List.append_inj hnumbers (h.length hhead)
        rw [h.ext hhead hx, ih htail hxs]
  blend {xs ys} hform := by
    induction xs generalizing ys with
    | nil =>
      rw [List.map_eq_nil_iff.1 hform.symm]
      rfl
    | cons x xs ih =>
      cases ys with
      | nil => cases hform
      | cons y ys =>
        obtain ⟨hhead, htail⟩ := List.cons.inj hform
        rw [Layout.blendAll, List.flatMap_cons, List.flatMap_cons, List.flatMap_cons, h.blend hhead, ih htail,
          List.zipWith_append (h.length hhead)]

end ByNumbers

theorem byNumbers_bound : ByNumbers (Bound.map fun _ : α => ()) Bound.entries (bound · · t) t where
  length {b c} hform := by
    have hentries := congrArg (fun b => b.entries.length) hform
    simpa only [Bound.entries_map, List.length_map] using hentries
  ext {b c} hform hentries := by
    match b, c, hform with
    | .single _, .single _, _ => exact congrArg Bound.single (List.singleton_inj.1 hentries)
    | .stack _, .stack _, _ => exact congrArg Bound.stack hentries
  blend {b c} hform := by
    match b, c, hform with
    | .single _, .single _, _ => rfl
    | .stack vs, .stack ws, hform =>
      have hlength : vs.length = ws.length := by
        simpa only [List.length_map] using congrArg List.length (Bound.stack.inj hform)
      rw [bound, Bound.entries, entries, if_pos hlength]
      rfl

theorem byNumbers_bounds : ByNumbers Bounds.form Bounds.entries (bounds · · t) t :=
  (byNumbers_bound.option.pair byNumbers_bound.option).of_parts (fun b => (b.lower, b.upper))
    (fun hform => Prod.ext (congrArg Bounds.lower hform) (congrArg Bounds.upper hform))
    (fun _ hparts => congrArg (fun p => Bounds.mk p.1 p.2) hparts) (fun _ => rfl) fun _ _ => rfl

theorem byNumbers_pixels : ByNumbers (PerAxis.map Bounds.form) PerAxis.ends (pixels · · t) t :=
  (byNumbers_bounds.pair (byNumbers_bounds.pair byNumbers_bounds)).of_parts (fun p => (p.x, p.y, p.r))
    (fun hform => Prod.ext (congrArg PerAxis.x hform) (Prod.ext (congrArg PerAxis.y hform) (congrArg PerAxis.r hform)))
    (fun _ hparts => congrArg (fun p => PerAxis.mk p.1 p.2.1 p.2.2) hparts) (fun _ => rfl) fun _ _ => rfl

theorem byNumbers_mark : ByNumbers Mark.skeleton Mark.coordinates (Mark.blend · · t) t where
  length {m n} hform := by
    match m, n, hform with
    | .bar _, .bar _, _ => rfl
    | .point _, .point _, _ => rfl
    | .sector _, .sector _, _ => rfl
  ext {m n} hform hcoordinates := by
    rw [← m.withCoordinates_skeleton, ← n.withCoordinates_skeleton, hform, hcoordinates]
  blend {m n} hform := by
    match m, n, hform with
    | .bar _, .bar _, _ => rfl
    | .point _, .point _, _ => rfl
    | .sector _, .sector _, _ => rfl

theorem byNumbers_element : ByNumbers Element.skeleton Element.coordinates (Element.blend · · t) t := by
  refine (byNumbers_mark.pair byNumbers_pixels).of_parts (fun e => (e.mark, e.errorBars))
    (fun hform => Prod.ext (congrArg Element.Skeleton.mark hform) (congrArg Element.Skeleton.form hform)) ?_
    (fun _ => rfl) fun _ _ => rfl
  rintro ⟨_, _, mark, errorBars, _⟩ ⟨_, _, mark', errorBars', _⟩ hform hparts
  cases hparts
  cases hform
  rfl

theorem byNumbers_dataset :
    ByNumbers DatasetLayout.skeleton DatasetLayout.coordinates (Layout.blendDataset t) t := by
  refine byNumbers_element.list.of_parts DatasetLayout.elements (congrArg DatasetLayout.Skeleton.elements) ?_
    (fun _ => rfl) fun _ _ => rfl
  rintro ⟨_, _, elements, _⟩ ⟨_, _, elements', _⟩ hform hparts
  cases hparts
  cases hform
  rfl

theorem byNumbers_layout : ByNumbers Layout.skeleton Layout.coordinates (Layout.blend · · t) t := by
  refine byNumbers_dataset.list.of_parts Layout.datasets (congrArg Layout.Skeleton.datasets) ?_ (fun _ => rfl)
    fun _ _ => rfl
  rintro ⟨_, _, datasets⟩ ⟨_, _, datasets'⟩ hform hparts
  cases hparts
  cases hform
  rfl

end Blend

end Whisker
