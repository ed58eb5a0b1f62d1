import Mathlib.Tactic.Choose
import Whisker.Element
import Whisker.Proofs.Frame

/-!
# What drawing an element adds

An element adds its mark to the series, if the mark can be drawn, and then the lines of its error bars on top.
The lines are listed here from the element's own fields, bar by bar, from the last index of the longer side down to
zero: the segment between two entries, each side being cycled through, then the whiskers at its ends. The options of
the style are cycled through too, each by its own number of values. Lines that cannot be drawn are missing and not
counted; all others keep their place.
-/

namespace Whisker

variable {α β : Type}

/-- The value that an option has for the bar at position `i`: one value serves every bar, a list starts over when it
ends, and only an empty list leaves the bar to the fallback. -/
def Setting.cycled (fallback : β) (i : Nat) : Setting β → β
  | .all v => v
  | .each vs | .wrapped vs => vs.getD (i % vs.length) fallback

theorem Setting.getD_at? (s : Setting β) (i : Nat) (fallback : β) : (s.at? i).getD fallback = s.cycled fallback i := by
  cases s with
  | all v =>
    rw [at?, values, List.length_singleton, Nat.mod_one]
    rfl
  | each vs => exact (List.getD_eq_getElem?_getD).symm
  | wrapped vs => exact (List.getD_eq_getElem?_getD).symm

namespace Bounds

/-- The entries of a side; a missing side has the center for its one entry. -/
def side (center : α) : Option (Bound α) → List α
  | none => [center]
  | some (.single v) => [v]
  | some (.stack vs) => vs

theorem side_eq (center : α) (o : Option (Bound α)) : side center o = o.elim [center] Bound.entries := by
  cases o with
  | none => rfl
  | some b => cases b <;> rfl

/-- The bar at an index of a stack: both sides are cycled through, and there is none if a side is empty. -/
def bar? (lower upper : List α) (i : Nat) : Option (α × α) :=
  match lower[i % lower.length]?, upper[i % upper.length]? with
  | some low, some high => some (low, high)
  | _, _ => none

theorem bar?_eq_none {lower upper : List α} (h : lower = [] ∨ upper = []) (i : Nat) : bar? lower upper i = none := by
  unfold bar?
  obtain rfl | rfl := h
  · rfl
  · cases lower[i % lower.length]? <;> rfl

/-- With entries on both sides there is a bar at every index. -/
theorem bar?_isSome {lower upper : List α} (hl : lower ≠ []) (hu : upper ≠ []) (i : Nat) :
    ∃ bar, bar? lower upper i = some bar := by
  have hl := List.getElem?_eq_getElem (Nat.mod_lt i (List.length_pos_iff.2 hl))
  have hu := List.getElem?_eq_getElem (Nat.mod_lt i (List.length_pos_iff.2 hu))
  unfold bar?
  rw [hl, hu]
  exact ⟨_, rfl⟩

/-- Pairing goes up to the length of the longer side. -/
theorem pairUp_eq (lower upper : List α) :
    pairUp lower upper = (List.range (max lower.length upper.length)).filterMap (bar? lower upper) := by
  unfold pairUp bar?
  congr 1
  funext i
  cases lower[i % lower.length]? <;> cases upper[i % upper.length]? <;> rfl

end Bounds

namespace ErrorBar

/-- Pairs keep the index of the stack, so each bar is drawn in the style of its own index. -/
theorem stackLines_pairUp (lower upper : List α) (lines : Nat → α × α → List (Line α)) :
    stackLines (Bounds.pairUp lower upper) lines =
      (List.range (max lower.length upper.length)).reverse.flatMap fun i =>
        (Bounds.bar? lower upper i).elim [] (lines i) := by
  rw [stackLines, Bounds.pairUp_eq]
  by_cases hempty : lower = [] ∨ upper = []
  · have hnone : Bounds.bar? lower upper = fun _ => none := funext (Bounds.bar?_eq_none hempty)
    rw [hnone, List.filterMap_eq_nil_iff.2 fun _ _ => rfl]
    exact (List.flatMap_eq_nil_iff.2 fun _ _ => rfl).symm
  · obtain ⟨hl, hu⟩ := not_or.1 hempty
    choose bar hbar using Bounds.bar?_isSome hl hu
    have hsome : Bounds.bar? lower upper = some ∘ bar := funext hbar
    have hindex (n : Nat) : ((List.range n).map bar).mapIdx lines = (List.range n).map fun i => lines i (bar i) := by
      apply List.ext_getElem
      · simp
      · intro i _ _
        simp
    rw [hsome, List.filterMap_eq_map, hindex, ← List.map_reverse, List.flatMap_def]
    rfl

end ErrorBar

variable [Scalar α]

/-- A line shows if its ends are finite, its width is finite and positive and the channels of its color lie in the unit
interval. -/
def Line.shows (l : Line α) : Bool :=
  [l.x1, l.y1, l.x2, l.y2, l.width].all Scalar.isFinite && !(l.width ≤ 0) &&
    [l.color.red, l.color.green, l.color.blue, l.color.alpha].all fun v => Scalar.isFinite v && 0 ≤ v && v ≤ 1

theorem Line.isDrawable_eq_shows (l : Line α) : l.isDrawable = l.shows := by
  rw [Bool.eq_iff_iff, isDrawable, isOk_iff]
  simp [validate, Color.validate, Color.inUnit, Scalar.isPositive, shows, and_assoc]

namespace Style

/-- Half the length of the whiskers at position `i`. A thickness lends them a share of itself where the ratio is
positive; their size decides everywhere else. -/
def reach (s : Style α) (thickness : Option α) (i : Nat) : α :=
  let ratio := s.whiskerRatio.cycled 0 i
  let size := s.whiskerSize.cycled 0 i
  match thickness with
  | none => size * 0.5
  | some total => if 0 < ratio then total * ratio * 0.5 else size * 0.5

/-- Each part of a bar's style is the value of its option at the bar's position. The fallbacks are a width of one and
opaque black. -/
theorem ofBar_eq (s : Style α) (thickness : Option α) (i : Nat) :
    s.ofBar thickness i =
      { lineWidth := s.lineWidth.cycled 1 i
        color := s.color.cycled ⟨0, 0, 0, 1⟩ i
        whiskerLineWidth := s.whiskerLineWidth.cycled 1 i
        whiskerColor := s.whiskerColor.cycled ⟨0, 0, 0, 1⟩ i
        half := s.reach thickness i } := by
  simp only [ofBar, half, reach, Setting.getD_at?]
  cases thickness <;> rfl

end Style

namespace ErrorBar

/-- The lines of a stack that show, bar by bar from the last index down; there are none without bounds. -/
def listing (b : Bounds α) (center : α) (lines : Nat → α × α → List (Line α)) : List (Line α) :=
  match b with
  | ⟨none, none⟩ => []
  | ⟨lower, upper⟩ =>
    let lows := Bounds.side center lower
    let highs := Bounds.side center upper
    (List.range (max lows.length highs.length)).reverse.flatMap fun i =>
      (Bounds.bar? lows highs i).elim [] fun bar => (lines i bar).filter Line.shows

/-- A segment in the style of the bar at position `i`. -/
def segment (style : Style α) (i : Nat) (x₁ y₁ x₂ y₂ : α) : Line α :=
  ⟨x₁, y₁, x₂, y₂, style.lineWidth.cycled 1 i, style.color.cycled ⟨0, 0, 0, 1⟩ i⟩

/-- A whisker in the style of the bar at position `i`. -/
def whisker (style : Style α) (i : Nat) (x₁ y₁ x₂ y₂ : α) : Line α :=
  ⟨x₁, y₁, x₂, y₂, style.whiskerLineWidth.cycled 1 i, style.whiskerColor.cycled ⟨0, 0, 0, 1⟩ i⟩

/-- The lines of a level bar: its segment, the whisker at the lower end and the one at the upper end. -/
def levelBar (y : α) (thickness : Option α) (style : Style α) (i : Nat) (ends : α × α) : List (Line α) :=
  let (low, high) := ends
  let half := style.reach thickness i
  [segment style i low y high y, whisker style i low (y - half) low (y + half),
    whisker style i high (y - half) high (y + half)]

/-- The lines of an upright bar. -/
def uprightBar (x : α) (thickness : Option α) (style : Style α) (i : Nat) (ends : α × α) : List (Line α) :=
  let (low, high) := ends
  let half := style.reach thickness i
  [segment style i x low x high, whisker style i (x - half) low (x + half) low,
    whisker style i (x - half) high (x + half) high]

/-- The lines of a bar along the middle of a sector, whiskers along the tangent. -/
def radialBar [Circular α] (s : Sector α) (style : Style α) (i : Nat) (ends : α × α) : List (Line α) :=
  let sin := Circular.sin ((s.start + s.stop) / 2)
  let cos := Circular.cos ((s.start + s.stop) / 2)
  let (x₁, y₁) := (s.x + ends.1 * cos, s.y + ends.1 * sin)
  let (x₂, y₂) := (s.x + ends.2 * cos, s.y + ends.2 * sin)
  let half := style.reach none i
  let (tx, ty) := (-sin * half, cos * half)
  [segment style i x₁ y₁ x₂ y₂, whisker style i (x₁ + tx) (y₁ + ty) (x₁ - tx) (y₁ - ty),
    whisker style i (x₂ + tx) (y₂ + ty) (x₂ - tx) (y₂ - ty)]

theorem listing_of_isEmpty {b : Bounds α} (h : b.isEmpty = true) (center : α) (lines : Nat → α × α → List (Line α)) :
    listing b center lines = [] := by
  obtain ⟨_ | lower, _ | upper⟩ := b
  · rfl
  all_goals cases h

/-- The drawable lines of a stack with bounds are the listed ones. -/
theorem filter_stackLines (b : Bounds α) (center : α) (lines : Nat → α × α → List (Line α)) (h : b.isEmpty = false) :
    (stackLines (b.pairs center) lines).filter Line.isDrawable = listing b center lines := by
  have hlisting : listing b center lines =
      (List.range (max (Bounds.side center b.lower).length (Bounds.side center b.upper).length)).reverse.flatMap fun i =>
        (Bounds.bar? (Bounds.side center b.lower) (Bounds.side center b.upper) i).elim [] fun bar =>
          (lines i bar).filter Line.shows := by
    obtain ⟨_ | lower, _ | upper⟩ := b
    · cases h
    all_goals rfl
  rw [hlisting, Bounds.pairs, ← Bounds.side_eq, ← Bounds.side_eq, stackLines_pairUp, List.filter_flatMap,
    funext Line.isDrawable_eq_shows]
  congr 1
  funext i
  cases Bounds.bar? (Bounds.side center b.lower) (Bounds.side center b.upper) i <;> rfl

/-- An error bar without bounds has no stack, and nothing is listed for it. -/
theorem filter_guarded (b : Bounds α) (center : α) (lines : Nat → α × α → List (Line α)) :
    (if b.isEmpty then [] else stackLines (b.pairs center) lines).filter Line.isDrawable = listing b center lines := by
  cases h : b.isEmpty with
  | true => exact (listing_of_isEmpty h center lines).symm
  | false => exact filter_stackLines b center lines h

theorem horizontal_eq (a : Anchor α) (b : Bounds α) (style : Style α) :
    horizontal a b style = stackLines (b.pairs a.x) (levelBar a.y a.height style) := by
  simp only [horizontal, Style.ofBar_eq]
  rfl

theorem vertical_eq (a : Anchor α) (b : Bounds α) (style : Style α) :
    vertical a b style = stackLines (b.pairs a.y) (uprightBar a.x a.width style) := by
  simp only [vertical, Style.ofBar_eq]
  rfl

theorem radial_eq [Circular α] (s : Sector α) (b : Bounds α) (style : Style α) :
    radial s.anchor b style = if b.isEmpty then [] else stackLines (b.pairs s.outer) (radialBar s style) := by
  simp only [radial, Style.ofBar_eq]
  rfl

/-- For a bar or a point the drawable lines are those of the level bars and then those of the upright ones. -/
theorem filter_cartesian (a : Anchor α) (pixels : PerAxis (Bounds α)) (style : Style α) :
    (cartesian a pixels style).filter Line.isDrawable =
      listing pixels.x a.x (levelBar a.y a.height style) ++ listing pixels.y a.y (uprightBar a.x a.width style) := by
  rw [cartesian, horizontal_eq, vertical_eq, List.filter_append, filter_guarded, filter_guarded]

/-- For a sector they are those of the radial bars. -/
theorem filter_radial [Circular α] (s : Sector α) (b : Bounds α) (style : Style α) :
    (radial s.anchor b style).filter Line.isDrawable = listing b s.outer (radialBar s style) := by
  rw [radial_eq, filter_guarded]

/-- Drawing adds the drawable lines in order and counts them. -/
theorem draw_eq (f : Frame α) (ls : List (Line α)) :
    draw f ls = (f.pushAll .errorBars ((ls.filter Line.isDrawable).map .line), (ls.filter Line.isDrawable).length) := by
  have h (g : Frame α) (n : Nat) : ls.foldl drawLine (g, n) =
      (g.pushAll .errorBars ((ls.filter Line.isDrawable).map .line), n + (ls.filter Line.isDrawable).length) := by
    induction ls generalizing g n with
    | nil => rfl
    | cons l ls ih =>
      rw [List.foldl_cons]
      cases hl : l.isDrawable with
      | true =>
        have hstep : drawLine (g, n) l = (g.push .errorBars (.line l), n + 1) := if_pos hl
        rw [hstep, ih, List.filter_cons_of_pos hl, List.length_cons, Nat.add_assoc, Nat.add_comm 1]
        rfl
      | false =>
        have hstep : drawLine (g, n) l = (g, n) := if_neg (by simp [hl])
        rw [hstep, ih, List.filter_cons_of_neg (by simp [hl])]
  rw [draw, h, Nat.zero_add]

end ErrorBar

namespace Element

variable [Circular α]

/-- The lines of an element's error bars that show: level before upright ones for a bar or a point, radial ones for a
sector. Only a bar is thick, by its length along the value axis and its thickness along the index axis. -/
def listing (e : Element α) : List (Line α) :=
  match e.mark with
  | .bar b =>
    let (width, height) :=
      if b.horizontal then (Scalar.abs (b.x - b.base), b.thickness) else (b.thickness, Scalar.abs (b.y - b.base))
    ErrorBar.listing e.errorBars.x b.x (ErrorBar.levelBar b.y (some height) e.style) ++
      ErrorBar.listing e.errorBars.y b.y (ErrorBar.uprightBar b.x (some width) e.style)
  | .point p =>
    ErrorBar.listing e.errorBars.x p.x (ErrorBar.levelBar p.y none e.style) ++
      ErrorBar.listing e.errorBars.y p.y (ErrorBar.uprightBar p.x none e.style)
  | .sector s => ErrorBar.listing e.errorBars.r s.outer (ErrorBar.radialBar s e.style)

theorem filter_errorLines (e : Element α) : e.errorLines.filter Line.isDrawable = e.listing := by
  unfold errorLines listing
  cases e.mark with
  | bar b =>
    rw [ErrorBar.filter_cartesian b.anchor e.errorBars e.style]
    cases h : b.horizontal <;> simp only [Bar.anchor, Bar.width, Bar.height, h] <;> rfl
  | point p => exact ErrorBar.filter_cartesian p.anchor e.errorBars e.style
  | sector s => exact ErrorBar.filter_radial s e.errorBars.r e.style

/-- Drawing gives the frame with the shape in the series and the listed lines in the error bars, and the number of the
lines. -/
theorem draw_eq (e : Element α) (hovered : Bool) (f : Frame α) :
    e.draw hovered f = ((f.pushAll .series (e.mark.shape? hovered).toList).pushAll .errorBars (e.listing.map .line),
      e.listing.length) := by
  rw [draw, ErrorBar.draw_eq, filter_errorLines]

/-- To the series an element adds its shape and nothing else. -/
theorem series_draw (e : Element α) (hovered : Bool) (f : Frame α) :
    (e.draw hovered f).1.contents .series = (f.contents .series).pushAll (e.mark.shape? hovered).toList := by
  rw [draw_eq, Frame.contents_pushAll_other _ (by decide), Frame.contents_pushAll]

/-- Drawing an element on any frame changes the series by its shape, if it has one, and the error bars by its listed
lines, and answers how many lines these are. -/
theorem draw_adds_shape_and_lines (e : Element α) (hovered : Bool) (f : Frame α) :
    ∃ g : Frame α,
      (match e.mark.shape? hovered with
        | none => g = f
        | some s => Frame.Changes .series (·.push s) f g) ∧
      (if e.listing = [] then (e.draw hovered f).1 = g
        else Frame.Changes .errorBars (fun l => { l with lines := l.lines ++ e.listing }) g (e.draw hovered f).1) ∧
      (e.draw hovered f).2 = e.listing.length := by
  refine ⟨f.pushAll .series (e.mark.shape? hovered).toList, ?_, ?_, ?_⟩
  · cases e.mark.shape? hovered with
    | none => rfl
    | some s => exact f.changes_pushAll .series (List.cons_ne_nil s [])
  · rw [draw_eq]
    split
    · next h =>
      rw [h]
      rfl
    · next h =>
      have hlines : (e.listing.map Shape.line) ≠ [] := List.map_eq_nil_iff.not.2 h
      have hchanges := Frame.changes_pushAll (f.pushAll .series (e.mark.shape? hovered).toList) .errorBars hlines
      simpa only [Layer.pushAll_lines] using hchanges
  · rw [draw_eq]

end Element

end Whisker
