import Whisker.Proofs.Scale.Ordered
import Whisker.Proofs.Scene.Axes

/-!
# Room for the labels of the y axis

The room beside the y axis is made for labels that are foreseen: the categories, or the ticks of a longest axis. A label
no wider than one of these starts on the canvas. The ticks of a shorter axis are fewer and may reach further, so that
their labels can be wider than all that were foreseen.
-/

namespace Whisker

open Binary
open Scalar (nan inf ofNat isFinite isPositive)

variable {fontSize : Float}

theorem unsigned_textWidth (text : String) (h : isPositive fontSize = true) : Unsigned (textWidth text fontSize) := by
  obtain ⟨hfinite, hpos⟩ := (isPositive_iff fontSize).1 h
  exact unsigned_max _ (unsigned_of_finite hfinite hpos.le)

/-- No text is wider than the widest. -/
theorem unsigned_widest (texts : List String) (h : isPositive fontSize = true) :
    Unsigned (widest texts fontSize) ∧ ∀ t ∈ texts, place (textWidth t fontSize) ≤ place (widest texts fontSize) := by
  have hzero := unsigned_ofNat (n := 0) (by decide)
  have hwidths : ∀ w ∈ texts.map (textWidth · fontSize), w ≠ nan :=
    List.forall_mem_map.2 fun t _ => (unsigned_textWidth t h).ne_nan
  obtain ⟨hnan, hstart, hmem⟩ := place_foldl_max hwidths hzero.ne_nan
  exact ⟨⟨hnan, hzero.nonneg.trans hstart⟩, List.forall_mem_map.1 hmem⟩

namespace Area

variable {v : Viewport} {axes : PerAxis (AxisOptions Float)} {labels : List String} {a : Area Float}

/-- The plot begins behind the room for labels and title, and not before the margin. -/
theorem left_of_cartesian (h : cartesian v axes labels = .ok a) :
    a.left = Scalar.max (leftRoom axes.y labels) margin := by
  obtain ⟨_, h⟩ := seq_eq_ok.1 h
  obtain ⟨_, h⟩ := seq_eq_ok.1 h
  obtain ⟨_, h⟩ := seq_eq_ok.1 h
  cases h
  rfl

theorem unsigned_titleRoom {o : AxisOptions Float} (h : ofNat 0 ≤ titleRoom o) : Unsigned (titleRoom o) := by
  have hzero := unsigned_ofNat (n := 0) (by decide)
  have hnan : titleRoom o ≠ nan := fun hnan => not_le_nan _ (hnan ▸ h)
  exact ⟨hnan, hzero.nonneg.trans ((le_iff_place hzero.ne_nan hnan).1 h)⟩

/-- The left edge has the widest label and the gap to its left. -/
theorem place_widest_le (h : cartesian v axes labels = .ok a) (hdisplay : axes.y.display = true)
    (hticks : axes.y.ticks.display = true) (hfont : isPositive axes.y.ticks.fontSize = true)
    (htitle : ofNat 0 ≤ titleRoom axes.y) : place (widest labels axes.y.ticks.fontSize + labelGap) ≤ place a.left := by
  have hgap := ((unsigned_widest labels hfont).1.add (unsigned_ofNat (n := 10) (by decide))).1
  obtain ⟨hlabels, -, hgapped⟩ := (unsigned_ofNat (n := 0) (by decide)).add hgap
  obtain ⟨hroom, htitled, -⟩ := hlabels.add (unsigned_titleRoom htitle)
  rw [left_of_cartesian h, leftRoom, if_pos hdisplay, if_pos hticks]
  exact (le_max_of_le_left (hgapped.trans htitled)).trans_eq
    (place_max hroom.ne_nan (unsigned_ofNat (n := 8) (by decide)).ne_nan).2.symm

/-- Rounding takes nothing from the gap that a whole number of pixels would notice. -/
theorem natCast_le_left (hv : v.Fits) (h : cartesian v axes labels = .ok a) (hdisplay : axes.y.display = true)
    (hticks : axes.y.ticks.display = true) (hfont : isPositive axes.y.ticks.fontSize = true)
    (htitle : ofNat 0 ≤ titleRoom axes.y) :
    (widest labels axes.y.ticks.fontSize).isFinite = true ∧
      ∀ n : ℕ, n ≤ value (widest labels axes.y.ticks.fontSize) + 10 → n ≤ value a.left := by
  obtain ⟨hgap, hpart, -⟩ := (unsigned_widest labels hfont).1.add (unsigned_ofNat (n := 10) (by decide))
  have hside := (onCanvas_cartesian hv h).across
  have hle : place (widest labels axes.y.ticks.fontSize + ofNat 10) ≤ value a.left :=
    (place_widest_le h hdisplay hticks hfont htitle).trans_eq (place_of_finite hside.finite.1)
  have hfinite : (widest labels axes.y.ticks.fontSize + ofNat 10).isFinite = true := by
    obtain hinf | ⟨hfinite, -⟩ := hgap.cases
    · rw [hinf, place_inf] at hle
      linarith [largest_lt, (abs_le.1 (abs_value_le a.left)).2]
    · exact hfinite
  obtain ⟨fwidest, ften⟩ := finite_of_add hfinite
  rw [place_of_finite hfinite] at hle hpart
  rw [place_of_finite fwidest] at hpart
  refine ⟨fwidest, fun n hn => ?_⟩
  have hlarge := two_pow_le_largest (k := 33) (by decide)
  have hwidth : (v.width : ℚ) ≤ 2 ^ 32 := by exact_mod_cast hv.1.le
  have hnonneg := (unsigned_widest labels hfont).1.nonneg
  rw [place_of_finite fwidest] at hnonneg
  have hten : value (ofNat 10 : Float) = 10 := by exact_mod_cast (value_ofNat (n := 10) (by decide)).2
  have hbound : value (widest labels axes.y.ticks.fontSize) ≤ 2 ^ 32 := by linarith [hside.order, hside.within]
  have hc := computes_add fwidest ften (by rw [hten, abs_of_nonneg (by linarith)]; linarith)
  rw [hten] at hc
  have hsmall : n < 2 ^ 53 := by
    have : (n : ℚ) < 2 ^ 53 := by linarith
    exact_mod_cast this
  exact (hc.rounds.ge (onGrid_natCast hsmall) hn).trans hle

theorem half_labelGap : (labelGap / ofNat 2 : Float) = ofNat 5 := by
  obtain ⟨fgap, vgap⟩ := value_ofNat (n := 10) (by decide)
  obtain ⟨ftwo, vtwo⟩ := value_ofNat (n := 2) (by decide)
  obtain ⟨ffive, vfive⟩ := value_ofNat (n := 5) (by decide)
  have hratio : value (ofNat 10 : Float) / value (ofNat 2 : Float) = (5 : ℕ) := by
    rw [vgap, vtwo]
    norm_num
  have hc := computes_div fgap ftwo (by rw [vtwo]; norm_num) (by rw [hratio, ← vfive]; exact abs_value_le _)
  rw [hratio] at hc
  refine eq_of_value hc.finite ffive (by rw [vfive]; norm_num) ?_
  rw [vfive]
  exact le_antisymm (hc.le_natCast (by decide) le_rfl) (hc.rounds.ge (onGrid_natCast (by decide)) le_rfl)

/-- Where labels end: half the gap from the left edge. -/
theorem computes_labelEnd (hv : v.Fits) (h : cartesian v axes labels = .ok a) :
    Computes (a.left - labelGap / ofNat 2) (value a.left - 5) ∧ 0 ≤ value (a.left - labelGap / ofNat 2) := by
  obtain ⟨ffive, vfive⟩ := value_ofNat (n := 5) (by decide)
  obtain ⟨feight, veight⟩ := value_ofNat (n := 8) (by decide)
  have hside := (onCanvas_cartesian hv h).across
  have hmargin : 8 ≤ value a.left := by
    have hleft := left_of_cartesian h
    have hfinite := hside.finite.1
    rw [hleft] at hfinite ⊢
    exact_mod_cast veight ▸ value_le_max feight hfinite
  have hc := computes_sub_of_nonneg hside.finite.1 ffive hside.nonneg (by rw [vfive]; positivity)
  rw [vfive, Nat.cast_ofNat] at hc
  rw [half_labelGap]
  exact ⟨hc, hc.nonneg (by linarith)⟩

/-- A label starts on the canvas exactly if it is not wider than the room left of its end. -/
theorem starts_iff (hv : v.Fits) (h : cartesian v axes labels = .ok a) {w : Float} (hw : Unsigned w) :
    ofNat 0 ≤ a.left - labelGap / ofNat 2 - w ↔ w ≤ a.left - labelGap / ofNat 2 := by
  obtain ⟨hc, hnonneg⟩ := computes_labelEnd hv h
  obtain rfl | ⟨hfinite, hvalue⟩ := hw.cases
  · refine iff_of_false (fun hle => ?_) (not_inf_le hc.finite)
    rw [float_sub_eq] at hle
    obtain hsub | hsub := add_not_finite (y := -inf) (by decide) (a.left - labelGap / ofNat 2)
    · rw [hsub] at hle
      exact absurd hle (by decide)
    · rw [hsub] at hle
      exact absurd hle (by decide)
  · rw [sub_nonneg_iff hc.finite hfinite hnonneg hvalue, le_iff_value hfinite hc.finite]

/-- A label that is not wider than the widest foreseen one fits. -/
theorem le_labelEnd (hv : v.Fits) (h : cartesian v axes labels = .ok a) (hdisplay : axes.y.display = true)
    (hticks : axes.y.ticks.display = true) (hfont : isPositive axes.y.ticks.fontSize = true)
    (htitle : ofNat 0 ≤ titleRoom axes.y) {w : Float} (hw : Unsigned w)
    (hle : place w ≤ place (widest labels axes.y.ticks.fontSize)) : w ≤ a.left - labelGap / ofNat 2 := by
  obtain ⟨hfinite, hleft⟩ := natCast_le_left hv h hdisplay hticks hfont htitle
  obtain ⟨hc, -⟩ := computes_labelEnd hv h
  have hwidth : (v.width : ℚ) ≤ 2 ^ 32 := by exact_mod_cast hv.1.le
  have hside := (onCanvas_cartesian hv h).across
  rw [place_of_finite hfinite] at hle
  obtain rfl | ⟨fw, vw⟩ := hw.cases
  · rw [place_inf] at hle
    linarith [largest_lt, (abs_le.1 (abs_value_le (widest labels axes.y.ticks.fontSize))).2]
  · rw [place_of_finite fw] at hle
    -- The next whole pixel after the label's width lies between the two.
    have hceil : value w ≤ ⌈value w⌉₊ := Nat.le_ceil _
    have hnext : (⌈value w⌉₊ : ℚ) < value w + 1 := Nat.ceil_lt_add_one vw
    have hedge := hleft (⌈value w⌉₊ + 5) (by push_cast; linarith)
    push_cast at hedge
    have hsmall : ⌈value w⌉₊ < 2 ^ 53 := by
      have hlt : (⌈value w⌉₊ : ℚ) < 2 ^ 53 := by linarith [hside.order, hside.within]
      exact_mod_cast hlt
    rw [le_iff_value fw hc.finite]
    exact hceil.trans (hc.rounds.ge (onGrid_natCast hsmall) (by linarith))

end Area

def Placed.rightLabels {α : Type} (shapes : Placed α) : List (Label α) :=
  shapes.filterMap fun
    | (_, .label lab) => if lab.align = .right then some lab else none
    | _ => none

namespace Scene

variable {v : Viewport} {area : Area Float} {s x y : AxisScale Float} {o : AxisOptions Float}
  {axes : PerAxis (AxisOptions Float)} {lab : Label Float}

/-- The texts of an axis are its tick texts and its title. -/
theorem mem_axisShapes_label {layer : LayerKind} (h : (layer, .label lab) ∈ axisShapes v area s o) :
    (∃ t ∈ ticks s o, lab = tickText s.axis area o.ticks t) ∨ lab = titleText s.axis v area o.title := by
  unfold axisShapes at h
  split at h
  · simp only [List.mem_append, List.mem_map, List.mem_singleton] at h
    obtain ((⟨line, -, hline⟩ | hline) | ⟨text, htext, hlab⟩) | ⟨text, htext, hlab⟩ := h
    · cases hline
    · cases hline
    · cases hlab
      split at htext
      · obtain ⟨t, ht, hlab⟩ := List.mem_map.1 (List.mem_filter.1 htext).1
        exact .inl ⟨t, (List.mem_filter.1 ht).1, hlab.symm⟩
      · cases htext
    · cases hlab
      split at htext
      · exact .inr (List.mem_singleton.1 htext)
      · cases htext
  · cases h

/-- Only the labels of the y axis end at their anchor. -/
theorem mem_rightLabels (hx : x.axis = .x) (hy : y.axis = .y)
    (h : lab ∈ Placed.rightLabels (axisShapes v area x axes.x ++ axisShapes v area y axes.y)) :
    ∃ t ∈ ticks y axes.y, lab = tickText .y area axes.y.ticks t := by
  obtain ⟨⟨layer, shape⟩, hmem, hlab⟩ := List.mem_filterMap.1 h
  cases shape with
  | label text =>
    simp only [Option.ite_none_right_eq_some, Option.some.injEq] at hlab
    obtain ⟨hright, rfl⟩ := hlab
    obtain hmem | hmem := List.mem_append.1 hmem
    · obtain ⟨t, -, htext⟩ | htitle := mem_axisShapes_label hmem
      · rw [htext, hx] at hright
        cases hright
      · rw [htitle, hx] at hright
        cases hright
    · obtain ⟨t, ht, htext⟩ | htitle := mem_axisShapes_label hmem
      · exact ⟨t, ht, hy ▸ htext⟩
      · rw [htitle, hy] at hright
        cases hright
  | _ => cases hlab

/-- Every label of a category axis is one of its categories, shortened. -/
theorem label_mem_categoryTicks {s : CategoryScale Float} {fontSize : Float} {t : Tick Float}
    (h : t ∈ categoryTicks s fontSize) : t.label ∈ s.labels.map (CategoryScale.shorten s.maxChars) := by
  obtain ⟨⟨label, i⟩, hmem, rfl⟩ := List.mem_map.1 h
  obtain ⟨j, -, hlabel⟩ := List.mem_filterMap.1 (List.fst_mem_of_mem_zipIdx (List.mem_filter.1 hmem).1)
  obtain ⟨category, hget, rfl⟩ := Option.map_eq_some_iff.1 hlabel
  exact List.mem_map_of_mem (List.mem_of_getElem? hget)

end Scene

/-- The axis shows what was foreseen: categories, or the most ticks, without explicit ends to cut them off. -/
def AxisScale.ShowsForeseen (o : AxisOptions Float) : AxisScale Float → Prop
  | .category _ => True
  | .linear s => o.min = none ∧ o.max = none ∧ Ticks.count s.pixels.span = Ticks.most

/-- An axis whose ticks are the foreseen ones shows foreseen labels only. -/
theorem AxisScale.Foreseen.label_mem {y : AxisScale Float} {o : AxisOptions Float} {labels : List String}
    (h : y.Foreseen o labels) (hshows : y.ShowsForeseen o) : ∀ t ∈ Scene.ticks y o, t.label ∈ labels := by
  intro t ht
  cases h with
  | category heq => exact heq ▸ Scene.label_mem_categoryTicks ht
  | @linear s extent beginAtZero hfit heq =>
    obtain ⟨hmin, hmax, hmost⟩ := hshows
    have hcover : s.ticks = Ticks.cover (Scale.tickRange extent (o.scale beginAtZero)).1
        (Scale.tickRange extent (o.scale beginAtZero)).2 Ticks.most := by
      rw [LinearScale.ticks_of_no_ends hfit hmin hmax, ← hmost]
      rfl
    have hlabels : labels = s.ticks.map fun t => Ticks.label t (Ticks.spacing s.ticks) := by
      rw [hcover]
      exact heq
    obtain ⟨u, hu, rfl⟩ := List.mem_map.1 ht
    rw [hlabels]
    exact List.mem_map_of_mem hu

/-- A label of the y axis starts on the canvas exactly if it is no wider than the room up to its end. So does each that is
no wider than a label that was foreseen. -/
theorem y_label_starts_on_canvas_iff {kind : ChartKind} (hkind : kind ≠ .polar) {c : Chart Float} {v : Viewport}
    (hv : v.Fits) {atRest : Bool} {l : Layout Float} (h : kind.layout c v atRest = .ok l)
    (hdisplay : c.options.axes.y.display = true) (hticks : c.options.axes.y.ticks.display = true)
    (hfont : isPositive c.options.axes.y.ticks.fontSize = true) :
    ∃ (x y : AxisScale Float) (shapes : Placed Float), l.scales = .cartesian x y ∧ Scene.axes c.options l = .ok shapes ∧
      ∀ lab ∈ shapes.rightLabels,
        (ofNat 0 ≤ lab.x - textWidth lab.text lab.fontSize ↔
          textWidth lab.text lab.fontSize ≤
            Scalar.max (Area.leftRoom c.options.axes.y (kind.foreseen c)) Area.margin - labelGap / ofNat 2) ∧
        (ofNat 0 ≤ Area.titleRoom c.options.axes.y →
          (y.ShowsForeseen c.options.axes.y ∨
            ∃ text ∈ kind.foreseen c, textWidth lab.text lab.fontSize ≤ textWidth text lab.fontSize) →
          ofNat 0 ≤ lab.x - textWidth lab.text lab.fontSize) := by
  obtain ⟨hviewport, hstraight⟩ := ChartKind.layout_straight hkind h
  obtain ⟨viewport, scales, datasets⟩ := l
  obtain rfl : viewport = v := hviewport
  cases hstraight with
  | @cartesian x y area hinset hx hy hacross halong hforeseen =>
    refine ⟨x, y, _, rfl, Scene.axes_cartesian hv hinset hacross halong datasets, fun lab hlab => ?_⟩
    obtain ⟨t, ht, rfl⟩ := Scene.mem_rightLabels hx hy hlab
    have hwidth := unsigned_textWidth t.label hfont
    have hstarts := Area.starts_iff hv hinset hwidth
    refine ⟨Area.left_of_cartesian hinset ▸ hstarts, fun htitle hnarrow => hstarts.2 ?_⟩
    refine Area.le_labelEnd hv hinset hdisplay hticks hfont htitle hwidth ?_
    obtain hshows | ⟨text, htext, hle⟩ := hnarrow
    · exact (unsigned_widest _ hfont).2 _ (hforeseen.label_mem hshows t ht)
    · exact ((le_iff_place hwidth.ne_nan (unsigned_textWidth text hfont).ne_nan).1 hle).trans
        ((unsigned_widest _ hfont).2 text htext)

def risingChart : Chart Float :=
  ⟨"lineWithErrorBars", [], [.ofData [Datum.onAxis .y 0, Datum.onAxis .y 90]], .default⟩

def Scales.tickRoom : Scales Float → Nat
  | .cartesian _ (.linear s) => Ticks.count s.pixels.span
  | _ => 0

/-- On a high canvas the line has a label every ten. -/
theorem labels_start_on_high_canvas :
    ∃ (l : Layout Float) (shapes : Placed Float), ChartKind.line.layout risingChart ⟨300, 600⟩ false = .ok l ∧
      Scene.axes risingChart.options l = .ok shapes ∧ shapes.rightLabels.length = 10 ∧
      ∀ lab ∈ shapes.rightLabels, ofNat 0 ≤ lab.x - textWidth lab.text lab.fontSize := by
  have hs : (ChartKind.line.layout risingChart ⟨300, 600⟩ false).toOption.map (fun l =>
      ((Scene.axes risingChart.options l).toOption.map fun shapes => shapes.rightLabels.length, l.scales.tickRoom)) =
        some (some 10, Ticks.most) := by decide +kernel
  obtain ⟨l, hl, hparts⟩ := Option.map_eq_some_iff.1 hs
  obtain ⟨hlength, hcount⟩ := Prod.mk.inj hparts
  have hl := toOption_eq_some.1 hl
  obtain ⟨x, y, shapes, hscales, haxes, hlabels⟩ :=
    y_label_starts_on_canvas_iff (by decide) ⟨by decide, by decide⟩ hl rfl rfl (by decide +kernel)
  have hshows : y.ShowsForeseen risingChart.options.axes.y := by
    cases y with
    | category s => trivial
    | linear s =>
      rw [hscales] at hcount
      exact ⟨rfl, rfl, hcount⟩
  rw [haxes] at hlength
  exact ⟨l, shapes, hl, haxes, Option.some.inj hlength,
    fun lab hlab => (hlabels lab hlab).2 (by decide +kernel) (.inl hshows)⟩

/-- On a low canvas it has a label at a hundred, and room was made for two digits. -/
theorem label_starts_off_low_canvas :
    ∃ (l : Layout Float) (shapes : Placed Float) (lab : Label Float),
      ChartKind.line.layout risingChart ⟨300, 100⟩ false = .ok l ∧ Scene.axes risingChart.options l = .ok shapes ∧
      risingChart.options.axes.y.display = true ∧ risingChart.options.axes.y.ticks.display = true ∧
      isPositive risingChart.options.axes.y.ticks.fontSize = true ∧
      lab ∈ shapes.rightLabels ∧ lab.text = "100" ∧ ¬ofNat 0 ≤ lab.x - textWidth lab.text lab.fontSize := by
  have hs : (ChartKind.line.layout risingChart ⟨300, 100⟩ false).toOption.map (fun l =>
      (Scene.axes risingChart.options l).toOption.map fun shapes => shapes.rightLabels.any fun lab =>
        lab.text = "100" && !decide (ofNat 0 ≤ lab.x - textWidth lab.text lab.fontSize)) = some (some true) := by
    decide +kernel
  obtain ⟨l, hl, hshapes⟩ := Option.map_eq_some_iff.1 hs
  obtain ⟨shapes, haxes, hany⟩ := Option.map_eq_some_iff.1 hshapes
  obtain ⟨lab, hlab, hwide⟩ := List.any_eq_true.1 hany
  rw [Bool.and_eq_true, decide_eq_true_eq, Bool.not_eq_true', decide_eq_false_iff_not] at hwide
  exact ⟨l, shapes, lab, toOption_eq_some.1 hl, toOption_eq_some.1 haxes, rfl, rfl, by decide +kernel, hlab, hwide⟩

end Whisker
