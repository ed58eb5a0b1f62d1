import Whisker.Proofs.Animation
import Whisker.Proofs.Engine.Styles
import Whisker.Proofs.Layout.Inside
import Whisker.Proofs.Layout.Recolor

/-!
# The run of an animation

Every instant of an animation has a layout, and from its end on this is the settled one. In exact arithmetic it is the
layout at rest up to the start; in between each coordinate lies between those at the two ends, and all else is settled
from the start. The exception are colors with "not a number" in them: they are mixed with themselves, and an animation
leaves them alone only if they are steady.
-/

namespace Whisker

open Exact
open Scalar (isFinite nan)

namespace Animation

variable {a : Animation Exact} {d : ℚ}

theorem nonpos_cases {t : Exact} (h : t ≤ 0) : t = infinite true ∨ ∃ p : ℚ, t = finite p ∧ p ≤ 0 := by
  cases t with
  | finite p =>
    rw [literal_eq, finite_le, Nat.cast_zero] at h
    exact .inr ⟨p, rfl, h⟩
  | infinite n =>
    cases n with
    | false => cases h
    | true => exact .inl rfl
  | notANumber => cases h

theorem between_cases {t : Exact} (h0 : 0 < t) (h1 : t < finite d) : ∃ p : ℚ, t = finite p ∧ 0 < p ∧ p < d := by
  cases t with
  | finite p =>
    rw [literal_eq, finite_lt, Nat.cast_zero] at h0
    exact ⟨p, rfl, h0, finite_lt.1 h1⟩
  | infinite n => cases n <;> [cases h1; cases h0]
  | notANumber => cases h0

variable (hd : a.duration = finite d)

include hd

theorem isComplete_eq_false {p : ℚ} (hpos : 0 < d) (hp : p < d) : a.isComplete (finite p) = false := by
  rw [Bool.eq_false_iff, Ne, isComplete_finite hd, not_or, not_le, not_le]
  exact ⟨hpos, hp⟩

/-- Up to its start an animation has made no progress and is not complete. -/
theorem progress_start (hpos : 0 < d) {t : Exact} (ht : t ≤ 0) :
    a.isComplete t = false ∧ a.progress (Scalar.max t 0) = 0 := by
  have hzero : a.progress 0 = 0 := by
    rw [literal_eq]
    exact (progress_eq_zero hd hpos).2 (Nat.cast_zero (R := ℚ)).le
  obtain rfl | ⟨p, rfl, hp⟩ := nonpos_cases ht
  · -- Minus infinity lies before the start, and zero is put in its place.
    refine ⟨?_, hzero⟩
    rw [isComplete, hd, Bool.or_eq_false_iff, decide_eq_false_iff_not, decide_eq_false_iff_not, literal_eq, finite_le,
      Nat.cast_zero]
    exact ⟨not_le.2 hpos, Bool.false_ne_true⟩
  · have hmax : Scalar.max (finite p) 0 = 0 := by
      rw [literal_eq, finite_max, Nat.cast_zero, max_eq_right hp]
    exact ⟨isComplete_eq_false hd hpos (hp.trans_lt hpos), by rw [hmax, hzero]⟩

/-- Between start and end the progress is a fraction. -/
theorem progress_between {t : Exact} (h0 : 0 < t) (h1 : t < a.duration) :
    a.isComplete t = false ∧ ∃ f : ℚ, a.progress (Scalar.max t 0) = finite f ∧ 0 ≤ f ∧ f ≤ 1 := by
  obtain ⟨p, rfl, h0, h1⟩ := between_cases h0 (hd ▸ h1)
  refine ⟨isComplete_eq_false hd (h0.trans h1) h1, ?_⟩
  rw [literal_eq, finite_max]
  exact progress_mem hd _

end Animation

namespace Engine

section

variable {α : Type} [Scalar α] [NumberText α] [Circular α] {e : Engine α} {t : α}

theorem animatedLayout_of_isComplete (h : e.chart.options.animation.isComplete t = true) :
    e.animatedLayout t = .ok e.layout := by
  unfold animatedLayout
  simp only [h, if_true]
  rfl

/-- A running animation shows the blend from rest at its progress; negative times count as zero. -/
theorem animatedLayout_of_running {rest : Layout α} (hrest : e.restLayout = .ok rest)
    (h : e.chart.options.animation.isComplete t = false) :
    e.animatedLayout t = .ok (rest.blend e.layout (e.chart.options.animation.progress (Scalar.max t 0))) := by
  unfold animatedLayout
  simp only [h, hrest]
  rfl

theorem Coherent.validate_animation (h : e.Coherent) : e.chart.options.animation.validate = .ok () := by
  have hchart := h.chart
  simp only [Chart.validate, ChartOptions.validate, seq_eq_ok] at hchart
  exact hchart.2.1.2.2.2

end

section

variable [Circular Exact] {e : Engine Exact} {rest : Layout Exact}

/-- While it runs, an animation changes no more of the settled skeleton than the colors. -/
theorem Coherent.skeleton_blend (h : e.Coherent) (hrest : e.restLayout = .ok rest) (f : Exact) :
    (rest.blend e.layout f).skeleton = (e.layout.recolor fun k => Blend.color k k f).skeleton := by
  refine Blend.skeleton_layout (fun x => Blend.number_same x f) (h.skeleton_restLayout hrest) fun element helement => ?_
  refine Blend.style_self (fun x hx => ?_) (h.sound_of_styles (ChartKind.styles_of_layout h.layout helement)) f
  obtain ⟨p, rfl⟩ := exists_finite hx
  rw [finite_beq, decide_eq_true_iff]

/-- The blend with which an animation starts is the layout at rest exactly if all colors are steady. -/
theorem Coherent.blend_start (h : e.Coherent) (hrest : e.restLayout = .ok rest) (hfinite : rest.Finite)
    (hsettled : e.layout.Finite) : rest.blend e.layout 0 = rest ↔ ∀ k ∈ e.layout.colors, k.IsSteady := by
  have hskeleton := h.skeleton_restLayout hrest
  have hblend := h.skeleton_blend hrest 0
  constructor
  · intro heq k hk
    rw [heq, hskeleton] at hblend
    exact Color.steady_of_blend (e.layout.skeleton_recolor_eq_iff.1 hblend.symm k hk)
  · intro hsteady
    have hkeeps := e.layout.skeleton_recolor_eq_iff.2 fun k hk => Color.blend_of_steady (hsteady k hk) 0
    have hzero : (finite 0 : Exact) = 0 := by simp
    rw [hzero] at hkeeps
    exact (Blend.byNumbers_layout (t := (0 : Exact))).ext ((hblend.trans hkeeps).trans hskeleton.symm)
      (Layout.coordinates_start hskeleton hfinite hsettled)

/-- The layouts while an animation runs: a blend with no progress up to the start, then blends with a fraction. -/
theorem Coherent.animatedLayout_running (h : e.Coherent) (hrest : e.restLayout = .ok rest)
    (hpos : 0 < e.chart.options.animation.duration) :
    (∀ t ≤ 0, e.animatedLayout t = .ok (rest.blend e.layout 0)) ∧
      ∀ t, 0 < t → t < e.chart.options.animation.duration → ∃ f : ℚ, 0 ≤ f ∧ f ≤ 1 ∧
        e.chart.options.animation.progress (Scalar.max t 0) = finite f ∧
        e.animatedLayout t = .ok (rest.blend e.layout (finite f)) := by
  obtain ⟨d, hd, -⟩ := Animation.duration_of_validate h.validate_animation
  have hpos' : 0 < d := by rwa [hd, literal_eq, finite_lt, Nat.cast_zero] at hpos
  constructor
  · intro t ht
    obtain ⟨hincomplete, hprogress⟩ := Animation.progress_start hd hpos' ht
    rw [animatedLayout_of_running hrest hincomplete, hprogress]
  · intro t h0 h1
    obtain ⟨hincomplete, f, hf, hlow, hhigh⟩ := Animation.progress_between hd h0 h1
    exact ⟨f, hlow, hhigh, hf, by rw [animatedLayout_of_running hrest hincomplete, hf]⟩

end

/-- Over any numbers each instant has a layout, the settled one from the end of the animation on and always if it takes
no time. In exact arithmetic, with finite coordinates, an animation that takes time starts from the coordinates at rest,
and while it runs each coordinate lies between those at its ends; of the settled skeleton no more than the colors
changes. That it starts from the layout at rest itself, and that the skeleton stays as it is, is true exactly if all
colors are steady. -/
theorem animation_runs_from_rest_to_settled {α : Type} [Scalar α] [NumberText α] [Circular α] (e : Engine α)
    (he : e.Reachable) [Circular Exact] (x : Engine Exact) (hx : x.Reachable) :
    (∀ t, ∃ l, e.animatedLayout t = .ok l ∧
      (e.chart.options.animation.duration ≤ 0 ∨ e.chart.options.animation.duration ≤ t → l = e.layout)) ∧
    ∃ rest, x.restLayout = .ok rest ∧
      (0 < x.chart.options.animation.duration → rest.Finite → x.layout.Finite →
        (∀ t ≤ 0, ∀ l, x.animatedLayout t = .ok l → l.coordinates = rest.coordinates ∧
          l.skeleton = (x.layout.recolor fun k => Blend.color k k 0).skeleton) ∧
        (∀ t l, 0 < t → t < x.chart.options.animation.duration → x.animatedLayout t = .ok l → rest.Between x.layout l ∧
          l.skeleton = (x.layout.recolor fun k =>
            Blend.color k k (x.chart.options.animation.progress (Scalar.max t 0))).skeleton) ∧
        ((∀ k ∈ x.layout.colors, k.IsSteady) ↔
          (∀ t ≤ 0, x.animatedLayout t = .ok rest) ∧
          ∀ t l, 0 < t → t < x.chart.options.animation.duration → x.animatedLayout t = .ok l →
            l.skeleton = x.layout.skeleton)) := by
  constructor
  · intro t
    obtain ⟨l, hl, -⟩ := he.coherent.animatedLayout t
    refine ⟨l, hl, fun hcomplete => ?_⟩
    have hsettled := animatedLayout_of_isComplete (e := e) (t := t)
      (by rwa [Animation.isComplete, Bool.or_eq_true, decide_eq_true_iff, decide_eq_true_iff])
    exact Except.ok.inj (hl.symm.trans hsettled)
  · have hc := hx.coherent
    obtain ⟨rest, hrest⟩ := hc.restLayout
    refine ⟨rest, hrest, fun hpos hfinite hsettled => ?_⟩
    have hskeleton := hc.skeleton_restLayout hrest
    obtain ⟨hstart, hrunning⟩ := hc.animatedLayout_running hrest hpos
    refine ⟨fun t ht l hl => ?_, fun t l h0 h1 hl => ?_, fun hsteady => ⟨fun t ht => ?_, fun t l h0 h1 hl => ?_⟩,
      fun hkeeps => ?_⟩
    · cases (hstart t ht).symm.trans hl
      exact ⟨Layout.coordinates_start hskeleton hfinite hsettled, hc.skeleton_blend hrest 0⟩
    · obtain ⟨f, hlow, hhigh, hf, hblend⟩ := hrunning t h0 h1
      cases hblend.symm.trans hl
      rw [hf]
      exact ⟨Layout.between_blend hskeleton hfinite hsettled hlow hhigh, hc.skeleton_blend hrest (finite f)⟩
    · rw [hstart t ht, (hc.blend_start hrest hfinite hsettled).2 hsteady]
    · obtain ⟨f, _, _, _, hblend⟩ := hrunning t h0 h1
      cases hblend.symm.trans hl
      rw [hc.skeleton_blend hrest, x.layout.skeleton_recolor_eq_iff]
      exact fun k hk => Color.blend_of_steady (hsteady k hk) f
    · have hzero : (0 : Exact) ≤ 0 := by decide
      exact (hc.blend_start hrest hfinite hsettled).1 (Except.ok.inj ((hstart 0 hzero).symm.trans (hkeeps.1 0 hzero)))

/-- Half a second into the animation of a bar that lies on its side, and its ends. -/
theorem leaning_bar_runs_from_rest :
    letI : Circular Exact := quarterTurns
    ∃ (e : Engine Exact) (rest l : Layout Exact), e.Reachable ∧ e.restLayout = .ok rest ∧
      0 < e.chart.options.animation.duration ∧ rest.Finite ∧ e.layout.Finite ∧ rest.coordinates ≠ e.layout.coordinates ∧
      e.animatedLayout (-Scalar.inf) = .ok rest ∧ e.animatedLayout 500 = .ok l ∧ rest.Between e.layout l ∧
      l.skeleton = e.layout.skeleton ∧ e.animatedLayout 1000 = .ok e.layout := by
  let _ : Circular Exact := quarterTurns
  have hs : (start (α := Exact) .counting .standard ⟨⟨300, 200⟩, leaningChart⟩).toOption.bind (fun e =>
      e.restLayout.toOption.map fun rest => (e.chart.options.animation.duration, rest.coordinates.all isFinite,
        e.layout.coordinates.all isFinite, decide (rest.coordinates = e.layout.coordinates),
        e.layout.colors.all fun k => k == k)) = some (1000, true, true, false, true) := by decide +kernel
  obtain ⟨e, he, hparts⟩ := Option.bind_eq_some_iff.1 hs
  obtain ⟨rest, hrest, hparts⟩ := Option.map_eq_some_iff.1 hparts
  simp only [Prod.mk.injEq, List.all_eq_true, decide_eq_false_iff_not] at hparts
  obtain ⟨hduration, hfinite, hsettled, hmoves, hcolors⟩ := hparts
  have he : e.Reachable := .start (toOption_eq_some.1 he)
  have hpos : 0 < e.chart.options.animation.duration := hduration ▸ (by decide +kernel : (0 : Exact) < 1000)
  have hsteady : ∀ k ∈ e.layout.colors, k.IsSteady := fun k hk => .inl (Color.beq_self_iff.1 (hcolors k hk))
  obtain ⟨hinstants, rest', hrest', hrun⟩ := animation_runs_from_rest_to_settled e he e he
  obtain rfl := Except.ok.inj (hrest'.symm.trans (toOption_eq_some.1 hrest))
  obtain ⟨-, hbetween, hkeeps⟩ := hrun hpos hfinite hsettled
  obtain ⟨hstart, hskeleton⟩ := hkeeps.1 hsteady
  obtain ⟨l, hl, -⟩ := hinstants 500
  obtain ⟨m, hm, hend⟩ := hinstants 1000
  have h0 : (0 : Exact) < 500 := by decide +kernel
  have h1 : (500 : Exact) < e.chart.options.animation.duration :=
    hduration ▸ (by decide +kernel : (500 : Exact) < 1000)
  have hlast : e.chart.options.animation.duration ≤ 1000 := hduration ▸ (by decide +kernel : (1000 : Exact) ≤ 1000)
  refine ⟨e, rest', l, he, hrest', hpos, hfinite, hsettled, hmoves, hstart _ (by decide +kernel), hl,
    (hbetween 500 l h0 h1 hl).1, hskeleton 500 l h0 h1 hl, ?_⟩
  rw [hm, hend (.inr hlast)]

/-- The bar with a fill of no alpha, the color that the text `rgba(10,20,30,nan)` says. -/
def hazyChart : Chart Exact :=
  { leaningChart with datasets := leaningChart.datasets.map fun d =>
      { d with background := (Color.ofCss "rgba(10,20,30,nan)").toOption } }

/-- Such a fill is not equal to itself, so it is mixed with itself and its other channels are lost. -/
theorem hazy_fill_is_lost :
    letI : Circular Exact := quarterTurns
    ∃ (e : Engine Exact) (rest l m : Layout Exact), e.Reachable ∧ e.restLayout = .ok rest ∧
      0 < e.chart.options.animation.duration ∧ rest.Finite ∧ e.layout.Finite ∧ e.animatedLayout 0 = .ok l ∧
      e.animatedLayout 500 = .ok m ∧ rest.colors.map Color.red = [finite (10 / 255), 0] ∧
      e.layout.colors.map Color.red = [finite (10 / 255), 0] ∧ l.colors.map Color.red = [nan, 0] ∧
      m.colors.map Color.red = [nan, 0] := by
  let _ : Circular Exact := quarterTurns
  have hs : (start (α := Exact) .counting .standard ⟨⟨300, 200⟩, hazyChart⟩).toOption.bind (fun e =>
      e.restLayout.toOption.bind fun rest => (e.animatedLayout 0).toOption.bind fun l =>
        (e.animatedLayout 500).toOption.map fun m => (e.chart.options.animation.duration,
          rest.coordinates.all isFinite, e.layout.coordinates.all isFinite,
          [rest, e.layout, l, m].map fun l => l.colors.map Color.red)) =
      some (1000, true, true, [[finite (10 / 255), 0], [finite (10 / 255), 0], [nan, 0], [nan, 0]]) := by
    decide +kernel
  obtain ⟨e, he, hparts⟩ := Option.bind_eq_some_iff.1 hs
  obtain ⟨rest, hrest, hparts⟩ := Option.bind_eq_some_iff.1 hparts
  obtain ⟨l, hl, hparts⟩ := Option.bind_eq_some_iff.1 hparts
  obtain ⟨m, hm, hparts⟩ := Option.map_eq_some_iff.1 hparts
  simp only [Prod.mk.injEq, List.all_eq_true, List.map_cons, List.map_nil, List.cons.injEq, and_true] at hparts
  obtain ⟨hduration, hfinite, hsettled, hcolors⟩ := hparts
  have hpos : 0 < e.chart.options.animation.duration := hduration ▸ (by decide +kernel : (0 : Exact) < 1000)
  exact ⟨e, rest, l, m, .start (toOption_eq_some.1 he), toOption_eq_some.1 hrest, hpos, hfinite, hsettled,
    toOption_eq_some.1 hl, toOption_eq_some.1 hm, hcolors⟩

end Engine

end Whisker
