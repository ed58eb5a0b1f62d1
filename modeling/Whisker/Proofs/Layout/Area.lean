import Whisker.Layout
import Whisker.Proofs.Scalar.Order

/-!
# Areas on a canvas

A plot rectangle lies on its canvas, with its edges in order, whatever room the options of its axes take. On
a canvas whose sides fit 32 bits nothing that is computed from the edges leaves the range of binary64.
-/

namespace Whisker

open Binary

def Viewport.Fits (v : Viewport) : Prop := v.width < 2 ^ 32 ∧ v.height < 2 ^ 32

namespace Area

/-- Two edges that lie on one side of a canvas, in order. -/
structure Side (first last : Float) (length : ℕ) : Prop where
  finite : first.isFinite = true ∧ last.isFinite = true
  nonneg : 0 ≤ value first
  order : value first < value last
  within : value last ≤ length

structure OnCanvas (v : Viewport) (a : Area Float) : Prop where
  across : Side a.left a.right v.width
  along : Side a.top a.bottom v.height

abbrev Margin (x : Float) : Prop := x.isFinite = true → 0 ≤ value x

theorem margin_ofNat {n : ℕ} (h : n < 2 ^ 53) : Margin (Scalar.ofNat n) := by
  intro _
  rw [(value_ofNat h).2]
  positivity

theorem margin_max (x : Float) {n : ℕ} (h : n < 2 ^ 53) : Margin (Scalar.max x (Scalar.ofNat n)) := by
  intro hfinite
  exact (margin_ofNat h (value_ofNat h).1).trans (value_le_max (value_ofNat h).1 hfinite)

/-- Margins that leave room between them make a side. -/
theorem side_inset {first margin : Float} {n : ℕ} (hn : n < 2 ^ 32) (hfirst : Margin first) (hmargin : Margin margin)
    (hf : first.isFinite = true) (hl : (Scalar.ofNat n - margin : Float).isFinite = true)
    (horder : ¬(Scalar.ofNat n - margin : Float) ≤ first) : Side first (Scalar.ofNat n - margin) n := by
  obtain ⟨hnf, hnv⟩ := value_ofNat (n := n) (by omega)
  have hmf := isFinite_of_sub hl
  have hm := hmargin hmf
  have hsub := computes_sub_of_nonneg hnf hmf (by rw [hnv]; positivity) hm
  refine ⟨⟨hf, hl⟩, hfirst hf, ?_, ?_⟩
  · exact not_le.1 fun hv => horder ((le_iff_value hl hf).2 hv)
  · exact hsub.le_natCast (by omega) (by rw [hnv]; linarith)

/-- An area inset by margins lies on the canvas. -/
theorem onCanvas_inset {v : Viewport} (hv : v.Fits) {left top right bottom : Float} {a : Area Float}
    (h : inset v left top right bottom = .ok a) (hl : Margin left) (ht : Margin top) (hr : Margin right)
    (hb : Margin bottom) : a.OnCanvas v := by
  obtain ⟨_, h⟩ := seq_eq_ok.1 h
  obtain ⟨hfinite, h⟩ := seq_eq_ok.1 h
  obtain ⟨hsize, h⟩ := seq_eq_ok.1 h
  cases h
  simp only [check_eq_ok, List.all_cons, List.all_nil, Bool.and_true, Bool.and_eq_true] at hfinite
  obtain ⟨hlf, htf, hrf, hbf⟩ := hfinite
  simp only [check_eq_ok, Bool.not_eq_true', Bool.or_eq_false_iff, decide_eq_false_iff_not] at hsize
  exact ⟨side_inset hv.1 hl hr hlf hrf hsize.1, side_inset hv.2 ht hb htf hbf hsize.2⟩

/-- The plot area of straight axes lies on the canvas. -/
theorem onCanvas_cartesian {v : Viewport} (hv : v.Fits) {axes : PerAxis (AxisOptions Float)} {labels : List String}
    {a : Area Float} (h : cartesian v axes labels = .ok a) : a.OnCanvas v :=
  onCanvas_inset hv h (margin_max _ (n := 8) (by decide)) (margin_ofNat (n := 12) (by decide))
    (margin_ofNat (n := 16) (by decide)) (margin_max _ (n := 8) (by decide))

theorem onCanvas_polar {v : Viewport} (hv : v.Fits) {a : Area Float} (h : polar v = .ok a) : a.OnCanvas v := by
  have height : Margin (margin : Float) := margin_ofNat (n := 8) (by decide)
  have hzero : Margin (0 : Float) := margin_ofNat (n := 0) (by decide)
  unfold polar at h
  split at h
  · rename_i b hb
    cases h
    exact onCanvas_inset hv hb height height height height
  · exact onCanvas_inset hv h hzero hzero hzero hzero

namespace Side

variable {first last : Float} {n : ℕ}

theorem lt (h : Side first last n) : first < last := (lt_iff_value h.finite.1 h.finite.2).2 h.order

theorem not_gt (h : Side first last n) : ¬last < first := fun hlt =>
  lt_asymm h.order ((lt_iff_value h.finite.2 h.finite.1).1 hlt)

theorem min_eq (h : Side first last n) : Scalar.min first last = first ∧ Scalar.min last first = first := by
  have hf : Scalar.isNaN first = false := isNaN_of_isFinite h.finite.1
  have hl : Scalar.isNaN last = false := isNaN_of_isFinite h.finite.2
  simp only [Scalar.min, hf, hl, Bool.false_eq_true, if_false, h.lt, h.not_gt, if_true, and_self]

theorem max_eq (h : Side first last n) : Scalar.max first last = last ∧ Scalar.max last first = last := by
  have hf : Scalar.isNaN first = false := isNaN_of_isFinite h.finite.1
  have hl : Scalar.isNaN last = false := isNaN_of_isFinite h.finite.2
  simp only [Scalar.max, hf, hl, Bool.false_eq_true, if_false, h.lt, h.not_gt, if_true, and_self]

/-- The sum of both ends of a side stays far from overflow. -/
theorem sum (h : Side first last n) (hn : n < 2 ^ 32) :
    (first + last).isFinite = true ∧ 0 ≤ value (first + last) ∧ value (first + last) ≤ 2 ^ 33 := by
  have hn : (n : ℚ) ≤ 2 ^ 32 := by exact_mod_cast hn.le
  have hlarge := two_pow_le_largest (k := 33) (by decide)
  have hlow := h.nonneg
  have horder := h.order
  have hhigh := h.within
  have hc := computes_add h.finite.1 h.finite.2 (abs_le.2 ⟨by linarith, by linarith⟩)
  refine ⟨hc.finite, ?_, ?_⟩
  · exact hc.nonneg (by linarith)
  · exact_mod_cast hc.le_natCast (n := 2 ^ 33) (by decide) (by push_cast; linarith)

theorem isFinite_middle (h : Side first last n) (hn : n < 2 ^ 32) : ((first + last) / Scalar.ofNat 2).isFinite = true :=
  (computes_half (h.sum hn).1).finite

theorem center (h : Side first last n) (hn : n < 2 ^ 32) :
    0 ≤ value ((first + last) * 0.5) ∧ value ((first + last) * 0.5) ≤ 2 ^ 33 := by
  obtain ⟨hf, hlow, hhigh⟩ := h.sum hn
  have hlarge := two_pow_le_largest (k := 33) (by decide)
  have hq : value (first + last) * value 0.5 = value (first + last) / 2 := by rw [value_half.2]; ring
  have hc := computes_mul hf value_half.1 (by rw [hq]; exact abs_le.2 ⟨by linarith, by linarith⟩)
  rw [hq] at hc
  constructor
  · exact hc.nonneg (by linarith)
  · exact_mod_cast hc.le_natCast (n := 2 ^ 33) (by decide) (by push_cast; linarith)

end Side

/-- An inset area keeps the rules of an area. -/
theorem make_of_inset {v : Viewport} {left top right bottom : Float} {a : Area Float}
    (h : inset v left top right bottom = .ok a) : make a.left a.top a.right a.bottom = .ok a := by
  obtain ⟨_, h⟩ := seq_eq_ok.1 h
  have hmake := h
  obtain ⟨_, h⟩ := seq_eq_ok.1 h
  obtain ⟨_, h⟩ := seq_eq_ok.1 h
  cases h
  exact hmake

/-- The scales of an area span the area. -/
theorem OnCanvas.area_scales {v : Viewport} {a : Area Float} (h : a.OnCanvas v)
    (hmake : make a.left a.top a.right a.bottom = .ok a) {x y : AxisScale Float} (hx : x.pixels = ⟨a.left, a.right⟩)
    (hy : y.pixels = ⟨a.bottom, a.top⟩ ∨ y.pixels = ⟨a.top, a.bottom⟩) : (Scales.cartesian x y).area = .ok a := by
  rcases hy with hy | hy <;>
    simp only [Scales.area, hx, hy, h.across.min_eq, h.across.max_eq, h.along.min_eq, h.along.max_eq, hmake]

end Area

end Whisker
