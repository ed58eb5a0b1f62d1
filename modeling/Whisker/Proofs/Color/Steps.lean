import Whisker.Proofs.Color.Valid

/-!
# Colors written twice

Every color has a text, since its channels are brought into their range before they are written, and only "not a number"
for an alpha stays outside. The text is read as the color in steps, which has the same text; a color that is in steps
already is read as itself.
-/

namespace Whisker

namespace Color

open Scalar (nan ofNat clamp)
open Binary (steps value)

variable {c : Color Float}

def confined (c : Color Float) : Color Float := { c with alpha := clamp c.alpha (ofNat 0) (ofNat 1) }

theorem isFinite_confined (hc : c.alpha ≠ nan) : c.confined.alpha.isFinite = true :=
  (clamp_mem_of_ne_nan hc (n := 1) (by decide)).1

theorem roundedAlpha_confined (hc : c.alpha ≠ nan) : c.confined.roundedAlpha = c.roundedAlpha := by
  obtain ⟨hfinite, hlow, hhigh⟩ := clamp_mem_of_ne_nan hc (n := 1) (by decide)
  have hclamp : clamp c.confined.alpha (ofNat 0) (ofNat 1) = c.confined.alpha :=
    Binary.clamp_eq_self hfinite (by decide) hlow hhigh
  change Binary.round (clamp c.confined.alpha (ofNat 0) (ofNat 1) * ofNat 1000) / ofNat 1000 = c.roundedAlpha
  rw [hclamp]
  rfl

theorem roundedAlpha_nan (hc : c.alpha = nan) : c.roundedAlpha = nan := by
  unfold roundedAlpha
  rw [hc]
  decide

theorem roundedAlpha_stepped (c : Color Float) : c.stepped.roundedAlpha = c.roundedAlpha := by
  by_cases hc : c.alpha = nan
  · have halpha : c.stepped.alpha = nan := roundedAlpha_nan hc
    rw [roundedAlpha_nan halpha, roundedAlpha_nan hc]
  · have hagain := roundedAlpha_roundedAlpha (isFinite_confined hc) c.stepped.red c.stepped.green c.stepped.blue
    rwa [roundedAlpha_confined hc] at hagain

/-- The text of a color depends on its bytes and its rounded alpha only. -/
theorem toCss_congr {d : Color Float} (hbytes : d.bytes = c.bytes) (halpha : d.roundedAlpha = c.roundedAlpha) :
    d.toCss = c.toCss := by
  unfold toCss
  rw [hbytes, halpha]

theorem bytes_stepped (c : Color Float) : c.stepped.bytes = c.bytes := by
  have hred : byte c.stepped.red = byte c.red := byte_step (byte_le _)
  have hgreen : byte c.stepped.green = byte c.green := byte_step (byte_le _)
  have hblue : byte c.stepped.blue = byte c.blue := byte_step (byte_le _)
  rw [bytes, hred, hgreen, hblue]
  rfl

/-- A color in steps has the text of the color. -/
theorem toCss_stepped (c : Color Float) : c.stepped.toCss = c.toCss :=
  toCss_congr (bytes_stepped c) (roundedAlpha_stepped c)

/-- The text of "not a number" has capital letters, and what is read is in small ones. -/
theorem ofCss_of_nan (hc : c.alpha = nan) : ofCss c.toCss = .ok c.stepped := by
  have hrounded := roundedAlpha_nan hc
  have htext : (Binary.plain c.roundedAlpha).toList.map Char.toLower = ['n', 'a', 'n'] := by
    rw [hrounded]
    decide
  have hpiece : IsPiece ['n', 'a', 'n'] := by
    simp only [IsPiece, List.forall_mem_cons]
    exact ⟨by decide, by decide, by decide, fun c hc => absurd hc List.not_mem_nil⟩
  refine ofCss_of_alpha htext hpiece ?_ ?_
  · rw [hrounded]
    rfl
  · rw [hrounded]
    decide

/-- Every color is read back in steps. -/
theorem ofCss_toCss_eq (c : Color Float) : ofCss c.toCss = .ok c.stepped := by
  by_cases hc : c.alpha = nan
  · exact ofCss_of_nan hc
  · have hrounded := roundedAlpha_confined hc
    have htext : c.confined.toCss = c.toCss := toCss_congr rfl hrounded
    have hstepped : c.confined.stepped = c.stepped := by
      rw [stepped, hrounded]
      rfl
    rw [← htext, ofCss_toCss (isFinite_confined hc), hstepped]

theorem steps_step {d n : ℕ} (hn : n ≤ d) (hpos : 0 < d) (hd : d ≤ 2 ^ 10) (hne : n ≠ 0) :
    steps d (ofNat n / ofNat d) = ofNat n := by
  obtain ⟨hf, hv⟩ := Binary.value_ofNat (n := n) (by omega)
  obtain ⟨hfinite, hvalue⟩ := Binary.value_steps_step hf hv hn hpos hd
  refine Binary.eq_of_value hfinite hf ?_ (hvalue.trans hv.symm)
  rw [hv]
  exact_mod_cast hne

/-- Thousandths are rounded to themselves. -/
theorem roundedAlpha_thousandths {n : ℕ} (hn : n ≤ 1000) (hc : c.alpha = ofNat n / ofNat 1000) :
    c.roundedAlpha = ofNat n / ofNat 1000 := by
  change steps 1000 c.alpha / ofNat 1000 = _
  rw [hc]
  by_cases hzero : n = 0
  · rw [hzero]
    decide
  · rw [steps_step hn (by decide) (by decide) hzero]

/-- A color made of bytes and thousandths is in steps. -/
theorem stepped_ofBytes {r g b n : ℕ} (hr : r ≤ 255) (hg : g ≤ 255) (hb : b ≤ 255) (hn : n ≤ 1000) :
    (ofBytes r g b (ofNat n / ofNat 1000) : Color Float).stepped = ofBytes r g b (ofNat n / ofNat 1000) := by
  have hred : byte (ofNat r / ofNat 255 : Float) = r := byte_step hr
  have hgreen : byte (ofNat g / ofNat 255 : Float) = g := byte_step hg
  have hblue : byte (ofNat b / ofNat 255 : Float) = b := byte_step hb
  rw [stepped, roundedAlpha_thousandths hn rfl]
  change (ofBytes (byte (ofNat r / ofNat 255 : Float)) (byte (ofNat g / ofNat 255 : Float))
    (byte (ofNat b / ofNat 255 : Float)) (ofNat n / ofNat 1000) : Color Float) = _
  rw [hred, hgreen, hblue]

/-- The text of every color, whatever its channels are, is read as a color with the same text. A color of bytes and
thousandths is read as itself. -/
theorem text_reads_back :
    (∀ c : Color Float, ∃ d : Color Float, ofCss c.toCss = .ok d ∧ d.toCss = c.toCss) ∧
      ∀ (r g b : Fin 256) (n : Fin 1001),
        let c : Color Float := ofBytes r g b (ofNat n / ofNat 1000)
        ofCss c.toCss = .ok c := by
  refine ⟨fun c => ⟨c.stepped, ofCss_toCss_eq c, toCss_stepped c⟩, fun r g b n => ?_⟩
  intro c
  have hstepped : c.stepped = c := stepped_ofBytes (by omega) (by omega) (by omega) (by omega)
  rw [ofCss_toCss_eq, hstepped]

end Color

end Whisker
