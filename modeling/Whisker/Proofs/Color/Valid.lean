import Whisker.Proofs.Color.Css
import Whisker.Proofs.Color.Mix
import Whisker.Proofs.Decimal.Reading
import Whisker.Proofs.Scalar.Monotone

/-!
# Colors read from texts

Hexadecimal digits make bytes, and the numbers between brackets are brought into their range, infinities included. "Not
a number" is in no range and stays what it is: a color is read from it, and that color is not valid. It is the only word
that does so.
-/

namespace Whisker

open Scalar (nan inf ofNat clamp)
open Binary (value)

namespace Numeral

def nanWords : List (List Char) := ["nan".toList, "+nan".toList, "-nan".toList]

theorem mem_nanWords {cs : List Char} : cs ∈ nanWords ↔ (spanSign cs).2 = "nan".toList := by
  have hcs : cs ∈ nanWords ↔ cs = "nan".toList ∨ cs = '+' :: "nan".toList ∨ cs = '-' :: "nan".toList := by
    simp [nanWords]
  rw [hcs]
  unfold spanSign
  split
  · simp
  · simp
  · rename_i hminus hplus
    simp only [or_iff_left (hminus _), or_iff_left (hplus _)]

theorem value_ne_nan (n : Numeral) : (n.value : Float) ≠ nan := by
  have hmagnitude : Binary.ofScientific n.mantissa n.exponent ≠ nan := by
    intro hnan
    have hnearest := Binary.ofScientific_isNearest n.mantissa n.exponent
    rw [hnan] at hnearest
    generalize hx : (nan : Float) = x at hnearest
    cases hnearest with
    | zero h => exact absurd hx (by decide)
    | finite hu h =>
      rw [← hx] at hu
      cases hu
    | infinite h => exact absurd hx (by decide)
  rw [value, Binary.ofDigits_eq]
  cases n.negative with
  | false =>
    rw [Binary.withSign_false]
    exact hmagnitude
  | true =>
    rw [Binary.withSign_true]
    intro hnan
    refine hmagnitude ?_
    rw [← Binary.float_neg_neg (Binary.ofScientific _ _), hnan]
    decide

/-- A text is read as "not a number" only if it says so. -/
theorem ofText?_eq_nan {cs : List Char} {x : Float} (h : ofText? cs = some x) : x = nan ↔ cs ∈ nanWords := by
  rw [mem_nanWords]
  unfold ofText? at h
  generalize spanSign cs = p at h
  obtain ⟨negative, rest⟩ := p
  simp only at h ⊢
  split at h
  · rename_i hrest
    cases h
    refine iff_of_false ?_ ?_
    · cases negative <;> decide
    · obtain rfl | rfl := hrest <;> decide
  · split at h
    · rename_i hrest
      cases h
      exact iff_of_true rfl hrest
    · rename_i hrest
      split at h
      · cases h
        exact iff_of_false (value_ne_nan _) hrest
      · cases h

end Numeral

namespace Color

open Numeral (nanWords ofText?_eq_nan)

/-- An infinity is brought to the end of the range. -/
theorem clamp_mem_of_ne_nan {x : Float} (hx : x ≠ nan) {n : ℕ} (hn : n < 2 ^ 53) :
    (clamp x (ofNat 0) (ofNat n)).isFinite = true ∧ 0 ≤ value (clamp x (ofNat 0) (ofNat n)) ∧
      value (clamp x (ofNat 0) (ofNat n)) ≤ n := by
  by_cases hfinite : x.isFinite = true
  · exact Binary.clamp_mem hfinite hn
  · obtain ⟨hf0, hv0⟩ := Binary.value_ofNat (n := 0) (by decide)
    obtain ⟨hfn, hvn⟩ := Binary.value_ofNat hn
    obtain rfl | rfl := (Binary.not_finite_cases (Bool.not_eq_true _ ▸ hfinite)).resolve_left hx
    · have hclamp : clamp inf (ofNat 0) (ofNat n) = (ofNat n : Float) := by
        rw [clamp, if_neg (Binary.not_inf_lt _), if_pos (Binary.lt_inf hfn)]
      rw [hclamp, hvn]
      exact ⟨hfn, n.cast_nonneg, le_rfl⟩
    · have hclamp : clamp (-inf) (ofNat 0) (ofNat n) = (ofNat 0 : Float) := by
        rw [clamp, if_pos (Binary.negInf_lt hf0)]
      rw [hclamp, hv0, Nat.cast_zero]
      exact ⟨hf0, le_rfl, n.cast_nonneg⟩

/-- A number brought into the range from zero to `n` and divided by `n`. -/
theorem inUnit_ratio {x : Float} (hx : x ≠ nan) : inUnit (clamp x (ofNat 0) (ofNat 255) / ofNat 255) = true := by
  obtain ⟨hfinite, hlow, hhigh⟩ := clamp_mem_of_ne_nan hx (n := 255) (by decide)
  obtain ⟨hf, hv⟩ := Binary.value_ofNat (n := 255) (by decide)
  have hle : value (clamp x (ofNat 0) (ofNat 255)) / value (ofNat 255 : Float) ≤ 1 := by
    rw [hv]
    exact (div_le_one (by norm_num)).2 hhigh
  have hnonneg : 0 ≤ value (clamp x (ofNat 0) (ofNat 255)) / value (ofNat 255 : Float) := by
    rw [hv]
    positivity
  have hc := Binary.computes_div hfinite hf (by rw [hv]; norm_num) (by
    rw [abs_of_nonneg hnonneg]
    exact hle.trans (Binary.two_pow_le_largest (k := 0) (by decide)))
  refine inUnit_of_value hc.finite (hc.nonneg hnonneg) ?_
  simpa using hc.le_natCast (n := 1) (by decide) (by simpa using hle)

theorem inUnit_clamp {x : Float} (hx : x ≠ nan) : inUnit (clamp x (ofNat 0) (ofNat 1)) = true := by
  obtain ⟨hfinite, hlow, hhigh⟩ := clamp_mem_of_ne_nan hx (n := 1) (by decide)
  exact inUnit_of_value hfinite hlow (by simpa using hhigh)

/-- A channel that is read from a piece of text is a number of the unit interval unless the piece is a word for "not a
number". -/
structure IsRead (cs : List Char) (x : Float) : Prop where
  range : inUnit x = true ∨ x = nan
  valid : inUnit x = true ↔ cs ∉ nanWords

theorem isRead_channel {cs : List Char} {x : Float} (h : channel? cs = some x) : IsRead cs x := by
  obtain ⟨y, hy, rfl⟩ := Option.map_eq_some_iff.1 h
  have hnan := ofText?_eq_nan hy
  by_cases hcs : cs ∈ nanWords
  · obtain rfl := hnan.2 hcs
    have hratio : (clamp nan (ofNat 0) (ofNat 255) / ofNat 255 : Float) = nan := by decide
    have hunit : inUnit (clamp nan (ofNat 0) (ofNat 255) / ofNat 255 : Float) = false := by decide +kernel
    exact ⟨.inr hratio, iff_of_false (Bool.eq_false_iff.1 hunit) (not_not_intro hcs)⟩
  · have hunit := inUnit_ratio (mt hnan.1 hcs)
    exact ⟨.inl hunit, iff_of_true hunit hcs⟩

theorem isRead_alpha {cs : List Char} {x : Float} (h : Numeral.ofText? cs = some x) :
    IsRead cs (clamp x (ofNat 0) (ofNat 1)) := by
  have hnan := ofText?_eq_nan h
  by_cases hcs : cs ∈ nanWords
  · obtain rfl := hnan.2 hcs
    exact ⟨.inr (by decide), iff_of_false (by decide) (not_not_intro hcs)⟩
  · have hunit := inUnit_clamp (mt hnan.1 hcs)
    exact ⟨.inl hunit, iff_of_true hunit hcs⟩

/-- A color is valid exactly if each of its channels is. -/
theorem validate_eq_ok (c : Color Float) : c.validate = .ok () ↔ ∀ x ∈ c.channels, inUnit x = true := by
  simp [validate, channels]

theorem hexDigit?_lt {c : Char} {d : ℕ} (h : hexDigit? c = some d) : d < 16 := by
  unfold hexDigit? at h
  split at h
  · rename_i hc
    cases h
    have hle : c.toNat ≤ '9'.toNat := hc.2
    change c.toNat - 48 < 16
    have : '9'.toNat = 57 := rfl
    omega
  · split at h
    · rename_i hc
      cases h
      have hle : c.toNat ≤ 'f'.toNat := hc.2
      change c.toNat - 97 + 10 < 16
      have : 'f'.toNat = 102 := rfl
      omega
    · cases h

theorem hexDigits_lt {cs : List Char} {ds : List ℕ} (h : cs.mapM hexDigit? = some ds) : ∀ d ∈ ds, d < 16 := by
  induction cs generalizing ds with
  | nil =>
    cases h
    exact fun d hd => absurd hd List.not_mem_nil
  | cons c cs ih =>
    rw [List.mapM_cons] at h
    obtain ⟨d, hd, h⟩ := Option.bind_eq_some_iff.1 h
    obtain ⟨es, hes, h⟩ := Option.bind_eq_some_iff.1 h
    cases h
    exact List.forall_mem_cons.2 ⟨hexDigit?_lt hd, ih hes⟩

/-- A color made of bytes is valid. -/
theorem validate_ofBytes {r g b a : ℕ} (hr : r ≤ 255) (hg : g ≤ 255) (hb : b ≤ 255) (ha : a ≤ 255) :
    (ofBytes r g b (ofNat a / ofNat 255) : Color Float).validate = .ok () := by
  rw [validate_eq_ok]
  simp only [channels, List.forall_mem_cons]
  exact ⟨inUnit_step hr, inUnit_step hg, inUnit_step hb, inUnit_step ha, fun x hx => absurd hx List.not_mem_nil⟩

/-- Hexadecimal digits make bytes. -/
theorem validate_ofHex {cs : List Char} {c : Color Float} (h : ofHex? cs = some c) : c.validate = .ok () := by
  unfold ofHex? at h
  obtain ⟨ds, hds, h⟩ := Option.bind_eq_some_iff.1 h
  have hlt := hexDigits_lt hds
  split at h
  case h_5 => cases h
  all_goals
    cases h
    simp only [List.forall_mem_cons] at hlt
    exact validate_ofBytes (by omega) (by omega) (by omega) (by omega)

def pieces (cs : List Char) : List (List Char) := (Text.split ',' cs).map Text.trim

/-- All channels are numbers of the unit interval or "not a number", and none is the latter unless a piece says so. -/
theorem valid_ofArguments {cs : List Char} {c : Color Float} (h : ofArguments? cs = some c) :
    (∀ x ∈ c.channels, inUnit x = true ∨ x = nan) ∧ (c.validate = .ok () ↔ ∀ p ∈ pieces cs, p ∉ nanWords) := by
  unfold ofArguments? at h
  rw [validate_eq_ok]
  unfold pieces
  split at h
  · rename_i r g b hpieces
    obtain ⟨red, hred, h⟩ := Option.bind_eq_some_iff.1 h
    obtain ⟨green, hgreen, h⟩ := Option.bind_eq_some_iff.1 h
    obtain ⟨blue, hblue, h⟩ := Option.bind_eq_some_iff.1 h
    cases h
    have hr := isRead_channel hred
    have hg := isRead_channel hgreen
    have hb := isRead_channel hblue
    have hone : inUnit (ofNat 1 : Float) = true := by decide
    rw [hpieces]
    simp only [channels, List.forall_mem_cons, List.not_mem_nil, false_imp_iff, implies_true, and_true]
    refine ⟨⟨hr.range, hg.range, hb.range, .inl hone⟩, ?_⟩
    rw [hr.valid, hg.valid, hb.valid]
    exact and_congr_right fun _ => and_congr_right fun _ => and_iff_left hone
  · rename_i r g b a hpieces
    obtain ⟨alpha, halpha, h⟩ := Option.bind_eq_some_iff.1 h
    obtain ⟨red, hred, h⟩ := Option.bind_eq_some_iff.1 h
    obtain ⟨green, hgreen, h⟩ := Option.bind_eq_some_iff.1 h
    obtain ⟨blue, hblue, h⟩ := Option.bind_eq_some_iff.1 h
    cases h
    have hr := isRead_channel hred
    have hg := isRead_channel hgreen
    have hb := isRead_channel hblue
    have ha := isRead_alpha halpha
    rw [hpieces]
    simp only [channels, List.forall_mem_cons, List.not_mem_nil, false_imp_iff, implies_true, and_true]
    refine ⟨⟨hr.range, hg.range, hb.range, ha.range⟩, ?_⟩
    rw [← hr.valid, ← hg.valid, ← hb.valid, ← ha.valid]
    rfl
  · cases h

/-- A piece between the brackets of `rgb(…)` or `rgba(…)` says "not a number". -/
def namesNaN (text : String) : Bool :=
  match arguments? ((Text.trim text.toList).map Char.toLower) with
  | some cs => (pieces cs).any (nanWords.contains ·)
  | none => false

/-- A text names "not a number" exactly if one of its pieces does. -/
theorem namesNaN_eq_false {text : String} {cs : List Char}
    (h : arguments? ((Text.trim text.toList).map Char.toLower) = some cs) :
    namesNaN text = false ↔ ∀ p ∈ pieces cs, p ∉ nanWords := by
  simp [namesNaN, h]

theorem valid_of_validate {c : Color Float} (h : c.validate = .ok ()) : ∀ x ∈ c.channels, inUnit x = true ∨ x = nan :=
  fun x hx => .inl ((validate_eq_ok c).1 h x hx)

/-- A color that is read from a text has channels of the unit interval, or "not a number"; and it is valid exactly if no
number of the text is spelled "not a number". -/
theorem read_color_valid_iff (text : String) (c : Color Float) (h : ofCss text = .ok c) :
    (∀ x ∈ c.channels, inUnit x = true ∨ x = nan) ∧ (c.validate = .ok () ↔ namesNaN text = false) := by
  unfold ofCss at h
  simp only at h
  split at h
  · rename_i k hk
    cases h
    unfold ofLowerCss? at hk
    split at hk
    · rename_i hword
      cases hk
      have hvalid : (transparent : Color Float).validate = .ok () := by decide
      have hnone : namesNaN text = false := by
        unfold namesNaN
        rw [hword]
        rfl
      exact ⟨valid_of_validate hvalid, iff_of_true hvalid hnone⟩
    · split at hk
      · rename_i hex hhash
        have hvalid := validate_ofHex hk
        have hnone : namesNaN text = false := by
          unfold namesNaN
          rw [hhash]
          rfl
        exact ⟨valid_of_validate hvalid, iff_of_true hvalid hnone⟩
      · obtain ⟨cs, hcs, hk⟩ := Option.bind_eq_some_iff.1 hk
        obtain ⟨hrange, hvalid⟩ := valid_ofArguments hk
        exact ⟨hrange, hvalid.trans (namesNaN_eq_false hcs).symm⟩
  · cases h

theorem infinite_color_is_valid :
    ∃ c : Color Float, ofCss " RGB(inf, -Infinity, 1e3)" = .ok c ∧ namesNaN " RGB(inf, -Infinity, 1e3)" = false ∧
      c.validate = .ok () := by
  have hs : (ofCss (α := Float) " RGB(inf, -Infinity, 1e3)").isOk = true := by decide +kernel
  have hword : namesNaN " RGB(inf, -Infinity, 1e3)" = false := by decide +kernel
  obtain ⟨c, hc⟩ := isOk_iff_exists.1 hs
  exact ⟨c, hc, hword, (read_color_valid_iff _ c hc).2.2 hword⟩

/-- The number passes the bounds of its range, since it is not beyond them. -/
theorem nan_color_is_read :
    ∃ c : Color Float, ofCss "rgb(nan,0,0)" = .ok c ∧ c.validate = .error (.data (.colorChannel "red")) := by
  have hs : (ofCss (α := Float) "rgb(nan,0,0)").toOption.map
      (fun c => decide (c.validate = .error (.data (.colorChannel "red")))) = some true := by decide +kernel
  obtain ⟨c, hc, hinvalid⟩ := Option.map_eq_some_iff.1 hs
  exact ⟨c, toOption_eq_some.1 hc, of_decide_eq_true hinvalid⟩

end Color

end Whisker
