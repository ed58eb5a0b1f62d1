import Whisker.Color
import Whisker.Proofs.NumberText
import Whisker.Proofs.Scalar.Integers
import Whisker.Proofs.Text.Pieces

/-!
# Colors read back from their text

A channel is written in steps of one 255th and alpha in steps of one thousandth. Such a step, rounded, is near enough to
the exact one to be found again, so writing a second time changes nothing.

What is written for a color has four numbers between commas, none with a blank or a capital letter in it, so reading
finds exactly these. The color comes back in steps, and in steps it stays.
-/

namespace Whisker

open Scalar (ofNat clamp)

namespace Binary

/-- What lies between the ends is not moved by clamping. -/
theorem clamp_eq_self {x : Float} (hx : x.isFinite = true) {n : ℕ} (hn : n < 2 ^ 53) (hlow : 0 ≤ value x)
    (hhigh : value x ≤ n) : clamp x (ofNat 0) (ofNat n) = x := by
  obtain ⟨hf0, hv0⟩ := value_ofNat (n := 0) (by decide)
  obtain ⟨hfn, hvn⟩ := value_ofNat hn
  have hlow' : ¬x < ofNat 0 := by
    rw [lt_iff_value hx hf0, hv0, Nat.cast_zero]
    exact not_lt.2 hlow
  have hhigh' : ¬ofNat n < x := by
    rw [lt_iff_value hfn hx, hvn]
    exact not_lt.2 hhigh
  rw [clamp, if_neg hlow', if_neg hhigh']

/-- A clamped finite number lies between the ends. -/
theorem clamp_mem {x : Float} (hx : x.isFinite = true) {n : ℕ} (hn : n < 2 ^ 53) :
    (clamp x (ofNat 0) (ofNat n)).isFinite = true ∧ 0 ≤ value (clamp x (ofNat 0) (ofNat n)) ∧
      value (clamp x (ofNat 0) (ofNat n)) ≤ n := by
  obtain ⟨hf0, hv0⟩ := value_ofNat (n := 0) (by decide)
  obtain ⟨hfn, hvn⟩ := value_ofNat hn
  unfold clamp
  split
  · refine ⟨hf0, ?_, ?_⟩
    · rw [hv0, Nat.cast_zero]
    · rw [hv0]
      exact_mod_cast Nat.zero_le n
  · rename_i hlow
    split
    · refine ⟨hfn, ?_, ?_⟩
      · rw [hvn]
        positivity
      · rw [hvn]
    · rename_i hhigh
      rw [lt_iff_value hx hf0, hv0, Nat.cast_zero, not_lt] at hlow
      rw [lt_iff_value hfn hx, hvn, not_lt] at hhigh
      exact ⟨hx, hlow, hhigh⟩

/-- Numbers that are not large are rounded by less than a millionth. -/
theorem Rounds.abs_sub_le {q w : ℚ} (h : Rounds q w) (hq : 0 ≤ q) (hsmall : q ≤ 2 ^ 20) : |w - q| ≤ 1 / 2 ^ 20 := by
  have hstep {k : ℕ} (hk : k ≤ 2 ^ 40 + 1) : OnGrid (k / 2 ^ 20) := by
    have hgrid := onGrid_mul_two_zpow (m := k) (e := -20) (by omega) (by decide)
    rwa [show (2 : ℚ) ^ (-20 : ℤ) = 1 / 2 ^ 20 by norm_num, mul_one_div] at hgrid
  have hle := Nat.floor_le (a := q * 2 ^ 20) (by positivity)
  have hlt := Nat.lt_floor_add_one (q * 2 ^ 20)
  have hbound : ⌊q * 2 ^ 20⌋₊ ≤ 2 ^ 40 := by
    refine Nat.floor_le_of_le ?_
    push_cast
    linarith
  have hdown : (⌊q * 2 ^ 20⌋₊ / 2 ^ 20 : ℚ) ≤ w :=
    h.ge (hstep (by omega)) ((div_le_iff₀ (by positivity)).2 hle)
  have hup : w ≤ ((⌊q * 2 ^ 20⌋₊ + 1 : ℕ) / 2 ^ 20 : ℚ) :=
    h.le (hstep (by omega)) ((le_div_iff₀ (by positivity)).2 (by push_cast; exact hlt.le))
  push_cast at hup
  rw [div_le_iff₀ (by positivity)] at hdown
  rw [le_div_iff₀ (by positivity)] at hup
  rw [abs_le]
  constructor <;> linarith

/-- A number near an integer is rounded to it. -/
theorem round_near {x : Float} (hx : x.isFinite = true) {n : ℕ} (h : 0 ≤ value x)
    (hnear : |value x - n| ≤ 1 / 4) : (round x).isFinite = true ∧ value (round x) = n := by
  obtain ⟨hlow, hhigh⟩ := abs_le.1 hnear
  obtain ⟨hfinite, hvalue⟩ := value_round hx h
  have hfloor : ⌊value x + 1 / 2⌋ = n := by
    rw [Int.floor_eq_iff, Int.cast_natCast]
    constructor <;> linarith
  refine ⟨hfinite, ?_⟩
  rw [hvalue, hfloor, Int.cast_natCast]

/-- The number of steps, `d` to the unit, that a number between zero and one is nearest to. -/
def steps (d : ℕ) (x : Float) : Float := round (clamp x (ofNat 0) (ofNat 1) * ofNat d)

variable {d : ℕ}

/-- A share of a small count stays in range. -/
theorem computes_mul_small {x : Float} (hx : x.isFinite = true) (hlow : 0 ≤ value x) (hhigh : value x ≤ 1)
    (hd : d ≤ 2 ^ 10) : Computes (x * ofNat d) (value x * d) ∧ 0 ≤ value x * d ∧ value x * d ≤ d := by
  obtain ⟨hf, hv⟩ := value_ofNat (n := d) (by omega)
  have hd' : (d : ℚ) ≤ 2 ^ 10 := by exact_mod_cast hd
  have hnonneg : 0 ≤ value x * d := by positivity
  have hle : value x * d ≤ d := mul_le_of_le_one_left (by positivity) hhigh
  have hc := computes_mul hx hf (by
    rw [hv, abs_of_nonneg hnonneg]
    exact hle.trans (hd'.trans (two_pow_le_largest (by decide))))
  rw [hv] at hc
  exact ⟨hc, hnonneg, hle⟩

/-- The steps of a number are an integer, `d` at most. -/
theorem value_steps {x : Float} (hx : x.isFinite = true) (hd : d ≤ 2 ^ 10) :
    ∃ n ≤ d, (steps d x).isFinite = true ∧ value (steps d x) = n := by
  obtain ⟨hfinite, hlow, hhigh⟩ := clamp_mem hx (n := 1) (by decide)
  rw [Nat.cast_one] at hhigh
  obtain ⟨hc, hnonneg, hle⟩ := computes_mul_small hfinite hlow hhigh hd
  have hzero := hc.nonneg hnonneg
  have hbound := hc.le_natCast (by omega) hle
  obtain ⟨hround, hvalue⟩ := value_round hc.finite hzero
  obtain ⟨n, hn⟩ := Int.eq_ofNat_of_zero_le (Int.floor_nonneg.2 (by linarith : 0 ≤ value (clamp x (ofNat 0) (ofNat 1) * ofNat d) + 1 / 2))
  refine ⟨n, ?_, hround, by rw [steps, hvalue, hn, Int.cast_natCast]⟩
  have hlt : (n : ℚ) < d + 1 := by
    have hfloor := Int.floor_le (value (clamp x (ofNat 0) (ofNat 1) * ofNat d) + 1 / 2)
    rw [hn, Int.cast_natCast] at hfloor
    linarith
  exact Nat.lt_succ_iff.1 (by exact_mod_cast hlt)

variable {n : ℕ} {x : Float} (hx : x.isFinite = true) (hv : value x = n) (hn : n ≤ d) (hpos : 0 < d) (hd : d ≤ 2 ^ 10)

include hx hv hn hpos hd

/-- A whole number of steps. -/
theorem computes_step : Computes (x / ofNat d) (n / d) ∧ 0 ≤ value (x / ofNat d) ∧ value (x / ofNat d) ≤ 1 := by
  obtain ⟨hf, hvd⟩ := value_ofNat (n := d) (by omega)
  have hd' : (0 : ℚ) < d := by exact_mod_cast hpos
  have hle : (n / d : ℚ) ≤ 1 := (div_le_one hd').2 (by exact_mod_cast hn)
  have hnonneg : (0 : ℚ) ≤ n / d := by positivity
  have hc := computes_div hx hf (by rw [hvd]; exact hd'.ne') (by
    rw [hv, hvd, abs_of_nonneg hnonneg]
    exact hle.trans (two_pow_le_largest (k := 0) (by decide)))
  rw [hv, hvd] at hc
  have hone := hc.le_natCast (n := 1) (by decide) (by rwa [Nat.cast_one])
  rw [Nat.cast_one] at hone
  exact ⟨hc, hc.nonneg hnonneg, hone⟩

/-- The steps are found again. -/
theorem value_steps_step : (steps d (x / ofNat d)).isFinite = true ∧ value (steps d (x / ofNat d)) = n := by
  obtain ⟨hc, hlow, hhigh⟩ := computes_step hx hv hn hpos hd
  have hd' : (0 : ℚ) < d := by exact_mod_cast hpos
  have hd10 : (d : ℚ) ≤ 2 ^ 10 := by exact_mod_cast hd
  have hclamp : clamp (x / ofNat d) (ofNat 0) (ofNat 1) = x / ofNat d :=
    clamp_eq_self hc.finite (by decide) hlow (by rwa [Nat.cast_one])
  obtain ⟨hm, hnonneg, hle⟩ := computes_mul_small hc.finite hlow hhigh hd
  rw [steps, hclamp]
  refine round_near hm.finite (hm.nonneg hnonneg) ?_
  -- Dividing and multiplying again are each off by a millionth at most.
  have hdiv : |value (x / ofNat d) - n / d| ≤ 1 / 2 ^ 20 :=
    hc.rounds.abs_sub_le (by positivity) (((div_le_one hd').2 (by exact_mod_cast hn)).trans (by norm_num))
  have hmul := hm.rounds.abs_sub_le hnonneg (hle.trans (hd10.trans (by norm_num)))
  have hback : |value (x / ofNat d) * d - n| ≤ 2 ^ 10 * (1 / 2 ^ 20) := by
    have heq : value (x / ofNat d) * d - n = d * (value (x / ofNat d) - n / d) := by
      field_simp
    rw [heq, abs_mul, abs_of_pos hd']
    exact mul_le_mul hd10 hdiv (abs_nonneg _) (by positivity)
  calc |value (x / ofNat d * ofNat d) - n|
      ≤ |value (x / ofNat d * ofNat d) - value (x / ofNat d) * d| + |value (x / ofNat d) * d - n| := abs_sub_le _ _ _
    _ ≤ 1 / 2 ^ 20 + 2 ^ 10 * (1 / 2 ^ 20) := add_le_add hmul hback
    _ ≤ 1 / 4 := by norm_num

end Binary

namespace Color

open Binary

theorem byte_le (x : Float) : byte x ≤ 255 := Nat.min_le_left _ _

theorem byte_step {n : ℕ} (hn : n ≤ 255) : byte (ofNat n / ofNat 255 : Float) = n := by
  obtain ⟨hf, hv⟩ := value_ofNat (n := n) (by omega)
  obtain ⟨hfinite, hvalue⟩ := value_steps_step (d := 255) hf hv hn (by decide) (by decide)
  have hnat : toNat (steps 255 (ofNat n / ofNat 255)) = n :=
    toNat_of_value hfinite (lt_of_le_of_lt hn (by decide)) hvalue
  change Nat.min 255 (toNat (steps 255 (ofNat n / ofNat 255))) = n
  rw [hnat]
  exact Nat.min_eq_right hn

/-- A zero keeps its sign, and other steps are known by their value. -/
theorem roundedAlpha_roundedAlpha {c : Color Float} (hc : c.alpha.isFinite = true) (red green blue : Float) :
    roundedAlpha ⟨red, green, blue, c.roundedAlpha⟩ = c.roundedAlpha := by
  change steps 1000 (steps 1000 c.alpha / ofNat 1000) / ofNat 1000 = steps 1000 c.alpha / ofNat 1000
  obtain ⟨n, hn, hf, hv⟩ := value_steps hc (d := 1000) (by decide)
  obtain ⟨hfinite, hvalue⟩ := value_steps_step hf hv hn (by decide) (by decide)
  by_cases hzero : value (steps 1000 c.alpha) = 0
  · obtain h | h := eq_of_value_zero hf hzero
    · rw [h]
      decide
    · rw [h]
      decide +kernel
  · rw [eq_of_value hfinite hf hzero (hvalue.trans hv.symm)]

/-- A finite number between zero and one passes the check of a channel. -/
theorem inUnit_of_value {x : Float} (hx : x.isFinite = true) (hlow : 0 ≤ value x) (hhigh : value x ≤ 1) :
    inUnit x = true := by
  obtain ⟨hf0, hv0⟩ := value_ofNat (n := 0) (by decide)
  obtain ⟨hf1, hv1⟩ := value_ofNat (n := 1) (by decide)
  change (x.isFinite && decide (ofNat 0 ≤ x) && decide (x ≤ ofNat 1)) = true
  rw [Bool.and_eq_true, Bool.and_eq_true, decide_eq_true_iff, decide_eq_true_iff, le_iff_value hf0 hx, le_iff_value hx hf1,
    hv0, hv1, Nat.cast_zero, Nat.cast_one]
  exact ⟨⟨hx, hlow⟩, hhigh⟩

theorem inUnit_step {n : ℕ} (hn : n ≤ 255) : inUnit (ofNat n / ofNat 255 : Float) = true := by
  obtain ⟨hf, hv⟩ := value_ofNat (n := n) (by omega)
  obtain ⟨hc, hlow, hhigh⟩ := computes_step (d := 255) hf hv hn (by decide) (by decide)
  exact inUnit_of_value hc.finite hlow hhigh

/-- Rounded to thousandths, alpha stays in the unit interval. -/
theorem roundedAlpha_mem {c : Color Float} (hc : c.alpha.isFinite = true) :
    c.roundedAlpha.isFinite = true ∧ 0 ≤ value c.roundedAlpha ∧ value c.roundedAlpha ≤ 1 := by
  obtain ⟨n, hn, hf, hv⟩ := value_steps hc (d := 1000) (by decide)
  obtain ⟨hcomputes, hlow, hhigh⟩ := computes_step hf hv hn (by decide) (by decide)
  exact ⟨hcomputes.finite, hlow, hhigh⟩

/-- The color in steps of its text: channels of 8 bits and an alpha of three places. -/
def stepped (c : Color Float) : Color Float := ofBytes (byte c.red) (byte c.green) (byte c.blue) c.roundedAlpha

/-- Steps of steps are the same steps. -/
theorem stepped_stepped {c : Color Float} (hc : c.alpha.isFinite = true) : c.stepped.stepped = c.stepped := by
  have hred : byte c.stepped.red = byte c.red := byte_step (byte_le _)
  have hgreen : byte c.stepped.green = byte c.green := byte_step (byte_le _)
  have hblue : byte c.stepped.blue = byte c.blue := byte_step (byte_le _)
  have halpha : c.stepped.roundedAlpha = c.roundedAlpha := roundedAlpha_roundedAlpha hc _ _ _
  rw [stepped, hred, hgreen, hblue, halpha]
  rfl

theorem validate_stepped {c : Color Float} (hc : c.alpha.isFinite = true) : c.stepped.validate = .ok () := by
  obtain ⟨hfinite, hlow, hhigh⟩ := roundedAlpha_mem hc
  have hred : inUnit c.stepped.red = true := inUnit_step (byte_le _)
  have hgreen : inUnit c.stepped.green = true := inUnit_step (byte_le _)
  have hblue : inUnit c.stepped.blue = true := inUnit_step (byte_le _)
  have halpha : inUnit c.stepped.alpha = true := inUnit_of_value hfinite hlow hhigh
  simp only [validate, seq_eq_ok, check_eq_ok]
  exact ⟨hred, hgreen, hblue, halpha⟩

end Color

end Whisker

namespace Whisker

namespace Color

open Scalar (ofNat clamp)
open Binary (IsText)
open Numeral (isMark mark_facts)

variable {r g b a : List Char}

def IsPiece (cs : List Char) : Prop := ∀ c ∈ cs, Text.isBlank c = false ∧ c ≠ ','

theorem isPiece_of_marks {cs : List Char} (h : ∀ c ∈ cs, isMark c = true) : IsPiece cs :=
  fun c hc => ⟨(mark_facts (h c hc)).1, (mark_facts (h c hc)).2.1⟩

theorem map_toLower {cs : List Char} (h : ∀ c ∈ cs, isMark c = true) : cs.map Char.toLower = cs :=
  (List.map_congr_left fun c hc => (mark_facts (h c hc)).2.2).trans (List.map_id cs)

theorem IsPiece.trim_eq {cs : List Char} (h : IsPiece cs) : Text.trim cs = cs := by
  refine Text.trim_eq_self ?_ ?_
  · cases hc : cs.head? with
    | none => rfl
    | some c => exact (h c (List.mem_of_mem_head? hc)).1
  · cases hc : cs.getLast? with
    | none => rfl
    | some c => exact (h c (List.mem_of_getLast? hc)).1

theorem IsPiece.comma_not_mem {cs : List Char} (h : IsPiece cs) : ',' ∉ cs := fun hc => (h _ hc).2 rfl

def arguments (r g b a : List Char) : List Char := r ++ ',' :: (g ++ ',' :: (b ++ ',' :: a))

theorem lower_arguments : (arguments r g b a).map Char.toLower =
    arguments (r.map Char.toLower) (g.map Char.toLower) (b.map Char.toLower) (a.map Char.toLower) := by
  simp only [arguments, List.map_append, List.map_cons]
  rfl

section

variable (hr : IsPiece r) (hg : IsPiece g) (hb : IsPiece b) (ha : IsPiece a)

include hr hg hb ha

theorem split_arguments : (Text.split ',' (arguments r g b a)).map Text.trim = [r, g, b, a] := by
  rw [arguments, Text.split_append hr.comma_not_mem, Text.split_append hg.comma_not_mem,
    Text.split_append hb.comma_not_mem, Text.split_piece ha.comma_not_mem]
  simp only [List.map_cons, List.map_nil, hr.trim_eq, hg.trim_eq, hb.trim_eq, ha.trim_eq]

/-- Four readable arguments make the color of their channels. -/
theorem ofArguments?_eq {red green blue alpha : Float} (hred : channel? r = some red) (hgreen : channel? g = some green)
    (hblue : channel? b = some blue) (halpha : Numeral.ofText? a = some alpha) :
    ofArguments? (arguments r g b a) = some ⟨red, green, blue, clamp alpha (ofNat 0) (ofNat 1)⟩ := by
  unfold ofArguments?
  rw [split_arguments hr hg hb ha]
  simp only [hred, hgreen, hblue, halpha, Option.bind_eq_bind, Option.bind_some]
  rfl

end

/-- Reading finds what stands between the brackets, in small letters. -/
theorem ofCss_arguments {text : String} {cs : List Char}
    (htext : text.toList = 'r' :: 'g' :: 'b' :: 'a' :: '(' :: (cs ++ [')'])) {k : Color Float}
    (hk : ofArguments? (cs.map Char.toLower) = some k) : ofCss text = .ok k := by
  have htrim : Text.trim text.toList = text.toList := by
    refine Text.trim_eq_self (by rw [htext]; rfl) ?_
    rw [htext, ← List.cons_append, ← List.cons_append, ← List.cons_append, ← List.cons_append, ← List.cons_append,
      List.getLast?_concat]
    decide
  have hlower : text.toList.map Char.toLower =
      'r' :: 'g' :: 'b' :: 'a' :: '(' :: (cs.map Char.toLower ++ [')']) := by
    simp only [htext, List.map_cons, List.map_append]
    rfl
  have harguments : arguments? (text.toList.map Char.toLower) = some (cs.map Char.toLower) := by
    have hafter : Text.afterStart? "rgba(".toList (text.toList.map Char.toLower) =
        some (cs.map Char.toLower ++ [')']) := by
      rw [hlower]
      rfl
    unfold arguments?
    rw [hafter]
    simp
  have hcss : ofLowerCss? (text.toList.map Char.toLower) = some k := by
    unfold ofLowerCss?
    rw [if_neg, harguments, hlower]
    · exact hk
    · rw [hlower]
      exact fun h => absurd (List.cons.inj h).1 (by decide)
  unfold ofCss
  simp only [htrim, hcss]

theorem channel?_digits {n : ℕ} (hn : n ≤ 255) : channel? (Decimal.digits n) = some (ofNat n / ofNat 255 : Float) := by
  obtain ⟨hf, hv⟩ := Binary.value_ofNat (n := n) (by omega)
  have hclamp : clamp (ofNat n : Float) (ofNat 0) (ofNat 255) = ofNat n :=
    Binary.clamp_eq_self hf (by decide) (by rw [hv]; positivity) (by rw [hv]; exact_mod_cast hn)
  have hread : Numeral.ofText? (Decimal.digits n) = some (ofNat n : Float) :=
    Numeral.ofText?_of_isText (Binary.isText_digits (by omega))
  unfold channel?
  rw [hread]
  exact congrArg (fun x => some (x / ofNat 255)) hclamp

/-- A color is read back in the steps that it was written in if its alpha is. -/
theorem ofCss_of_alpha {k : Color Float} {a : List Char} (htext : (Binary.plain k.roundedAlpha).toList.map Char.toLower = a)
    (hpiece : IsPiece a) (hread : Numeral.ofText? a = some k.roundedAlpha)
    (hclamp : clamp k.roundedAlpha (ofNat 0) (ofNat 1) = k.roundedAlpha) : ofCss k.toCss = .ok k.stepped := by
  have hmarks (n : ℕ) : ∀ c ∈ Decimal.digits n, isMark c = true :=
    fun c hc => Numeral.isMark_of_isDigit (Decimal.areDigits_digits n c hc)
  have hdigits (n : ℕ) : IsPiece (Decimal.digits n) := isPiece_of_marks (hmarks n)
  have hlist : k.toCss.toList = 'r' :: 'g' :: 'b' :: 'a' :: '(' :: (arguments (Decimal.digits (byte k.red))
      (Decimal.digits (byte k.green)) (Decimal.digits (byte k.blue)) (Binary.plain k.roundedAlpha).toList ++ [')']) := by
    simp [toCss, bytes, arguments, Decimal.digits]
    rfl
  have harguments := ofArguments?_eq (hdigits _) (hdigits _) (hdigits _) hpiece (channel?_digits (byte_le k.red))
    (channel?_digits (byte_le k.green)) (channel?_digits (byte_le k.blue)) hread
  rw [hclamp] at harguments
  refine ofCss_arguments hlist ?_
  rw [lower_arguments, map_toLower (hmarks _), map_toLower (hmarks _), map_toLower (hmarks _), htext]
  exact harguments

theorem ofCss_toCss {k : Color Float} (hk : k.alpha.isFinite = true) : ofCss k.toCss = .ok k.stepped := by
  obtain ⟨hfinite, hlow, hhigh⟩ := roundedAlpha_mem hk
  obtain ⟨negative, body, d, htext⟩ := Binary.isText_plain hfinite
  have hmarks := Numeral.isMark_text htext
  exact ofCss_of_alpha (map_toLower hmarks) (isPiece_of_marks hmarks) (Numeral.ofText?_plain hfinite)
    (Binary.clamp_eq_self hfinite (by decide) hlow (by rwa [Nat.cast_one]))

end Color

end Whisker
