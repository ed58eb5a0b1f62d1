import Whisker.Proofs.Chart.Codec
import Whisker.Proofs.Color.Css
import Whisker.Proofs.NumberText
import Whisker.Proofs.Style

/-!
# Charts read back

The literal of a finite number is taken whole by the reader and means the number again, and so is the one of a count. A
chart that keeps the rules is written and read again as the same chart, with its colors in steps. The steps keep the
rules too, and they are what a second writing starts from, so nothing changes any more.
-/

namespace Whisker.Json

open Decimal (AreDigits Spells join spells_digits)
open Numeral (Closes closes_nil closes_power)

/-- Digits are taken up to the first character that is none. -/
theorem digits?_digits {ds tail : List Char} (hds : AreDigits ds) (hne : ds ≠ [])
    (h : ∀ c ∈ tail.head?, isDigit c = false) : digits? (ds ++ tail) = some (ds, tail) := by
  have hspan := Numeral.spanDigits_append hds h
  have htake : (ds ++ tail).takeWhile isDigit = ds := by
    have htake := congrArg Prod.fst hspan
    rwa [Numeral.spanDigits, List.span_eq_takeWhile_dropWhile] at htake
  unfold digits?
  rw [htake]
  simp [hne]

theorem whole?_spells {whole fraction tail : List Char} {e : ℤ} {d : Decimal} (hs : Spells whole fraction e d)
    (h : ∀ c ∈ tail.head?, isDigit c = false) : whole? (whole ++ tail) = some (whole, tail) := by
  have hzero : ¬(whole.head? = some '0' ∧ 1 < whole.length) := by
    rintro ⟨hhead, hlong⟩
    rw [hs.first hhead] at hlong
    exact lt_irrefl 1 hlong
  simp [whole?, digits?_digits hs.before hs.nonempty h, hzero]

theorem fraction?_close {tail : List Char} (h : Closes tail) : fraction? tail = some ([], tail) := by
  cases tail with
  | nil => rfl
  | cons c cs =>
    unfold fraction?
    split
    · rename_i heq
      injection heq with hc _
      exact absurd hc (h c rfl).2
    · rfl

/-- A written mantissa is taken whole with the power behind it. -/
theorem magnitude?_join {whole fraction tail : List Char} {e : ℤ} {d : Decimal} (h : Spells whole fraction e d)
    (htail : Closes tail) (hexponent : exponent? tail = some (tail, [])) :
    magnitude? (join (whole, fraction) ++ tail) = some (join (whole, fraction) ++ tail, []) := by
  cases fraction with
  | nil =>
    change magnitude? (whole ++ tail) = some (whole ++ tail, [])
    simp [magnitude?, whole?_spells h htail.digit, fraction?_close htail, hexponent]
  | cons c cs =>
    have htext : join (whole, c :: cs) ++ tail = whole ++ '.' :: ((c :: cs) ++ tail) := by
      change (whole ++ '.' :: c :: cs) ++ tail = _
      rw [List.append_assoc]
      rfl
    have hwhole : whole? (whole ++ '.' :: ((c :: cs) ++ tail)) = some (whole, '.' :: ((c :: cs) ++ tail)) := by
      refine whole?_spells h fun x hx => ?_
      cases hx
      decide
    have hfraction : fraction? ('.' :: ((c :: cs) ++ tail)) = some ('.' :: c :: cs, tail) := by
      rw [fraction?, digits?_digits h.after (List.cons_ne_nil _ _) htail.digit]
      rfl
    rw [htext]
    simp only [magnitude?, hwhole, hfraction, hexponent, Option.bind_eq_bind, Option.bind_some]
    simp

/-- A written power is taken whole. -/
theorem exponent?_power (e : ℤ) : exponent? ('e' :: (if e < 0 then '-' else '+') :: Decimal.digits e.natAbs) =
    some ('e' :: (if e < 0 then '-' else '+') :: Decimal.digits e.natAbs, []) := by
  have hdigits : digits? (Decimal.digits e.natAbs) = some (Decimal.digits e.natAbs, []) := by
    have h := digits?_digits (Decimal.areDigits_digits e.natAbs) (Decimal.digits_ne_nil _) closes_nil.digit
    rwa [List.append_nil] at h
  split <;> simp [exponent?, hdigits]

theorem magnitude?_layout {d : Decimal} {text : List Char} (h : Decimal.Layout d text) : magnitude? text = some (text, []) := by
  cases h with
  | plain h =>
    have hread := magnitude?_join h closes_nil rfl
    rwa [List.append_nil] at hread
  | power h => exact magnitude?_join h (closes_power _) (exponent?_power _)

theorem numberLiteral?_layout {d : Decimal} {text : List Char} (h : Decimal.Layout d text) (negative : Bool) :
    numberLiteral? (Decimal.signed negative text) = some (Decimal.signed negative text, []) := by
  have hread := magnitude?_layout h
  obtain ⟨c, cs, rfl, hc⟩ := Numeral.layout_head h
  cases negative with
  | true =>
    change (magnitude? (c :: cs)).map _ = _
    rw [hread]
    rfl
  | false =>
    change numberLiteral? (c :: cs) = _
    unfold numberLiteral?
    split
    · rename_i heq
      injection heq with heq
      subst heq
      exact absurd hc (by decide)
    · exact hread

/-- A finite number is read back from its literal. -/
theorem numbered {x : Float} (hx : x.isFinite = true) : Numbered x := by
  obtain ⟨s, negative, body, d, hliteral, h⟩ := Binary.isText_literal hx
  obtain ⟨n, hsign, hspan, hvalue⟩ := Numeral.spans_of_isText h
  have hnumber : ofNumber x = .number s.toList := by
    have hliteral : NumberText.literal? x = some s := hliteral
    rw [ofNumber, hliteral]
  have hnumeral : numeral s.toList = n := by
    simp [numeral, hsign, hspan]
  unfold Numbered
  rw [hnumber]
  refine ⟨.number ?_, ?_⟩
  · rw [h.text]
    exact numberLiteral?_layout h.layout negative
  · unfold number?
    simp only [hnumeral, hvalue]
    exact if_pos hx

/-- A count is read back from its digits. -/
theorem counted {n : ℕ} (hn : n < UInt64.size) : Counted n := by
  have hlayout : Decimal.Layout ⟨n, 0⟩ (Decimal.digits n) := .plain (spells_digits n)
  have hnumeral : numeral (Decimal.digits n) = ⟨false, n, 0⟩ := by
    have hspan := Numeral.spanMagnitude?_join (spells_digits n) closes_nil false
    rw [List.append_nil] at hspan
    obtain ⟨c, cs, hdigits, hc⟩ := Numeral.layout_head hlayout
    have hsign : Numeral.spanSign (Decimal.digits n) = (false, Decimal.digits n) := by
      rw [hdigits]
      exact Numeral.spanSign_signed hc cs false
    change Numeral.spanMagnitude? false (Decimal.digits n) = _ at hspan
    simp [numeral, hsign, hspan, Numeral.spanExponent, Numeral.ofParts, Decimal.ofDigits_digits]
  have hintegral : isIntegral (Decimal.digits n) = true := by
    refine List.all_eq_true.2 fun c hc => ?_
    rw [Bool.or_eq_true]
    exact .inl (Decimal.areDigits_digits n c hc)
  refine ⟨.number (numberLiteral?_layout hlayout false), ?_⟩
  change (if isIntegral (Decimal.digits n) = true ∧ ¬(numeral (Decimal.digits n)).negative = true ∧
    (numeral (Decimal.digits n)).mantissa < UInt64.size then some (numeral (Decimal.digits n)).mantissa else none) = some n
  rw [hnumeral, if_pos ⟨hintegral, Bool.false_ne_true, hn⟩]

end Whisker.Json

namespace Whisker

open Json

section Colors

variable {α : Type}

namespace Setting

variable {β γ : Type}

theorem values_map (g : β → γ) (s : Setting β) : (s.map g).values = s.values.map g := by
  cases s <;> rfl

theorem map_id (s : Setting β) : s.map id = s := by
  cases s <;> simp [Setting.map]

end Setting

namespace Style.Overrides

theorem colors_mapColors (f : Color α → Color α) (o : Overrides α) : (o.mapColors f).colors = o.colors.map f := by
  have hsetting (s : Option (Setting (Color α))) :
      (s.map (·.map f)).elim [] Setting.values = (s.elim [] Setting.values).map f := by
    cases s with
    | none => rfl
    | some s => exact Setting.values_map f s
  simp [colors, mapColors, hsetting]

theorem mapColors_empty (f : Color α → Color α) : (empty : Overrides α).mapColors f = empty := rfl

theorem mapColors_id (o : Overrides α) : o.mapColors id = o := by
  simp [mapColors, Setting.map_id]

end Style.Overrides

namespace Dataset

theorem colors_mapColors (f : Color α → Color α) (d : Dataset α) : (d.mapColors f).colors = d.colors.map f := by
  cases hb : d.background <;> cases he : d.border <;> simp [colors, mapColors, hb, he, Style.Overrides.colors_mapColors]

theorem mapColors_id (d : Dataset α) : d.mapColors id = d := by
  simp [mapColors, Style.Overrides.mapColors_id]

end Dataset

namespace ChartOptions

theorem colors_mapColors (f : Color α → Color α) (o : ChartOptions α) : (o.mapColors f).colors = o.colors.map f := by
  simp [colors, mapColors, axisList, AxisOptions.colors, AxisOptions.mapColors, PerAxis.map, Style.Overrides.colors_mapColors]

theorem mapColors_id (o : ChartOptions α) : o.mapColors id = o := by
  simp [mapColors, AxisOptions.mapColors, PerAxis.map, Style.Overrides.mapColors_id]

end ChartOptions

namespace Chart

theorem colors_mapColors (f : Color α → Color α) (c : Chart α) : (c.mapColors f).colors = c.colors.map f := by
  simp [colors, mapColors, ChartOptions.colors_mapColors, List.flatMap_map, List.map_flatMap, Dataset.colors_mapColors]

theorem numbers_mapColors (f : Color α → Color α) (c : Chart α) : (c.mapColors f).numbers = c.numbers := by
  have hdatasets : (c.datasets.map (·.mapColors f)).flatMap Dataset.numbers = c.datasets.flatMap Dataset.numbers := by
    rw [List.flatMap_map]
    rfl
  simp only [numbers, mapColors, hdatasets]
  rfl

theorem counts_mapColors (f : Color α → Color α) (c : Chart α) : (c.mapColors f).options.counts = c.options.counts := rfl

theorem mapColors_id (c : Chart α) : c.mapColors id = c := by
  simp [mapColors, Dataset.mapColors_id, ChartOptions.mapColors_id]

end Chart

end Colors

section Rules

variable {α : Type} [Scalar α] {f : Color α → Color α}

namespace Style

/-- A setting in valid colors passes, and where none is set the one below it decides. -/
theorem checkColors_getD {name : String} {o : Option (Setting (Color α))} {s t : Setting (Color α)}
    (hf : ∀ k ∈ o.elim [] Setting.values, (f k).validate = .ok ())
    (hs : checkColors name s = .ok () → checkColors name t = .ok ()) (h : checkColors name (o.getD s) = .ok ()) :
    checkColors name ((o.map (·.map f)).getD t) = .ok () := by
  cases o with
  | none => exact hs h
  | some u =>
    obtain ⟨hne, -⟩ := checkColors_eq_ok.1 h
    refine checkColors_eq_ok.2 (And.intro ?_ ?_)
    · simpa [Setting.values_map] using hne
    · simpa [Setting.values_map] using hf

/-- Colors that stay valid keep a style valid. -/
theorem validate_resolve_mapColors {chart dataset : Overrides α} (hc : ∀ k ∈ chart.colors, (f k).validate = .ok ())
    (hd : ∀ k ∈ dataset.colors, (f k).validate = .ok ()) (h : (resolve chart dataset).validate = .ok ()) :
    (resolve (chart.mapColors f) (dataset.mapColors f)).validate = .ok () := by
  simp only [Overrides.colors, List.flatMap_cons, List.flatMap_nil, List.append_nil, List.forall_mem_append] at hc hd
  simp only [validate, seq_eq_ok] at h ⊢
  obtain ⟨hline, hwhiskerLine, hratio, hsize, hcolor, hwhisker⟩ := h
  refine ⟨hline, hwhiskerLine, hratio, hsize, ?_, ?_⟩
  · exact checkColors_getD hd.1 (checkColors_getD hc.1 id) hcolor
  · exact checkColors_getD hd.2 (checkColors_getD hc.2 id) hwhisker

end Style

theorem Dataset.validate_mapColors {style : Style.Overrides α} {i : ℕ} {d : Dataset α}
    (hs : ∀ k ∈ style.colors, (f k).validate = .ok ()) (hd : ∀ k ∈ d.colors, (f k).validate = .ok ())
    (h : d.validate style i = .ok ()) : (d.mapColors f).validate (style.mapColors f) i = .ok () := by
  have hempty : (d.mapColors f).style.isEmpty = d.style.isEmpty := by
    simp [mapColors, Style.Overrides.mapColors, Style.Overrides.isEmpty]
  simp only [colors, List.forall_mem_append] at hd
  simp only [validate, seq_eq_ok, hempty] at h ⊢
  refine ⟨h.1, ?_⟩
  have h := h.2
  split
  · rfl
  · rename_i hset
    rw [if_neg hset] at h
    exact mapError_eq_ok.2 (Style.validate_resolve_mapColors hs hd.2 (mapError_eq_ok.1 h))

/-- A chart keeps the rules in any valid colors. -/
theorem Chart.validate_mapColors {c : Chart α} (hf : ∀ k ∈ c.colors, (f k).validate = .ok ()) (h : c.validate = .ok ()) :
    (c.mapColors f).validate = .ok () := by
  simp only [colors, List.forall_mem_append] at hf
  obtain ⟨hdatasets, hoptions⟩ := hf
  simp only [ChartOptions.colors, List.forall_mem_append] at hoptions
  obtain ⟨-, hstyle⟩ := hoptions
  simp only [validate, seq_eq_ok, forM_eq_ok] at h ⊢
  obtain ⟨htype, hrules, hbars, hdata⟩ := h
  have hchart : (Style.resolve (c.options.style.mapColors f) (Style.Overrides.empty.mapColors f)).validate = .ok () :=
    Style.validate_resolve_mapColors hstyle (by simp [Style.Overrides.colors, Style.Overrides.empty]) hbars
  rw [Style.Overrides.mapColors_empty] at hchart
  refine ⟨htype, hrules, hchart, ?_⟩
  rintro ⟨d, i⟩ hd
  rw [List.mk_mem_zipIdx_iff_getElem?] at hd
  change (c.datasets.map _)[i]? = _ at hd
  rw [List.getElem?_map, Option.map_eq_some_iff] at hd
  obtain ⟨e, he, rfl⟩ := hd
  have hmem : e ∈ c.datasets := List.mem_of_getElem? he
  exact Dataset.validate_mapColors hstyle (fun k hk => hdatasets k (List.mem_flatMap.2 ⟨e, hmem, hk⟩))
    (hdata (e, i) (List.mk_mem_zipIdx_iff_getElem?.2 he))

end Rules

namespace Chart

variable {c : Chart Float}

/-- A chart is read back with the colors as they are read, if numbers and counts are in range and the result is
valid. -/
theorem parse_render {f : Color Float → Color Float} (hn : ∀ x ∈ c.numbers, x.isFinite = true)
    (hm : ∀ n ∈ c.options.counts, n < UInt64.size) (hk : ∀ k ∈ c.colors, Color.ofCss k.toCss = .ok (f k))
    (hv : (c.mapColors f).validate = .ok ()) : parse c.render = .ok (c.mapColors f) := by
  have hcarries : Carries (ofJson? 0) c.toJson (c.mapColors f) := by
    refine carries (fun x hx => numbered (hn x hx)) (fun n hn => counted (hm n hn)) fun k hk' => ?_
    have htext := carries_text k.toCss
    refine ⟨htext.written, ?_⟩
    change (text? (ofText k.toCss)).bind (fun text => (Color.ofCss text).toOption) = some (f k)
    rw [htext.decoded, Option.bind_some, hk k hk']
    rfl
  unfold parse render
  rw [parse?_toPretty hcarries.written, Option.bind_some, hcarries.decoded]
  simp [hv]

/-- A chart that keeps the rules is read back from what is written for it as the same chart with each color replaced by
the one that its text stands for, and that chart is read back unchanged. Counts fit 64 bits, as all counts do that
are read. -/
theorem render_parses_in_steps (c : Chart Float) (hvalid : c.validate = .ok ())
    (hnumbers : ∀ x ∈ c.numbers, x.isFinite = true) (hcounts : ∀ n ∈ c.options.counts, n < UInt64.size)
    (hcolors : ∀ k ∈ c.colors, k.alpha.isFinite = true) :
    (∀ k ∈ c.colors, Color.ofCss k.toCss = .ok k.stepped) ∧ parse c.render = .ok (c.mapColors Color.stepped) ∧
      parse (c.mapColors Color.stepped).render = .ok (c.mapColors Color.stepped) := by
  have hcss : ∀ k ∈ c.colors, Color.ofCss k.toCss = .ok k.stepped := fun k hk => Color.ofCss_toCss (hcolors k hk)
  have hrules : (c.mapColors Color.stepped).validate = .ok () :=
    validate_mapColors (fun k hk => Color.validate_stepped (hcolors k hk)) hvalid
  refine ⟨hcss, parse_render hnumbers hcounts hcss hrules, ?_⟩
  -- The second time each color stays as it is.
  have hstay : ∀ k ∈ (c.mapColors Color.stepped).colors, Color.ofCss k.toCss = .ok (id k) := by
    intro k' hk'
    rw [colors_mapColors] at hk'
    obtain ⟨k, hk, rfl⟩ := List.mem_map.1 hk'
    have halpha : k.stepped.alpha.isFinite = true := (Color.roundedAlpha_mem (hcolors k hk)).1
    rw [Color.ofCss_toCss halpha, Color.stepped_stepped (hcolors k hk), id]
  have hread := parse_render (c := c.mapColors Color.stepped) (by rwa [numbers_mapColors]) (by rwa [counts_mapColors]) hstay
    (by rwa [mapColors_id])
  rwa [mapColors_id] at hread

/-- A bar with a stack of bounds, a background between the steps and colors in a wrapped list. -/
def tinted : Chart Float :=
  ⟨"barWithErrorBars", ["a"], [{ Dataset.ofData [(Datum.onAxis .y 3).setBounds .y (.stack [2, -1]) (.single 0.1)] with
    background := some ⟨0.5, 0.25, 1, 0.12345⟩
    style := { Style.Overrides.empty with color := some (.wrapped [.black, .white]) } }], ChartOptions.default⟩

theorem tinted_chart_comes_back :
    (∃ d, parse tinted.render = .ok d ∧ d.datasets.map (·.background.map Color.alpha) = [some 0.123]) ∧
      parse (tinted.mapColors Color.stepped).render = .ok (tinted.mapColors Color.stepped) := by
  obtain ⟨-, hread, hstay⟩ := render_parses_in_steps tinted (isOk_iff.1 (by decide +kernel)) (by decide +kernel)
    (by decide +kernel) (by decide +kernel)
  exact ⟨⟨_, hread, by decide +kernel⟩, hstay⟩

end Chart

end Whisker
