import Whisker.Animation

/-!
# Options of a style

A style passes its check if no option is empty and each value keeps its rule. Then every option has a value for every
bar of a stack, so that none is ever made up for it, and a blend of the style with itself changes nothing.
-/

namespace Whisker

open Scalar

variable {α β : Type}

namespace Setting

/-- The option has values, and all of them keep a rule. -/
def Obeys (P : β → Prop) (s : Setting β) : Prop := s.values ≠ [] ∧ ∀ v ∈ s.values, P v

/-- The list of values is gone through again and again, so it has one for each bar. -/
theorem Obeys.exists_at {P : β → Prop} {s : Setting β} (h : s.Obeys P) (i : Nat) : ∃ v, s.at? i = some v ∧ P v := by
  obtain ⟨hne, hP⟩ := h
  have hi : i % s.values.length < s.values.length := Nat.mod_lt i (List.length_pos_iff.2 hne)
  exact ⟨s.values[i % s.values.length], List.getElem?_eq_getElem hi, hP _ (List.getElem_mem hi)⟩

end Setting

namespace Style

/-- Each option is the one that the dataset sets, else the one that the chart sets, else the default. -/
structure Layered [Scalar α] (chart dataset : Overrides α) (s : Style α) : Prop where
  lineWidth : s.lineWidth = (dataset.lineWidth.or chart.lineWidth).getD default.lineWidth
  color : s.color = (dataset.color.or chart.color).getD default.color
  whiskerLineWidth : s.whiskerLineWidth = (dataset.whiskerLineWidth.or chart.whiskerLineWidth).getD default.whiskerLineWidth
  whiskerRatio : s.whiskerRatio = (dataset.whiskerRatio.or chart.whiskerRatio).getD default.whiskerRatio
  whiskerSize : s.whiskerSize = (dataset.whiskerSize.or chart.whiskerSize).getD default.whiskerSize
  whiskerColor : s.whiskerColor = (dataset.whiskerColor.or chart.whiskerColor).getD default.whiskerColor

variable [Scalar α]

/-- The resolved style lays the dataset over the chart over the defaults. -/
theorem layered_resolve (chart dataset : Overrides α) : (resolve chart dataset).Layered chart dataset := by
  constructor <;> rw [Option.getD_or] <;> rfl

/-- A dataset that sets nothing has the style of its chart. -/
theorem resolve_of_isEmpty {dataset : Overrides α} (h : dataset.isEmpty = true) (chart : Overrides α) :
    resolve chart dataset = resolve chart .empty := by
  obtain ⟨lineWidth, color, whiskerLineWidth, whiskerRatio, whiskerSize, whiskerColor⟩ := dataset
  simp only [Overrides.isEmpty, Bool.and_eq_true, Option.isNone_iff_eq_none] at h
  obtain ⟨⟨⟨⟨⟨rfl, rfl⟩, rfl⟩, rfl⟩, rfl⟩, rfl⟩ := h
  rfl

/-- An option of sizes passes its check if it has values and all of them are sizes. -/
theorem checkSizes_eq_ok {name : String} {s : Setting α} :
    checkSizes name s = .ok () ↔ s.Obeys (isSize · = true) := by
  rw [checkSizes, seq_eq_ok, check_eq_ok, check_eq_ok, List.all_eq_true]
  simp [Setting.Obeys]

/-- An option of colors passes its check if it has values and all of them are valid. -/
theorem checkColors_eq_ok {name : String} {s : Setting (Color α)} :
    checkColors name s = .ok () ↔ s.Obeys (·.validate = .ok ()) := by
  rw [checkColors, seq_eq_ok, check_eq_ok, forM_eq_ok]
  simp [Setting.Obeys]

/-- What the check of a style asks for. -/
structure Sound (s : Style α) : Prop where
  lineWidth : s.lineWidth.Obeys (isSize · = true)
  color : s.color.Obeys (·.validate = .ok ())
  whiskerLineWidth : s.whiskerLineWidth.Obeys (isSize · = true)
  whiskerRatio : s.whiskerRatio.Obeys (isSize · = true)
  whiskerSize : s.whiskerSize.Obeys (isSize · = true)
  whiskerColor : s.whiskerColor.Obeys (·.validate = .ok ())

/-- The check of a style succeeds exactly for the sound ones. -/
theorem validate_eq_ok {s : Style α} : s.validate = .ok () ↔ s.Sound := by
  simp only [validate, seq_eq_ok, checkSizes_eq_ok, checkColors_eq_ok]
  constructor
  · rintro ⟨hline, hwhiskerLine, hratio, hsize, hcolor, hwhisker⟩
    exact ⟨hline, hcolor, hwhiskerLine, hratio, hsize, hwhisker⟩
  · intro h
    exact ⟨h.lineWidth, h.whiskerLineWidth, h.whiskerRatio, h.whiskerSize, h.color, h.whiskerColor⟩

/-- Half the length of a whisker, read from the options and nothing else. -/
def half? (s : Style α) (thickness : Option α) (i : Nat) : Option α := do
  let ratio ← s.whiskerRatio.at? i
  let size ← s.whiskerSize.at? i
  match thickness with
  | some total => return if 0 < ratio then total * ratio * 0.5 else size * 0.5
  | none => return size * 0.5

/-- The style of one bar of a stack, read from the options and nothing else. -/
def ofBar? (s : Style α) (thickness : Option α) (i : Nat) : Option (OfBar α) := do
  return {
    lineWidth := ← s.lineWidth.at? i
    color := ← s.color.at? i
    whiskerLineWidth := ← s.whiskerLineWidth.at? i
    whiskerColor := ← s.whiskerColor.at? i
    half := ← s.half? thickness i }

/-- Each option has a value for the bar at a position of a stack. -/
structure HasValues (s : Style α) (i : Nat) : Prop where
  lineWidth : ∃ w, s.lineWidth.at? i = some w ∧ isSize w = true
  color : ∃ k, s.color.at? i = some k ∧ k.validate = .ok ()
  whiskerLineWidth : ∃ w, s.whiskerLineWidth.at? i = some w ∧ isSize w = true
  whiskerRatio : ∃ r, s.whiskerRatio.at? i = some r ∧ isSize r = true
  whiskerSize : ∃ l, s.whiskerSize.at? i = some l ∧ isSize l = true
  whiskerColor : ∃ k, s.whiskerColor.at? i = some k ∧ k.validate = .ok ()

theorem Sound.hasValues {s : Style α} (h : s.Sound) (i : Nat) : s.HasValues i where
  lineWidth := h.lineWidth.exists_at i
  color := h.color.exists_at i
  whiskerLineWidth := h.whiskerLineWidth.exists_at i
  whiskerRatio := h.whiskerRatio.exists_at i
  whiskerSize := h.whiskerSize.exists_at i
  whiskerColor := h.whiskerColor.exists_at i

/-- With values for ratio and size no fallback enters the length of a whisker. -/
theorem HasValues.half?_eq {s : Style α} {i : Nat} (h : s.HasValues i) (thickness : Option α) :
    s.half? thickness i = some (s.half thickness i) := by
  obtain ⟨ratio, hratio, -⟩ := h.whiskerRatio
  obtain ⟨size, hsize, -⟩ := h.whiskerSize
  simp only [half?, half, hratio, hsize]
  cases thickness <;> rfl

/-- Nothing is put in the place of an option that has no value. -/
theorem HasValues.ofBar?_eq {s : Style α} {i : Nat} (h : s.HasValues i) (thickness : Option α) :
    s.ofBar? thickness i = some (s.ofBar thickness i) := by
  obtain ⟨lineWidth, hline, -⟩ := h.lineWidth
  obtain ⟨color, hcolor, -⟩ := h.color
  obtain ⟨whiskerLineWidth, hwhiskerLine, -⟩ := h.whiskerLineWidth
  obtain ⟨whiskerColor, hwhisker, -⟩ := h.whiskerColor
  simp only [ofBar?, ofBar, h.half?_eq, hline, hcolor, hwhiskerLine, hwhisker]
  rfl

end Style

theorem isFinite_of_isSize [Scalar α] {x : α} (h : isSize x = true) : isFinite x = true := (Bool.and_eq_true_iff.1 h).1

/-- The channels of a valid color are finite. -/
theorem Color.finite_of_validate [Scalar α] {k : Color α} (h : k.validate = .ok ()) :
    isFinite k.red = true ∧ isFinite k.green = true ∧ isFinite k.blue = true ∧ isFinite k.alpha = true := by
  have hunit {x : α} (h : inUnit x = true) : isFinite x = true := (Bool.and_eq_true_iff.1 (Bool.and_eq_true_iff.1 h).1).1
  simp only [Color.validate, seq_eq_ok, check_eq_ok] at h
  obtain ⟨hred, hgreen, hblue, halpha⟩ := h
  exact ⟨hunit hred, hunit hgreen, hunit hblue, hunit halpha⟩

namespace Blend

/-- An option is blended with itself entry by entry, so it stays if its entries do. -/
theorem setting_self {blend : β → β → β} {s : Setting β} (h : ∀ v ∈ s.values, blend v v = v) :
    setting blend s s = s := by
  have hentries {vs : List β} (h : ∀ v ∈ vs, blend v v = v) : entries blend vs vs = vs := by
    rw [entries, if_pos rfl, List.zipWith_self, List.map_congr_left h, List.map_id']
  cases s with
  | all v => exact congrArg Setting.all (h v (List.mem_singleton_self v))
  | each vs => exact congrArg Setting.each (hentries h)
  | wrapped vs => exact congrArg Setting.wrapped (hentries h)

variable [Scalar α]

section

-- "Not a number" is not equal to itself, but no style that passes the check holds it.
variable (hself : ∀ x : α, isFinite x = true → (x == x) = true)

include hself

theorem number_self {x : α} (hx : isFinite x = true) (t : α) : number x x t = x := if_pos (hself x hx)

theorem color_self {k : Color α} (hk : k.validate = .ok ()) (t : α) : color k k t = k := by
  obtain ⟨hred, hgreen, hblue, halpha⟩ := Color.finite_of_validate hk
  have hbeq : (k == k) = true := by
    change (k.red == k.red && (k.green == k.green && (k.blue == k.blue && k.alpha == k.alpha))) = true
    rw [hself _ hred, hself _ hgreen, hself _ hblue, hself _ halpha]
    rfl
  exact if_pos hbeq

/-- A sound style blended with itself is the same style. -/
theorem style_self {s : Style α} (h : s.Sound) (t : α) : style s s t = s := by
  have hsizes {o : Setting α} (ho : o.Obeys (isSize · = true)) : setting (number · · t) o o = o :=
    setting_self fun v hv => number_self hself (isFinite_of_isSize (ho.2 v hv)) t
  have hcolors {o : Setting (Color α)} (ho : o.Obeys (·.validate = .ok ())) : setting (color · · t) o o = o :=
    setting_self fun k hk => color_self hself (ho.2 k hk) t
  unfold style
  rw [hsizes h.lineWidth, hcolors h.color, hsizes h.whiskerLineWidth, hsizes h.whiskerRatio, hsizes h.whiskerSize,
    hcolors h.whiskerColor]

end

end Blend

end Whisker
