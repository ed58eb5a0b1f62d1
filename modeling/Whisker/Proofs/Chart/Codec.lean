import Whisker.Proofs.Json.Fields

/-!
# Charts in JSON

The description of a chart holds numbers, which are written and read back, and colors, which are written as
style sheets have them and may come back as others. All else comes back as it was: a description is read as
the same chart with other colors.
-/

namespace Whisker

open Json

section Contents

variable {α : Type}

def Setting.map {β γ : Type} (f : β → γ) : Setting β → Setting γ
  | .all v => .all (f v)
  | .each vs => .each (vs.map f)
  | .wrapped vs => .wrapped (vs.map f)

namespace Style.Overrides

def numbers (o : Overrides α) : List α :=
  [o.lineWidth, o.whiskerLineWidth, o.whiskerRatio, o.whiskerSize].flatMap (·.elim [] Setting.values)

def colors (o : Overrides α) : List (Color α) := [o.color, o.whiskerColor].flatMap (·.elim [] Setting.values)

def mapColors (f : Color α → Color α) (o : Overrides α) : Overrides α :=
  { o with color := o.color.map (·.map f), whiskerColor := o.whiskerColor.map (·.map f) }

end Style.Overrides

namespace AxisOptions

def numbers (o : AxisOptions α) : List α :=
  o.min.toList ++ o.max.toList ++ [o.title.fontSize, o.ticks.fontSize, o.grid.lineWidth]

def colors (o : AxisOptions α) : List (Color α) := [o.title.color, o.ticks.color, o.grid.color]

def mapColors (f : Color α → Color α) (o : AxisOptions α) : AxisOptions α :=
  { o with
    title := { o.title with color := f o.title.color }
    ticks := { o.ticks with color := f o.ticks.color }
    grid := { o.grid with color := f o.grid.color } }

end AxisOptions

namespace ChartOptions

def axisList (o : ChartOptions α) : List (AxisOptions α) := [o.axes.x, o.axes.y, o.axes.r]

def numbers (o : ChartOptions α) : List α :=
  o.axisList.flatMap AxisOptions.numbers
    ++ [o.point.radius, o.point.hoverRadius, o.point.hitRadius, o.point.borderWidth]
    ++ [o.bar.categoryShare, o.bar.barShare, o.bar.borderWidth] ++ [o.sector.borderWidth, o.animation.duration]
    ++ o.style.numbers

def colors (o : ChartOptions α) : List (Color α) :=
  o.axisList.flatMap AxisOptions.colors ++ [o.sector.borderColor] ++ o.style.colors

def counts (o : ChartOptions α) : List Nat := o.axisList.flatMap (·.ticks.maxChars.toList)

def mapColors (f : Color α → Color α) (o : ChartOptions α) : ChartOptions α :=
  { o with
    axes := o.axes.map (·.mapColors f)
    sector := { o.sector with borderColor := f o.sector.borderColor }
    style := o.style.mapColors f }

end ChartOptions

def Datum.numbers (d : Datum α) : List α :=
  [d.values.x, d.values.y, d.values.r].flatMap Option.toList
    ++ [d.bounds.x.lower, d.bounds.x.upper, d.bounds.y.lower, d.bounds.y.upper, d.bounds.r.lower,
      d.bounds.r.upper].flatMap (·.elim [] Bound.entries)

namespace Dataset

def numbers (d : Dataset α) : List α := d.data.flatMap Datum.numbers ++ d.borderWidth.toList ++ d.style.numbers

def colors (d : Dataset α) : List (Color α) := d.background.toList ++ d.border.toList ++ d.style.colors

def mapColors (f : Color α → Color α) (d : Dataset α) : Dataset α :=
  { d with background := d.background.map f, border := d.border.map f, style := d.style.mapColors f }

end Dataset

namespace Chart

def numbers (c : Chart α) : List α := c.datasets.flatMap Dataset.numbers ++ c.options.numbers

def colors (c : Chart α) : List (Color α) := c.datasets.flatMap Dataset.colors ++ c.options.colors

def mapColors (f : Color α → Color α) (c : Chart α) : Chart α :=
  { c with datasets := c.datasets.map (·.mapColors f), options := c.options.mapColors f }

end Chart

end Contents

variable {α : Type} [Scalar α] [NumberText α] {f : Color α → Color α}

def Json.Numbered (x : α) : Prop := Carries number? (ofNumber x) x

/-- The color is written, and read as another. -/
def Color.ReadAs (f : Color α → Color α) (k : Color α) : Prop := Carries Color.ofJson? k.toJson (f k)

def Json.Counted (n : Nat) : Prop := Carries (natBelow? UInt64.size) (Json.ofNat n) n

theorem Title.carries {t : Title α} (hn : Numbered t.fontSize) (hk : Color.ReadAs f t.color) :
    Carries ofJson? t.toJson { t with color := f t.color } := by
  refine carries_fields [("display", some (.bool t.display)), ("text", some (.ofText t.text)),
    ("color", some t.color.toJson), ("fontSizePx", some (ofNumber t.fontSize))] rfl (by decide) ?_ fun fs hfs => ?_
  · simp [hn.written, hk.written, Written.bool, (carries_text _).written]
  · simp only [Option.bind_eq_bind, Option.bind_eq_some_iff]
    exact ⟨_, hfs.getD? rfl (carries_bool _).decoded, _, hfs.getD? rfl (carries_text _).decoded,
      _, hfs.getD? rfl hk.decoded, _, hfs.getD? rfl hn.decoded, rfl⟩

theorem TickOptions.carries {t : TickOptions α} (hn : Numbered t.fontSize) (hm : ∀ n ∈ t.maxChars, Counted n)
    (hk : Color.ReadAs f t.color) : Carries ofJson? t.toJson { t with color := f t.color } := by
  have hslots : t.toJson = ofMembers (present [("display", some (.bool t.display)),
      ("labelMaxChars", t.maxChars.map Json.ofNat), ("color", some t.color.toJson),
      ("fontSizePx", some (ofNumber t.fontSize))]) := by
    simp [toJson, member?, present_cons, present_nil, Function.comp_def]
  rw [hslots]
  refine carries_fields _ rfl (by decide) ?_ fun fs hfs => ?_
  · simp only [List.forall_mem_cons]
    exact ⟨by simp [Written.bool], written_optional hm, by simp [hn.written, hk.written]⟩
  · simp only [Option.bind_eq_bind, Option.bind_eq_some_iff]
    exact ⟨_, hfs.getD? rfl (carries_bool _).decoded, _, hfs.get? rfl rfl fun n hn => (hm n hn).decoded,
      _, hfs.getD? rfl hk.decoded, _, hfs.getD? rfl hn.decoded, by simp⟩

theorem Grid.carries {t : Grid α} (hn : Numbered t.lineWidth) (hk : Color.ReadAs f t.color) :
    Carries ofJson? t.toJson { t with color := f t.color } := by
  refine carries_fields [("display", some (.bool t.display)), ("color", some t.color.toJson),
    ("lineWidth", some (ofNumber t.lineWidth))] rfl (by decide) ?_ fun fs hfs => ?_
  · simp [hn.written, hk.written, Written.bool]
  · simp only [Option.bind_eq_bind, Option.bind_eq_some_iff]
    exact ⟨_, hfs.getD? rfl (carries_bool _).decoded, _, hfs.getD? rfl hk.decoded, _, hfs.getD? rfl hn.decoded, rfl⟩

namespace AxisOptions

/-- The options of an axis are read back, with the colors as they are read. -/
theorem carries {o : AxisOptions α} (hn : ∀ x ∈ o.numbers, Numbered x) (hm : ∀ n ∈ o.ticks.maxChars, Counted n)
    (hk : ∀ k ∈ o.colors, Color.ReadAs f k) : Carries ofJson? o.toJson (o.mapColors f) := by
  simp only [numbers, colors, List.forall_mem_append, List.forall_mem_cons, Option.mem_toList] at hn hk
  obtain ⟨⟨hmin, hmax⟩, htitle, hticks, hgrid, _⟩ := hn
  have htitle := Title.carries htitle hk.1
  have hticks := TickOptions.carries hticks hm hk.2.1
  have hgrid := Grid.carries hgrid hk.2.2.1
  have hslots : o.toJson = ofMembers (present [("display", some (.bool o.display)),
      ("beginAtZero", o.beginAtZero.map Json.bool), ("min", o.min.map ofNumber), ("max", o.max.map ofNumber),
      ("title", some o.title.toJson), ("ticks", some o.ticks.toJson), ("grid", some o.grid.toJson)]) := by
    simp [toJson, member?, present_cons, present_nil, Function.comp_def]
  rw [hslots]
  refine carries_fields _ rfl (by decide) ?_ fun fs hfs => ?_
  · simp only [List.forall_mem_cons]
    exact ⟨by simp [Written.bool], written_optional fun b _ => carries_bool b, written_optional hmin,
      written_optional hmax, by simp [htitle.written, hticks.written, hgrid.written]⟩
  · simp only [Option.bind_eq_bind, Option.bind_eq_some_iff]
    exact ⟨_, hfs.getD? rfl (carries_bool _).decoded, _, hfs.get? rfl rfl fun b _ => (carries_bool b).decoded,
      _, hfs.get? rfl rfl fun x hx => (hmin x hx).decoded, _, hfs.get? rfl rfl fun x hx => (hmax x hx).decoded,
      _, hfs.getD? rfl htitle.decoded, _, hfs.getD? rfl hticks.decoded, _, hfs.getD? rfl hgrid.decoded,
      by simp [mapColors]⟩

theorem carries_all {o : PerAxis (AxisOptions α)} {o' : PerAxis (AxisOptions α)} (hx : Carries ofJson? o.x.toJson o'.x)
    (hy : Carries ofJson? o.y.toJson o'.y) (hr : Carries ofJson? o.r.toJson o'.r) :
    Carries allOfJson? (allToJson o) o' := by
  refine carries_fields [("x", some o.x.toJson), ("y", some o.y.toJson), ("r", some o.r.toJson)] rfl (by decide) ?_
    fun fs hfs => ?_
  · simp [hx.written, hy.written, hr.written]
  · simp only [Option.bind_eq_bind, Option.bind_eq_some_iff]
    exact ⟨_, hfs.getD? rfl hx.decoded, _, hfs.getD? rfl hy.decoded, _, hfs.getD? rfl hr.decoded, rfl⟩

end AxisOptions

/-- The options of each kind of element are read back. -/
theorem PointOptions.carries {p : PointOptions α}
    (hn : ∀ x ∈ [p.radius, p.hoverRadius, p.hitRadius, p.borderWidth], Numbered x) : Carries ofJson? p.toJson p := by
  simp only [List.forall_mem_cons] at hn
  obtain ⟨hradius, hhover, hhit, hborder, _⟩ := hn
  refine carries_fields [("radius", some (ofNumber p.radius)), ("hoverRadius", some (ofNumber p.hoverRadius)),
    ("hitRadius", some (ofNumber p.hitRadius)), ("borderWidth", some (ofNumber p.borderWidth))] rfl (by decide) ?_
    fun fs hfs => ?_
  · simp [hradius.written, hhover.written, hhit.written, hborder.written]
  · simp only [Option.bind_eq_bind, Option.bind_eq_some_iff]
    exact ⟨_, hfs.getD? rfl hradius.decoded, _, hfs.getD? rfl hhover.decoded, _, hfs.getD? rfl hhit.decoded,
      _, hfs.getD? rfl hborder.decoded, rfl⟩

theorem BarOptions.carries {b : BarOptions α} (hn : ∀ x ∈ [b.categoryShare, b.barShare, b.borderWidth], Numbered x) :
    Carries ofJson? b.toJson b := by
  simp only [List.forall_mem_cons] at hn
  obtain ⟨hcategory, hbar, hborder, _⟩ := hn
  refine carries_fields [("categoryPercentage", some (ofNumber b.categoryShare)),
    ("barPercentage", some (ofNumber b.barShare)), ("borderWidth", some (ofNumber b.borderWidth))] rfl (by decide) ?_
    fun fs hfs => ?_
  · simp [hcategory.written, hbar.written, hborder.written]
  · simp only [Option.bind_eq_bind, Option.bind_eq_some_iff]
    exact ⟨_, hfs.getD? rfl hcategory.decoded, _, hfs.getD? rfl hbar.decoded, _, hfs.getD? rfl hborder.decoded, rfl⟩

theorem SectorOptions.carries {s : SectorOptions α} (hn : Numbered s.borderWidth) (hk : Color.ReadAs f s.borderColor) :
    Carries ofJson? s.toJson { s with borderColor := f s.borderColor } := by
  refine carries_fields [("borderWidth", some (ofNumber s.borderWidth)), ("borderColor", some s.borderColor.toJson)]
    rfl (by decide) ?_ fun fs hfs => ?_
  · simp [hn.written, hk.written]
  · simp only [Option.bind_eq_bind, Option.bind_eq_some_iff]
    exact ⟨_, hfs.getD? rfl hn.decoded, _, hfs.getD? rfl hk.decoded, rfl⟩

theorem Easing.carries (e : Easing) : Carries (choice? names) (ofText e.name) e :=
  carries_choice (by cases e <;> rfl)

theorem Animation.carries {a : Animation α} (hn : Numbered a.duration) : Carries ofJson? a.toJson a := by
  refine carries_fields [("duration", some (ofNumber a.duration)), ("easing", some (.ofText a.easing.name)),
    ("animateRotate", some (.bool a.rotates)), ("animateScale", some (.bool a.grows))] rfl (by decide) ?_
    fun fs hfs => ?_
  · simp [hn.written, Written.bool, (carries_text _).written]
  · simp only [Option.bind_eq_bind, Option.bind_eq_some_iff]
    exact ⟨_, hfs.getD? rfl hn.decoded, _, hfs.getD? rfl a.easing.carries.decoded,
      _, hfs.getD? rfl (carries_bool _).decoded, _, hfs.getD? rfl (carries_bool _).decoded, rfl⟩

/-- A value that is neither a list nor an object stands for itself. -/
def Json.IsAtom : Json → Prop
  | .array _ => False
  | .object _ => False
  | _ => True

omit [Scalar α] in
theorem Json.isAtom_ofNumber (x : α) : (ofNumber x).IsAtom := by
  unfold ofNumber
  split <;> trivial

namespace Setting

variable {β γ : Type} {decode : Json → Option β} {encode : γ → Json} {g : γ → β} {s : Setting γ}

theorem ofJson?_atom {v : Json} (h : v.IsAtom) : ofJson? decode v = (decode v).map .all := by
  cases v with
  | array items => cases h
  | object ms => cases h
  | _ => rfl

/-- A setting is read back in the form in which it was written, if no value looks like a list. -/
theorem carries (hatom : ∀ x, (encode x).IsAtom) (h : ∀ x ∈ s.values, Carries decode (encode x) (g x)) :
    Carries (ofJson? decode) (s.toJson encode) (s.map g) := by
  cases s with
  | all v =>
    have hv := h v List.mem_cons_self
    refine ⟨hv.written, ?_⟩
    change ofJson? decode (encode v) = _
    rw [ofJson?_atom (hatom v), hv.decoded]
    rfl
  | each vs =>
    have hlist : (vs.map encode).mapM decode = some (vs.map g) := mapM_map fun x hx => (h x hx).decoded
    refine ⟨written_array fun x hx => (h x hx).written, ?_⟩
    change ((vs.map encode).mapM decode).map Setting.each = _
    rw [hlist]
    rfl
  | wrapped vs =>
    have hlist : Carries (list? decode) (.array (vs.map encode)) (vs.map g) := carries_list h
    have hfields : Carries (fun v => (Json.fields? ["v"] v).bind fun fs => (fs.require? "v" (list? decode)).map .wrapped)
        (ofMembers (present [("v", some (.array (vs.map encode)))])) (Setting.wrapped (vs.map g)) := by
      refine carries_fields _ rfl (by decide) ?_ fun fs hfs => ?_
      · rw [List.forall_mem_singleton]
        rintro _ ⟨⟩
        exact hlist.written
      · rw [hfs.require? rfl hlist.decoded]
        rfl
    exact ⟨hfields.written, hfields.decoded⟩

/-- At most a list stands inside an object. -/
theorem keeps (h : ∀ x ∈ s.values, ∀ depth, Keeps α depth (encode x)) : Keeps α 2 (s.toJson encode) := by
  cases s with
  | all v => exact h v List.mem_cons_self 2
  | each vs => exact keeps_list fun x hx => h x hx 1
  | wrapped vs =>
    have hslot : ∀ m ∈ [("v", some (Json.array (vs.map encode)))], ∀ v, m.2 = some v → Keeps α 1 v := by
      rw [List.forall_mem_singleton]
      rintro _ ⟨⟩
      exact keeps_list fun x hx => h x hx 0
    exact keeps_present hslot

/-- A setting of sizes is read back and may be kept. -/
theorem carries_sizes {s : Setting α} (h : ∀ x ∈ s.values, Numbered x) :
    Carries (ofJson? number?) (s.toJson ofNumber) s ∧ Keeps α 2 (s.toJson ofNumber) := by
  have hsame : s.map id = s := by cases s <;> simp [map]
  have hcarries : Carries (ofJson? number?) (s.toJson ofNumber) (s.map id) := carries isAtom_ofNumber h
  rw [hsame] at hcarries
  exact ⟨hcarries, keeps fun x hx => keeps_number (h x hx).decoded⟩

theorem carries_colors {s : Setting (Color α)} (h : ∀ k ∈ s.values, Color.ReadAs f k) :
    Carries (ofJson? Color.ofJson?) (s.toJson Color.toJson) (s.map f) ∧ Keeps α 2 (s.toJson Color.toJson) :=
  ⟨carries (fun _ => trivial) h, keeps fun k _ => keeps_text k.toCss⟩

end Setting

namespace Style.Overrides

/-- The settings, in the order of their names. -/
def slots (o : Overrides α) : List (String × Option Json) :=
  [("errorBarLineWidth", o.lineWidth.map (Setting.toJson ofNumber)),
    ("errorBarColor", o.color.map (Setting.toJson Color.toJson)),
    ("errorBarWhiskerLineWidth", o.whiskerLineWidth.map (Setting.toJson ofNumber)),
    ("errorBarWhiskerRatio", o.whiskerRatio.map (Setting.toJson ofNumber)),
    ("errorBarWhiskerSize", o.whiskerSize.map (Setting.toJson ofNumber)),
    ("errorBarWhiskerColor", o.whiskerColor.map (Setting.toJson Color.toJson))]

theorem toMembers_eq (o : Overrides α) : o.toMembers = present o.slots := by
  rw [present_eq_filterMap]
  simp only [toMembers, slots, List.map_cons, List.map_nil, Option.map_map, Function.comp_def]

variable {o : Overrides α} (hn : ∀ x ∈ o.numbers, Numbered x) (hk : ∀ k ∈ o.colors, Color.ReadAs f k)

include hn in
theorem carries_sizes : ∀ s ∈ [o.lineWidth, o.whiskerLineWidth, o.whiskerRatio, o.whiskerSize], ∀ y ∈ s,
    Carries (Setting.ofJson? number?) (y.toJson ofNumber) y ∧ Keeps α 2 (y.toJson ofNumber) := by
  intro s hs y hy
  cases hy
  exact Setting.carries_sizes fun x hx => hn x (List.mem_flatMap.2 ⟨_, hs, hx⟩)

include hk in
theorem carries_colors : ∀ s ∈ [o.color, o.whiskerColor], ∀ y ∈ s,
    Carries (Setting.ofJson? Color.ofJson?) (y.toJson Color.toJson) (y.map f) ∧ Keeps α 2 (y.toJson Color.toJson) := by
  intro s hs y hy
  cases hy
  exact Setting.carries_colors fun k hk' => hk k (List.mem_flatMap.2 ⟨_, hs, hk'⟩)

include hn hk

theorem written_slots : ∀ s ∈ o.slots, ∀ v, s.2 = some v → v.Written ∧ Keeps α 2 v := by
  have hsizes := carries_sizes hn
  have hcolors := carries_colors hk
  simp only [List.forall_mem_cons] at hsizes hcolors
  obtain ⟨hline, hwhiskerLine, hratio, hsize, _⟩ := hsizes
  obtain ⟨hcolor, hwhiskerColor, _⟩ := hcolors
  simp only [slots, List.forall_mem_cons]
  exact ⟨kept_optional hline, kept_optional hcolor, kept_optional hwhiskerLine, kept_optional hratio,
    kept_optional hsize, kept_optional hwhiskerColor, fun s hs => absurd hs List.not_mem_nil⟩

theorem ofFields?_slots {fs : Fields} (hfs : fs.Of o.slots) : ofFields? fs = some (o.mapColors f) := by
  have hsizes := carries_sizes hn
  have hcolors := carries_colors hk
  simp only [List.forall_mem_cons] at hsizes hcolors
  obtain ⟨hline, hwhiskerLine, hratio, hsize, _⟩ := hsizes
  obtain ⟨hcolor, hwhiskerColor, _⟩ := hcolors
  simp only [ofFields?, Option.bind_eq_bind, Option.bind_eq_some_iff]
  exact ⟨_, hfs.get? rfl rfl fun y hy => (hline y hy).1.decoded, _, hfs.get? rfl rfl fun y hy => (hcolor y hy).1.decoded,
    _, hfs.get? rfl rfl fun y hy => (hwhiskerLine y hy).1.decoded, _, hfs.get? rfl rfl fun y hy => (hratio y hy).1.decoded,
    _, hfs.get? rfl rfl fun y hy => (hsize y hy).1.decoded,
    _, hfs.get? rfl rfl fun y hy => (hwhiskerColor y hy).1.decoded, by simp [mapColors]⟩

/-- A structure that has the settings behind its own fields is carried, if the fields make it again with the settings that
are read. -/
theorem carries_behind {β : Type} {names : List String} {build : Fields → Option β} {x : β} {depth : Nat}
    (own : List (String × Option Json)) (hnames : own.map Prod.fst = names) (hnodup : (names ++ fieldNames).Nodup)
    (hdepth : depth + 2 ≤ maxNesting) (hwritten : ∀ s ∈ own, ∀ v, s.2 = some v → v.Written)
    (hbuild : ∀ fs, Fields.Of (own ++ o.slots) fs → ofFields? fs = some (o.mapColors f) → build fs = some x) :
    Carries (fun v => (keptFields? α depth names fieldNames v).bind build) (ofMembers (present (own ++ o.slots))) x := by
  have hslots := written_slots hn hk
  refine carries_keptFields _ ?_ hnodup ?_ ?_ fun fs hfs => ?_
  · rw [List.map_append, hnames]
    rfl
  · exact List.forall_mem_append.2 ⟨hwritten, fun s hs v hv => (hslots s hs v hv).1⟩
  · intro s hs hname v hv
    rcases List.mem_append.1 hs with hs | hs
    · exact absurd (hnames ▸ List.mem_map_of_mem hs) hname
    · exact (hslots s hs v hv).2.keepable hdepth
  · exact hbuild fs hfs (ofFields?_slots hn hk fun s hs => hfs s (List.mem_append_right _ hs))

end Style.Overrides

namespace Bound

theorem ofJson?_atom {v : Json} (h : v.IsAtom) : ofJson? v = (number? v : Option α).map .single := by
  cases v with
  | array items => cases h
  | object ms => cases h
  | _ => rfl

theorem carries {b : Bound α} (hn : ∀ x ∈ b.entries, Numbered x) : Carries ofJson? b.toJson b ∧ Keeps α 1 b.toJson := by
  cases b with
  | single v =>
    have hv : Numbered v := hn v List.mem_cons_self
    refine ⟨⟨hv.written, ?_⟩, keeps_number hv.decoded 1⟩
    change ofJson? (ofNumber v) = _
    rw [ofJson?_atom (isAtom_ofNumber v), hv.decoded]
    rfl
  | stack vs =>
    have hlist : (vs.map ofNumber).mapM number? = some (vs.map id) := mapM_map fun x hx => (hn x hx).decoded
    refine ⟨⟨written_array fun x hx => (hn x hx).written, ?_⟩, keeps_list fun x hx => keeps_number (hn x hx).decoded 0⟩
    change ((vs.map ofNumber).mapM number?).map Bound.stack = _
    rw [hlist, List.map_id]
    rfl

end Bound

namespace Datum

def slots (d : Datum α) : List (String × Option Json) :=
  [("x", d.values.x.map ofNumber), ("y", d.values.y.map ofNumber), ("r", d.values.r.map ofNumber),
    ("xMin", d.bounds.x.lower.map Bound.toJson), ("xMax", d.bounds.x.upper.map Bound.toJson),
    ("yMin", d.bounds.y.lower.map Bound.toJson), ("yMax", d.bounds.y.upper.map Bound.toJson),
    ("rMin", d.bounds.r.lower.map Bound.toJson), ("rMax", d.bounds.r.upper.map Bound.toJson)]

omit [Scalar α] in
theorem toJson_eq (d : Datum α) : d.toJson = ofMembers (present d.slots) := by
  rw [present_eq_filterMap]
  simp only [toJson, slots, List.map_cons, List.map_nil, Option.map_map, Function.comp_def]

/-- A datum is read back as long as it is not nested too deep. -/
theorem carries {d : Datum α} (hn : ∀ x ∈ d.numbers, Numbered x) {depth : Nat} (hdepth : depth + 2 ≤ maxNesting) :
    Carries (ofJson? depth) d.toJson d := by
  have hvalues : ∀ o ∈ [d.values.x, d.values.y, d.values.r], ∀ x ∈ o,
      Carries number? (ofNumber x) x ∧ Keeps α 1 (ofNumber x) := by
    intro o ho x hx
    have hx : Numbered x := hn x (List.mem_append_left _ (List.mem_flatMap.2 ⟨o, ho, Option.mem_toList.2 hx⟩))
    exact ⟨hx, keeps_number hx.decoded 1⟩
  have hbounds : ∀ o ∈ [d.bounds.x.lower, d.bounds.x.upper, d.bounds.y.lower, d.bounds.y.upper, d.bounds.r.lower,
      d.bounds.r.upper], ∀ b ∈ o, Carries Bound.ofJson? b.toJson b ∧ Keeps α 1 b.toJson := by
    intro o ho b hb
    cases hb
    exact Bound.carries fun x hx => hn x (List.mem_append_right _ (List.mem_flatMap.2 ⟨_, ho, hx⟩))
  simp only [List.forall_mem_cons] at hvalues hbounds
  obtain ⟨hx, hy, hr, _⟩ := hvalues
  obtain ⟨hxl, hxu, hyl, hyu, hrl, hru, _⟩ := hbounds
  have hslots : ∀ s ∈ d.slots, ∀ v, s.2 = some v → v.Written ∧ Keeps α 1 v := by
    simp only [slots, List.forall_mem_cons]
    exact ⟨kept_optional hx, kept_optional hy, kept_optional hr, kept_optional hxl, kept_optional hxu, kept_optional hyl,
      kept_optional hyu, kept_optional hrl, kept_optional hru, fun s hs => absurd hs List.not_mem_nil⟩
  have hkeep : keepable α depth (ofMembers (present d.slots)) = true :=
    (keeps_present fun s hs v hv => (hslots s hs v hv).2).keepable hdepth
  have hfields : Carries (fun v => (fields? fieldNames v).bind ofFields?) (ofMembers (present d.slots)) d := by
    refine carries_fields _ rfl (by decide) (fun s hs v hv => (hslots s hs v hv).1) fun fs hfs => ?_
    simp only [ofFields?, Option.bind_eq_bind, Option.bind_eq_some_iff]
    exact ⟨_, hfs.get? rfl rfl fun x h => (hx x h).1.decoded, _, hfs.get? rfl rfl fun x h => (hy x h).1.decoded,
      _, hfs.get? rfl rfl fun x h => (hr x h).1.decoded, _, hfs.get? rfl rfl fun b h => (hxl b h).1.decoded,
      _, hfs.get? rfl rfl fun b h => (hxu b h).1.decoded, _, hfs.get? rfl rfl fun b h => (hyl b h).1.decoded,
      _, hfs.get? rfl rfl fun b h => (hyu b h).1.decoded, _, hfs.get? rfl rfl fun b h => (hrl b h).1.decoded,
      _, hfs.get? rfl rfl fun b h => (hru b h).1.decoded, by simp⟩
  rw [toJson_eq]
  refine ⟨hfields.written, ?_⟩
  unfold ofJson?
  rw [if_pos hkeep]
  exact hfields.decoded

end Datum

namespace Dataset

variable {d : Dataset α}

/-- A dataset is read back as long as it is not nested too deep. -/
theorem carries (hn : ∀ x ∈ d.numbers, Numbered x) (hk : ∀ k ∈ d.colors, Color.ReadAs f k) {depth : Nat}
    (hdepth : depth + 4 ≤ maxNesting) : Carries (ofJson? depth) d.toJson (d.mapColors f) := by
  simp only [numbers, colors, List.forall_mem_append, Option.mem_toList] at hn hk
  obtain ⟨⟨hdata, hwidth⟩, hstyle⟩ := hn
  obtain ⟨⟨hbackground, hborder⟩, hstyleColors⟩ := hk
  have hdata : Carries (list? (Datum.ofJson? (depth + 2))) (.array (d.data.map Datum.toJson)) (d.data.map id) :=
    carries_list fun datum hdatum => Datum.carries (fun x hx => hdata x (List.mem_flatMap.2 ⟨datum, hdatum, hx⟩))
      (by omega)
  rw [List.map_id] at hdata
  have hslots : d.toJson = ofMembers (present ([("label", d.label.map Json.ofText),
      ("data", some (.array (d.data.map Datum.toJson))), ("backgroundColor", d.background.map Color.toJson),
      ("borderColor", d.border.map Color.toJson), ("borderWidth", d.borderWidth.map ofNumber),
      ("fill", d.fill.map Json.bool), ("hidden", some (.bool d.hidden))] ++ d.style.slots)) := by
    simp [toJson, member?, present_cons, Style.Overrides.toMembers_eq, Function.comp_def]
  rw [hslots]
  refine Style.Overrides.carries_behind hstyle hstyleColors _ rfl (by decide) (by omega) ?_ fun fs hfs hsettings => ?_
  · simp only [List.forall_mem_cons]
    exact ⟨written_optional fun s _ => carries_text s, by simp [hdata.written], written_optional hbackground,
      written_optional hborder, written_optional hwidth, written_optional fun b _ => carries_bool b, by simp [Written.bool]⟩
  · simp only [Option.bind_eq_bind, Option.bind_eq_some_iff]
    exact ⟨_, hfs.get? rfl rfl fun s _ => (carries_text s).decoded, _, hfs.getD? rfl hdata.decoded,
      _, hfs.get? rfl rfl fun k h => (hbackground k h).decoded, _, hfs.get? rfl rfl fun k h => (hborder k h).decoded,
      _, hfs.get? rfl rfl fun x h => (hwidth x h).decoded, _, hfs.get? rfl rfl fun b _ => (carries_bool b).decoded,
      _, hfs.getD? rfl (carries_bool _).decoded, _, hsettings, by simp [mapColors]⟩

end Dataset

namespace ChartOptions

def elementsToJson (o : ChartOptions α) : Json :=
  ofMembers (present [("point", some o.point.toJson), ("bar", some o.bar.toJson), ("arc", some o.sector.toJson)])

/-- The options of elements are read back together. -/
theorem carries_elements {o : ChartOptions α}
    (hpoint : ∀ x ∈ [o.point.radius, o.point.hoverRadius, o.point.hitRadius, o.point.borderWidth], Numbered x)
    (hbar : ∀ x ∈ [o.bar.categoryShare, o.bar.barShare, o.bar.borderWidth], Numbered x)
    (hsector : Numbered o.sector.borderWidth) (hk : Color.ReadAs f o.sector.borderColor) :
    Carries elementsOfJson? o.elementsToJson (o.point, o.bar, { o.sector with borderColor := f o.sector.borderColor }) := by
  have hpoint := PointOptions.carries hpoint
  have hbar := BarOptions.carries hbar
  have hsector := SectorOptions.carries hsector hk
  refine carries_fields _ rfl (by decide) (by simp [hpoint.written, hbar.written, hsector.written]) fun fs hfs => ?_
  simp only [Option.bind_eq_bind, Option.bind_eq_some_iff]
  exact ⟨_, hfs.getD? rfl hpoint.decoded, _, hfs.getD? rfl hbar.decoded, _, hfs.getD? rfl hsector.decoded, rfl⟩

def legendToJson (shown : Bool) : Json := ofMembers (present [("display", some (.bool shown))])

theorem carries_legend (shown : Bool) : Carries legendOfJson? (legendToJson shown) shown :=
  carries_fields _ rfl (by decide) (by simp [Written.bool]) fun _ hfs => hfs.getD? rfl (carries_bool _).decoded

def pluginsToJson (shown : Bool) : Json := ofMembers (present [("legend", some (legendToJson shown))])

theorem carries_plugins (shown : Bool) : Carries pluginsOfJson? (pluginsToJson shown) shown :=
  carries_fields _ rfl (by decide) (by simp [(carries_legend shown).written]) fun _ hfs =>
    hfs.getD? rfl (carries_legend shown).decoded

def slots (o : ChartOptions α) : List (String × Option Json) :=
  [("indexAxis", some (.ofText o.indexAxis.name)), ("scales", some (AxisOptions.allToJson o.axes)),
    ("elements", some o.elementsToJson), ("plugins", some (pluginsToJson o.legend)),
    ("animation", some o.animation.toJson), ("fill", o.fill.map Json.bool)]

theorem toJson_eq (o : ChartOptions α) : o.toJson = ofMembers (present (o.slots ++ o.style.slots)) := by
  simp [toJson, slots, elementsToJson, pluginsToJson, legendToJson, member?, present_cons, present_nil,
    Style.Overrides.toMembers_eq, Function.comp_def]

/-- The options of a chart are read back. -/
theorem carries {o : ChartOptions α} (hn : ∀ x ∈ o.numbers, Numbered x) (hm : ∀ n ∈ o.counts, Counted n)
    (hk : ∀ k ∈ o.colors, Color.ReadAs f k) {depth : Nat} (hdepth : depth + 3 ≤ maxNesting) :
    Carries (ofJson? depth) o.toJson (o.mapColors f) := by
  simp only [numbers, colors, List.forall_mem_append] at hn hk
  obtain ⟨⟨⟨⟨haxes, hpoint⟩, hbar⟩, hrest⟩, hstyle⟩ := hn
  obtain ⟨⟨haxisColors, hsectorColor⟩, hstyleColors⟩ := hk
  have haxis : ∀ a ∈ o.axisList, Carries AxisOptions.ofJson? a.toJson (a.mapColors f) := by
    intro a ha
    refine AxisOptions.carries (fun x hx => haxes x (List.mem_flatMap.2 ⟨a, ha, hx⟩)) (fun n hn => ?_)
      fun k hk => haxisColors k (List.mem_flatMap.2 ⟨a, ha, hk⟩)
    exact hm n (List.mem_flatMap.2 ⟨a, ha, Option.mem_toList.2 hn⟩)
  simp only [axisList, List.forall_mem_cons] at haxis hrest hsectorColor
  have haxes : Carries AxisOptions.allOfJson? (AxisOptions.allToJson o.axes) (o.axes.map (·.mapColors f)) :=
    AxisOptions.carries_all haxis.1 haxis.2.1 haxis.2.2.1
  have helements := carries_elements hpoint hbar hrest.1 hsectorColor.1
  have hplugins := carries_plugins o.legend
  have hanimation := Animation.carries hrest.2.1
  have hindexAxis : Carries (choice? axisNames) (ofText o.indexAxis.name) o.indexAxis :=
    carries_choice (by cases o.indexAxis <;> rfl)
  rw [toJson_eq]
  refine Style.Overrides.carries_behind hstyle hstyleColors _ rfl (by decide) (by omega) ?_ fun fs hfs hsettings => ?_
  · simp only [slots, List.forall_mem_cons]
    exact ⟨by simp [hindexAxis.written], by simp [haxes.written], by simp [helements.written], by simp [hplugins.written],
      by simp [hanimation.written], written_optional fun b _ => carries_bool b, nofun⟩
  · simp only [Option.bind_eq_bind, Option.bind_eq_some_iff]
    exact ⟨_, hfs.getD? rfl helements.decoded, _, hfs.getD? rfl hindexAxis.decoded, _, hfs.getD? rfl haxes.decoded,
      _, hfs.getD? rfl hplugins.decoded, _, hfs.getD? rfl hanimation.decoded,
      _, hfs.get? rfl rfl fun b _ => (carries_bool b).decoded, _, hsettings, by simp [mapColors]⟩

end ChartOptions

namespace Chart

def dataToJson (c : Chart α) : Json :=
  ofMembers (present [("labels", some (.array (c.labels.map Json.ofText))),
    ("datasets", some (.array (c.datasets.map Dataset.toJson)))])

/-- Labels and datasets are read back. -/
theorem carries_data {c : Chart α} (hn : ∀ d ∈ c.datasets, ∀ x ∈ d.numbers, Numbered x)
    (hk : ∀ d ∈ c.datasets, ∀ k ∈ d.colors, Color.ReadAs f k) :
    Carries (dataOfJson? 1) c.dataToJson (c.labels, c.datasets.map (·.mapColors f)) := by
  have hlabels : Carries (list? text?) (.array (c.labels.map Json.ofText)) (c.labels.map id) :=
    carries_list fun s _ => carries_text s
  have hdatasets : Carries (list? (Dataset.ofJson? 3)) (.array (c.datasets.map Dataset.toJson))
      (c.datasets.map (·.mapColors f)) := carries_list fun d hd => Dataset.carries (hn d hd) (hk d hd) (by decide)
  refine carries_fields _ rfl (by decide) (by simp [hlabels.written, hdatasets.written]) fun fs hfs => ?_
  simp only [Option.bind_eq_bind, Option.bind_eq_some_iff]
  exact ⟨_, hfs.getD? rfl hlabels.decoded, _, hfs.getD? rfl hdatasets.decoded, by simp⟩

/-- A chart is read back, with the colors as they are read. -/
theorem carries {c : Chart α} (hn : ∀ x ∈ c.numbers, Numbered x) (hm : ∀ n ∈ c.options.counts, Counted n)
    (hk : ∀ k ∈ c.colors, Color.ReadAs f k) : Carries (ofJson? 0) c.toJson (c.mapColors f) := by
  simp only [numbers, colors, List.forall_mem_append] at hn hk
  have hdata := carries_data (fun d hd x hx => hn.1 x (List.mem_flatMap.2 ⟨d, hd, hx⟩))
    fun d hd k hk' => hk.1 k (List.mem_flatMap.2 ⟨d, hd, hk'⟩)
  have hoptions : Carries (ChartOptions.ofJson? 1) c.options.toJson (c.options.mapColors f) :=
    ChartOptions.carries hn.2 hm hk.2 (by decide)
  refine carries_fields [("type", some (.ofText c.chartType)), ("data", some c.dataToJson),
    ("options", some c.options.toJson)] rfl (by decide) ?_ fun fs hfs => ?_
  · simp [(carries_text _).written, hdata.written, hoptions.written]
  · simp only [Option.bind_eq_bind, Option.bind_eq_some_iff]
    exact ⟨_, hfs.require? rfl (carries_text _).decoded, _, hfs.getD? rfl hdata.decoded,
      _, hfs.getD? rfl hoptions.decoded, rfl⟩

end Chart

end Whisker
