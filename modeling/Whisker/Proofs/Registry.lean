import Mathlib.Data.List.Nodup
import Whisker.Registry

/-!
# Registries along registrations

A registry is filled by calls in any order: types may be replaced, parts repeated, and a type may come before its parts
or after them. What the calls add, one after the other, says all about the registry that they make of the empty one:
which type a name resolves to, with what error it is refused, and in which order the names are listed.
-/

namespace Whisker.Registry

/-- What can be done to a registry. -/
inductive Call where
  | addType (t : ChartType)
  | addElement (id : String)
  | addScale (id : String)
  | register (t : ChartType)
  | registerAll
  deriving DecidableEq, Repr

namespace Call

def run (r : Registry) : Call → Registry
  | addType t => r.addType t
  | addElement id => r.addElement id
  | addScale id => r.addScale id
  | register t => r.register t
  | registerAll => r.registerAll

def types : Call → List ChartType
  | addType t => [t]
  | register t => [t]
  | registerAll => ChartType.all
  | _ => []

def elements : Call → List String
  | addElement id => [id]
  | register t => [t.element]
  | registerAll => ChartType.all.map ChartType.element
  | _ => []

def scales : Call → List String
  | addScale id => [id]
  | register t => t.scales
  | registerAll => ChartType.all.flatMap ChartType.scales
  | _ => []

end Call

def built (calls : List Call) : Registry := calls.foldl Call.run empty

def last? (ts : List ChartType) (name : String) : Option ChartType := (ts.filter (·.name = name)).getLast?

/-- The last type of a name is the new one if it has this name. -/
theorem last?_append_singleton (ts : List ChartType) (t : ChartType) (name : String) :
    last? (ts ++ [t]) name = if t.name = name then some t else last? ts name := by
  by_cases h : t.name = name <;> simp [last?, List.filter_append, h]

theorem last?_eq_none {ts : List ChartType} {name : String} : last? ts name = none ↔ ∀ t ∈ ts, t.name ≠ name := by
  simp [last?]

/-- What is added under other names does not matter. -/
theorem last?_append {ts us : List ChartType} {name : String} (h : ∀ u ∈ us, u.name ≠ name) :
    last? (ts ++ us) name = last? ts name := by
  have hnone : us.filter (·.name = name) = [] := by
    rw [List.filter_eq_nil_iff]
    intro u hu
    simpa using h u hu
  rw [last?, List.filter_append, hnone, List.append_nil, last?]

/-- A name is found at the type that was put in last, whether it took a place or got a new one. -/
theorem find?_insertType (t : ChartType) (ts : List ChartType) (name : String) :
    (insertType t ts).find? (·.name = name) = if t.name = name then some t else ts.find? (·.name = name) := by
  induction ts with
  | nil => by_cases h : t.name = name <;> simp [insertType, h]
  | cons u us ih =>
    unfold insertType
    by_cases hut : u.name = t.name
    · rw [if_pos hut]
      by_cases h : t.name = name <;> simp [hut, h]
    · rw [if_neg hut]
      by_cases h : u.name = name
      · have hne : t.name ≠ name := fun ht => hut (h.trans ht.symm)
        simp [h, hne]
      · simp [h, ih]

/-- A type of a known name takes the place of the old one, any other comes at the end. -/
theorem names_insertType (t : ChartType) (ts : List ChartType) :
    (insertType t ts).map ChartType.name =
      if t.name ∈ ts.map ChartType.name then ts.map ChartType.name else ts.map ChartType.name ++ [t.name] := by
  induction ts with
  | nil => rfl
  | cons u us ih =>
    unfold insertType
    by_cases hut : u.name = t.name
    · simp [hut]
    · have hut' : ¬t.name = u.name := fun h => hut h.symm
      simp only [hut, if_false, List.map_cons, ih, List.mem_cons, hut', false_or]
      split <;> rfl

theorem mem_insertId {id id' : String} {ids : List String} : id' ∈ insertId id ids ↔ id' ∈ ids ∨ id' = id := by
  unfold insertId
  split
  · rename_i hmem
    have hmem : id ∈ ids := List.contains_iff_mem.1 hmem
    exact ⟨Or.inl, fun h => h.elim (·) (fun heq => heq ▸ hmem)⟩
  · rw [List.mem_append, List.mem_singleton]

/-- A name that occurred keeps its first place. -/
theorem eraseDups_append_singleton (names : List String) (name : String) :
    (names ++ [name]).eraseDups = if name ∈ names then names.eraseDups else names.eraseDups ++ [name] := by
  rw [List.eraseDups_append]
  by_cases h : name ∈ names <;> simp [List.removeAll, List.eraseDups_cons, h]

/-- The registry holds what was added: types, elements and scales, each in order. -/
structure Holds (r : Registry) (ts : List ChartType) (es ss : List String) : Prop where
  type? : ∀ name, r.type? name = last? ts name
  names : r.names = (ts.map ChartType.name).eraseDups
  nodup : r.names.Nodup
  elements : ∀ id, id ∈ r.elements ↔ id ∈ es
  scales : ∀ id, id ∈ r.scales ↔ id ∈ ss

theorem holds_empty : empty.Holds [] [] [] where
  type? _ := rfl
  names := rfl
  nodup := List.nodup_nil
  elements _ := Iff.rfl
  scales _ := Iff.rfl

namespace Holds

variable {r : Registry} {ts : List ChartType} {es ss : List String}

theorem addType (h : r.Holds ts es ss) (t : ChartType) : (r.addType t).Holds (ts ++ [t]) es ss where
  type? name := by
    rw [last?_append_singleton, ← h.type?]
    exact find?_insertType t r.types name
  names := by
    have hmem : t.name ∈ r.names ↔ t.name ∈ ts.map ChartType.name := by rw [h.names, List.mem_eraseDups]
    rw [List.map_append, List.map_singleton, eraseDups_append_singleton, ← h.names]
    simp only [← hmem]
    exact names_insertType t r.types
  nodup := by
    change ((insertType t r.types).map ChartType.name).Nodup
    rw [names_insertType]
    split
    · exact h.nodup
    · rename_i hnew
      exact List.nodup_append.2 ⟨h.nodup, List.nodup_singleton _, by
        rintro _ hname _ hnew' rfl
        exact hnew (List.mem_singleton.1 hnew' ▸ hname)⟩
  elements := h.elements
  scales := h.scales

theorem addElement (h : r.Holds ts es ss) (id : String) : (r.addElement id).Holds ts (es ++ [id]) ss where
  type? := h.type?
  names := h.names
  nodup := h.nodup
  elements id' := by
    rw [List.mem_append, List.mem_singleton, ← h.elements]
    exact mem_insertId
  scales := h.scales

theorem addScale (h : r.Holds ts es ss) (id : String) : (r.addScale id).Holds ts es (ss ++ [id]) where
  type? := h.type?
  names := h.names
  nodup := h.nodup
  elements := h.elements
  scales id' := by
    rw [List.mem_append, List.mem_singleton, ← h.scales]
    exact mem_insertId

/-- Several scales in a row are added in order. -/
theorem addScales (h : r.Holds ts es ss) (ids : List String) :
    (ids.foldl Registry.addScale r).Holds ts es (ss ++ ids) := by
  induction ids generalizing r ss with
  | nil => rwa [List.append_nil]
  | cons id ids ih =>
    have hrest := ih (h.addScale id)
    rwa [List.append_assoc] at hrest

/-- A type is registered with its parts. -/
theorem register (h : r.Holds ts es ss) (t : ChartType) :
    (r.register t).Holds (ts ++ [t]) (es ++ [t.element]) (ss ++ t.scales) :=
  ((h.addElement t.element).addScales t.scales).addType t

/-- Several types are registered in order. -/
theorem registerEach (h : r.Holds ts es ss) (us : List ChartType) :
    (us.foldl Registry.register r).Holds (ts ++ us) (es ++ us.map ChartType.element)
      (ss ++ us.flatMap ChartType.scales) := by
  induction us generalizing r ts es ss with
  | nil => simpa using h
  | cons u us ih => simpa using ih (h.register u)

/-- A call adds its types and parts behind those already there. -/
theorem run (h : r.Holds ts es ss) (c : Call) :
    (c.run r).Holds (ts ++ c.types) (es ++ c.elements) (ss ++ c.scales) := by
  cases c with
  | addType t =>
    change (r.addType t).Holds (ts ++ [t]) (es ++ []) (ss ++ [])
    simpa using h.addType t
  | addElement id =>
    change (r.addElement id).Holds (ts ++ []) (es ++ [id]) (ss ++ [])
    simpa using h.addElement id
  | addScale id =>
    change (r.addScale id).Holds (ts ++ []) (es ++ []) (ss ++ [id])
    simpa using h.addScale id
  | register t => exact h.register t
  | registerAll => exact h.registerEach ChartType.all

/-- A registry that holds what some calls added holds, after more calls, what all of them added. -/
theorem runs (h : r.Holds ts es ss) (calls : List Call) :
    (calls.foldl Call.run r).Holds (ts ++ calls.flatMap Call.types) (es ++ calls.flatMap Call.elements)
      (ss ++ calls.flatMap Call.scales) := by
  induction calls generalizing r ts es ss with
  | nil => simpa using h
  | cons c calls ih => simpa using ih (h.run c)

end Holds

/-- What a name resolves to, from what was added: the last type of the name if all its parts were added, else an error
that names the first part that was not, the element before the scales. -/
inductive Answers (ts : List ChartType) (es ss : List String) (name : String) : Result ChartType → Prop
  | noType (h : ∀ t ∈ ts, t.name ≠ name) : Answers ts es ss name (.error (.unknownType name))
  | noElement {t : ChartType} (last : last? ts name = some t) (h : t.element ∉ es) :
    Answers ts es ss name (.error (.unregistered name .element t.element))
  | noScale {t : ChartType} (last : last? ts name = some t) (element : t.element ∈ es) {before after : List String}
    {s : String} (scales : t.scales = before ++ s :: after) (known : ∀ b ∈ before, b ∈ ss) (h : s ∉ ss) :
    Answers ts es ss name (.error (.unregistered name .scale s))
  | found {t : ChartType} (last : last? ts name = some t) (element : t.element ∈ es) (scales : ∀ s ∈ t.scales, s ∈ ss) :
    Answers ts es ss name (.ok t)

section

variable {r : Registry} {name : String} {t : ChartType}

theorem resolve_of_none (h : r.type? name = none) : r.resolve name = .error (.unknownType name) := by
  unfold resolve
  rw [h]

/-- A missing element is reported before missing scales. -/
theorem resolve_of_not_mem (h : r.type? name = some t) (helement : t.element ∉ r.elements) :
    r.resolve name = .error (.unregistered name .element t.element) := by
  unfold resolve
  rw [h]
  simp [helement]

/-- Of several missing scales the first one is reported. -/
theorem resolve_of_find? (h : r.type? name = some t) (helement : t.element ∈ r.elements) {s : String}
    (hs : t.scales.find? (fun s => !r.scales.contains s) = some s) :
    r.resolve name = .error (.unregistered name .scale s) := by
  unfold resolve
  rw [h]
  dsimp only
  rw [if_neg (by simpa using helement), hs]

/-- A type whose parts are all known is the answer. -/
theorem resolve_of_mem (h : r.type? name = some t) (helement : t.element ∈ r.elements)
    (hscales : ∀ s ∈ t.scales, s ∈ r.scales) : r.resolve name = .ok t := by
  have hs : t.scales.find? (fun s => !r.scales.contains s) = none := by simpa using hscales
  unfold resolve
  rw [h]
  dsimp only
  rw [if_neg (by simpa using helement), hs]

end

namespace Holds

variable {r : Registry} {ts : List ChartType} {es ss : List String}

theorem answers (h : r.Holds ts es ss) (name : String) : Answers ts es ss name (r.resolve name) := by
  cases hlast : last? ts name with
  | none =>
    rw [resolve_of_none ((h.type? name).trans hlast)]
    exact .noType (last?_eq_none.1 hlast)
  | some t =>
    have htype := (h.type? name).trans hlast
    by_cases helement : t.element ∈ r.elements
    · cases hscale : t.scales.find? (fun s => !r.scales.contains s) with
      | none =>
        have hscales : ∀ s ∈ t.scales, s ∈ r.scales := by simpa using hscale
        rw [resolve_of_mem htype helement hscales]
        exact .found hlast ((h.elements _).1 helement) fun s hs => (h.scales s).1 (hscales s hs)
      | some s =>
        obtain ⟨hs, before, after, hsplit, hbefore⟩ := List.find?_eq_some_iff_append.1 hscale
        rw [resolve_of_find? htype helement hscale]
        refine .noScale hlast ((h.elements _).1 helement) hsplit (fun b hb => (h.scales b).1 ?_) ?_
        · simpa using hbefore b hb
        · rw [← h.scales]
          simpa using hs
    · rw [resolve_of_not_mem htype helement]
      exact .noElement hlast fun hmem => helement ((h.elements _).2 hmem)

/-- A registry answers what follows from what was added, and nothing else. -/
theorem resolve_eq_iff (h : r.Holds ts es ss) {name : String} {x : Result ChartType} :
    r.resolve name = x ↔ Answers ts es ss name x := by
  constructor
  · rintro rfl
    exact h.answers name
  · intro hx
    cases hx with
    | noType hnone => exact resolve_of_none ((h.type? name).trans (last?_eq_none.2 hnone))
    | noElement hlast helement =>
      exact resolve_of_not_mem ((h.type? name).trans hlast) fun hmem => helement ((h.elements _).1 hmem)
    | noScale hlast helement hsplit hknown hs =>
      refine resolve_of_find? ((h.type? name).trans hlast) ((h.elements _).2 helement) ?_
      refine List.find?_eq_some_iff_append.2 ⟨?_, _, _, hsplit, fun b hb => ?_⟩
      · simpa using fun hmem => hs ((h.scales _).1 hmem)
      · simpa using (h.scales b).2 (hknown b hb)
    | found hlast helement hscales =>
      exact resolve_of_mem ((h.type? name).trans hlast) ((h.elements _).2 helement) fun s hs => (h.scales s).2 (hscales s hs)

/-- What comes to be added under other names keeps an answer. -/
theorem resolve_kept (h : r.Holds ts es ss) {r' : Registry} {us : List ChartType} {es' ss' : List String}
    (h' : r'.Holds (ts ++ us) (es ++ es') (ss ++ ss')) {name : String} (hus : ∀ u ∈ us, u.name ≠ name) {t : ChartType}
    (ht : r.resolve name = .ok t) : r'.resolve name = .ok t := by
  rw [h.resolve_eq_iff] at ht
  rw [h'.resolve_eq_iff]
  cases ht with
  | found hlast helement hscales =>
    exact .found ((last?_append hus).trans hlast) (List.mem_append_left _ helement)
      fun s hs => List.mem_append_left _ (hscales s hs)

end Holds

/-- A registry built by calls holds what the calls added. -/
theorem holds_built (calls : List Call) :
    (built calls).Holds (calls.flatMap Call.types) (calls.flatMap Call.elements) (calls.flatMap Call.scales) :=
  holds_empty.runs calls

/-- Whatever calls fill the empty registry, a name resolves to the last type added under it exactly if the element and
the scales of this type were added at any time; else it is unknown if no type has it, or the error names the element or
the first scale that is missing. A call that adds no type of the name keeps what it resolves to, and a type that is
registered with its parts is what its name resolves to. Each name is listed once, in the order of first registration. -/
theorem resolve_built (calls : List Call) (name : String) :
    (∀ t, (built calls).resolve name = .ok t ↔
      last? (calls.flatMap Call.types) name = some t ∧ t.element ∈ calls.flatMap Call.elements ∧
        ∀ s ∈ t.scales, s ∈ calls.flatMap Call.scales) ∧
    (∀ x, (built calls).resolve name = x ↔
      Answers (calls.flatMap Call.types) (calls.flatMap Call.elements) (calls.flatMap Call.scales) name x) ∧
    (∀ c t, (∀ u ∈ c.types, u.name ≠ name) → (built calls).resolve name = .ok t →
      (built (calls ++ [c])).resolve name = .ok t) ∧
    (∀ t, (built (calls ++ [.register t])).resolve t.name = .ok t) ∧
    (built calls).names = ((calls.flatMap Call.types).map ChartType.name).eraseDups ∧ (built calls).names.Nodup := by
  have h := holds_built calls
  have hbuilt (c : Call) : built (calls ++ [c]) = c.run (built calls) := List.foldl_append
  refine ⟨fun t => ?_, fun x => h.resolve_eq_iff, fun c t hc ht => ?_, fun t => ?_, h.names, h.nodup⟩
  · rw [h.resolve_eq_iff]
    constructor
    · intro ht
      cases ht with
      | found hlast helement hscales => exact ⟨hlast, helement, hscales⟩
    · rintro ⟨hlast, helement, hscales⟩
      exact .found hlast helement hscales
  · rw [hbuilt]
    exact h.resolve_kept (h.run c) hc ht
  · rw [hbuilt]
    refine (h.register t).resolve_eq_iff.2 (.found ?_ (by simp) fun s hs => List.mem_append_right _ hs)
    rw [last?_append_singleton, if_pos rfl]

/-- The parts of a type come after it, one of them last, and another type is registered in between. -/
theorem late_part_completes_type :
    (built [.addType .bar, .addElement "rectangleWithErrorBar", .addScale "linear"]).resolve "barWithErrorBars" =
        .error (.unregistered "barWithErrorBars" .scale "category") ∧
      (built [.addType .bar, .addElement "rectangleWithErrorBar", .register .line]).resolve "barWithErrorBars" =
        .ok .bar ∧
      (built [.addType .bar, .addElement "rectangleWithErrorBar", .register .line, .register .polar]).resolve
        "barWithErrorBars" = .ok .bar := by
  obtain ⟨-, hanswers, -⟩ := resolve_built [.addType .bar, .addElement "rectangleWithErrorBar", .addScale "linear"]
    "barWithErrorBars"
  obtain ⟨hok, -, hkept, -⟩ := resolve_built [.addType .bar, .addElement "rectangleWithErrorBar", .register .line]
    "barWithErrorBars"
  have hresolves := (hok .bar).2 (by decide)
  refine ⟨(hanswers _).2 ?_, hresolves, hkept (.register .polar) .bar (by decide) hresolves⟩
  have hsplit : ChartType.bar.scales = [] ++ "category" :: ["linear"] := rfl
  exact .noScale (by decide) (by decide) hsplit nofun (by decide)

end Whisker.Registry
