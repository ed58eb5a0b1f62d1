import Mathlib.Data.List.Nodup
import Whisker.Chart.Codec
import Whisker.Proofs.Json.Reader

/-!
# Values carried by JSON

A tree carries a value if it can be written and read again and is then decoded to that value. A structure is
written as an object of those of its fields that are set, in the order of its names; no name stands twice, so
each field is found again under its own.
-/

namespace Whisker.Json

structure Carries {β : Type} (decode : Json → Option β) (v : Json) (x : β) : Prop where
  written : v.Written
  decoded : decode v = some x

theorem isBody_escape (cs : List Char) : IsBody (escape cs) := stringBody?_escape cs

theorem carries_text (s : String) : Carries text? (ofText s) s := ⟨.string (isBody_escape _), text?_ofText s⟩

theorem carries_bool (b : Bool) : Carries bool? (.bool b) b := ⟨.bool b, rfl⟩

/-- A choice is read back from its name. -/
theorem carries_choice {β : Type} {names : List (String × β)} {s : String} {x : β} (h : names.lookup s = some x) :
    Carries (choice? names) (ofText s) x where
  written := (carries_text s).written
  decoded := by
    change ((text? (ofText s)).bind fun s => names.lookup s) = some x
    rw [text?_ofText, Option.bind_some, h]

section Combinators

variable {β γ : Type} {decode : Json → Option β} {encode : γ → Json} {f : γ → β}

theorem written_array {xs : List γ} (h : ∀ x ∈ xs, (encode x).Written) : (Json.array (xs.map encode)).Written := by
  refine .array fun v hv => ?_
  obtain ⟨x, hx, rfl⟩ := List.mem_map.1 hv
  exact h x hx

/-- A list is read back if its items are. -/
theorem carries_list {xs : List γ} (h : ∀ x ∈ xs, Carries decode (encode x) (f x)) :
    Carries (list? decode) (.array (xs.map encode)) (xs.map f) :=
  ⟨written_array fun x hx => (h x hx).written, mapM_map fun x hx => (h x hx).decoded⟩

theorem written_optional {o : Option γ} (h : ∀ x ∈ o, Carries decode (encode x) (f x)) :
    ∀ v, o.map encode = some v → v.Written := by
  intro v hv
  obtain ⟨x, hx, rfl⟩ := Option.map_eq_some_iff.1 hv
  exact (h x hx).written

end Combinators

/-- The members of an object, of which some are left out. -/
def present (slots : List (String × Option Json)) : List (String × Json) :=
  slots.filterMap fun (k, v) => v.map (k, ·)

theorem present_nil : present [] = [] := rfl

theorem present_cons (name : String) (o : Option Json) (slots : List (String × Option Json)) :
    present ((name, o) :: slots) = (o.map (name, ·)).toList ++ present slots := by
  cases o <;> rfl

/-- The members present are the slots that hold something. -/
theorem mem_present {slots : List (String × Option Json)} {m : String × Json} :
    m ∈ present slots ↔ (m.1, some m.2) ∈ slots := by
  obtain ⟨k, v⟩ := m
  simp only [present, List.mem_filterMap, Prod.exists, Option.map_eq_some_iff, Prod.mk.injEq]
  constructor
  · rintro ⟨k', o, hs, v', rfl, rfl, rfl⟩
    exact hs
  · intro hs
    exact ⟨k, some v, hs, v, rfl, rfl, rfl⟩

/-- Names are read back from their literals. -/
theorem keyed?_escape (ms : List (String × Json)) :
    keyed? (ms.map fun (k, v) => (escape k.toList, v)) = some ms := by
  rw [keyed?, mapM_map (f := id), List.map_id]
  intro m _
  simp [unescape?_escape]

/-- The members stand in the order of the slots. -/
theorem keys_present (slots : List (String × Option Json)) :
    ((present slots).map Prod.fst).Sublist (slots.map Prod.fst) := by
  induction slots with
  | nil => exact .slnil
  | cons s slots ih =>
    obtain ⟨k, v⟩ := s
    cases v with
    | none => exact ih.cons k
    | some v => exact ih.cons_cons k

/-- Leaving out empty slots keeps the others as they are. -/
theorem present_eq_filterMap (slots : List (String × Option Json)) :
    present slots = (slots.map fun (k, v) => v.map (k, ·)).filterMap id := by
  rw [List.filterMap_map]
  rfl

theorem mem_of_lookup {β : Type} {slots : List (String × β)} {name : String} {x : β} (h : slots.lookup name = some x) :
    (name, x) ∈ slots := by
  induction slots with
  | nil => cases h
  | cons s slots ih =>
    obtain ⟨k, y⟩ := s
    rw [List.lookup_cons] at h
    cases hname : name == k with
    | true =>
      rw [hname] at h
      cases h
      rw [beq_iff_eq.1 hname]
      exact List.mem_cons_self
    | false =>
      rw [hname] at h
      exact List.mem_cons_of_mem _ (ih h)

/-- Members under known names, none twice, pass the check for unknown and repeated names. -/
theorem known?_present {names : List String} {slots : List (String × Option Json)}
    (hnames : slots.map Prod.fst = names) (hnodup : names.Nodup) :
    known? names (present slots) = some ⟨present slots⟩ := by
  have hkeys := keys_present slots
  rw [hnames] at hkeys
  have hall : (present slots).filter (fun m => names.contains m.1) = present slots := by
    refine List.filter_eq_self.2 fun m hm => ?_
    simpa using hkeys.subset (List.mem_map_of_mem hm)
  simp only [known?, hall]
  rw [if_pos (hnodup.sublist hkeys)]

/-- An object of known members is read as its fields. -/
theorem fields?_present {names : List String} {slots : List (String × Option Json)}
    (hnames : slots.map Prod.fst = names) (hnodup : names.Nodup) :
    fields? names (ofMembers (present slots)) = some ⟨present slots⟩ := by
  simp only [ofMembers, fields?, keyed?_escape, Option.bind_eq_bind, Option.bind_some]
  exact known?_present hnames hnodup

/-- An object is written with the members present. -/
theorem written_present {slots : List (String × Option Json)} (h : ∀ s ∈ slots, ∀ v, s.2 = some v → v.Written) :
    (ofMembers (present slots)).Written := by
  refine .object ?_ ?_
  · intro m hm
    obtain ⟨m', _, rfl⟩ := List.mem_map.1 hm
    exact isBody_escape _
  · intro m hm
    obtain ⟨m', hm', rfl⟩ := List.mem_map.1 hm
    exact h _ (mem_present.1 hm') m'.2 rfl

namespace Fields

def Of (slots : List (String × Option Json)) (fs : Fields) : Prop := ∀ s ∈ slots, fs.find? s.1 = s.2

/-- A field is found under its own name, and a field that is left out is not found. -/
theorem of_present {slots : List (String × Option Json)} (hnodup : (slots.map Prod.fst).Nodup) :
    Of slots ⟨present slots⟩ := by
  rintro ⟨k, o⟩ hs
  change (present slots).lookup k = o
  cases hfound : (present slots).lookup k with
  | some v =>
    have hmem := mem_present.1 (mem_of_lookup hfound)
    exact (congrArg Prod.snd (List.inj_on_of_nodup_map hnodup hs hmem rfl)).symm
  | none =>
    cases o with
    | none => rfl
    | some v =>
      have habsent := List.lookup_eq_none_iff.1 hfound (k, v) (mem_present.2 hs)
      simp at habsent

namespace Of

variable {β γ : Type} {slots : List (String × Option Json)} {fs : Fields} {name : String} {decode : Json → Option β}
  (hfs : fs.Of slots)

include hfs

/-- A field that is present is read. -/
theorem require? {v : Json} {x : β} (hslot : slots.lookup name = some (some v)) (h : decode v = some x) :
    fs.require? name decode = some x := by
  simp [Fields.require?, hfs _ (mem_of_lookup hslot), h]

/-- A field that is present is read in the place of its default. -/
theorem getD? {v : Json} {x : β} (hslot : slots.lookup name = some (some v)) (h : decode v = some x) {default : β} :
    fs.getD? name decode default = some x := by
  simp [Fields.getD?, hfs _ (mem_of_lookup hslot), h]

/-- A field that is left out, or else is not `null`. -/
theorem get? {encode : γ → Json} {g : γ → β} {o : Option γ} (hslot : slots.lookup name = some (o.map encode))
    (hnull : decode .null = none) (h : ∀ y ∈ o, decode (encode y) = some (g y)) :
    fs.get? name decode = some (o.map g) := by
  simp only [Fields.get?, Fields.getD?, hfs _ (mem_of_lookup hslot)]
  cases o with
  | none => rfl
  | some y =>
    have hy := h y rfl
    simp only [Option.map_some]
    cases hv : encode y with
    | null =>
      rw [hv, hnull] at hy
      cases hy
    | _ =>
      rw [hv] at hy
      simp [option?, hy]

end Of

end Fields

section Structures

variable {β : Type} {names others : List String} {build : Fields → Option β} {x : β}

/-- A structure is carried by the object of its fields, if they make it again. -/
theorem carries_fields (slots : List (String × Option Json)) (hnames : slots.map Prod.fst = names) (hnodup : names.Nodup)
    (hwritten : ∀ s ∈ slots, ∀ v, s.2 = some v → v.Written) (hbuild : ∀ fs, Fields.Of slots fs → build fs = some x) :
    Carries (fun v => (fields? names v).bind build) (ofMembers (present slots)) x where
  written := written_present hwritten
  decoded := by
    rw [fields?_present hnames hnodup, Option.bind_some]
    exact hbuild _ (Fields.of_present (hnames ▸ hnodup))

/-- A structure that keeps the members it does not name is carried if those can be kept. -/
theorem carries_keptFields {α : Type} [Scalar α] [NumberText α] {depth : Nat} (slots : List (String × Option Json))
    (hnames : slots.map Prod.fst = names ++ others) (hnodup : (names ++ others).Nodup)
    (hwritten : ∀ s ∈ slots, ∀ v, s.2 = some v → v.Written)
    (hkept : ∀ s ∈ slots, s.1 ∉ names → ∀ v, s.2 = some v → keepable α depth v = true)
    (hbuild : ∀ fs, Fields.Of slots fs → build fs = some x) :
    Carries (fun v => (keptFields? α depth names others v).bind build) (ofMembers (present slots)) x where
  written := written_present hwritten
  decoded := by
    have hall : (present slots).all (fun m => names.contains m.1 || keepable α depth m.2) = true := by
      rw [List.all_eq_true]
      intro m hm
      cases hc : names.contains m.1 with
      | true => rfl
      | false => exact hkept _ (mem_present.1 hm) (by simpa using hc) m.2 rfl
    simp only [ofMembers, keptFields?, keyed?_escape, Option.bind_eq_bind, Option.bind_some, hall, if_true]
    rw [known?_present hnames hnodup, Option.bind_some]
    exact hbuild _ (Fields.of_present (hnames ▸ hnodup))

end Structures

section Kept

variable {α : Type} [Scalar α] [NumberText α]

/-- Every literal can be read, and at most `depth` brackets are open at once. -/
structure Keeps (α : Type) [Scalar α] [NumberText α] (depth : Nat) (v : Json) : Prop where
  readable : readable α v = true
  nesting : v.nesting ≤ depth

/-- What stays below the depth that is kept can be kept. -/
theorem Keeps.keepable {depth n : Nat} {v : Json} (h : Keeps α n v) (hdepth : depth + n ≤ maxNesting) :
    keepable α depth v = true := by
  have hnesting := h.nesting
  simp only [Json.keepable, h.readable, Bool.true_and, decide_eq_true_eq]
  omega

theorem keeps_text (s : String) (depth : Nat) : Keeps α depth (ofText s) :=
  ⟨by simp [ofText, readable, unescape?_escape], Nat.zero_le _⟩

theorem keeps_number {x : α} (h : number? (ofNumber x) = some x) (depth : Nat) : Keeps α depth (ofNumber x) := by
  unfold ofNumber at h ⊢
  split
  · rename_i s hs
    rw [hs] at h
    exact ⟨by simp [readable, h], Nat.zero_le _⟩
  · exact ⟨rfl, Nat.zero_le _⟩

/-- An array needs one level more than its items. -/
theorem keeps_array {depth : Nat} {items : List Json} (h : ∀ v ∈ items, Keeps α depth v) :
    Keeps α (depth + 1) (.array items) := by
  have hitems : readable.readableItems α items = true ∧ nesting.ofItems items ≤ depth := by
    induction items with
    | nil => exact ⟨rfl, Nat.zero_le _⟩
    | cons v vs ih =>
      obtain ⟨hv, hvs⟩ := List.forall_mem_cons.1 h
      obtain ⟨hr, hn⟩ := ih hvs
      exact ⟨by simp [readable.readableItems, hv.readable, hr], Nat.max_le.2 ⟨hv.nesting, hn⟩⟩
  exact ⟨hitems.1, Nat.add_comm depth 1 ▸ Nat.add_le_add_left hitems.2 1⟩

theorem kept_optional {β γ : Type} {depth : Nat} {decode : Json → Option β} {encode : γ → Json} {f : γ → β} {o : Option γ}
    (h : ∀ y ∈ o, Carries decode (encode y) (f y) ∧ Keeps α depth (encode y)) :
    ∀ v, o.map encode = some v → v.Written ∧ Keeps α depth v := by
  intro v hv
  obtain ⟨y, hy, rfl⟩ := Option.map_eq_some_iff.1 hv
  exact ⟨(h y hy).1.written, (h y hy).2⟩

/-- A list needs one level more than its items. -/
theorem keeps_list {γ : Type} {depth : Nat} {encode : γ → Json} {xs : List γ}
    (h : ∀ x ∈ xs, Keeps α depth (encode x)) : Keeps α (depth + 1) (.array (xs.map encode)) := by
  refine keeps_array fun v hv => ?_
  obtain ⟨x, hx, rfl⟩ := List.mem_map.1 hv
  exact h x hx

/-- An object needs one level more than its members. -/
theorem keeps_present {depth : Nat} {slots : List (String × Option Json)}
    (h : ∀ s ∈ slots, ∀ v, s.2 = some v → Keeps α depth v) : Keeps α (depth + 1) (ofMembers (present slots)) := by
  have hmembers : ∀ ms : List (String × Json), (∀ m ∈ ms, Keeps α depth m.2) →
      readable.readableMembers α (ms.map fun (k, v) => (escape k.toList, v)) = true ∧
        nesting.ofValues (ms.map fun (k, v) => (escape k.toList, v)) ≤ depth := by
    intro ms hms
    induction ms with
    | nil => exact ⟨rfl, Nat.zero_le _⟩
    | cons m ms ih =>
      obtain ⟨hm, hms⟩ := List.forall_mem_cons.1 hms
      obtain ⟨hr, hn⟩ := ih hms
      exact ⟨by simp [readable.readableMembers, unescape?_escape, hm.readable, hr], Nat.max_le.2 ⟨hm.nesting, hn⟩⟩
  obtain ⟨hr, hn⟩ := hmembers (present slots) fun m hm => h _ (mem_present.1 hm) _ rfl
  exact ⟨hr, Nat.add_comm depth 1 ▸ Nat.add_le_add_left hn 1⟩

end Kept

end Whisker.Json
