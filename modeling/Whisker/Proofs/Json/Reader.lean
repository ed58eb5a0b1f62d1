import Whisker.Json.Decode

/-!
# Reading what was written

Escaping a text and reading the body of the literal again gives the text. The body ends at the closing quote and nowhere
before it. Both are proved for one character with anything after it.

A value written with line breaks and blanks is read again as the same value, provided that the reader takes each of its
literals back whole. A number literal has no mark at its end: it ends where the text cannot continue it.
-/

namespace Whisker.Json

/-- The digits of a control character spell its number. -/
theorem hex?_control {n : Nat} (h : n < 32) : hex? ['0', '0', hexDigit (n / 16), hexDigit (n % 16)] = some n := by
  revert n
  decide

/-- How one character is written: as a short escape, by its number, or as it stands. -/
theorem escapeChar_cases (c : Char) :
    (∃ e, e ≠ 'u' ∧ shortEscape? e = some c ∧ escapeChar c = ['\\', e]) ∨
    (c.toNat < 32 ∧ escapeChar c = ['\\', 'u', '0', '0', hexDigit (c.toNat / 16), hexDigit (c.toNat % 16)]) ∨
    (32 ≤ c.toNat ∧ c ≠ '"' ∧ c ≠ '\\' ∧ escapeChar c = [c]) := by
  unfold escapeChar
  split
  · next h => exact .inl ⟨'"', by decide, by rw [h]; rfl, rfl⟩
  split
  · next h => exact .inl ⟨'\\', by decide, by rw [h]; rfl, rfl⟩
  split
  · next h => exact .inl ⟨'b', by decide, h ▸ rfl, rfl⟩
  split
  · next h => exact .inl ⟨'f', by decide, h ▸ rfl, rfl⟩
  split
  · next h => exact .inl ⟨'n', by decide, h ▸ rfl, rfl⟩
  split
  · next h => exact .inl ⟨'r', by decide, h ▸ rfl, rfl⟩
  split
  · next h => exact .inl ⟨'t', by decide, h ▸ rfl, rfl⟩
  split
  · next h => exact .inr (.inl ⟨h, rfl⟩)
  · next hquote hback _ _ _ _ _ h => exact .inr (.inr ⟨Nat.not_lt.1 h, hquote, hback, rfl⟩)

/-- An escaped character is read back, whatever stands behind it. -/
theorem unescapeAfter?_escapeChar (c : Char) (rest : List Char) :
    unescapeAfter? none (escapeChar c ++ rest) = (unescapeAfter? none rest).map (c :: ·) := by
  obtain ⟨e, he, hshort, h⟩ | ⟨hc, h⟩ | ⟨_, _, hback, h⟩ := escapeChar_cases c
  · rw [h, List.cons_append, List.singleton_append]
    cases hrest : unescapeAfter? none rest <;> simp [unescapeAfter?, he, hshort, hrest]
  · have hsmall : c.toNat < 0xD800 := by omega
    rw [h]
    cases hrest : unescapeAfter? none rest <;> simp [unescapeAfter?, hex?_control hc, hsmall, hrest]
  · rw [h, List.singleton_append]
    simp [unescapeAfter?, hback]

/-- An escaped text is read back. -/
theorem unescape?_escape (cs : List Char) : unescape? (escape cs) = some cs := by
  unfold unescape? escape
  induction cs with
  | nil => simp [unescapeAfter?]
  | cons c cs ih => rw [List.flatMap_cons, unescapeAfter?_escapeChar, ih, Option.map_some]

theorem text?_ofText (s : String) : (ofText s).text? = some s := by
  rw [ofText, text?, unescape?_escape, Option.map_some, String.ofList_toList]

/-- The end of a body is not found within an escaped character. -/
theorem stringBody?_escapeChar (c : Char) (rest : List Char) :
    stringBody? (escapeChar c ++ rest) = (stringBody? rest).map fun (body, rest) => (escapeChar c ++ body, rest) := by
  obtain ⟨e, he, hshort, h⟩ | ⟨hc, h⟩ | ⟨hlarge, hquote, hback, h⟩ := escapeChar_cases c
  · rw [h, List.cons_append, List.singleton_append]
    simp [stringBody?, he, hshort]
  · rw [h]
    simp [stringBody?, hex?_control hc]
  · rw [h, List.singleton_append]
    simp [stringBody?, hback, Nat.not_lt.2 hlarge]

/-- The body of an escaped text ends at the quote behind it. -/
theorem stringBody?_escape (cs rest : List Char) :
    stringBody? (escape cs ++ '"' :: rest) = some (escape cs, rest) := by
  unfold escape
  induction cs with
  | nil => simp [stringBody?]
  | cons c cs ih => rw [List.flatMap_cons, List.append_assoc, stringBody?_escapeChar, ih, Option.map_some]

/-- Nothing that would continue a number literal. -/
def Stops (tail : List Char) : Prop :=
  ∀ c, tail.head? = some c → isDigit c = false ∧ c ≠ '.' ∧ c ≠ 'e' ∧ c ≠ 'E'

theorem stops_nil : Stops [] := fun _ h => nomatch h

theorem stops_cons {c : Char} (hdigit : isDigit c = false) (hpoint : c ≠ '.') (he : c ≠ 'e') (hE : c ≠ 'E')
    (tail : List Char) : Stops (c :: tail) := by
  rintro _ ⟨⟩
  exact ⟨hdigit, hpoint, he, hE⟩

section Scanners

variable {cs x rest tail : List Char} (htail : Stops tail)

include htail

theorem takeWhile_append_stops (cs : List Char) : (cs ++ tail).takeWhile isDigit = cs.takeWhile isDigit := by
  induction cs with
  | nil =>
    cases tail with
    | nil => rfl
    | cons c tail => simp [(htail c rfl).1]
  | cons c cs ih => simp only [List.cons_append, List.takeWhile_cons, ih]

theorem digits?_append (h : digits? cs = some (x, rest)) : digits? (cs ++ tail) = some (x, rest ++ tail) := by
  simp only [digits?, takeWhile_append_stops htail] at h ⊢
  split at h
  · cases h
  · rename_i hne
    cases h
    rw [if_neg hne, List.drop_append_of_le_length (List.takeWhile_sublist _).length_le]

theorem whole?_append (h : whole? cs = some (x, rest)) : whole? (cs ++ tail) = some (x, rest ++ tail) := by
  unfold whole? at h ⊢
  obtain ⟨⟨ds, rest'⟩, hds, h⟩ := Option.bind_eq_some_iff.1 h
  rw [digits?_append htail hds]
  simp only [Option.bind_eq_bind, Option.bind_some] at h ⊢
  split at h
  · cases h
  · rename_i hzero
    cases h
    rw [if_neg hzero]

theorem fraction?_append (h : fraction? cs = some (x, rest)) : fraction? (cs ++ tail) = some (x, rest ++ tail) := by
  unfold fraction? at h
  split at h
  · obtain ⟨⟨ds, rest'⟩, hds, hx⟩ := Option.map_eq_some_iff.1 h
    cases hx
    simp [fraction?, digits?_append htail hds]
  · rename_i hpoint
    cases h
    unfold fraction?
    split
    · rename_i tail' htail'
      cases cs with
      | nil => exact absurd rfl (htail '.' (by rw [List.nil_append] at htail'; simp [htail'])).2.1
      | cons c cs =>
        cases htail'
        exact absurd rfl (hpoint _)
    · rfl

theorem exponent?_append (h : exponent? cs = some (x, rest)) : exponent? (cs ++ tail) = some (x, rest ++ tail) := by
  cases cs with
  | nil =>
    cases h
    cases tail with
    | nil => rfl
    | cons c tail =>
      obtain ⟨_, _, he, hE⟩ := htail c rfl
      simp [exponent?, he, hE]
  | cons c cs =>
    simp only [exponent?, List.cons_append] at h ⊢
    split at h
    · rename_i he
      rw [if_pos he]
      cases cs with
      | nil => cases h
      | cons s cs =>
        simp only [List.cons_append] at h ⊢
        split at h
        · rename_i hs
          obtain ⟨⟨ds, rest'⟩, hds, hx⟩ := Option.map_eq_some_iff.1 h
          cases hx
          rw [if_pos hs, digits?_append htail hds, Option.map_some]
        · rename_i hs
          obtain ⟨⟨ds, rest'⟩, hds, hx⟩ := Option.map_eq_some_iff.1 h
          cases hx
          rw [if_neg hs, ← List.cons_append, digits?_append htail hds, Option.map_some]
    · rename_i he
      cases h
      rw [if_neg he]
      rfl

theorem magnitude?_append (h : magnitude? cs = some (x, rest)) : magnitude? (cs ++ tail) = some (x, rest ++ tail) := by
  unfold magnitude? at h ⊢
  simp only [Option.bind_eq_bind, Option.bind_eq_some_iff, Prod.exists] at h ⊢
  obtain ⟨w, rest₁, hw, f, rest₂, hf, e, rest₃, he, hx⟩ := h
  cases hx
  exact ⟨w, _, whole?_append htail hw, f, _, fraction?_append htail hf, e, _, exponent?_append htail he, rfl⟩

/-- A number literal is taken in front of anything that does not continue it. -/
theorem numberLiteral?_append (h : numberLiteral? cs = some (x, rest)) :
    numberLiteral? (cs ++ tail) = some (x, rest ++ tail) := by
  unfold numberLiteral? at h
  split at h
  · obtain ⟨⟨m, rest'⟩, hm, hx⟩ := Option.map_eq_some_iff.1 h
    cases hx
    simp [numberLiteral?, magnitude?_append htail hm]
  · rename_i hsign
    have happend := magnitude?_append htail h
    unfold numberLiteral?
    split
    · rename_i tail' htail'
      cases cs with
      | nil => cases h
      | cons c cs =>
        cases htail'
        exact absurd rfl (hsign _)
    · exact happend

end Scanners

/-- A number literal starts with a minus sign or a digit. -/
theorem numberLiteral?_head {cs x rest : List Char} (h : numberLiteral? cs = some (x, rest)) :
    ∃ c tail, cs = c :: tail ∧ (c = '-' ∨ isDigit c = true) := by
  unfold numberLiteral? at h
  split at h
  · exact ⟨_, _, rfl, .inl rfl⟩
  · simp only [magnitude?, whole?, digits?, List.isEmpty_iff] at h
    cases cs with
    | nil => cases h
    | cons c cs =>
      cases hc : isDigit c with
      | true => exact ⟨c, cs, rfl, .inr hc⟩
      | false => simp [hc] at h

/-- A body that ends at the quote after it. -/
def IsBody (body : List Char) : Prop := ∀ rest, stringBody? (body ++ '"' :: rest) = some (body, rest)

/-- The reader takes every literal of the value back whole. -/
inductive Written : Json → Prop
  | null : Written .null
  | bool (b : Bool) : Written (.bool b)
  | number {literal : List Char} (h : numberLiteral? literal = some (literal, [])) : Written (.number literal)
  | string {body : List Char} (h : IsBody body) : Written (.string body)
  | array {items : List Json} (h : ∀ v ∈ items, Written v) : Written (.array items)
  | object {members : List (List Char × Json)} (hkeys : ∀ m ∈ members, IsBody m.1)
      (h : ∀ m ∈ members, Written m.2) : Written (.object members)

theorem skipBlanks_cons {c : Char} (h : isBlank c = false) (cs : List Char) : skipBlanks (c :: cs) = c :: cs := by
  simp [skipBlanks, h]

theorem skipBlanks_newline (level : Nat) (cs : List Char) : skipBlanks (newline level ++ cs) = skipBlanks cs := by
  have hblanks : ∀ n, skipBlanks (List.replicate n ' ' ++ cs) = skipBlanks cs := by
    intro n
    induction n with
    | zero => rfl
    | succ n ih => exact ih
  exact hblanks (2 * level)

/-- A reader of values sees no blanks in front; so it is with items and members. -/
theorem value?_skipBlanks (fuel : Nat) {cs ds : List Char} (h : skipBlanks cs = skipBlanks ds) :
    value? fuel cs = value? fuel ds := by
  cases fuel with
  | zero => simp only [value?]
  | succ fuel => simp only [value?, h]

theorem items?_skipBlanks (fuel : Nat) {cs ds : List Char} (h : skipBlanks cs = skipBlanks ds) :
    items? fuel cs = items? fuel ds := by
  cases fuel with
  | zero => simp only [items?]
  | succ fuel => simp only [items?, value?_skipBlanks fuel h]

theorem members?_skipBlanks (fuel : Nat) {cs ds : List Char} (h : skipBlanks cs = skipBlanks ds) :
    members? fuel cs = members? fuel ds := by
  cases fuel with
  | zero => simp only [members?]
  | succ fuel => simp only [members?, h]

/-- The first character of a number is told from all others that a value may start with. -/
theorem numberLiteral?_start {cs x rest : List Char} (h : numberLiteral? cs = some (x, rest)) :
    ∃ c tail, cs = c :: tail ∧ isBlank c = false ∧ c ∉ ['"', '[', '\x7b', ']', 'n', 't', 'f'] := by
  obtain ⟨c, tail, rfl, hc⟩ := numberLiteral?_head h
  refine ⟨c, tail, rfl, ?_⟩
  rcases hc with rfl | hc
  · decide
  · constructor
    · cases hblank : isBlank c with
      | false => rfl
      | true =>
        simp only [isBlank, Bool.or_eq_true, decide_eq_true_eq] at hblank
        rcases hblank with ((rfl | rfl) | rfl) | rfl <;> revert hc <;> decide
    · intro hmem
      simp only [List.mem_cons, List.not_mem_nil, or_false] at hmem
      rcases hmem with rfl | rfl | rfl | rfl | rfl | rfl | rfl <;> revert hc <;> decide

/-- A number literal is read as a value. -/
theorem value?_number {fuel : Nat} {cs x rest : List Char} (h : numberLiteral? cs = some (x, rest)) :
    value? (fuel + 1) cs = some (.number x, rest) := by
  obtain ⟨c, tail, rfl, hblank, hc⟩ := numberLiteral?_start h
  simp only [List.mem_cons, not_or] at hc
  rw [value?, skipBlanks_cons hblank]
  split <;> simp_all

/-- The first character of a written value is no blank and closes nothing. -/
theorem Written.head {v : Json} (h : Written v) (level : Nat) :
    ∃ c cs, v.pretty level = c :: cs ∧ isBlank c = false ∧ c ≠ ']' := by
  cases h with
  | null => exact ⟨_, _, rfl, by decide⟩
  | bool b => cases b <;> exact ⟨_, _, rfl, by decide⟩
  | number h =>
    obtain ⟨c, cs, rfl, hblank, hc⟩ := numberLiteral?_start h
    exact ⟨c, cs, rfl, hblank, by rintro rfl; exact hc (by decide)⟩
  | string _ => exact ⟨_, _, rfl, by decide⟩
  | @array items _ => cases items <;> exact ⟨_, _, rfl, by decide⟩
  | @object members _ _ => 
    cases members with
    | nil => exact ⟨_, _, rfl, by decide⟩
    | cons m ms => exact ⟨_, _, rfl, by decide⟩

/-- The value is read from its text, whatever follows it. -/
def Reads (level : Nat) (v : Json) : Prop :=
  ∀ fuel tail, Stops tail → (v.pretty level).length ≤ fuel → value? fuel (v.pretty level ++ tail) = some (v, tail)

theorem stops_prettyItems (level : Nat) (vs : List Json) (tail : List Char) : Stops (prettyItems level vs ++ tail) := by
  cases vs <;> exact stops_cons (by decide) (by decide) (by decide) (by decide) _

theorem stops_prettyMembers (level : Nat) (ms : List (List Char × Json)) (tail : List Char) :
    Stops (prettyMembers level ms ++ tail) := by
  cases ms <;> exact stops_cons (by decide) (by decide) (by decide) (by decide) _

/-- Written items are read back, provided that each of them is. -/
theorem items?_pretty {level : Nat} {v : Json} {vs : List Json} (h : ∀ w ∈ v :: vs, Reads (level + 1) w) {fuel : Nat}
    {tail : List Char} (hfuel : (v.pretty (level + 1) ++ prettyItems level vs).length ≤ fuel) :
    items? fuel (v.pretty (level + 1) ++ prettyItems level vs ++ tail) = some (v :: vs, tail) := by
  induction vs generalizing v fuel with
  | nil =>
    have hv := h v List.mem_cons_self
    simp only [prettyItems, newline, List.length_append, List.length_cons] at hfuel
    obtain ⟨fuel, rfl⟩ : ∃ n, fuel = n + 1 := ⟨fuel - 1, by omega⟩
    have hread := hv fuel (prettyItems level [] ++ tail) (stops_prettyItems level [] tail) (by omega)
    rw [items?, List.append_assoc, hread]
    simp only [prettyItems, Option.bind_eq_bind, Option.bind_some]
    rw [List.append_assoc, skipBlanks_newline, List.singleton_append, skipBlanks_cons (by decide)]
    rfl
  | cons w vs ih =>
    have hv := h v List.mem_cons_self
    simp only [prettyItems, newline, List.length_append, List.length_cons] at hfuel
    obtain ⟨fuel, rfl⟩ : ∃ n, fuel = n + 1 := ⟨fuel - 1, by omega⟩
    have hread := hv fuel (prettyItems level (w :: vs) ++ tail) (stops_prettyItems level (w :: vs) tail) (by omega)
    have hrest : items? fuel (w.pretty (level + 1) ++ prettyItems level vs ++ tail) = some (w :: vs, tail) :=
      ih (fun u hu => h u (List.mem_cons_of_mem _ hu)) (by simp only [List.length_append]; omega)
    have hskip : skipBlanks (newline (level + 1) ++ w.pretty (level + 1) ++ prettyItems level vs ++ tail) =
        skipBlanks (w.pretty (level + 1) ++ prettyItems level vs ++ tail) := by
      simp only [List.append_assoc, skipBlanks_newline]
    rw [items?, List.append_assoc, hread]
    simp only [prettyItems, Option.bind_eq_bind, Option.bind_some, List.cons_append]
    rw [skipBlanks_cons (by decide)]
    change (items? fuel _).map _ = _
    rw [items?_skipBlanks fuel hskip, hrest, Option.map_some]

/-- One member is read, and what stands after it decides how to go on. -/
theorem members?_member {level : Nat} {k : List Char} {v : Json} (hkey : IsBody k) (h : Reads level v) {fuel : Nat}
    {tail : List Char} (htail : Stops tail) (hfuel : (v.pretty level).length ≤ fuel) :
    members? (fuel + 1) (quoted k ++ ':' :: ' ' :: v.pretty level ++ tail) =
      match skipBlanks tail with
      | '\x7d' :: rest => some ([(k, v)], rest)
      | ',' :: rest => (members? fuel rest).map fun (ms, rest) => ((k, v) :: ms, rest)
      | _ => none := by
  have hread := h fuel tail htail hfuel
  have hskip : skipBlanks (' ' :: v.pretty level ++ tail) = skipBlanks (v.pretty level ++ tail) := rfl
  simp only [quoted, List.cons_append, List.append_assoc, List.nil_append] at hskip ⊢
  rw [members?, skipBlanks_cons (by decide)]
  simp only [hkey _, Option.bind_eq_bind, Option.bind_some]
  rw [skipBlanks_cons (by decide)]
  simp only [value?_skipBlanks fuel hskip, hread]
  rfl

theorem members?_pretty {level : Nat} {k : List Char} {v : Json} {ms : List (List Char × Json)}
    (hkeys : ∀ m ∈ (k, v) :: ms, IsBody m.1) (h : ∀ m ∈ (k, v) :: ms, Reads (level + 1) m.2) {fuel : Nat}
    {tail : List Char} (hfuel : (v.pretty (level + 1) ++ prettyMembers level ms).length ≤ fuel) :
    members? fuel (quoted k ++ ':' :: ' ' :: v.pretty (level + 1) ++ (prettyMembers level ms ++ tail)) =
      some ((k, v) :: ms, tail) := by
  induction ms generalizing k v fuel with
  | nil =>
    have hkey : IsBody k := hkeys _ List.mem_cons_self
    have hv : Reads (level + 1) v := h _ List.mem_cons_self
    simp only [prettyMembers, newline, List.length_append, List.length_cons] at hfuel
    obtain ⟨fuel, rfl⟩ : ∃ n, fuel = n + 1 := ⟨fuel - 1, by omega⟩
    rw [members?_member hkey hv (stops_prettyMembers level [] tail) (by omega), prettyMembers, List.append_assoc,
      skipBlanks_newline, List.singleton_append, skipBlanks_cons (by decide)]
    rfl
  | cons m ms ih =>
    obtain ⟨k', w⟩ := m
    have hkey : IsBody k := hkeys _ List.mem_cons_self
    have hv : Reads (level + 1) v := h _ List.mem_cons_self
    simp only [prettyMembers, newline, List.length_append, List.length_cons] at hfuel
    obtain ⟨fuel, rfl⟩ : ∃ n, fuel = n + 1 := ⟨fuel - 1, by omega⟩
    have hrest : members? fuel (quoted k' ++ ':' :: ' ' :: w.pretty (level + 1) ++ (prettyMembers level ms ++ tail)) =
        some ((k', w) :: ms, tail) :=
      ih (fun m hm => hkeys m (List.mem_cons_of_mem _ hm)) (fun m hm => h m (List.mem_cons_of_mem _ hm))
        (by simp only [List.length_append]; omega)
    have hskip : skipBlanks (newline (level + 1) ++ quoted k' ++ ':' :: ' ' :: w.pretty (level + 1) ++
        prettyMembers level ms ++ tail) =
        skipBlanks (quoted k' ++ ':' :: ' ' :: w.pretty (level + 1) ++ (prettyMembers level ms ++ tail)) := by
      simp only [List.append_assoc, skipBlanks_newline]
    rw [members?_member hkey hv (stops_prettyMembers level _ tail) (by omega), prettyMembers]
    simp only [List.cons_append]
    rw [skipBlanks_cons (by decide)]
    change (members? fuel _).map _ = _
    rw [members?_skipBlanks fuel hskip, hrest, Option.map_some]

/-- A written value has characters, so its reader has fuel for them. -/
theorem Written.reads_of_succ {level : Nat} {v : Json} (h : Written v)
    (hreads : ∀ fuel tail, Stops tail → (v.pretty level).length ≤ fuel + 1 →
      value? (fuel + 1) (v.pretty level ++ tail) = some (v, tail)) : Reads level v := by
  intro fuel tail htail hfuel
  obtain ⟨c, cs, hc, _⟩ := h.head level
  obtain ⟨fuel, rfl⟩ : ∃ n, fuel = n + 1 := ⟨fuel - 1, by rw [hc, List.length_cons] at hfuel; omega⟩
  exact hreads fuel tail htail hfuel

theorem reads_string {body : List Char} (h : IsBody body) (level : Nat) : Reads level (.string body) := by
  refine (Written.string h).reads_of_succ fun fuel tail _ _ => ?_
  simp only [pretty, quoted, List.cons_append, List.append_assoc, value?]
  rw [skipBlanks_cons (by decide)]
  simp [h tail]

/-- An array is read back if its items are, one level deeper. -/
theorem reads_array {level : Nat} {items : List Json} (hwritten : ∀ v ∈ items, Written v)
    (h : ∀ v ∈ items, Reads (level + 1) v) : Reads level (.array items) := by
  refine (Written.array hwritten).reads_of_succ fun fuel tail _ hfuel => ?_
  cases items with
  | nil => rfl
  | cons v vs =>
    simp only [pretty, newline, List.length_append, List.length_cons] at hfuel
    have hitems : items? fuel (v.pretty (level + 1) ++ prettyItems level vs ++ tail) = some (v :: vs, tail) :=
      items?_pretty h (by simp only [List.length_append]; omega)
    obtain ⟨c, cs, hc, hblank, hclose⟩ := (hwritten v List.mem_cons_self).head (level + 1)
    simp only [pretty, List.cons_append, value?]
    rw [skipBlanks_cons (by decide)]
    simp only [List.append_assoc, skipBlanks_newline]
    rw [List.append_assoc] at hitems
    rw [hc] at hitems ⊢
    simp only [List.cons_append] at hitems ⊢
    rw [skipBlanks_cons hblank]
    simp [hclose, hitems]

theorem reads_object {level : Nat} {members : List (List Char × Json)} (hkeys : ∀ m ∈ members, IsBody m.1)
    (hwritten : ∀ m ∈ members, Written m.2) (h : ∀ m ∈ members, Reads (level + 1) m.2) :
    Reads level (.object members) := by
  refine (Written.object hkeys hwritten).reads_of_succ fun fuel tail _ hfuel => ?_
  cases members with
  | nil => rfl
  | cons m ms =>
    obtain ⟨k, v⟩ := m
    simp only [pretty, newline, List.length_append, List.length_cons] at hfuel
    have hmembers : members? fuel (quoted k ++ ':' :: ' ' :: v.pretty (level + 1) ++ (prettyMembers level ms ++ tail)) =
        some ((k, v) :: ms, tail) :=
      members?_pretty hkeys h (by simp only [List.length_append]; omega)
    simp only [pretty, List.cons_append, value?]
    rw [skipBlanks_cons (by decide)]
    simp only [List.append_assoc, skipBlanks_newline]
    simp only [quoted, List.cons_append, List.append_assoc, List.nil_append] at hmembers ⊢
    rw [skipBlanks_cons (by decide)]
    simp [hmembers]

/-- Every value whose literals are read back whole is read back; by induction on the value. -/
theorem Written.reads {v : Json} (h : Written v) (level : Nat) : Reads level v := by
  induction h generalizing level with
  | null => exact Written.null.reads_of_succ fun _ _ _ _ => rfl
  | bool b => exact (Written.bool b).reads_of_succ fun _ _ _ _ => by cases b <;> rfl
  | number h =>
    exact (Written.number h).reads_of_succ fun _ _ htail _ => value?_number (numberLiteral?_append htail h)
  | string h => exact reads_string h level
  | array h ih => exact reads_array h fun v hv => ih v hv (level + 1)
  | object hkeys h ih => exact reads_object hkeys h fun m hm => ih m hm (level + 1)

/-- A written value is read back from its text. -/
theorem parse?_toPretty {v : Json} (h : Written v) : parse? v.toPretty = some v := by
  have hread := h.reads 0 ((v.pretty 0).length + 1) [] stops_nil (by omega)
  rw [List.append_nil] at hread
  unfold parse? toPretty
  rw [String.toList_ofList]
  simp only [hread, Option.bind_eq_bind, Option.bind_some]
  rfl

end Whisker.Json
