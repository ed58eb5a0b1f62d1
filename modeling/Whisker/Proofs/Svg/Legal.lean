import Whisker.Proofs.Svg.Document

/-!
# Characters that a reader refuses

A reader of markup refuses some characters however they are written: most control characters and the two noncharacters
at the end of the first plane. Tags have none of them, and escaping passes them on. So those in a document are those of
its labels, in order, and a document is free of them exactly if its labels are.
-/

namespace Whisker.Svg

open Markup (IsPlain IsSound)

/-- The characters of markup in version 1.0; surrogates are no characters here. -/
def isLegal (c : Char) : Bool :=
  let n := c.toNat
  n = 0x9 || n = 0xA || n = 0xD || (0x20 ≤ n && n ≠ 0xFFFE && n ≠ 0xFFFF)

def illegal (cs : List Char) : List Char := cs.filter (!isLegal ·)

theorem illegal_eq_nil {cs : List Char} : illegal cs = [] ↔ ∀ c ∈ cs, isLegal c = true := by
  simp [illegal]

@[simp] theorem illegal_cons (c : Char) (cs : List Char) :
    illegal (c :: cs) = if isLegal c then illegal cs else c :: illegal cs := by
  cases h : isLegal c <;> simp [illegal, h]

@[simp] theorem illegal_append (cs ds : List Char) : illegal (cs ++ ds) = illegal cs ++ illegal ds := List.filter_append ..

theorem illegal_flatMap {β : Type} (xs : List β) (f : β → List Char) :
    illegal (xs.flatMap f) = xs.flatMap fun x => illegal (f x) := by
  induction xs with
  | nil => rfl
  | cons x xs ih => rw [List.flatMap_cons, illegal_append, ih, List.flatMap_cons]

theorem isLegal_of_isPlain {c : Char} (h : Markup.isPlain c = true) : isLegal c = true := by
  simp only [Markup.isPlain, Bool.and_eq_true, decide_eq_true_eq, Char.le_def, UInt32.le_iff_toNat_le] at h
  have hlow : 0x20 ≤ c.toNat := h.1.1.1.1.1
  have hhigh : c.toNat ≤ 0x7E := h.1.1.1.1.2
  simp only [isLegal, Bool.or_eq_true, Bool.and_eq_true, decide_eq_true_eq]
  omega

theorem illegal_of_isPlain {s : String} (h : IsPlain s) : illegal s.toList = [] :=
  illegal_eq_nil.2 fun c hc => isLegal_of_isPlain (h c hc)

theorem illegal_tag {tag : Tag} (h : IsSound tag) : illegal tag.render.toList = [] := by
  have hattributes : tag.attributes.flatMap (fun a => illegal (Markup.quoted a)) = [] := by
    refine List.flatMap_eq_nil_iff.2 fun a ha => ?_
    obtain ⟨hkey, hvalue⟩ := h.attributes a ha
    simp +decide [Markup.quoted, Markup.keyed, illegal_of_isPlain (Markup.isPlain_name hkey), illegal_of_isPlain hvalue]
  rw [Markup.toList_render, illegal_append, illegal_of_isPlain (Markup.isPlain_name h.name), illegal_flatMap, hattributes]
  rfl

/-- Escaping changes legal characters only, and writes legal ones for them. -/
theorem illegal_escape (cs : List Char) : illegal (cs.flatMap escapeChar) = illegal cs := by
  have hchar (c : Char) : illegal (escapeChar c) = illegal [c] := by
    unfold escapeChar
    split
    case h_5 => rfl
    all_goals decide
  induction cs with
  | nil => rfl
  | cons c cs ih => rw [List.flatMap_cons, illegal_append, hchar, ih, ← illegal_append, List.singleton_append]

theorem illegal_bare {tag : Tag} (h : IsSound tag) : illegal (Leaf.bare tag).render.toList = [] := by
  simp +decide [Leaf.render, illegal_tag h]

/-- A leaf with a text has the illegal characters of the text. -/
theorem illegal_text {tag : Tag} (h : IsSound tag) (content : String) :
    illegal (Leaf.text tag content).render.toList = illegal content.toList := by
  simp +decide [Leaf.render, escape, illegal_tag h, illegal_of_isPlain (Markup.isPlain_name h.name), illegal_escape]

def illegalIn (texts : List String) : List Char := texts.flatMap fun t => illegal t.toList

theorem illegalIn_append (ts us : List String) : illegalIn (ts ++ us) = illegalIn ts ++ illegalIn us := List.flatMap_append

theorem illegalIn_flatMap {β : Type} (xs : List β) (f : β → List String) :
    illegalIn (xs.flatMap f) = xs.flatMap fun x => illegalIn (f x) := List.flatMap_assoc

theorem illegalIn_map {β : Type} (xs : List β) (f : β → String) :
    illegalIn (xs.map f) = xs.flatMap fun x => illegal (f x).toList := List.flatMap_map ..

/-- Nesting adds no illegal character. -/
theorem illegal_nestText {tag : Tag} (h : IsSound tag) {inner outer : String} (hinner : illegal inner.toList = [])
    (houter : illegal outer.toList = []) (texts : List String) :
    illegal (nestText tag inner outer texts).toList = illegalIn texts := by
  have hlines : illegal (String.join (texts.map fun t => inner ++ t ++ "\n")).toList = illegalIn texts := by
    rw [String.toList_join, List.flatMap_map, illegal_flatMap, illegalIn]
    apply List.flatMap_congr
    intro t _
    simp +decide [hinner]
  rw [nestText]
  simp +decide [illegal_tag h, illegal_of_isPlain (Markup.isPlain_name h.name), houter, hlines, -String.toList_join]

/-- The illegal characters of a leaf stand in its texts. -/
theorem illegal_leaf {s : Shape Float} {l : Leaf} (h : ofShape? s = some l) :
    illegal l.render.toList = illegalIn l.texts := by
  have hsound := isSound_ofShape? h
  obtain ⟨tag, rfl, -⟩ | ⟨t, -, rfl⟩ := ofShape?_cases h
  · rw [texts_bare]
    exact illegal_bare hsound
  · rw [texts_ofLabel]
    exact (illegal_text hsound t.text).trans (List.append_nil _).symm

/-- The illegal characters of a layer stand in its labels. -/
theorem illegal_ofLayer (l : Layer Float) :
    illegal (ofLayer l).text.toList = illegalIn (l.labels.map Label.text) := by
  have htexts : (ofLayer l).leaves.flatMap Leaf.texts = l.labels.map Label.text := by
    rw [ofLayer, texts_leaves, shapeText_shapes]
  have hsound : IsSound (ofLayer l).tag := isSound_group l.kind
  rw [Group.text, illegal_nestText hsound (by decide) (by decide), ← htexts, illegalIn_flatMap, illegalIn_map]
  apply List.flatMap_congr
  intro leaf hleaf
  obtain ⟨s, -, hs⟩ := List.mem_filterMap.1 hleaf
  exact illegal_leaf hs

/-- The background has no illegal character. -/
theorem illegal_background (background : Option (Color Float)) (f : Frame Float) :
    illegalIn ((ofFrame background f).background.toList.map Leaf.render) = [] := by
  rw [illegalIn_map, List.flatMap_eq_nil_iff]
  intro l hl
  have hsound := isSound_background hl
  obtain ⟨c, -, rfl⟩ := Option.map_eq_some_iff.1 (Option.mem_toList.1 hl)
  exact illegal_bare hsound

/-- A document has the illegal characters of its labels. -/
theorem illegal_ofFrame (background : Option (Color Float)) (f : Frame Float) :
    illegal (ofFrame background f).render.toList = illegalIn (f.labels.map Label.text) := by
  have hgroups : illegalIn ((ofFrame background f).groups.map Group.text) = illegalIn (f.labels.map Label.text) := by
    have hlabels : (f.layers.filter (!·.isEmpty)).flatMap (fun l => l.labels.map Label.text) = f.labels.map Label.text :=
      flatMap_labels f.layers
    rw [← hlabels, illegalIn_flatMap, illegalIn_map, ofFrame, List.flatMap_map]
    exact List.flatMap_congr fun l _ => illegal_ofLayer l
  rw [Document.render_eq, String.toList_append, illegal_append, illegal_nestText (isSound_root _) (by decide) (by decide),
    Document.texts, illegalIn_append, illegal_background, hgroups, List.nil_append]
  exact List.append_nil _

/-- A valid frame is rendered as its document, whatever was rendered before. -/
theorem render_svg (background : Option (Color Float)) (previous : String) {f : Frame Float} (hf : f.validate = .ok ()) :
    Renderer.render (.svg background previous) f = .ok (.svg background (ofFrame background f).render) := by
  rw [Renderer.render, hf]
  rfl

/-- Whatever valid frame is rendered, the characters that a reader refuses are those of the labels, in order: the rest of
the document has none, and escaping neither drops nor replaces them. So the document is legal exactly if the labels are. -/
theorem rendered_frame_legal_iff (background : Option (Color Float)) (previous : String) {f : Frame Float}
    (hf : f.validate = .ok ()) :
    ∃ text, Renderer.render (.svg background previous) f = .ok (.svg background text) ∧
      text.toList.filter (!isLegal ·) = f.labels.flatMap (fun l => l.text.toList.filter (!isLegal ·)) ∧
      ((∀ c ∈ text.toList, isLegal c = true) ↔ ∀ l ∈ f.labels, ∀ c ∈ l.text.toList, isLegal c = true) := by
  have hillegal := illegal_ofFrame background f
  rw [illegalIn, List.flatMap_map] at hillegal
  refine ⟨(ofFrame background f).render, render_svg background previous hf, hillegal, ?_⟩
  simp only [← illegal_eq_nil, hillegal, List.flatMap_eq_nil_iff]

def note : Frame Float := ⟨⟨120, 80⟩, [.empty .grid, { Layer.empty .axis with
  labels := [⟨"a < \u00e9\u4e2d\n", 10, 20, 12, .black, .center, 1⟩] }]⟩

theorem note_is_legal : note.validate = .ok () ∧
    ∃ text, Renderer.render (.svg (some .white) "") note = .ok (.svg (some .white) text) ∧
      ∀ c ∈ text.toList, isLegal c = true := by
  have hvalid : note.validate = .ok () := by decide
  obtain ⟨text, hrender, -, hlegal⟩ := rendered_frame_legal_iff (some .white) "" hvalid
  have hlabel : ∀ c ∈ "a < \u00e9\u4e2d\n".toList, isLegal c = true := by
    rw [← illegal_eq_nil]
    rfl
  exact ⟨hvalid, text, hrender, hlegal.2 (List.forall_mem_singleton.2 hlabel)⟩

def bell : Frame Float := ⟨⟨120, 80⟩, [{ Layer.empty .axis with
  labels := [⟨"a\u0001b", 10, 20, 12, .black, .left, 0⟩] }]⟩

theorem control_character_is_written : bell.validate = .ok () ∧
    ∃ text, Renderer.render (.svg none "") bell = .ok (.svg none text) ∧ ∃ c ∈ text.toList, isLegal c = false := by
  have hvalid : bell.validate = .ok () := by decide
  have hillegal : illegal (ofFrame none bell).render.toList = ['\u0001'] := by
    rw [illegal_ofFrame]
    decide
  have hmem : '\u0001' ∈ illegal (ofFrame none bell).render.toList := hillegal ▸ List.mem_cons_self
  exact ⟨hvalid, (ofFrame none bell).render, render_svg none "" hvalid, '\u0001', (List.mem_filter.1 hmem).1, by decide⟩

end Whisker.Svg
