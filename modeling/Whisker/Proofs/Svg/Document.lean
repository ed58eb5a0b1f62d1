import Whisker.Proofs.Svg.Values

/-!
# Documents read back

A document is the text of a tree: its root with the background and the groups, each group with its elements, every one
of them on a line of its own. So what a reader of markup finds in the rendering of a frame is that tree, and the texts
in it are the frame's labels in order, whatever characters these have.
-/

namespace Whisker.Svg

open Markup (Node Piece IsSound)

/-- An element, given the data behind it. -/
def Leaf.node : Leaf → String → Node
  | .bare tag, after => .bare tag after
  | .text tag content, after => .element tag content [] after

def lineEnd (inner outer : String) (lines : List (String → Node)) : String := "\n" ++ if lines.isEmpty then outer else inner

def block (inner outer : String) : List (String → Node) → List Node
  | [] => []
  | n :: ns => n (lineEnd inner outer ns) :: block inner outer ns

def nest (tag : Tag) (inner outer : String) (children : List (String → Node)) (after : String) : Node :=
  .element tag (lineEnd inner outer children) (block inner outer children) after

def Group.tag (g : Group) : Tag := ⟨"g", [("data-layer", g.layer)]⟩

def Group.node (g : Group) : String → Node := nest g.tag "    " "  " (g.leaves.map Leaf.node)

def Document.lines (d : Document) : List (String → Node) := d.background.toList.map Leaf.node ++ d.groups.map Group.node

def Document.node (d : Document) : Node := nest d.root "  " "" d.lines "\n"

/-- A node is written as a text and the data behind it. -/
def Prints (n : String → Node) (text : String) : Prop :=
  ∀ after, Markup.write [n after] = text.toList ++ after.toList.flatMap escapeChar

theorem write_cons (n : Node) (ns : List Node) : Markup.write (n :: ns) = Markup.write [n] ++ Markup.write ns := by
  simp [Markup.write]

/-- An element is written as its tag, its lead, its children and the end of its tag. -/
theorem write_element (tag : Tag) (lead : String) (children : List Node) (after : String) :
    Markup.write [.element tag lead children after] =
      '<' :: (tag.render.toList ++ '>' :: (lead.toList.flatMap escapeChar ++ (Markup.write children ++
        '<' :: '/' :: (tag.name.toList ++ '>' :: after.toList.flatMap escapeChar)))) := by
  simp [Markup.write, Node.pieces, Piece.write, Piece.body, Markup.Mark.write]

theorem prints_leaf (l : Leaf) : Prints l.node l.render := by
  intro after
  cases l with
  | bare tag => simp [Leaf.node, Leaf.render, Markup.write, Node.pieces, Piece.write, Piece.body, Markup.Mark.write]
  | text tag content =>
    rw [Leaf.node, write_element]
    simp [Leaf.render, escape, Markup.write]

def nestText (tag : Tag) (inner outer : String) (texts : List String) : String :=
  "<" ++ tag.render ++ ">\n" ++ String.join (texts.map fun t => inner ++ t ++ "\n") ++ outer ++ "</" ++ tag.name ++ ">"

section Nesting

variable {inner outer : String} (hinner : inner.toList.flatMap escapeChar = inner.toList)
  (houter : outer.toList.flatMap escapeChar = outer.toList) {ns : List (String → Node)} {texts : List String}
  (h : List.Forall₂ Prints ns texts)

include hinner houter h

/-- The lines of a block, each after its indentation. -/
theorem write_block :
    (lineEnd inner outer ns).toList.flatMap escapeChar ++ Markup.write (block inner outer ns) =
      '\n' :: ((String.join (texts.map fun t => inner ++ t ++ "\n")).toList ++ outer.toList) := by
  have hnewline : escapeChar '\n' = ['\n'] := rfl
  induction h with
  | nil => simp [lineEnd, block, Markup.write, houter, hnewline]
  | @cons n text ns texts hn _ ih =>
    have hline : (lineEnd inner outer (n :: ns)).toList.flatMap escapeChar = '\n' :: inner.toList := by
      simp [lineEnd, hinner, hnewline]
    rw [hline, block, write_cons, hn, List.append_assoc, ih]
    simp

theorem prints_nest (tag : Tag) : Prints (nest tag inner outer ns) (nestText tag inner outer texts) := by
  intro after
  rw [nest, write_element, ← List.append_assoc (List.flatMap _ _), write_block hinner houter h]
  simp [nestText]

end Nesting

theorem prints_map {β : Type} {line : β → String → Node} {text : β → String} (h : ∀ x, Prints (line x) (text x))
    (xs : List β) : List.Forall₂ Prints (xs.map line) (xs.map text) :=
  List.forall₂_map_left_iff.2 (List.forall₂_map_right_iff.2 (List.forall₂_same.2 fun x _ => h x))

def Group.text (g : Group) : String := nestText g.tag "    " "  " (g.leaves.map Leaf.render)

theorem Group.render_eq (g : Group) : g.render = "  " ++ g.text ++ "\n" := by
  have hopen : "  <g data-layer=\"" = "  " ++ ("<" ++ ("g" ++ (" " ++ ("data-layer" ++ "=\"")))) := by decide
  have hstart : "\">\n" = "\"" ++ ">\n" := by decide
  have hstop : "  </g>\n" = "  " ++ ("</" ++ ("g" ++ (">" ++ "\n"))) := by decide
  unfold Group.render Group.text nestText
  simp only [Group.tag, Tag.render, List.map_map, List.map_cons, List.map_nil, String.join_cons, String.join_nil,
    String.append_empty, hopen, hstart, hstop, String.append_assoc]
  rfl

theorem prints_group (g : Group) : Prints g.node g.text :=
  prints_nest (by decide) (by decide) (prints_map prints_leaf g.leaves) g.tag

def Document.texts (d : Document) : List String := d.background.toList.map Leaf.render ++ d.groups.map Group.text

theorem Document.render_eq (d : Document) : d.render = nestText d.root "  " "" d.texts ++ "\n" := by
  have hgroups : d.groups.map Group.render = (d.groups.map Group.text).map fun t => "  " ++ t ++ "\n" := by
    rw [List.map_map]
    exact List.map_congr_left fun g _ => g.render_eq
  have hbackground : (d.background.map fun l => "  " ++ l.render ++ "\n").getD "" =
      String.join ((d.background.toList.map Leaf.render).map fun t => "  " ++ t ++ "\n") := by
    cases d.background with
    | none => rfl
    | some l => simp
  have hstop : "</svg>\n" = "</" ++ ("svg" ++ (">" ++ "\n")) := by decide
  have hname : d.root.name = "svg" := rfl
  unfold Document.render nestText Document.texts
  rw [hgroups, hbackground, List.map_append, String.join_append, hname, hstop]
  simp only [String.append_assoc, String.append_empty]

/-- A document is the text of its tree. -/
theorem Document.toList_render (d : Document) : d.render.toList = Markup.write [d.node] := by
  have hlines : List.Forall₂ Prints d.lines d.texts :=
    List.rel_append (prints_map prints_leaf _) (prints_map prints_group _)
  rw [Document.node, prints_nest (by decide) (by decide) hlines, Document.render_eq, String.toList_append]
  rfl

def isBlank (s : String) : Bool := s.toList.all Char.isWhitespace

/-- An empty element, or an element with text and nothing else in it. -/
inductive IsLeaf : Node → Prop
  | bare (tag : Tag) {after : String} (hafter : isBlank after = true) : IsLeaf (.bare tag after)
  | text (attributes : List (String × String)) (content : String) {after : String} (hafter : isBlank after = true) :
    IsLeaf (.element ⟨"text", attributes⟩ content [] after)

inductive IsGroup (kind : LayerKind) : Node → Prop
  | mk {lead after : String} {leaves : List Node} (hlead : isBlank lead = true) (hleaves : ∀ n ∈ leaves, IsLeaf n)
    (hafter : isBlank after = true) : IsGroup kind (.element ⟨"g", [("data-layer", kind.name)]⟩ lead leaves after)

inductive IsBackdrop : Node → Prop
  | mk (attributes : List (String × String)) {after : String} (hafter : isBlank after = true) :
    IsBackdrop (.bare ⟨"rect", attributes⟩ after)

/-- One root, in it a backdrop if there is a background, and then a group for each layer that is not empty. -/
inductive IsDrawing {α : Type} (background : Option (Color α)) (f : Frame α) : List Node → Prop
  | mk {attributes : List (String × String)} {lead after : String} {backdrop groups : List Node} (hlead : isBlank lead = true)
    (hbackdrop : List.Forall₂ (fun _ n => IsBackdrop n) background.toList backdrop)
    (hgroups : List.Forall₂ (fun l n => IsGroup l.kind n) (f.layers.filter (!·.isEmpty)) groups) (hafter : isBlank after = true) :
    IsDrawing background f [.element ⟨"svg", attributes⟩ lead (backdrop ++ groups) after]

theorem isBlank_lineEnd {inner outer : String} (hinner : isBlank inner = true) (houter : isBlank outer = true)
    (lines : List (String → Node)) : isBlank (lineEnd inner outer lines) = true := by
  unfold isBlank lineEnd
  rw [String.toList_append, List.all_append]
  split
  · exact Bool.and_eq_true_iff.2 ⟨by decide, houter⟩
  · exact Bool.and_eq_true_iff.2 ⟨by decide, hinner⟩

/-- Lines of two blocks in a row make one block. -/
theorem block_append (inner outer : String) (ns ms : List (String → Node)) :
    block inner outer (ns ++ ms) = block inner (if ms.isEmpty then outer else inner) ns ++ block inner outer ms := by
  induction ns with
  | nil => rfl
  | cons n ns ih =>
    have hend : lineEnd inner outer (ns ++ ms) = lineEnd inner (if ms.isEmpty then outer else inner) ns := by
      cases ns <;> rfl
    rw [List.cons_append, block, hend, ih]
    rfl

section Blocks

variable {β γ : Type} {inner outer : String} {xs : List β} {line : β → String → Node}

/-- What holds of lines, whatever blank is behind them, holds of the nodes of their block. -/
theorem forall₂_block {R : β → Node → Prop} (hinner : isBlank inner = true) (houter : isBlank outer = true)
    (h : ∀ x ∈ xs, ∀ after, isBlank after = true → R x (line x after)) :
    List.Forall₂ R xs (block inner outer (xs.map line)) := by
  induction xs with
  | nil => exact .nil
  | cons x xs ih =>
    obtain ⟨hx, hxs⟩ := List.forall_mem_cons.1 h
    exact .cons (hx _ (isBlank_lineEnd hinner houter _)) (ih hxs)

theorem forall_block {P : Node → Prop} (hinner : isBlank inner = true) (houter : isBlank outer = true)
    {ns : List (String → Node)} (h : ∀ n ∈ ns, ∀ after, isBlank after = true → P (n after)) :
    ∀ m ∈ block inner outer ns, P m := by
  induction ns with
  | nil => exact fun _ hm => nomatch hm
  | cons n ns ih =>
    obtain ⟨hn, hns⟩ := List.forall_mem_cons.1 h
    exact List.forall_mem_cons.2 ⟨hn _ (isBlank_lineEnd hinner houter _), ih hns⟩

/-- What is collected from a block does not depend on its line ends. -/
theorem flatMap_block {f : Node → List γ} {g : β → List γ} (h : ∀ x ∈ xs, ∀ after, f (line x after) = g x) :
    (block inner outer (xs.map line)).flatMap f = xs.flatMap g := by
  induction xs with
  | nil => rfl
  | cons x xs ih =>
    obtain ⟨hx, hxs⟩ := List.forall_mem_cons.1 h
    rw [List.map_cons, block, List.flatMap_cons, List.flatMap_cons, hx, ih hxs]

end Blocks

/-- Only labels have text. -/
theorem ofShape?_cases {s : Shape Float} {l : Leaf} (h : ofShape? s = some l) :
    (∃ tag, l = .bare tag ∧ ∀ t, s ≠ .label t) ∨ ∃ t, s = .label t ∧ l = ofLabel t := by
  cases s with
  | label t => exact .inr ⟨t, rfl, (Option.some.inj h).symm⟩
  | wedge w =>
    obtain rfl | rfl := ofWedge?_cases h
    · exact .inl ⟨_, rfl, nofun⟩
    · exact .inl ⟨_, rfl, nofun⟩
  | line x => exact .inl ⟨_, (Option.some.inj h).symm, nofun⟩
  | rect x => exact .inl ⟨_, (Option.some.inj h).symm, nofun⟩
  | circle x => exact .inl ⟨_, (Option.some.inj h).symm, nofun⟩
  | polygon x => exact .inl ⟨_, (Option.some.inj h).symm, nofun⟩

/-- The node of a shape is the leaf of that shape. -/
theorem isLeaf_node {s : Shape Float} {l : Leaf} (h : ofShape? s = some l) {after : String} (hafter : isBlank after = true) :
    IsLeaf (l.node after) := by
  obtain ⟨tag, rfl, -⟩ | ⟨t, -, rfl⟩ := ofShape?_cases h
  · exact .bare tag hafter
  · exact .text _ t.text hafter

/-- The node of a layer is the group of its leaves. -/
theorem isGroup_ofLayer (l : Layer Float) {after : String} (hafter : isBlank after = true) :
    IsGroup l.kind ((ofLayer l).node after) := by
  have hinner : isBlank "    " = true := by decide
  have houter : isBlank "  " = true := by decide
  refine .mk (isBlank_lineEnd hinner houter _) (forall_block hinner houter fun n hn after hafter => ?_) hafter
  obtain ⟨leaf, hleaf, rfl⟩ := List.mem_map.1 hn
  obtain ⟨s, -, hs⟩ := List.mem_filterMap.1 hleaf
  exact isLeaf_node hs hafter

/-- The node of a frame is the drawing of its background and its layers. -/
theorem isDrawing_ofFrame (background : Option (Color Float)) (f : Frame Float) :
    IsDrawing background f [(ofFrame background f).node] := by
  have hinner : isBlank "  " = true := by decide
  have houter : isBlank "" = true := by decide
  unfold Document.node nest Document.lines ofFrame
  rw [block_append]
  refine .mk (isBlank_lineEnd hinner houter _) ?_ ?_ (by decide)
  · cases background with
    | none => exact .nil
    | some c =>
      refine .cons (.mk _ (isBlank_lineEnd hinner ?_ _)) .nil
      split <;> decide
  · rw [List.map_map]
    exact forall₂_block hinner houter fun l _ after hafter => isGroup_ofLayer l hafter

theorem isSound_root (d : Document) : IsSound d.root where
  name := (by decide : Markup.isName "svg".toList = true)
  attributes := by simp +decide [Document.root, Markup.isPlain_repr]

theorem isSound_background {background : Option (Color Float)} {f : Frame Float} {l : Leaf}
    (h : l ∈ (ofFrame background f).background.toList) : IsSound l.tag := by
  obtain ⟨c, -, rfl⟩ := Option.map_eq_some_iff.1 (Option.mem_toList.1 h)
  refine ⟨(by decide : Markup.isName "rect".toList = true), ?_⟩
  simp +decide [Leaf.tag, Markup.isPlain_repr, Markup.isPlain_toCss]

theorem isSound_group (kind : LayerKind) : IsSound ⟨"g", [("data-layer", kind.name)]⟩ where
  name := (by decide : Markup.isName "g".toList = true)
  attributes := by cases kind <;> simp +decide

theorem tags_leaf (l : Leaf) (after : String) : (l.node after).tags = [l.tag] := by
  cases l with
  | bare tag => simp [Leaf.node, Leaf.tag, Node.tags]
  | text tag content => simp [Leaf.node, Leaf.tag, Node.tags]

theorem tags_nest (tag : Tag) (inner outer : String) (children : List (String → Node)) (after : String) :
    (nest tag inner outer children after).tags = tag :: (block inner outer children).flatMap Node.tags := by
  rw [nest, Node.tags]

theorem isSound_ofLayer (l : Layer Float) (after : String) : ∀ tag ∈ ((ofLayer l).node after).tags, IsSound tag := by
  rw [Group.node, tags_nest, flatMap_block fun leaf _ after => tags_leaf leaf after, List.forall_mem_cons]
  refine ⟨isSound_group l.kind, fun tag htag => ?_⟩
  obtain ⟨leaf, hleaf, htag⟩ := List.mem_flatMap.1 htag
  obtain ⟨s, -, hs⟩ := List.mem_filterMap.1 hleaf
  exact List.mem_singleton.1 htag ▸ isSound_ofShape? hs

/-- All tags in the tree of a frame read back. -/
theorem isSound_ofFrame (background : Option (Color Float)) (f : Frame Float) :
    ∀ tag ∈ (ofFrame background f).node.tags, IsSound tag := by
  have hchildren : ∀ m ∈ block "  " "" (ofFrame background f).lines, ∀ tag ∈ m.tags, IsSound tag := by
    refine forall_block (by decide) (by decide) fun n hn after _ => ?_
    obtain hn | hn := List.mem_append.1 hn
    · obtain ⟨l, hl, rfl⟩ := List.mem_map.1 hn
      rw [tags_leaf]
      exact List.forall_mem_singleton.2 (isSound_background hl)
    · obtain ⟨g, hg, rfl⟩ := List.mem_map.1 hn
      obtain ⟨l, -, rfl⟩ := List.mem_map.1 hg
      exact isSound_ofLayer l after
  rw [Document.node, tags_nest, List.forall_mem_cons]
  refine ⟨isSound_root _, fun tag htag => ?_⟩
  obtain ⟨m, hm, htag⟩ := List.mem_flatMap.1 htag
  exact hchildren m hm tag htag

/-- What the elements of a name contain before their first child, in the order of the document. -/
def contents (name : String) : Node → List String
  | .bare _ _ => []
  | .element tag lead children _ => (if tag.name = name then [lead] else []) ++ children.flatMap (contents name)

/-- Nesting under another name adds nothing to what is collected. -/
theorem contents_nest {name : String} {tag : Tag} (htag : tag.name ≠ name) (inner outer : String)
    (children : List (String → Node)) (after : String) :
    contents name (nest tag inner outer children after) = (block inner outer children).flatMap (contents name) := by
  rw [nest, contents, if_neg htag, List.nil_append]

def Leaf.texts (l : Leaf) : List String := contents "text" (l.node "")

theorem contents_leaf (l : Leaf) (after : String) : contents "text" (l.node after) = l.texts := by
  unfold Leaf.texts
  cases l with
  | bare tag => rw [Leaf.node, Leaf.node, contents, contents]
  | text tag content => rw [Leaf.node, Leaf.node, contents, contents]

theorem texts_bare (tag : Tag) : (Leaf.bare tag).texts = [] := by
  rw [Leaf.texts, Leaf.node, contents]

theorem texts_ofLabel (t : Label Float) : (ofLabel t).texts = [t.text] := by
  rw [Leaf.texts, ofLabel, Leaf.node, contents]
  rfl

def shapeText : Shape Float → List String
  | .label t => [t.text]
  | _ => []

theorem texts_leaves (ss : List (Shape Float)) : (ss.filterMap ofShape?).flatMap Leaf.texts = ss.flatMap shapeText := by
  induction ss with
  | nil => rfl
  | cons s ss ih =>
    cases hs : ofShape? s with
    | none =>
      have hnone : shapeText s = [] := by
        cases s with
        | label t => cases hs
        | _ => rfl
      rw [List.filterMap_cons_none hs, ih, List.flatMap_cons, hnone, List.nil_append]
    | some l =>
      have htext : l.texts = shapeText s := by
        obtain ⟨tag, rfl, hlabel⟩ | ⟨t, rfl, rfl⟩ := ofShape?_cases hs
        · rw [texts_bare]
          cases s with
          | label t => exact absurd rfl (hlabel t)
          | _ => rfl
        · exact texts_ofLabel t
      rw [List.filterMap_cons_some hs, List.flatMap_cons, List.flatMap_cons, htext, ih]

theorem shapeText_shapes (l : Layer Float) : l.shapes.flatMap shapeText = l.labels.map Label.text := by
  have hnone {β : Type} (xs : List β) : xs.flatMap (fun _ => ([] : List String)) = [] := List.flatMap_eq_nil_iff.2 fun _ _ => rfl
  simp only [Layer.shapes, List.flatMap_append, List.flatMap_map, shapeText, hnone, List.nil_append]
  exact List.map_eq_flatMap.symm

/-- The texts of a layer are those of its labels, in order. -/
theorem contents_ofLayer (l : Layer Float) (after : String) :
    contents "text" ((ofLayer l).node after) = l.labels.map Label.text := by
  rw [Group.node, contents_nest (by decide : "g" ≠ "text"), flatMap_block fun leaf _ after => contents_leaf leaf after, ofLayer,
    texts_leaves, shapeText_shapes]

/-- A layer that is not written has no labels. -/
theorem flatMap_labels (ls : List (Layer Float)) :
    (ls.filter (!·.isEmpty)).flatMap (fun l => l.labels.map Label.text) = (ls.flatMap Layer.labels).map Label.text := by
  induction ls with
  | nil => rfl
  | cons l ls ih =>
    rw [List.flatMap_cons, List.map_append, ← ih]
    cases h : l.isEmpty with
    | false => rw [List.filter_cons_of_pos (by simp [h]), List.flatMap_cons]
    | true =>
      have hlabels : l.labels = [] := by
        simp only [Layer.isEmpty, Bool.and_eq_true] at h
        exact List.isEmpty_iff.1 h.2
      rw [List.filter_cons_of_neg (by simp [h]), hlabels]
      rfl

/-- The texts in the tree of a frame are those of its labels, lowest layer first. -/
theorem contents_ofFrame (background : Option (Color Float)) (f : Frame Float) :
    contents "text" (ofFrame background f).node = f.labels.map Label.text := by
  have hbackground : (ofFrame background f).background.toList.flatMap Leaf.texts = [] := by
    cases background with
    | none => rfl
    | some c => exact List.flatMap_eq_nil_iff.2 (List.forall_mem_singleton.2 (texts_bare _))
  have hgroups : (block "  " "" ((ofFrame background f).groups.map Group.node)).flatMap (contents "text") =
      f.labels.map Label.text := by
    have hlines : (ofFrame background f).groups.map Group.node =
        (f.layers.filter (!·.isEmpty)).map fun l => (ofLayer l).node := List.map_map
    rw [hlines, flatMap_block fun l _ after => contents_ofLayer l after, flatMap_labels]
    rfl
  rw [Document.node, contents_nest (by decide : "svg" ≠ "text"), Document.lines, block_append, List.flatMap_append,
    flatMap_block fun leaf _ after => contents_leaf leaf after, hbackground, hgroups, List.nil_append]

/-- Whatever valid frame is rendered on whatever background, the document is well nested markup of that frame: its
attribute values need no escaping, and its texts are exactly the frame's. -/
theorem rendered_frame_reads_back (background : Option (Color Float)) (previous : String) {f : Frame Float}
    (hf : f.validate = .ok ()) :
    ∃ text nodes, Renderer.render (.svg background previous) f = .ok (.svg background text) ∧
      Markup.read? text = some nodes ∧ IsDrawing background f nodes ∧
      (∀ n ∈ nodes, ∀ tag ∈ n.tags, ∀ a ∈ tag.attributes, ∀ c ∈ a.2.toList, c ≠ '<' ∧ c ≠ '>' ∧ c ≠ '&' ∧ c ≠ '"') ∧
      nodes.flatMap (contents "text") = f.labels.map Label.text := by
  have hsound : ∀ n ∈ [(ofFrame background f).node], ∀ tag ∈ n.tags, IsSound tag :=
    List.forall_mem_singleton.2 (isSound_ofFrame background f)
  refine ⟨(ofFrame background f).render, [(ofFrame background f).node], ?_, ?_, isDrawing_ofFrame background f, ?_, ?_⟩
  · rw [Renderer.render, hf]
    rfl
  · exact Markup.read?_write hsound (Document.toList_render _)
  · intro n hn tag htag a ha c hc
    exact Markup.plain_facts (((hsound n hn tag htag).attributes a ha).2 c hc)
  · rw [List.flatMap_singleton, contents_ofFrame]

/-- A frame whose only label looks like the end of its element. -/
def trap : Frame Float := ⟨⟨120, 80⟩, [.empty .grid, { Layer.empty .axis with
  labels := [⟨"</text>&amp;\"<", 10, 20, 12, .black, .center, 1⟩] }]⟩

theorem trap_reads_back : trap.validate = .ok () ∧
    ∃ text nodes, Renderer.render (.svg none "") trap = .ok (.svg none text) ∧ Markup.read? text = some nodes ∧
      nodes.flatMap (contents "text") = ["</text>&amp;\"<"] := by
  have hvalid : trap.validate = .ok () := by decide
  obtain ⟨text, nodes, hrender, hread, -, -, hcontents⟩ := rendered_frame_reads_back none "" hvalid
  exact ⟨hvalid, text, nodes, hrender, hread, hcontents⟩

end Whisker.Svg
