import Whisker.Proofs.Color.Css
import Whisker.Renderer

/-!
# Markup read as trees

A strict reader of markup. A text is cut at each `<`, so that every piece is a tag, the `>` that ends it and the
character data up to the next tag; then the tags have to nest. In data a `>` is refused and an ampersand has to
begin one of the four entities; attribute values are taken as they stand. The main statement is that a tree which
is written with escaped data reads back, whatever the data are.
-/

namespace Whisker

open Svg (Tag escapeChar)

namespace Markup

/-- What follows the ampersand of an entity, and its character. -/
def entities : List (List Char × Char) :=
  [("amp;".toList, '&'), ("lt;".toList, '<'), ("gt;".toList, '>'), ("quot;".toList, '"')]

def entity? (cs : List Char) : Option (List Char) :=
  entities.findSome? fun (rest, c) => (Text.afterStart? rest cs).map (c :: ·)

def decode? (cs : List Char) : Option (List Char) :=
  match Text.split '&' cs with
  | [] => none
  | first :: pieces => (pieces.mapM entity?).map fun texts => first ++ texts.flatten

theorem decode?_cons {c : Char} (hc : c ≠ '&') (cs : List Char) : decode? (c :: cs) = (decode? cs).map (c :: ·) := by
  obtain ⟨piece, pieces, hcs⟩ := Text.exists_split '&' cs
  have hword : '&' ∉ [c] := by simpa using hc.symm
  have hsplit : Text.split '&' (c :: cs) = (c :: piece) :: pieces := Text.split_word hword hcs
  unfold decode?
  rw [hsplit, hcs]
  simp only [Option.map_map]
  rfl

/-- An entity stands for its character. -/
theorem decode?_entity (rest : List Char) {c : Char} (hrest : '&' ∉ rest)
    (h : ∀ cs, entity? (rest ++ cs) = some (c :: cs)) (cs : List Char) :
    decode? ('&' :: (rest ++ cs)) = (decode? cs).map (c :: ·) := by
  obtain ⟨piece, pieces, hcs⟩ := Text.exists_split '&' cs
  have hsplit : Text.split '&' ('&' :: (rest ++ cs)) = [] :: (rest ++ piece) :: pieces := by
    rw [Text.split, if_pos rfl, Text.split_word hrest hcs]
  unfold decode?
  rw [hsplit, hcs]
  simp only [List.mapM_cons, h, Option.bind_eq_bind, Option.bind_some, Option.map_map]
  cases pieces.mapM entity? with
  | none => rfl
  | some texts => simp

/-- Escaped text decodes to itself. -/
theorem decode?_escape (cs : List Char) : decode? (cs.flatMap escapeChar) = some cs := by
  induction cs with
  | nil => rfl
  | cons c cs ih =>
    rw [List.flatMap_cons]
    have hmap : (decode? (cs.flatMap escapeChar)).map (c :: ·) = some (c :: cs) := by rw [ih]; rfl
    rw [← hmap]
    unfold escapeChar
    split
    · exact decode?_entity "amp;".toList (by decide) (fun _ => rfl) _
    · exact decode?_entity "lt;".toList (by decide) (fun _ => rfl) _
    · exact decode?_entity "gt;".toList (by decide) (fun _ => rfl) _
    · exact decode?_entity "quot;".toList (by decide) (fun _ => rfl) _
    · next hamp _ _ _ => exact decode?_cons hamp _

theorem not_mem_escape (cs : List Char) : '<' ∉ cs.flatMap escapeChar ∧ '>' ∉ cs.flatMap escapeChar := by
  simp only [List.mem_flatMap, not_exists, not_and, ← forall_and]
  intro c _
  unfold escapeChar
  split
  case h_5 hlt hgt _ => simp [Ne.symm hlt, Ne.symm hgt]
  all_goals decide

def isNameChar (c : Char) : Bool := c.isAlphanum || c = '-'

def isName (cs : List Char) : Bool := !cs.isEmpty && cs.all isNameChar

def key? : List Char → Option String
  | ' ' :: cs => if cs.getLast? = some '=' ∧ isName cs.dropLast then some (String.ofList cs.dropLast) else none
  | _ => none

def attributes? : List (List Char) → Option (List (String × String))
  | [] => none
  | [rest] => if rest.isEmpty then some [] else none
  | key :: value :: rest => do return (← key? key, String.ofList value) :: (← attributes? rest)

def tag? (cs : List Char) : Option Tag :=
  let name := cs.takeWhile (· ≠ ' ')
  if isName name then (attributes? (Text.split '"' (cs.dropWhile (· ≠ ' ')))).map (⟨String.ofList name, ·⟩) else none

/-- What stands between `<` and `>`. -/
inductive Mark where
  | start (tag : Tag)
  | bare (tag : Tag)
  | stop (name : String)
  deriving DecidableEq, Repr

def Mark.read? (cs : List Char) : Option Mark :=
  if cs.head? = some '/' then if isName cs.tail then some (.stop (String.ofList cs.tail)) else none
  else if cs.getLast? = some '/' then (tag? cs.dropLast).map .bare
  else (tag? cs).map .start

def Mark.write : Mark → List Char
  | .start tag => tag.render.toList
  | .bare tag => tag.render.toList ++ ['/']
  | .stop name => '/' :: name.toList

/-- Printable characters that mean nothing to a reader. -/
def isPlain (c : Char) : Bool := ' ' ≤ c && c ≤ '~' && c ≠ '<' && c ≠ '>' && c ≠ '&' && c ≠ '"'

def IsPlain (s : String) : Prop := ∀ c ∈ s.toList, isPlain c = true

/-- Names are names and values are plain. -/
structure IsSound (tag : Tag) : Prop where
  name : isName tag.name.toList = true
  attributes : ∀ a ∈ tag.attributes, isName a.1.toList = true ∧ IsPlain a.2

theorem nameChar_facts {c : Char} (h : isNameChar c = true) : isPlain c = true ∧ c ≠ ' ' ∧ c ≠ '/' := by
  have hlt : c.toNat < 123 := by
    simp only [isNameChar, Bool.or_eq_true, decide_eq_true_eq, Char.isAlphanum, Char.isAlpha, Char.isUpper, Char.isLower,
      Char.isDigit, Bool.and_eq_true, UInt32.le_iff_toNat_le] at h
    obtain ((h | h) | h) | rfl := h
    · exact Nat.lt_of_le_of_lt h.2 (by decide)
    · exact Nat.lt_of_le_of_lt h.2 (by decide)
    · exact Nat.lt_of_le_of_lt h.2 (by decide)
    · decide
  have hall : ∀ n < 123, isNameChar (Char.ofNat n) = true →
      isPlain (Char.ofNat n) = true ∧ Char.ofNat n ≠ ' ' ∧ Char.ofNat n ≠ '/' := by decide
  have hc := hall c.toNat hlt
  rw [Char.ofNat_toNat] at hc
  exact hc h

theorem plain_facts {c : Char} (h : isPlain c = true) : c ≠ '<' ∧ c ≠ '>' ∧ c ≠ '&' ∧ c ≠ '"' := by
  simp only [isPlain, Bool.and_eq_true, decide_eq_true_eq, ne_eq, decide_not, Bool.not_eq_true', decide_eq_false_iff_not] at h
  tauto

/-- Plain text has no brackets and no quotes. -/
theorem not_mem_plain {cs : List Char} (h : ∀ c ∈ cs, isPlain c = true) : '<' ∉ cs ∧ '>' ∉ cs ∧ '"' ∉ cs :=
  ⟨fun hc => (plain_facts (h _ hc)).1 rfl, fun hc => (plain_facts (h _ hc)).2.1 rfl,
    fun hc => (plain_facts (h _ hc)).2.2.2 rfl⟩

theorem name_facts {cs : List Char} (h : isName cs = true) :
    cs ≠ [] ∧ ∀ c ∈ cs, isPlain c = true ∧ c ≠ ' ' ∧ c ≠ '/' := by
  simp only [isName, Bool.and_eq_true, Bool.not_eq_true', List.isEmpty_eq_false_iff, List.all_eq_true] at h
  exact ⟨h.1, fun c hc => nameChar_facts (h.2 c hc)⟩

theorem isPlain_name {s : String} (h : isName s.toList = true) : IsPlain s := fun c hc => ((name_facts h).2 c hc).1

def keyed (key : String) : List Char := ' ' :: (key.toList ++ ['='])

def quoted (a : String × String) : List Char := keyed a.1 ++ '"' :: (a.2.toList ++ ['"'])

theorem key?_keyed {key : String} (h : isName key.toList = true) : key? (keyed key) = some key := by
  simp [key?, keyed, h]

theorem toList_render (tag : Tag) : tag.render.toList = tag.name.toList ++ tag.attributes.flatMap quoted := by
  have hquoted : (fun a : String × String => (" " ++ a.1 ++ "=\"" ++ a.2 ++ "\"").toList) = quoted := by
    funext a
    simp [quoted, keyed]
  rw [Tag.render, String.toList_append, String.toList_join, List.flatMap_map, ← hquoted]

/-- Quoted attributes are read back. -/
theorem attributes?_eq {as : List (String × String)} (h : ∀ a ∈ as, isName a.1.toList = true ∧ IsPlain a.2) :
    attributes? (Text.split '"' (as.flatMap quoted)) = some as := by
  induction as with
  | nil => rfl
  | cons a as ih =>
    obtain ⟨⟨hkey, hvalue⟩, has⟩ := List.forall_mem_cons.1 h
    have hquote : '"' ∉ keyed a.1 := by simp [keyed, not_mem_plain (isPlain_name hkey)]
    have hplain : '"' ∉ a.2.toList := (not_mem_plain hvalue).2.2
    have hsplit : Text.split '"' ((a :: as).flatMap quoted) =
        keyed a.1 :: a.2.toList :: Text.split '"' (as.flatMap quoted) := by
      rw [List.flatMap_cons, quoted, List.append_assoc, List.cons_append, Text.split_append hquote, List.append_assoc,
        List.singleton_append, Text.split_append hplain]
    rw [hsplit, attributes?, key?_keyed hkey, ih has]
    simp only [String.ofList_toList]
    rfl

/-- A sound tag is read back. -/
theorem tag?_render {tag : Tag} (h : IsSound tag) : tag? tag.render.toList = some tag := by
  have hname : ∀ c ∈ tag.name.toList, (decide (c ≠ ' ')) = true :=
    fun c hc => decide_eq_true ((name_facts h.name).2 c hc).2.1
  -- The attributes are empty or begin with the blank that ends the name.
  have hrest : (tag.attributes.flatMap quoted).takeWhile (· ≠ ' ') = [] ∧
      (tag.attributes.flatMap quoted).dropWhile (· ≠ ' ') = tag.attributes.flatMap quoted := by
    cases tag.attributes with
    | nil => exact ⟨rfl, rfl⟩
    | cons a as => exact ⟨rfl, rfl⟩
  unfold tag?
  rw [toList_render, List.takeWhile_append_of_pos hname, List.dropWhile_append_of_pos hname, hrest.1, hrest.2, List.append_nil,
    if_pos h.name, attributes?_eq h.attributes, String.ofList_toList]
  rfl

theorem head?_render {tag : Tag} (h : IsSound tag) : tag.render.toList.head? ≠ some '/' := by
  obtain ⟨hne, hname⟩ := name_facts h.name
  rw [toList_render, List.head?_append_of_ne_nil _ hne]
  exact fun hhead => (hname '/' (List.mem_of_mem_head? hhead)).2.2 rfl

theorem getLast?_render {tag : Tag} (h : IsSound tag) : tag.render.toList.getLast? ≠ some '/' := by
  obtain ⟨hne, hname⟩ := name_facts h.name
  rw [toList_render]
  rcases List.eq_nil_or_concat tag.attributes with hnil | ⟨as, a, has⟩
  · rw [hnil, List.flatMap_nil, List.append_nil]
    exact fun hlast => (hname '/' (List.mem_of_getLast? hlast)).2.2 rfl
  · rw [has, List.concat_eq_append, List.flatMap_append, List.flatMap_singleton, quoted, ← List.cons_append, ← List.append_assoc,
      ← List.append_assoc, ← List.append_assoc, List.getLast?_concat]
    decide

/-- The marks that are written so that they read back. -/
def Mark.IsSound : Mark → Prop
  | .start tag => Markup.IsSound tag
  | .bare tag => Markup.IsSound tag
  | .stop name => isName name.toList = true

theorem Mark.read?_write {m : Mark} (h : m.IsSound) : Mark.read? m.write = some m := by
  cases m with
  | start tag =>
    unfold read? write
    rw [if_neg (head?_render h), if_neg (getLast?_render h), tag?_render h]
    rfl
  | bare tag =>
    have hne : tag.render.toList ≠ [] := by
      rw [toList_render]
      exact List.append_ne_nil_of_left_ne_nil (name_facts h.name).1 _
    unfold read? write
    rw [List.head?_append_of_ne_nil _ hne, if_neg (head?_render h), List.getLast?_concat, if_pos rfl, List.dropLast_concat,
      tag?_render h]
    rfl
  | stop name =>
    have hname : isName name.toList = true := h
    simp [read?, write, hname]

theorem not_mem_render {tag : Tag} (h : IsSound tag) : '<' ∉ tag.render.toList ∧ '>' ∉ tag.render.toList := by
  have hname := not_mem_plain (isPlain_name h.name)
  have hquoted (a : String × String) (ha : a ∈ tag.attributes) : '<' ∉ quoted a ∧ '>' ∉ quoted a := by
    obtain ⟨hkey, hvalue⟩ := h.attributes a ha
    simp [quoted, keyed, not_mem_plain (isPlain_name hkey), not_mem_plain hvalue]
  rw [toList_render]
  simp only [List.mem_append, List.mem_flatMap, not_or, not_exists, not_and]
  exact ⟨⟨hname.1, fun a ha => (hquoted a ha).1⟩, hname.2.1, fun a ha => (hquoted a ha).2⟩

/-- No bracket stands in a written mark. -/
theorem Mark.not_mem_write {m : Mark} (h : m.IsSound) : '<' ∉ m.write ∧ '>' ∉ m.write := by
  cases m with
  | start tag => exact not_mem_render h
  | bare tag => simpa [write] using not_mem_render h
  | stop name => simp [write, not_mem_plain (isPlain_name h)]

/-- A mark and the data after it. -/
structure Piece where
  mark : Mark
  text : String
  deriving DecidableEq, Repr

def Piece.body (p : Piece) : List Char := p.mark.write ++ '>' :: p.text.toList.flatMap escapeChar

def Piece.write (p : Piece) : List Char := '<' :: p.body

def Piece.read? (cs : List Char) : Option Piece :=
  match Text.split '>' cs with
  | [inside, text] => do return ⟨← Mark.read? inside, String.ofList (← decode? text)⟩
  | _ => none

def pieces? (cs : List Char) : Option (List Piece) :=
  match Text.split '<' cs with
  | [] :: pieces => pieces.mapM Piece.read?
  | _ => none

theorem Piece.read?_body {p : Piece} (h : p.mark.IsSound) : Piece.read? p.body = some p := by
  unfold Piece.read? Piece.body
  rw [Text.split_append (Mark.not_mem_write h).2, Text.split_piece (not_mem_escape _).2]
  simp only [Mark.read?_write h, decode?_escape, Option.bind_eq_bind, Option.bind_some, String.ofList_toList]
  rfl

theorem Piece.not_mem_body {p : Piece} (h : p.mark.IsSound) : '<' ∉ p.body := by
  simp [Piece.body, (Mark.not_mem_write h).1, (not_mem_escape _).1]

/-- Cut at opening brackets, a document falls into its pieces. -/
theorem split_pieces {ps : List Piece} (h : ∀ p ∈ ps, p.mark.IsSound) {word : List Char} (hword : '<' ∉ word) :
    Text.split '<' (word ++ ps.flatMap Piece.write) = word :: ps.map Piece.body := by
  induction ps generalizing word with
  | nil => rw [List.flatMap_nil, List.append_nil, Text.split_piece hword, List.map_nil]
  | cons p ps ih =>
    obtain ⟨hp, hps⟩ := List.forall_mem_cons.1 h
    rw [List.flatMap_cons, Piece.write, List.cons_append, Text.split_append hword, ih hps (Piece.not_mem_body hp),
      List.map_cons]

theorem pieces?_write {ps : List Piece} (h : ∀ p ∈ ps, p.mark.IsSound) : pieces? (ps.flatMap Piece.write) = some ps := by
  have hsplit : Text.split '<' (ps.flatMap Piece.write) = [] :: ps.map Piece.body := split_pieces h List.not_mem_nil
  have hread : (ps.map Piece.body).mapM Piece.read? = some (ps.map id) := mapM_map fun p hp => Piece.read?_body (h p hp)
  unfold pieces?
  rw [hsplit]
  exact hread.trans (congrArg some (List.map_id ps))

/-- An element with the data behind it; `lead` is what it contains before its first child. -/
inductive Node where
  | bare (tag : Tag) (after : String)
  | element (tag : Tag) (lead : String) (children : List Node) (after : String)

/-- What has been read: the nodes of the innermost element, and for each open element its tag, the data behind it and
the nodes before it. -/
structure Progress where
  nodes : List Node
  opened : List (Tag × String × List Node)

def Progress.step : Progress → Piece → Option Progress
  | ⟨nodes, opened⟩, ⟨.bare tag, text⟩ => some ⟨nodes ++ [.bare tag text], opened⟩
  | ⟨nodes, opened⟩, ⟨.start tag, text⟩ => some ⟨[], (tag, text, nodes) :: opened⟩
  | ⟨nodes, (tag, lead, before) :: opened⟩, ⟨.stop name, text⟩ =>
    if name = tag.name then some ⟨before ++ [.element tag lead nodes text], opened⟩ else none
  | ⟨_, []⟩, ⟨.stop _, _⟩ => none

def nodes? (ps : List Piece) : Option (List Node) := do
  let p ← ps.foldlM Progress.step ⟨[], []⟩
  if p.opened.isEmpty then some p.nodes else none

/-- The trees that a text consists of. -/
def read? (text : String) : Option (List Node) := do nodes? (← pieces? text.toList)

namespace Node

def pieces : Node → List Piece
  | .bare tag after => [⟨.bare tag, after⟩]
  | .element tag lead children after => ⟨.start tag, lead⟩ :: (children.flatMap pieces ++ [⟨.stop tag.name, after⟩])

def tags : Node → List Tag
  | .bare tag _ => [tag]
  | .element tag _ children _ => tag :: children.flatMap tags

/-- The pieces of a node are read as this node, whatever has been read before. -/
def Runs (n : Node) : Prop :=
  ∀ done opened, n.pieces.foldlM Progress.step ⟨done, opened⟩ = some ⟨done ++ [n], opened⟩

/-- Reading the pieces of siblings adds them to those read before, with nothing left open. -/
theorem run_siblings {ns : List Node} (h : ∀ n ∈ ns, n.Runs) (done : List Node) (opened : List (Tag × String × List Node)) :
    (ns.flatMap pieces).foldlM Progress.step ⟨done, opened⟩ = some ⟨done ++ ns, opened⟩ := by
  induction ns generalizing done with
  | nil => rw [List.append_nil]; rfl
  | cons n ns ih =>
    obtain ⟨hn, hns⟩ := List.forall_mem_cons.1 h
    rw [List.flatMap_cons, List.foldlM_append, hn, Option.bind_eq_bind, Option.bind_some, ih hns, List.append_assoc,
      List.singleton_append]

/-- Reading the pieces of a node adds this node; by induction on the node. -/
theorem runs (n : Node) : n.Runs := by
  -- The induction is on the tree: the children of an element are read while it is open.
  induction n using pieces.induct with
  | case1 tag after =>
    intro done opened
    rw [pieces]
    rfl
  | case2 tag lead children after ih =>
    intro done opened
    have hstop : Progress.step ⟨children, (tag, lead, done) :: opened⟩ ⟨.stop tag.name, after⟩ =
        some ⟨done ++ [.element tag lead children after], opened⟩ := if_pos rfl
    rw [pieces, List.foldlM_cons]
    change (children.flatMap pieces ++ _).foldlM Progress.step ⟨[], (tag, lead, done) :: opened⟩ = _
    rw [List.foldlM_append, run_siblings ih, List.nil_append, Option.bind_eq_bind, Option.bind_some, List.foldlM_cons, hstop]
    rfl

theorem isSound_pieces {n : Node} (h : ∀ tag ∈ n.tags, IsSound tag) : ∀ p ∈ n.pieces, p.mark.IsSound := by
  induction n using pieces.induct with
  | case1 tag after =>
    rw [tags] at h
    rw [pieces]
    exact List.forall_mem_singleton.2 (h tag List.mem_cons_self)
  | case2 tag lead children after ih =>
    rw [tags, List.forall_mem_cons] at h
    rw [pieces, List.forall_mem_cons, List.forall_mem_append, List.forall_mem_singleton]
    refine ⟨h.1, fun p hp => ?_, h.1.name⟩
    obtain ⟨n, hn, hp⟩ := List.mem_flatMap.1 hp
    exact ih n hn (fun tag htag => h.2 tag (List.mem_flatMap.2 ⟨n, hn, htag⟩)) p hp

end Node

/-- Nodes are read back from their pieces. -/
theorem nodes?_pieces (ns : List Node) : nodes? (ns.flatMap Node.pieces) = some ns := by
  unfold nodes?
  rw [Node.run_siblings fun n _ => n.runs]
  rfl

/-- Trees as text, with nothing but the escaped data between the tags. -/
def write (ns : List Node) : List Char := (ns.flatMap Node.pieces).flatMap Piece.write

/-- Trees with sound tags read back, whatever their data are. -/
theorem read?_write {ns : List Node} (h : ∀ n ∈ ns, ∀ tag ∈ n.tags, IsSound tag) {text : String}
    (htext : text.toList = write ns) : read? text = some ns := by
  have hpieces : pieces? (write ns) = some (ns.flatMap Node.pieces) := by
    refine pieces?_write fun p hp => ?_
    obtain ⟨n, hn, hp⟩ := List.mem_flatMap.1 hp
    exact Node.isSound_pieces (h n hn) p hp
  rw [read?, htext, hpieces, Option.bind_eq_bind, Option.bind_some, nodes?_pieces]

-- Tags that cross are refused, and so is data that has not been escaped.
example : (read? "<g><text>a</g></text>").isNone = true := by decide

example : (read? "<text>a & b</text>").isNone = true := by decide

end Markup

end Whisker
