import Whisker.Frame

/-!
# Renderers

What becomes of a frame: one renderer counts what it is given, the other keeps the last document. Both refuse a frame
that breaks a rule and then keep what they had.

A document is a tree of three levels: the root, one group per layer that is not empty, and in it empty elements and
elements with text. Text is escaped when it is written; attribute values are numbers, colors and fixed words, which need
no escaping.
-/

namespace Whisker.Svg

open Scalar

structure Tag where
  name : String
  attributes : List (String × String)
  deriving DecidableEq, Repr

inductive Leaf where
  | bare (tag : Tag)
  | text (tag : Tag) (content : String)
  deriving DecidableEq, Repr

structure Group where
  layer : String
  leaves : List Leaf
  deriving DecidableEq, Repr

structure Document where
  width : Nat
  height : Nat
  background : Option Leaf
  groups : List Group
  deriving DecidableEq, Repr

def escapeChar : Char → List Char
  | '&' => "&amp;".toList
  | '<' => "&lt;".toList
  | '>' => "&gt;".toList
  | '"' => "&quot;".toList
  | c => [c]

def escape (s : String) : String := String.ofList (s.toList.flatMap escapeChar)

def Tag.render (t : Tag) : String :=
  t.name ++ String.join (t.attributes.map fun (k, v) => " " ++ k ++ "=\"" ++ v ++ "\"")

def Leaf.render : Leaf → String
  | .bare tag => "<" ++ tag.render ++ "/>"
  | .text tag content => "<" ++ tag.render ++ ">" ++ escape content ++ "</" ++ tag.name ++ ">"

def Group.render (g : Group) : String :=
  "  <g data-layer=\"" ++ g.layer ++ "\">\n" ++ String.join (g.leaves.map fun l => "    " ++ l.render ++ "\n") ++ "  </g>\n"

def Document.root (d : Document) : Tag :=
  ⟨"svg", [("xmlns", "http://www.w3.org/2000/svg"), ("width", toString d.width), ("height", toString d.height),
    ("viewBox", "0 0 " ++ toString d.width ++ " " ++ toString d.height)]⟩

def Document.render (d : Document) : String :=
  "<" ++ d.root.render ++ ">\n" ++ (d.background.map fun l => "  " ++ l.render ++ "\n").getD ""
    ++ String.join (d.groups.map Group.render) ++ "</svg>\n"

variable {α : Type} [Scalar α] [NumberText α]

/-- A coordinate to two places. -/
def coordinate (x : α) : String := NumberText.fixed 2 x

/-- The attributes of an outline, if it has a width. -/
def stroke (color : Color α) (width : α) : List (String × String) :=
  if 0 < width then [("stroke", color.toCss), ("stroke-width", NumberText.plain width)] else []

def ofLine (l : Line α) : Leaf :=
  .bare ⟨"line", [("x1", coordinate l.x1), ("y1", coordinate l.y1), ("x2", coordinate l.x2), ("y2", coordinate l.y2),
    ("stroke", l.color.toCss), ("stroke-width", NumberText.plain l.width)]⟩

def ofRect (r : Rect α) : Leaf :=
  .bare ⟨"rect", [("x", coordinate r.x), ("y", coordinate r.y), ("width", coordinate r.width),
    ("height", coordinate r.height), ("fill", r.fill.toCss)] ++ stroke r.border r.borderWidth⟩

def ofCircle (c : Circle α) : Leaf :=
  .bare ⟨"circle", [("cx", coordinate c.x), ("cy", coordinate c.y), ("r", coordinate c.radius), ("fill", c.fill.toCss)]
    ++ stroke c.border c.borderWidth⟩

def ofPolygon (p : Polygon α) : Leaf :=
  let points := " ".intercalate (p.points.map fun q => coordinate q.1 ++ "," ++ coordinate q.2)
  .bare ⟨"polygon", [("points", points), ("fill", p.fill.toCss)]⟩

def anchor : Align → String
  | .left => "start"
  | .center => "middle"
  | .right => "end"

variable [Circular α]

/-- An angle in degrees. -/
def degrees (angle : α) : α := angle * (180 / (Circular.turn / 2))

def ofLabel (l : Label α) : Leaf :=
  let rotation := if l.rotation == 0 then [] else
    [("transform", "rotate(" ++ coordinate (degrees l.rotation) ++ " " ++ coordinate l.x ++ " " ++ coordinate l.y ++ ")")]
  .text ⟨"text", [("x", coordinate l.x), ("y", coordinate l.y), ("font-size", NumberText.plain l.fontSize),
    ("font-family", "sans-serif"), ("fill", l.color.toCss), ("text-anchor", anchor l.align)] ++ rotation⟩ l.text

/-- The outline of a sector: along the outer arc and back along the inner one, or through the center. -/
def outline (w : Wedge α) : String :=
  let point (radius angle : α) : String :=
    coordinate (w.x + radius * Circular.cos angle) ++ " " ++ coordinate (w.y + radius * Circular.sin angle)
  let large := if Circular.turn / 2 < abs (w.stop - w.start) then "1" else "0"
  let arc (radius : α) (sweep : String) (angle : α) : String :=
    "A " ++ coordinate radius ++ " " ++ coordinate radius ++ " 0 " ++ large ++ " " ++ sweep ++ " " ++ point radius angle
  let back := if 0 < w.inner then point w.inner w.stop ++ " " ++ arc w.inner "0" w.start
    else coordinate w.x ++ " " ++ coordinate w.y
  "M " ++ point w.outer w.start ++ " " ++ arc w.outer "1" w.stop ++ " L " ++ back ++ " Z"

/-- A sector without an angle or a radius is not written, a full one is a circle. -/
def ofWedge? (w : Wedge α) : Option Leaf :=
  let span := abs (w.stop - w.start)
  if span < epsilon || w.outer ≤ 0 then none
  else if 2 * (Circular.turn / 2) - 1e-9 ≤ span && w.inner ≤ 0 then
    some (ofCircle ⟨w.x, w.y, w.outer, w.fill, w.border, w.borderWidth⟩)
  else
    some (.bare ⟨"path", [("d", outline w), ("fill", w.fill.toCss)] ++ stroke w.border w.borderWidth⟩)

def ofShape? : Shape α → Option Leaf
  | .line l => some (ofLine l)
  | .rect r => some (ofRect r)
  | .circle c => some (ofCircle c)
  | .wedge w => ofWedge? w
  | .polygon p => some (ofPolygon p)
  | .label l => some (ofLabel l)

def ofLayer (l : Layer α) : Group := ⟨l.kind.name, l.shapes.filterMap ofShape?⟩

def ofFrame (background : Option (Color α)) (f : Frame α) : Document :=
  let width := f.viewport.width
  let height := f.viewport.height
  { width, height
    background := background.map fun c => .bare ⟨"rect", [("x", "0"), ("y", "0"), ("width", toString width),
      ("height", toString height), ("fill", c.toCss)]⟩
    groups := (f.layers.filter (!·.isEmpty)).map ofLayer }

end Whisker.Svg

namespace Whisker

structure Tally where
  frames : Nat
  lines : Nat
  labels : Nat
  errorBarLines : Nat
  deriving DecidableEq, Repr

inductive Renderer (α : Type) where
  | tally (last : Tally)
  /-- `document` is empty until a frame has been rendered. -/
  | svg (background : Option (Color α)) (document : String)

namespace Renderer

variable {α : Type} [Scalar α] [NumberText α] [Circular α]

def counting : Renderer α := .tally ⟨0, 0, 0, 0⟩

def drawing (background : Option (Color α)) : Renderer α := .svg background ""

def render (r : Renderer α) (f : Frame α) : Result (Renderer α) := do
  f.validate
  match r with
  | .tally last => return .tally ⟨last.frames + 1, f.lineCount, f.labelCount, (f.linesOf .errorBars).length⟩
  | .svg background _ => return .svg background (Svg.ofFrame background f).render

/-- The document to be saved. -/
def document? : Renderer α → Result String
  | .svg _ document => if document.isEmpty then .error (.data .nothingRendered) else .ok document
  | .tally _ => .error (.data .nothingRendered)

end Renderer

end Whisker
