import Whisker.Chart.Codec
import Whisker.Directory
import Whisker.Engine

/-!
# The command

Loads a series, makes a chart of it, the history of a metric or a chart described in a file, and writes the chart as a
document. A history is the chart of one metric over commits: labels are commit hashes, of which seven characters are
shown, the area under the line is filled, and error bars have the color of the line.

A list of arguments is read from the left: each flag stands alone or takes the argument after it as its value, whatever
that looks like. Of several values for one thing the last counts.
-/

namespace Whisker

open Scalar

/-- What may be chosen about such a chart. -/
structure History where
  chartType : Option String
  /-- The name of the dataset and the title of the y axis; no title is shown for an empty one. -/
  yLabel : String
  xLabel : Option String
  color : Option (Nat × Nat × Nat)
  deriving DecidableEq, Repr

namespace History

def default : History := ⟨none, "", none, none⟩

def rgbOfJson? : Json → Option (Nat × Nat × Nat)
  | .array [r, g, b] => do return (← Json.natBelow? 256 r, ← Json.natBelow? 256 g, ← Json.natBelow? 256 b)
  | _ => none

def ofJson? (v : Json) : Option History := do
  let f ← Json.fields? ["type", "ylabel", "xlabel", "color"] v
  return { chartType := ← f.get? "type" Json.text?
           yLabel := ← f.getD? "ylabel" Json.text? ""
           xLabel := ← f.get? "xlabel" Json.text?
           color := ← f.get? "color" rgbOfJson? }

def toJson (h : History) : Json :=
  .ofMembers <| Json.member? "type" Json.ofText h.chartType ++ [("ylabel", .ofText h.yLabel)]
    ++ Json.member? "xlabel" Json.ofText h.xLabel
    ++ Json.member? "color" (fun (r, g, b) => .array [.ofNat r, .ofNat g, .ofNat b]) h.color

variable {α : Type} [Scalar α]

def dataset (h : History) (data : List (Datum α)) : Dataset α :=
  let (r, g, b) := h.color.getD (255, 99, 132)
  { Dataset.ofData data with
    label := some h.yLabel
    background := some (.ofBytes r g b 0.2)
    border := some (.ofBytes r g b 1)
    borderWidth := some 1 }

def style (h : History) : Style.Overrides α :=
  let (r, g, b) := h.color.getD (255, 99, 132)
  let solid : Color α := .ofBytes r g b 1
  { lineWidth := some (.all 1)
    color := some (.all solid)
    whiskerLineWidth := some (.all 1)
    whiskerRatio := none
    whiskerSize := some (.all 10)
    whiskerColor := some (.all solid) }

def axes (h : History) : PerAxis (AxisOptions α) :=
  let d : PerAxis (AxisOptions α) := AxisOptions.defaults
  { d with
    x := { d.x with
      ticks := { d.x.ticks with maxChars := some 7 }
      title := { d.x.title with display := true, text := h.xLabel.getD "commit hash" } }
    y := { d.y with title := { d.y.title with display := !h.yLabel.isEmpty, text := h.yLabel } } }

/-- The chart of a metric. -/
def chart (h : History) (labels : List String) (data : List (Datum α)) : Chart α where
  chartType := h.chartType.getD "lineWithErrorBars"
  labels
  datasets := [h.dataset data]
  options := { ChartOptions.default with
    axes := h.axes
    point := { PointOptions.default with radius := 3, hoverRadius := 5, hitRadius := 20 }
    legend := false
    fill := some true
    style := h.style }

end History

end Whisker

namespace Whisker.Command

/-- Why a text is no number of a given size. -/
inductive NumberFault where
  | empty
  | invalidDigit
  | tooLarge
  deriving DecidableEq, Repr

def NumberFault.message : NumberFault → String
  | .empty => "cannot parse integer from empty string"
  | .invalidDigit => "invalid digit found in string"
  | .tooLarge => "number too large to fit in target type"

/-- Reads digits after a number already read; the first character that does not fit decides. -/
def readDigits (limit acc : Nat) : List Char → Except NumberFault Nat
  | [] => .ok acc
  | c :: cs =>
    if Numeral.isDigit c then
      let n := 10 * acc + Decimal.digitValue c
      if n < limit then readDigits limit n cs else .error .tooLarge
    else .error .invalidDigit

/-- Reads a number below a limit; a plus sign may stand before its digits. -/
def readNat (limit : Nat) : List Char → Except NumberFault Nat
  | [] => .error .empty
  | ['+'] => .error .invalidDigit
  | '+' :: cs => readDigits limit 0 cs
  | cs => readDigits limit 0 cs

inductive UsageError where
  | help
  | unknown (flag : String)
  | noValue (flag : String)
  | noInput
  | noOutput
  | color (text : String) (fault : NumberFault)
  | colorCount (text : String)
  | size (flag text : String) (fault : NumberFault)
  | zeroSize (flag : String)
  deriving DecidableEq, Repr

def usage : String :=
  "usage: errorbar_chart --input <path|url> --output <svg> [--scale <f>] [--errors] [--type <chart type>] "
    ++ "[--ylabel <text>] [--xlabel <text>] [--color <r,g,b>] [--width <px>] [--height <px>] [--config <json>] "
    ++ "[--transparent] [--verbose]"

def UsageError.message : UsageError → String
  | .help => usage
  | .unknown flag => s!"unknown argument `{flag}`\n" ++ usage
  | .noValue flag => s!"missing value for {flag}"
  | .noInput => "missing --input\n" ++ usage
  | .noOutput => "missing --output\n" ++ usage
  | .color text fault => s!"invalid --color `{text}`: " ++ fault.message
  | .colorCount text => s!"--color expects `r,g,b`, got `{text}`"
  | .size flag text fault => s!"invalid {flag} `{text}`: " ++ fault.message
  | .zeroSize flag => s!"{flag} must be positive"

/-- One thing that arguments say. -/
inductive Arg where
  | input (location : String)
  | output (path : String)
  | scale (text : String)
  | errors
  | chartType (name : String)
  | yLabel (text : String)
  | xLabel (text : String)
  | color (rgb : Nat × Nat × Nat)
  | width (pixels : Nat)
  | height (pixels : Nat)
  | config (path : String)
  | transparent
  | verbose
  deriving DecidableEq, Repr

/-- Three numbers below 256, separated by commas. -/
def readColor (text : String) : Except UsageError (Nat × Nat × Nat) := do
  let channels ← ((Text.split ',' text.toList).mapM fun cs => readNat 256 (Text.trim cs)).mapError (.color text)
  match channels with
  | [r, g, b] => .ok (r, g, b)
  | _ => .error (.colorCount text)

/-- A positive number of 32 bits. -/
def readSize (flag text : String) : Except UsageError Nat := do
  match ← (readNat UInt32.size text.toList).mapError (.size flag text) with
  | 0 => .error (.zeroSize flag)
  | n => .ok n

/-- What a flag says with its value; `none` if the flag takes none. -/
def withValue? (flag value : String) : Option (Except UsageError Arg) :=
  match flag with
  | "--input" => some (.ok (.input value))
  | "--output" => some (.ok (.output value))
  | "--scale" => some (.ok (.scale value))
  | "--type" => some (.ok (.chartType value))
  | "--ylabel" => some (.ok (.yLabel value))
  | "--xlabel" => some (.ok (.xLabel value))
  | "--color" => some ((readColor value).map .color)
  | "--width" => some ((readSize flag value).map .width)
  | "--height" => some ((readSize flag value).map .height)
  | "--config" => some (.ok (.config value))
  | _ => none

/-- What a flag says that stands alone. -/
def alone (flag : String) : Except UsageError Arg :=
  match flag with
  | "--errors" => .ok .errors
  | "--transparent" => .ok .transparent
  | "--verbose" => .ok .verbose
  | "-v" => .ok .verbose
  | "--help" => .error .help
  | "-h" => .error .help
  | _ => .error (.unknown flag)

/-- Reads a list of arguments. -/
def readArgs : List String → Except UsageError (List Arg)
  | [] => .ok []
  | [flag] =>
    match withValue? flag "" with
    | some _ => .error (.noValue flag)
    | none => do return [← alone flag]
  | flag :: value :: rest =>
    match withValue? flag value with
    | some arg => do
      let arg ← arg
      return arg :: (← readArgs rest)
    | none => do
      let arg ← alone flag
      return arg :: (← readArgs (value :: rest))

structure Arguments where
  input : String
  output : String
  scale : Option String
  errors : Bool
  history : History
  width : Nat
  height : Nat
  config : Option String
  transparent : Bool
  verbose : Bool
  deriving DecidableEq, Repr

/-- Arguments of which the two required ones may be missing. -/
structure Draft where
  input : Option String
  output : Option String
  rest : Arguments

def Draft.empty : Draft := ⟨none, none, ⟨"", "", none, false, .default, 800, 400, none, false, false⟩⟩

def Draft.add (d : Draft) : Arg → Draft
  | .input location => { d with input := some location }
  | .output path => { d with output := some path }
  | .scale text => { d with rest.scale := some text }
  | .errors => { d with rest.errors := true }
  | .chartType name => { d with rest.history.chartType := some name }
  | .yLabel text => { d with rest.history.yLabel := text }
  | .xLabel text => { d with rest.history.xLabel := some text }
  | .color rgb => { d with rest.history.color := some rgb }
  | .width pixels => { d with rest.width := pixels }
  | .height pixels => { d with rest.height := pixels }
  | .config path => { d with rest.config := some path }
  | .transparent => { d with rest.transparent := true }
  | .verbose => { d with rest.verbose := true }

def Draft.finish (d : Draft) : Except UsageError Arguments :=
  match d.input, d.output with
  | none, _ => .error .noInput
  | some _, none => .error .noOutput
  | some input, some output => .ok { d.rest with input, output }

def Arguments.parse (args : List String) : Except UsageError Arguments := do
  ((← readArgs args).foldl Draft.add Draft.empty).finish

inductive Failure where
  | usage (error : UsageError)
  | load (location : String) (error : Error)
  | readConfig (path : String) (fault : FileFault)
  | config (error : Error)
  | noDataset (path : String)
  | build (error : Error)
  | render (error : Error)
  | write (path : String) (error : Error)
  deriving DecidableEq, Repr

def Failure.message : Failure → String
  | .usage error => error.message
  | .load location error => s!"failed to load `{location}`: " ++ error.message
  | .readConfig path fault => s!"failed to read `{path}`: " ++ fault.message
  | .config error => "invalid chart config: " ++ error.message
  | .noDataset path => s!"chart config `{path}` has no dataset to fill"
  | .build error => "failed to build chart: " ++ error.message
  | .render error => "failed to render chart: " ++ error.message
  | .write path error => s!"failed to write `{path}`: " ++ error.message

variable {α : Type} [Scalar α] [NumberText α] [Circular α]

/-- Puts a series into a described chart: its labels, and its data into the first dataset. -/
def fill? (c : Chart α) (s : Series α) : Option (Chart α) :=
  match c.datasets with
  | [] => none
  | d :: ds => some { c with labels := s.labels, datasets := { d with data := s.data } :: ds }

def chart (a : Arguments) (files : FileReader) (s : Series α) : Except Failure (Chart α) :=
  match a.config with
  | none => .ok (a.history.chart s.labels s.data)
  | some path => do
    let text ← (files path).mapError (.readConfig path)
    let c ← (Chart.parse text).mapError .config
    match fill? c s with
    | some c => .ok c
    | none => .error (.noDataset path)

variable (α) in
/-- The document that the arguments ask for. -/
def document (a : Arguments) (files : FileReader) : Except Failure String := do
  let s : Series α ← (Series.load files a.input a.errors a.scale).mapError (.load a.input)
  let c ← chart a files s
  let renderer := Renderer.drawing (if a.transparent then none else some .white)
  let e ← (Engine.start renderer .standard ⟨⟨a.width, a.height⟩, c⟩).mapError .build
  match Engine.render.run e with
  | .error err _ => .error (.render err)
  | .ok _ e => e.renderer.document?.mapError (.write a.output)

variable (α) in
/-- Runs the command in a directory; the directory afterwards has the document if there was no failure. -/
def run (args : List String) (d : Directory) : Except Failure Directory := do
  let a ← (Arguments.parse args).mapError .usage
  let text ← document α a d.read
  (d.write a.output text).mapError fun fault => .write a.output (.file fault)

/-- What a failed run prints. -/
def report (f : Failure) : String := "error: " ++ f.message ++ "\n"

end Whisker.Command
