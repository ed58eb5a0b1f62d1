/-!
# Why a chart is refused

Each failure is a cause; its wording is given in one place. A computation made of steps succeeds exactly if its steps
do.
-/

namespace Whisker

/-- A rule about chart data that is broken. -/
inductive Fault where
  | areaEdges
  | areaSize
  | scaleDomain
  | scalePixels
  | scaleEmpty
  | pixel
  | categoryPixels
  | radialCenter
  | radialRadius
  | colorChannel (channel : String)
  | colorText (text : String)
  | lineCoordinates
  | lineWidth
  | rectOrigin
  | rectSize
  | rectBorder
  | circleCenter
  | circleRadius
  | circleBorder
  | wedgeGeometry
  | wedgeRadii
  | wedgeBorder
  | polygonSize
  | polygonPoints
  | textEmpty
  | textCoordinates
  | fontSize
  | styleEmpty (option : String)
  | styleNegative (option : String)
  | nothingRendered
  | chartTypeEmpty
  | indexAxis
  | pointOption (option : String)
  | barOption (option : String)
  | barBorder
  | animationDuration
  | datasetBorder (dataset : Nat)
  | dataset (dataset : Nat) (fault : Fault)
  | noDataset (dataset : Nat)
  | noRecord (dataset record : Nat)
  deriving DecidableEq, Repr

def Fault.message : Fault → String
  | .areaEdges => "chart area edges must be finite"
  | .areaSize => "chart area must have a positive size"
  | .scaleDomain => "scale domain must be finite and non-zero"
  | .scalePixels => "scale pixel range must be finite"
  | .scaleEmpty => "scale pixel range must be non-empty"
  | .pixel => "pixel must be finite"
  | .categoryPixels => "category pixel range must be finite"
  | .radialCenter => "radial scale center must be finite"
  | .radialRadius => "radial drawing area must be finite and >= 0"
  | .colorChannel channel => s!"color channel `{channel}` must be finite and in [0, 1]"
  | .colorText text => s!"invalid css color `{text}`"
  | .lineCoordinates => "line coordinates must be finite"
  | .lineWidth => "line stroke width must be finite and > 0"
  | .rectOrigin => "rect origin must be finite"
  | .rectSize => "rect size must be finite and >= 0"
  | .rectBorder => "rect border width must be finite and >= 0"
  | .circleCenter => "circle center must be finite"
  | .circleRadius => "circle radius must be finite and >= 0"
  | .circleBorder => "circle border width must be finite and >= 0"
  | .wedgeGeometry => "wedge geometry must be finite"
  | .wedgeRadii => "wedge radii must satisfy 0 <= inner <= outer"
  | .wedgeBorder => "wedge border width must be finite and >= 0"
  | .polygonSize => "polygon needs at least three points"
  | .polygonPoints => "polygon points must be finite"
  | .textEmpty => "text primitive must not be empty"
  | .textCoordinates => "text coordinates must be finite"
  | .fontSize => "font size must be finite and > 0"
  | .styleEmpty option => s!"`{option}` must not be an empty array"
  | .styleNegative option => s!"`{option}` values must be finite and >= 0"
  | .nothingRendered => "nothing rendered yet"
  | .chartTypeEmpty => "chart type must not be empty"
  | .indexAxis => "index axis must be `x` or `y`"
  | .pointOption option => s!"point `{option}` must be finite and >= 0"
  | .barOption option => s!"bar `{option}` must be in (0, 1]"
  | .barBorder => "bar `borderWidth` must be finite and >= 0"
  | .animationDuration => "animation duration must be finite and >= 0"
  | .datasetBorder i => s!"dataset {i}: border width must be finite and >= 0"
  | .dataset i fault => s!"dataset {i}: " ++ fault.message
  | .noDataset i => s!"dataset index {i} is out of range"
  | .noRecord i k => s!"data index {k} is out of range for dataset {i}"

/-- Why a file could not be read or written. -/
inductive FileFault where
  | missing
  | directory
  | notDirectory
  | longName
  | noSpace
  | noDevice
  | zeroByte
  | notText
  | other (text : String)
  deriving DecidableEq, Repr

def FileFault.message : FileFault → String
  | .missing => "No such file or directory (os error 2)"
  | .directory => "Is a directory (os error 21)"
  | .notDirectory => "Not a directory (os error 20)"
  | .longName => "File name too long (os error 36)"
  | .noSpace => "No space left on device (os error 28)"
  | .noDevice => "No such device or address (os error 6)"
  | .zeroByte => "file name contained an unexpected NUL byte"
  | .notText => "stream did not contain valid UTF-8"
  | .other text => text

/-- What a chart type needs to be registered with it. -/
inductive Part where
  | element
  | scale
  deriving DecidableEq, Repr

def Part.name : Part → String
  | .element => "element"
  | .scale => "scale"

inductive Error where
  | viewport (width height : Nat)
  | data (fault : Fault)
  | unknownType (name : String)
  | unregistered (chartType : String) (part : Part) (id : String)
  | file (fault : FileFault)
  | source (location : String)
  | json
  deriving DecidableEq, Repr

def Error.message : Error → String
  | .viewport width height => s!"invalid viewport size: width={width}, height={height}"
  | .data fault => "invalid data: " ++ fault.message
  | .unknownType name => s!"unknown chart type `{name}`"
  | .unregistered chartType part id =>
    "chart type `" ++ chartType ++ "` needs unregistered " ++ part.name ++ " `" ++ id ++ "`"
  | .file fault => "io error: " ++ fault.message
  | .source location => s!"unsupported data source `{location}`"
  | .json => "invalid json: the text does not spell the value that is read from it"

abbrev Result (β : Type) := Except Error β

/-- Fails with a fault unless a condition holds. -/
def check (holds : Bool) (fault : Fault) : Result Unit :=
  if holds then .ok () else .error (.data fault)

variable {β γ ε : Type}

theorem bind_eq_ok {x : Except ε β} {f : β → Except ε γ} {r : γ} :
    x >>= f = .ok r ↔ ∃ v, x = .ok v ∧ f v = .ok r := by
  cases x with
  | error err =>
    constructor
    · intro h
      cases h
    · rintro ⟨_, h, _⟩
      cases h
  | ok v =>
    constructor
    · intro h
      exact ⟨v, rfl, h⟩
    · rintro ⟨_, hv, h⟩
      cases hv
      exact h

@[simp] theorem seq_eq_ok {x : Result Unit} {y : Unit → Result γ} {r : γ} :
    x >>= y = .ok r ↔ x = .ok () ∧ y () = .ok r :=
  bind_eq_ok.trans ⟨fun ⟨_, hx, hy⟩ => ⟨hx, hy⟩, fun ⟨hx, hy⟩ => ⟨(), hx, hy⟩⟩

@[simp] theorem return_eq_ok {v r : γ} : (pure v : Result γ) = .ok r ↔ v = r := Except.ok.injEq v r ▸ Iff.rfl

@[simp] theorem check_eq_ok {holds : Bool} {fault : Fault} : check holds fault = .ok () ↔ holds = true := by
  cases holds <;> simp [check]

@[simp] theorem forM_eq_ok {l : List β} {f : β → Result Unit} : l.forM f = .ok () ↔ ∀ x ∈ l, f x = .ok () := by
  induction l with
  | nil => simp [List.forM]
  | cons x l ih =>
    change (f x >>= fun _ => l.forM f) = .ok () ↔ _
    rw [seq_eq_ok, ih, List.forall_mem_cons]

theorem isOk_iff_exists {r : Result β} : r.isOk = true ↔ ∃ v, r = .ok v := by
  cases r <;> simp [Except.isOk, Except.toBool]

@[simp] theorem isOk_iff {r : Result Unit} : r.isOk = true ↔ r = .ok () :=
  isOk_iff_exists.trans ⟨fun ⟨_, h⟩ => h, fun h => ⟨(), h⟩⟩

theorem map_eq_ok {x : Except ε β} {f : β → γ} {r : γ} : x.map f = .ok r ↔ ∃ v, x = .ok v ∧ f v = r := by
  cases x with
  | error err =>
    constructor
    · exact nofun
    · rintro ⟨_, h, _⟩
      cases h
  | ok w =>
    change Except.ok (f w) = .ok r ↔ _
    simp

theorem mapError_eq_ok {δ : Type} {r : Except ε β} {g : ε → δ} {v : β} : r.mapError g = .ok v ↔ r = .ok v := by
  cases r with
  | error err => exact ⟨nofun, nofun⟩
  | ok w =>
    change (.ok w : Except δ β) = .ok v ↔ _
    rw [Except.ok.injEq, Except.ok.injEq]

theorem toOption_eq_some {r : Result β} {v : β} : r.toOption = some v ↔ r = .ok v := by
  cases r <;> simp [Except.toOption]

/-- A list that is decoded entry by entry. -/
theorem mapM_map {δ : Type} {decode : δ → Option β} {encode : γ → δ} {f : γ → β} {xs : List γ}
    (h : ∀ x ∈ xs, decode (encode x) = some (f x)) : (xs.map encode).mapM decode = some (xs.map f) := by
  induction xs with
  | nil => rfl
  | cons x xs ih =>
    obtain ⟨hx, hxs⟩ := List.forall_mem_cons.1 h
    simp [hx, ih hxs]

end Whisker
