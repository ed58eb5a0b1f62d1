import Whisker.Series

/-!
# Directories in memory

Files under a root directory, found by path as an operating system finds them: a path is walked component
by component, a name under a file is no path, and only the last component of a path that is written may be
new. Names and paths are limited in bytes. Beside files there are devices, which keep nothing.
-/

namespace Whisker

/-- What reading gives, the same at any time, and whether writing is taken. -/
structure Device where
  reading : Except FileFault ByteArray
  writing : Except FileFault Unit

/-- Nothing is read, and anything can be written. -/
def Device.null : Device := ⟨.ok ByteArray.empty, .ok ()⟩

/-- Nothing is read, and there is no room for what is written. -/
def Device.full : Device := ⟨.ok ByteArray.empty, .error .noSpace⟩

/-- No terminal is there to answer. -/
def Device.absent : Device := ⟨.error .noDevice, .error .noDevice⟩

structure Directory where
  /-- The components of the working directory's own path. -/
  root : List (List Char)
  /-- Directories that exist whether or not a file lies in them. -/
  folders : List (List (List Char))
  /-- Each device by the components of its path. -/
  devices : List (List (List Char) × Device)
  /-- Each file by the components of its path. -/
  files : List (List (List Char) × ByteArray)

namespace Directory

/-- What a path is followed for: to read what is there, or to write it anew. -/
inductive Purpose where
  | reading
  | writing
  deriving DecidableEq, Repr

inductive Place where
  | file (path : List (List Char))
  | device (device : Device)
  | directory (path : List (List Char))
  /-- Nothing yet, in a directory that exists. -/
  | vacant (path : List (List Char))

def isFile (d : Directory) (path : List (List Char)) : Bool := d.files.any fun f => f.1 == path

/-- The working directory, those above it and those above files exist. -/
def isDirectory (d : Directory) (path : List (List Char)) : Bool :=
  path.isPrefixOf d.root || d.folders.contains path || d.files.any fun f => path.isPrefixOf f.1 && path != f.1

/-- Bytes that a name may have. -/
def longestName : Nat := 255

/-- Bytes that a path may have. -/
def longestPath : Nat := 4095

/-- Walks from a directory along the components of a path. A name with a slash behind it at the end of a path
that is written stands for a directory and is not looked up. -/
def walk (d : Directory) (purpose : Purpose) :
    (current : List (List Char)) → List (List Char) → Except FileFault Place
  | current, [] => .ok (.directory current)
  | current, c :: cs =>
    let next := current ++ [c]
    if c = [] ∨ c = ['.'] then walk d purpose current cs
    else if c = ['.', '.'] then walk d purpose current.dropLast cs
    else if purpose = .writing ∧ cs ≠ [] ∧ cs.all List.isEmpty then .ok (.directory next)
    else if longestName < (String.ofList c).utf8ByteSize then .error .longName
    else if let some device := d.devices.lookup next then
      if cs.isEmpty then .ok (.device device) else .error .notDirectory
    else if d.isFile next then if cs.isEmpty then .ok (.file next) else .error .notDirectory
    else if d.isDirectory next then walk d purpose next cs
    else if cs.isEmpty then .ok (.vacant next)
    else .error .missing

/-- A path that starts with a slash is walked from the top, any other from the working directory. -/
def locate (d : Directory) (purpose : Purpose) (path : String) : Except FileFault Place :=
  let cs := path.toList
  if cs.contains (Char.ofNat 0) then .error .zeroByte
  else if longestPath < path.utf8ByteSize then .error .longName
  else
    match cs with
    | [] => .error .missing
    | '/' :: cs => d.walk purpose [] (Text.split '/' cs)
    | cs => d.walk purpose d.root (Text.split '/' cs)

def readBytes (d : Directory) (path : String) : Except FileFault ByteArray := do
  match ← d.locate .reading path with
  | .file p => match d.files.lookup p with
    | some bytes => .ok bytes
    | none => .error .missing
  | .device device => device.reading
  | .directory _ => .error .directory
  | .vacant _ => .error .missing

def read (d : Directory) : FileReader := fun path => do
  match String.fromUTF8? (← d.readBytes path) with
  | some s => .ok s
  | none => .error .notText

/-- Stores a text at a path. -/
def write (d : Directory) (path text : String) : Except FileFault Directory := do
  match ← d.locate .writing path with
  | .file p | .vacant p =>
    .ok { d with files := (p, text.toUTF8) :: d.files.filter fun f => f.1 != p }
  | .device device => device.writing.map fun _ => d
  | .directory _ => .error .directory

end Directory

end Whisker
