import Whisker.Command

/-!
# The program

Reads the files that the arguments name, and writes the document.
-/

namespace Whisker

/-- The fault that a system error stands for. Its number may be given with either sign. -/
def systemFault (code : UInt32) (details : String) : FileFault :=
  match (min code (0 - code)).toNat with
  | 2 => .missing
  | 6 => .noDevice
  | 20 => .notDirectory
  | 21 => .directory
  | 28 => .noSpace
  | 36 => .longName
  | n => .other (details ++ " (os error " ++ toString n ++ ")")

/-- The reason for which the system refused a file. -/
def fileFault : IO.Error → FileFault
  | .noFileOrDirectory _ code details | .inappropriateType _ code details | .invalidArgument _ code details
  | .permissionDenied _ code details | .resourceExhausted _ code details | .noSuchThing _ code details
  | .alreadyExists _ code details | .interrupted _ code details | .otherError code details
  | .resourceBusy code details | .unsupportedOperation code details | .hardwareFault code details
  | .illegalOperation code details => systemFault code details
  | e => .other (toString e)

def readText (path : String) : IO (Except FileFault String) := do
  try
    match String.fromUTF8? (← IO.FS.readBinFile path) with
    | some s => return .ok s
    | none => return .error .notText
  catch e => return .error (fileFault e)

def writeText (path text : String) : IO (Except FileFault Unit) := do
  try
    IO.FS.writeFile path text
    return .ok ()
  catch e => return .error (fileFault e)

/-- The files that a run may read. -/
def readAll (paths : List String) : IO FileReader := do
  let texts ← paths.mapM fun p => return (p, ← readText p)
  return fun p => (texts.lookup p).getD (.error .missing)

open Command in
def runCommand (args : List String) : IO (Except Failure Unit) := do
  match Arguments.parse args with
  | .error e => return .error (.usage e)
  | .ok a =>
    let input := match Source.ofLocation a.input with
      | .path p => [p]
      | .url _ => []
    match document Float a (← readAll (input ++ a.config.toList)) with
    | .error f => return .error f
    | .ok text => return (← writeText a.output text).mapError fun fault => .write a.output (.file fault)

end Whisker

def main (args : List String) : IO UInt32 := do
  match ← Whisker.runCommand args with
  | .ok _ => return 0
  | .error f =>
    IO.eprint (Whisker.Command.report f)
    return 1
