import Whisker.Json.Reader
import Whisker.NumberText

/-!
# Meaning of JSON values

Decoders from trees to values of the library. A structure is given as an object, or as an array of its
fields in order; keys that it does not know are skipped, a key that it knows must not stand twice, and
a field left out has its default. Some structures take part of their members from elsewhere and so keep
all of them: there even a skipped member must be readable.
-/

namespace Whisker.Json

def text? : Json → Option String
  | .string body => (unescape? body).map String.ofList
  | _ => none

def bool? : Json → Option Bool
  | .bool b => some b
  | _ => none

def isNull : Json → Bool
  | .null => true
  | _ => false

/-- Reads the characters of a well-formed literal. -/
def numeral (literal : List Char) : Numeral :=
  let (negative, rest) := Numeral.spanSign literal
  ((Numeral.spanMagnitude? negative rest).map Prod.fst).getD ⟨false, 0, 0⟩

/-- Neither point nor exponent was written. -/
def isIntegral (literal : List Char) : Bool := literal.all fun c => isDigit c || c = '-'

section Numbers

variable {α : Type} [Scalar α] [NumberText α]

/-- A finite number; a literal beyond the range of the numbers is refused. -/
def number? : Json → Option α
  | .number literal =>
    let x : α := (numeral literal).value
    if Scalar.isFinite x then some x else none
  | _ => none

def ofNumber (x : α) : Json :=
  match NumberText.literal? x with
  | some s => .number s.toList
  | none => .null

end Numbers

/-- An integer from `0` up to, but not including, `limit`. A sign, a point or an exponent is refused. -/
def natBelow? (limit : Nat) : Json → Option Nat
  | .number literal =>
    let n := numeral literal
    if isIntegral literal ∧ ¬n.negative ∧ n.mantissa < limit then some n.mantissa else none
  | _ => none

def list? {β : Type} (decode : Json → Option β) : Json → Option (List β)
  | .array items => items.mapM decode
  | _ => none

/-- `null` stands for an absent value. -/
def option? {β : Type} (decode : Json → Option β) : Json → Option (Option β)
  | .null => some none
  | v => (decode v).map some

/-- A choice among names, given as the name or as an object whose one key is the name and whose value is `null`. -/
def choice? {β : Type} (names : List (String × β)) : Json → Option β
  | .string body => do names.lookup (← text? (.string body))
  | .object [(key, .null)] => do names.lookup (← text? (.string key))
  | _ => none

/-- The fields of a structure that were given. -/
structure Fields where
  given : List (String × Json)

namespace Fields

variable {β : Type}

def find? (f : Fields) (name : String) : Option Json := f.given.lookup name

def require? (f : Fields) (name : String) (decode : Json → Option β) : Option β := do decode (← f.find? name)

def getD? (f : Fields) (name : String) (decode : Json → Option β) (default : β) : Option β :=
  match f.find? name with
  | some v => decode v
  | none => some default

/-- A field that may be left out or `null`. -/
def get? (f : Fields) (name : String) (decode : Json → Option β) : Option (Option β) :=
  f.getD? name (option? decode) none

end Fields

/-- The members of an object with their keys read. -/
def keyed? (members : List (List Char × Json)) : Option (List (String × Json)) :=
  members.mapM fun (k, v) => do return (String.ofList (← unescape? k), v)

/-- The known members, provided that none stands twice. -/
def known? (names : List String) (members : List (String × Json)) : Option Fields :=
  let given := members.filter fun (k, _) => names.contains k
  if (given.map Prod.fst).Nodup then some ⟨given⟩ else none

/-- The fields of a structure, from an object or from an array of fields in order. -/
def fields? (names : List String) : Json → Option Fields
  | .object members => do known? names (← keyed? members)
  | .array items => if items.length ≤ names.length then some ⟨names.zip items⟩ else none
  | _ => none

/-- The deepest nesting of a value that has to be kept. -/
def maxNesting : Nat := 127

section Kept

variable (α : Type) [Scalar α] [NumberText α]

/-- Whether every literal of a value can be read. -/
def readable : Json → Bool
  | .number literal => (number? (.number literal) : Option α).isSome
  | .string body => (unescape? body).isSome
  | .array items => readableItems items
  | .object members => readableMembers members
  | _ => true
where
  readableItems : List Json → Bool
    | [] => true
    | v :: vs => readable v && readableItems vs
  readableMembers : List (List Char × Json) → Bool
    | [] => true
    | (k, v) :: ms => (unescape? k).isSome && readable v && readableMembers ms

/-- Whether a value can be kept inside `depth` brackets. -/
def keepable (depth : Nat) (v : Json) : Bool := readable α v && depth + v.nesting ≤ maxNesting

/-- The fields of a structure that keeps, at the given depth, all members but those called `names`; it knows
those and the `others`. Only an object will do. -/
def keptFields? (depth : Nat) (names others : List String) : Json → Option Fields
  | .object members => do
    let members ← keyed? members
    if members.all fun (k, v) => names.contains k || keepable α depth v then known? (names ++ others) members
    else none
  | _ => none

end Kept

end Whisker.Json
