import Whisker.Json.Printer

/-!
# Reading JSON

The strict grammar: blanks are space, tab, line feed and carriage return, a text holds one value, and
nothing but blanks follows it. Literals are checked for their form and kept as they are.
-/

namespace Whisker.Json

def isBlank (c : Char) : Bool := c = ' ' || c = '\n' || c = '\r' || c = '\t'

def skipBlanks (cs : List Char) : List Char := cs.dropWhile isBlank

def isDigit (c : Char) : Bool := '0' ≤ c && c ≤ '9'

/-- The body of a string literal and what follows its closing quote. -/
def stringBody? : List Char → Option (List Char × List Char)
  | [] => none
  | '"' :: rest => some ([], rest)
  | '\\' :: 'u' :: a :: b :: c :: d :: rest =>
    if (hex? [a, b, c, d]).isSome then
      (stringBody? rest).map fun (body, rest) => ('\\' :: 'u' :: a :: b :: c :: d :: body, rest)
    else none
  | '\\' :: e :: rest =>
    if (shortEscape? e).isSome then (stringBody? rest).map fun (body, rest) => ('\\' :: e :: body, rest)
    else none
  | c :: rest =>
    if c.toNat < 32 ∨ c = '\\' then none else (stringBody? rest).map fun (body, rest) => (c :: body, rest)

/-- A run of digits, at least one. -/
def digits? (cs : List Char) : Option (List Char × List Char) :=
  let ds := cs.takeWhile isDigit
  if ds.isEmpty then none else some (ds, cs.drop ds.length)

/-- Digits without a leading zero. -/
def whole? (cs : List Char) : Option (List Char × List Char) := do
  let (ds, rest) ← digits? cs
  if ds.head? = some '0' ∧ 1 < ds.length then none else some (ds, rest)

def fraction? : List Char → Option (List Char × List Char)
  | '.' :: rest => (digits? rest).map fun (ds, rest) => ('.' :: ds, rest)
  | rest => some ([], rest)

def exponent? : List Char → Option (List Char × List Char)
  | e :: rest =>
    if e = 'e' ∨ e = 'E' then
      match rest with
      | s :: tail =>
        if s = '+' ∨ s = '-' then (digits? tail).map fun (ds, rest) => (e :: s :: ds, rest)
        else (digits? rest).map fun (ds, rest) => (e :: ds, rest)
      | [] => none
    else some ([], e :: rest)
  | [] => some ([], [])

def magnitude? (cs : List Char) : Option (List Char × List Char) := do
  let (w, rest) ← whole? cs
  let (f, rest) ← fraction? rest
  let (e, rest) ← exponent? rest
  return (w ++ f ++ e, rest)

/-- A number literal and what follows it. -/
def numberLiteral? : List Char → Option (List Char × List Char)
  | '-' :: rest => (magnitude? rest).map fun (m, rest) => ('-' :: m, rest)
  | cs => magnitude? cs

/-- Removes a given keyword. -/
def keyword? (word : List Char) (cs : List Char) : Option (List Char) :=
  if word.isPrefixOf cs then some (cs.drop word.length) else none

mutual

/-- A value and what follows it; `fuel` bounds the characters that may be read. -/
def value? : (fuel : Nat) → List Char → Option (Json × List Char)
  | 0, _ => none
  | fuel + 1, cs =>
    match skipBlanks cs with
    | '"' :: rest => (stringBody? rest).map fun (body, rest) => (.string body, rest)
    | '[' :: rest =>
      match skipBlanks rest with
      | ']' :: rest => some (.array [], rest)
      | rest => (items? fuel rest).map fun (vs, rest) => (.array vs, rest)
    | '\x7b' :: rest =>
      match skipBlanks rest with
      | '\x7d' :: rest => some (.object [], rest)
      | rest => (members? fuel rest).map fun (ms, rest) => (.object ms, rest)
    | 'n' :: rest => (keyword? ['u', 'l', 'l'] rest).map fun rest => (.null, rest)
    | 't' :: rest => (keyword? ['r', 'u', 'e'] rest).map fun rest => (.bool true, rest)
    | 'f' :: rest => (keyword? ['a', 'l', 's', 'e'] rest).map fun rest => (.bool false, rest)
    | cs => (numberLiteral? cs).map fun (literal, rest) => (.number literal, rest)

/-- The values up to the closing bracket, of which there is at least one. -/
def items? : (fuel : Nat) → List Char → Option (List Json × List Char)
  | 0, _ => none
  | fuel + 1, cs => do
    let (v, rest) ← value? fuel cs
    match skipBlanks rest with
    | ']' :: rest => some ([v], rest)
    | ',' :: rest => (items? fuel rest).map fun (vs, rest) => (v :: vs, rest)
    | _ => none

/-- The members up to the closing brace, of which there is at least one. -/
def members? : (fuel : Nat) → List Char → Option (List (List Char × Json) × List Char)
  | 0, _ => none
  | fuel + 1, cs =>
    match skipBlanks cs with
    | '"' :: rest => do
      let (key, rest) ← stringBody? rest
      match skipBlanks rest with
      | ':' :: rest => do
        let (v, rest) ← value? fuel rest
        match skipBlanks rest with
        | '\x7d' :: rest => some ([(key, v)], rest)
        | ',' :: rest => (members? fuel rest).map fun (ms, rest) => ((key, v) :: ms, rest)
        | _ => none
      | _ => none
    | _ => none

end

/-- The value of a whole text. -/
def parse? (s : String) : Option Json := do
  let cs := s.toList
  let (v, rest) ← value? (cs.length + 1) cs
  if (skipBlanks rest).isEmpty then some v else none

end Whisker.Json
