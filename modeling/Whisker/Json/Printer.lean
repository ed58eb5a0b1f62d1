/-!
# JSON values as written

A tree keeps every literal as it stands in the text: numbers with their digits, strings with their escapes, members in
order and with repetitions. What a literal means is decided when it is read, so a part of a document that nobody reads
need not mean anything. A value is written on one line, or with every item and member on a line of its own and two
blanks per level.
-/

namespace Whisker

inductive Json where
  | null
  | bool (b : Bool)
  /-- The characters of a number literal. -/
  | number (literal : List Char)
  /-- The characters between the quotes of a string literal. -/
  | string (body : List Char)
  | array (items : List Json)
  | object (members : List (List Char × Json))
  deriving Inhabited

namespace Json

def hexValue? (c : Char) : Option Nat :=
  if '0' ≤ c ∧ c ≤ '9' then some (c.toNat - '0'.toNat)
  else if 'a' ≤ c ∧ c ≤ 'f' then some (c.toNat - 'a'.toNat + 10)
  else if 'A' ≤ c ∧ c ≤ 'F' then some (c.toNat - 'A'.toNat + 10)
  else none

/-- The value of hexadecimal digits. -/
def hex? (cs : List Char) : Option Nat :=
  cs.foldlM (fun n c => do return 16 * n + (← hexValue? c)) 0

def hexDigit (n : Nat) : Char := if n < 10 then Char.ofNat (48 + n) else Char.ofNat (87 + n)

/-- The letter of a one-letter escape. -/
def shortEscape? : Char → Option Char
  | '"' => some '"'
  | '\\' => some '\\'
  | '/' => some '/'
  | 'b' => some '\x08'
  | 'f' => some '\x0c'
  | 'n' => some '\n'
  | 'r' => some '\r'
  | 't' => some '\t'
  | _ => none

/-- Quotes, backslashes and control characters are escaped, all else stands for itself. -/
def escapeChar (c : Char) : List Char :=
  if c = '"' then ['\\', '"']
  else if c = '\\' then ['\\', '\\']
  else if c = '\x08' then ['\\', 'b']
  else if c = '\x0c' then ['\\', 'f']
  else if c = '\n' then ['\\', 'n']
  else if c = '\r' then ['\\', 'r']
  else if c = '\t' then ['\\', 't']
  else if c.toNat < 32 then ['\\', 'u', '0', '0', hexDigit (c.toNat / 16), hexDigit (c.toNat % 16)]
  else [c]

def escape (cs : List Char) : List Char := cs.flatMap escapeChar

/-- The character of a surrogate pair. -/
def pairChar (high low : Nat) : Char := Char.ofNat (0x10000 + (high - 0xD800) * 0x400 + (low - 0xDC00))

/-- The text that the rest of a string body spells, after a first surrogate if there is one. -/
def unescapeAfter? : (high : Option Nat) → List Char → Option (List Char)
  | none, [] => some []
  | none, '\\' :: 'u' :: a :: b :: c :: d :: rest => do
    let n ← hex? [a, b, c, d]
    if n < 0xD800 ∨ 0xDFFF < n then return Char.ofNat n :: (← unescapeAfter? none rest)
    else if n < 0xDC00 then unescapeAfter? (some n) rest
    else none
  | some high, '\\' :: 'u' :: a :: b :: c :: d :: rest => do
    let n ← hex? [a, b, c, d]
    if 0xDC00 ≤ n ∧ n ≤ 0xDFFF then return pairChar high n :: (← unescapeAfter? none rest) else none
  | none, '\\' :: c :: rest => do return (← shortEscape? c) :: (← unescapeAfter? none rest)
  | none, c :: rest => if c = '\\' then none else (unescapeAfter? none rest).map (c :: ·)
  | some _, _ => none

/-- The text that a string body spells; `none` where a surrogate has no partner. -/
def unescape? (body : List Char) : Option (List Char) := unescapeAfter? none body

def ofText (s : String) : Json := .string (escape s.toList)

def ofNat (n : Nat) : Json := .number (Nat.toDigits 10 n)

def ofMembers (ms : List (String × Json)) : Json := .object (ms.map fun (k, v) => (escape k.toList, v))

/-- The number of brackets open at the innermost point of a value. -/
def nesting : Json → Nat
  | .array items => 1 + ofItems items
  | .object members => 1 + ofValues members
  | _ => 0
where
  ofItems : List Json → Nat
    | [] => 0
    | v :: vs => max v.nesting (ofItems vs)
  ofValues : List (List Char × Json) → Nat
    | [] => 0
    | (_, v) :: ms => max v.nesting (ofValues ms)

end Json

end Whisker

namespace Whisker.Json

def quoted (body : List Char) : List Char := '"' :: body ++ ['"']

mutual

def compact : Json → List Char
  | .null => ['n', 'u', 'l', 'l']
  | .bool true => ['t', 'r', 'u', 'e']
  | .bool false => ['f', 'a', 'l', 's', 'e']
  | .number literal => literal
  | .string body => quoted body
  | .array [] => ['[', ']']
  | .array (v :: vs) => '[' :: compact v ++ compactItems vs
  | .object [] => ['\x7b', '\x7d']
  | .object ((k, v) :: ms) => '\x7b' :: quoted k ++ ':' :: compact v ++ compactMembers ms

/-- The items after the first, and the closing bracket. -/
def compactItems : List Json → List Char
  | [] => [']']
  | v :: vs => ',' :: compact v ++ compactItems vs

/-- The members after the first, and the closing brace. -/
def compactMembers : List (List Char × Json) → List Char
  | [] => ['\x7d']
  | (k, v) :: ms => ',' :: quoted k ++ ':' :: compact v ++ compactMembers ms

end

/-- A line break and the blanks of a level. -/
def newline (level : Nat) : List Char := '\n' :: List.replicate (2 * level) ' '

mutual

def pretty (level : Nat) : Json → List Char
  | .null => ['n', 'u', 'l', 'l']
  | .bool true => ['t', 'r', 'u', 'e']
  | .bool false => ['f', 'a', 'l', 's', 'e']
  | .number literal => literal
  | .string body => quoted body
  | .array [] => ['[', ']']
  | .array (v :: vs) =>
    '[' :: newline (level + 1) ++ pretty (level + 1) v ++ prettyItems level vs
  | .object [] => ['\x7b', '\x7d']
  | .object ((k, v) :: ms) =>
    '\x7b' :: newline (level + 1) ++ quoted k ++ ':' :: ' ' :: pretty (level + 1) v ++ prettyMembers level ms

def prettyItems (level : Nat) : List Json → List Char
  | [] => newline level ++ [']']
  | v :: vs => ',' :: newline (level + 1) ++ pretty (level + 1) v ++ prettyItems level vs

def prettyMembers (level : Nat) : List (List Char × Json) → List Char
  | [] => newline level ++ ['\x7d']
  | (k, v) :: ms =>
    ',' :: newline (level + 1) ++ quoted k ++ ':' :: ' ' :: pretty (level + 1) v ++ prettyMembers level ms

end

def toCompact (v : Json) : String := String.ofList v.compact

def toPretty (v : Json) : String := String.ofList (v.pretty 0)

end Whisker.Json
