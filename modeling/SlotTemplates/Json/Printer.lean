import SlotTemplates.Decimal.Notation
import SlotTemplates.Json.Value

/-!
# JSON text of values

`Value.compact` writes a value on one line without spaces, `Value.pretty` over several lines
with an indent of two. `Value.display` is what a template's output shows of a value: a string
is verbatim, `null` is empty, and everything else is its compact text.
-/

namespace SlotTemplates

/-- The two hexadecimal digits of a number below 256. -/
def hexPair (n : Nat) : List Char := [Nat.digitChar (n / 16 % 16), Nat.digitChar (n % 16)]

/-- A character inside a quoted JSON string. -/
def escapeChar (c : Char) : List Char :=
  if c = '"' then ['\\', '"']
  else if c = '\\' then ['\\', '\\']
  else if c = '\x08' then ['\\', 'b']
  else if c = '\x0c' then ['\\', 'f']
  else if c = '\n' then ['\\', 'n']
  else if c = '\r' then ['\\', 'r']
  else if c = '\t' then ['\\', 't']
  else if c.toNat < 0x20 then '\\' :: 'u' :: '0' :: '0' :: hexPair c.toNat
  else [c]

/-- A string in quotes. -/
def quoteJson (s : String) : List Char := '"' :: (s.toList.flatMap escapeChar ++ ['"'])

/-- The text of a number. -/
def Number.text : Number → List Char
  | .int n => integerText n
  | .float x => x.jsonText

namespace Value

mutual

/-- The compact text of a value. -/
def compactChars : Value → List Char
  | .null => ['n', 'u', 'l', 'l']
  | .bool true => ['t', 'r', 'u', 'e']
  | .bool false => ['f', 'a', 'l', 's', 'e']
  | .number n => n.text
  | .string s => quoteJson s
  | .array items => '[' :: (compactItems items ++ [']'])
  | .object members => '{' :: (compactMembers members ++ ['}'])

/-- Items with commas between them. -/
def compactItems : List Value → List Char
  | [] => []
  | [v] => compactChars v
  | v :: rest => compactChars v ++ ',' :: compactItems rest

/-- Members with commas between them. -/
def compactMembers : List (String × Value) → List Char
  | [] => []
  | [(name, v)] => quoteJson name ++ ':' :: compactChars v
  | (name, v) :: rest => quoteJson name ++ ':' :: compactChars v ++ ',' :: compactMembers rest

end

/-- The text of a value on one line without spaces. -/
def compact (v : Value) : String := String.ofList v.compactChars

/-- A new line indented by `depth` steps of two. -/
def newline (depth : Nat) : List Char := '\n' :: List.replicate (2 * depth) ' '

mutual

/-- The text of a value over several lines, at a depth of nesting. -/
def prettyChars (depth : Nat) : Value → List Char
  | .array [] => ['[', ']']
  | .array items => '[' :: (prettyItems (depth + 1) items ++ newline depth ++ [']'])
  | .object [] => ['{', '}']
  | .object members => '{' :: (prettyMembers (depth + 1) members ++ newline depth ++ ['}'])
  | v => v.compactChars

/-- Items, each on a line of its own. -/
def prettyItems (depth : Nat) : List Value → List Char
  | [] => []
  | [v] => newline depth ++ prettyChars depth v
  | v :: rest => newline depth ++ prettyChars depth v ++ ',' :: prettyItems depth rest

/-- Members, each on a line of its own. -/
def prettyMembers (depth : Nat) : List (String × Value) → List Char
  | [] => []
  | [(name, v)] => newline depth ++ quoteJson name ++ ':' :: ' ' :: prettyChars depth v
  | (name, v) :: rest =>
    newline depth ++ quoteJson name ++ ':' :: ' ' :: prettyChars depth v ++
      ',' :: prettyMembers depth rest

end

/-- The text of a value over several lines. -/
def pretty (v : Value) : String := String.ofList (v.prettyChars 0)

/-- What a template's output shows of a value. -/
def display : Value → String
  | .null => ""
  | .string s => s
  | v => v.compact

end Value

end SlotTemplates
