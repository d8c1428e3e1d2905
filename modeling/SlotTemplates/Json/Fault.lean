import SlotTemplates.Text.Span

/-!
# Faults of JSON text

What can be wrong with a JSON text, the wording of each fault, and the place that a message
gives for it: the line, and the number of bytes up to the fault on that line.
-/

namespace SlotTemplates

/-- What is wrong with a JSON text. -/
inductive JsonFault where
  | endInValue
  | endInString
  | endInList
  | endInObject
  | expectedIdent
  | expectedValue
  | expectedColon
  | expectedListEnd
  | expectedObjectEnd
  | trailingComma
  | trailingCharacters
  | keyNotString
  | invalidNumber
  | numberOutOfRange
  | invalidEscape
  | controlCharacter
  | loneSurrogate
  | endOfSurrogatePair
  | tooDeep
deriving DecidableEq, Repr

/-- The wording of a fault. -/
def JsonFault.message : JsonFault → String
  | .endInValue => "EOF while parsing a value"
  | .endInString => "EOF while parsing a string"
  | .endInList => "EOF while parsing a list"
  | .endInObject => "EOF while parsing an object"
  | .expectedIdent => "expected ident"
  | .expectedValue => "expected value"
  | .expectedColon => "expected `:`"
  | .expectedListEnd => "expected `,` or `]`"
  | .expectedObjectEnd => "expected `,` or `\x7d`"
  | .trailingComma => "trailing comma"
  | .trailingCharacters => "trailing characters"
  | .keyNotString => "key must be a string"
  | .invalidNumber => "invalid number"
  | .numberOutOfRange => "number out of range"
  | .invalidEscape => "invalid escape"
  | .controlCharacter => "control character (\\u0000-\\u001F) found while parsing a string"
  | .loneSurrogate => "lone leading surrogate in hex escape"
  | .endOfSurrogatePair => "unexpected end of hex escape"
  | .tooDeep => "recursion limit exceeded"

/-- A fault with its place: what was left of the text, and how many bytes further on the
message points. -/
structure JsonFailure where
  fault : JsonFault
  rest : List Char
  ahead : Nat

/-- The line and the byte column of an offset, counting lines from one and bytes from
zero. -/
def lineAndColumn : List Char → Nat → Nat × Nat
  | cs, offset => go 1 0 cs offset
where
  /-- The count, with the line and column reached so far. -/
  go (line column : Nat) : List Char → Nat → Nat × Nat
    | [], left => (line, column + left)
    | c :: cs, left =>
      if left < c.utf8Size then (line, column + left)
      else if c = '\n' then go (line + 1) 0 cs (left - 1)
      else go line (column + c.utf8Size) cs (left - c.utf8Size)

/-- The message of a failure to read `source`. The place is never beyond the end. -/
def JsonFailure.message (source : List Char) (f : JsonFailure) : String :=
  let total := byteLength source
  let offset := min total (total - byteLength f.rest + f.ahead)
  let (line, column) := lineAndColumn source offset
  s!"{f.fault.message} at line {line} column {column}"

end SlotTemplates
