import SlotTemplates.Decimal.Notation
import SlotTemplates.Text.Quoted
import SlotTemplates.Toml.Document

/-!
# Faults of TOML documents

A document is *malformed* if it is no TOML, and *misshapen* if it is TOML of another shape
than its reader wants. `ShapeFault.message` has the wording of the second kind, and
`Toml.Error.message` the whole text: both kinds start with the place, and a misshapen document
also shows its line.
-/

namespace SlotTemplates.Toml

/-- What is wrong with the shape of a document. -/
inductive ShapeFault where
  | unknownField (name : String) (fields : List String)
  | wrongType (found expected : String)
  | wrongLength (length : Nat) (expected : String)
deriving DecidableEq, Repr

/-- A name between backquotes. -/
def backquoted (name : String) : String := "\x60" ++ name ++ "\x60"

/-- Which fields there are. -/
def fieldChoice : List String → String
  | [a] => backquoted a
  | [a, b] => backquoted a ++ " or " ++ backquoted b
  | fields => "one of " ++ ", ".intercalate (fields.map backquoted)

/-- The wording of a fault of shape. -/
def ShapeFault.message : ShapeFault → String
  | .unknownField name fields =>
    "unknown field " ++ backquoted name ++ ", expected " ++ fieldChoice fields
  | .wrongType found expected => "invalid type: " ++ found ++ ", expected " ++ expected
  | .wrongLength length expected => s!"invalid length {length}, expected {expected}"

/-- The text of a floating point number in a fault, which always has a fraction. -/
def floatText (x : Binary64) : String :=
  let text := x.positional
  if x.isFinite && !text.contains '.' then text ++ ".0" else text

/-- How a fault names a scalar. -/
def Scalar.described : Scalar → String
  | .string s => "string " ++ quoteText s
  | .integer n => "integer " ++ backquoted (String.ofList (integerText n))
  | .float x => "floating point " ++ backquoted (floatText x)
  | .boolean b => "boolean " ++ backquoted (if b then "true" else "false")
  | .datetime _ => "map"

/-- How a fault names an item. -/
def Item.described : Item → String
  | .scalar _ s => s.described
  | .array .. => "sequence"
  | .table .. => "map"
  | .tables .. => "sequence"

/-- How a fault names data. -/
def Data.described : Data → String
  | .string s => (Scalar.string s).described
  | .integer n => (Scalar.integer n).described
  | .float x => (Scalar.float x).described
  | .boolean b => (Scalar.boolean b).described
  | .array _ => "sequence"
  | .table _ => "map"

/-- A fault of shape with its place, if the item that has it has one. -/
structure Misfit where
  span : Option Span
  fault : ShapeFault

/-- The misfit inside of something with a place. -/
def Misfit.within (span : Option Span) (m : Misfit) : Misfit :=
  { m with span := m.span.or span }

/-- A line and a column, both counted from zero. -/
structure Place where
  line : Nat
  column : Nat
deriving DecidableEq, Repr

/-- The place of a byte offset. Columns are characters, except in front of a character of
several bytes, where they are bytes; an offset at the end is one past the last character. -/
def placeOf (source : List Char) (offset : Nat) : Place :=
  let total := byteLength source
  if total = 0 then ⟨0, offset⟩
  else
    let index := min offset (total - 1)
    go 0 0 0 (offset - index) source index
where
  /-- The place, with the line reached so far and the characters and bytes read on it. -/
  go (line chars bytes beyond : Nat) : List Char → Nat → Place
    | [], _ => ⟨line, chars + beyond⟩
    | c :: cs, left =>
      if left < c.utf8Size then
        ⟨line, (if left + 1 = c.utf8Size then chars else bytes + left) + beyond⟩
      else if c = '\n' then go (line + 1) 0 0 beyond cs (left - 1)
      else go line (chars + 1) (bytes + c.utf8Size) beyond cs (left - c.utf8Size)

/-- In front of a character of two bytes the column counts bytes, elsewhere characters. -/
example : placeOf ['é', 'é'] 2 = ⟨0, 2⟩ ∧ placeOf ['é', 'a'] 2 = ⟨0, 1⟩ := by decide

/-- The end of a text is one past its last character. -/
example : placeOf "a\nb".toList 3 = ⟨1, 1⟩ := by decide

/-- The text of a line, counted from zero. -/
def lineText : Nat → List Char → List Char
  | 0, cs => cs.takeWhile (· ≠ '\n')
  | n + 1, cs => lineText n ((cs.dropWhile (· ≠ '\n')).drop 1)

/-- Why a document cannot be used. -/
inductive Error where
  | malformed (place : Place)
  /-- The place, its line, and how many characters of it are marked. -/
  | misshapen (place : Place) (line : String) (width : Nat) (fault : ShapeFault)
deriving DecidableEq, Repr

/-- The error at a byte offset of a document. -/
def malformedAt (source : List Char) (offset : Nat) : Error :=
  .malformed (placeOf source offset)

/-- The error of a misfit in a document; without a place it is at the start. -/
def misshapenAt (source : List Char) (m : Misfit) : Error :=
  let span := m.span.getD ⟨0, 0⟩
  let place := placeOf source span.start
  let line := lineText place.line source
  let width := max 1 (min (span.stop - span.start) (byteLength line - place.column))
  .misshapen place (String.ofList line) width m.fault

/-- The text of an error. -/
def Error.message : Error → String
  | .malformed place =>
    s!"TOML parse error at line {place.line + 1}, column {place.column + 1}"
  | .misshapen place line width fault =>
    let number := toString (place.line + 1)
    let gutter := "".pushn ' ' (number.length + 1) ++ "|"
    let marks := "".pushn ' ' (place.column + 1) ++ "".pushn '^' width
    s!"TOML parse error at line {number}, column {place.column + 1}\n{gutter}\n" ++
      s!"{number} | {line}\n{gutter}{marks}\n{fault.message}\n"

end SlotTemplates.Toml
