import SlotTemplates.Text.Blank
import SlotTemplates.Text.Pieces

/-!
# Component names

A component is addressed by segments that are separated by points or slashes.
`canonicalName?` is the dotted form of a name, or nothing for a name that can never resolve:
no segment may be empty, hold a backslash or a colon, or hold a blank character, so that a
name cannot lead out of the directory it is looked up in.
-/

namespace SlotTemplates

/-- The characters between the segments of a written name. -/
def isSeparator (c : Char) : Bool := c = '.' || c = '/'

/-- The segments of a text, empty ones included. -/
def splitSegments (text : List Char) : List (List Char) := pieces isSeparator text

/-- Whether a text can be a segment. -/
def isSegment (segment : List Char) : Bool :=
  !segment.isEmpty && segment.all fun c => c ≠ '\\' && c ≠ ':' && !isBlank c

/-- The dotted form of segments. -/
def joinSegments (segments : List (List Char)) : List Char := ['.'].intercalate segments

/-- The canonical segments of a written name, if it is one. -/
def nameSegments? (name : String) : Option (List (List Char)) :=
  let segments := splitSegments (trim name.toList)
  if segments.all isSegment then some segments else none

/-- The canonical dotted form of a written name, if it can resolve. -/
def canonicalName? (name : String) : Option String :=
  (nameSegments? name).map fun segments => String.ofList (joinSegments segments)

/-- Points and slashes are the same, and blanks around a name do not count. -/
example : canonicalName? " forms/input.text " = some "forms.input.text" := by decide

/-- No name leads upwards: the segments of two points are empty. -/
example : canonicalName? "../secret" = none := by decide

end SlotTemplates
