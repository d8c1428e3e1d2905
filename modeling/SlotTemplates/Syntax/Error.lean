import SlotTemplates.Syntax.Token

/-!
# Syntax errors

Why a template does not compile. A `SyntaxError` is a cause, the place it points at, and what
would have been accepted there; `SyntaxFault.message` holds the wording of every cause. A
`Diagnostic` is the same as text: it is what reports are made from.
-/

namespace SlotTemplates

/-- Something a grammar would have accepted: a fixed token, or the end of the tag. -/
inductive Expectation where
  | token (t : Token)
  | endOfTag
deriving DecidableEq, Repr

/-- How a diagnostic names an expectation. -/
def Expectation.describe : Expectation → String
  | .token t => t.describe
  | .endOfTag => "end of tag"

/-- An expectation put into a list that is ordered by description, once. -/
def Expectation.insert (e : Expectation) : List Expectation → List Expectation
  | [] => [e]
  | f :: fs =>
    if e = f then f :: fs
    else if e.describe < f.describe then e :: f :: fs
    else f :: insert e fs

/-- The expectations of a list in the order of their descriptions, each once. -/
def Expectation.ordered (es : List Expectation) : List Expectation :=
  es.foldr Expectation.insert []

/-- Why a source text is not a template. -/
inductive SyntaxFault where
  /-- No token starts with this text. -/
  | strayText (text : String)
  | unexpectedToken (t : Token)
  | unexpectedEnd
  | unterminatedOutput
  | unterminatedComment (close : String)
  /-- A tag without its closing brace, shown as far as its head. -/
  | unterminatedTag (shown : String)
  | closingTagArguments (shown : String)
  | unclosedTag (shown : String)
  | strayClosingTag (shown : String)
  | unknownTag (shown : String)
  | mismatchedClose (close opened : String)
  | invalidComponentName (written : String)
  | missingComponentName (shown : String)
deriving DecidableEq, Repr

/-- The wording of a cause. -/
def SyntaxFault.message : SyntaxFault → String
  | .strayText text => "Unexpected character '" ++ text ++ "'"
  | .unexpectedToken t => "Unexpected " ++ t.describe
  | .unexpectedEnd => "Unexpected end of tag"
  | .unterminatedOutput => "Unterminated output tag, expected '\x7d\x7d'"
  | .unterminatedComment close => "Unterminated comment, expected '" ++ close ++ "'"
  | .unterminatedTag shown => "Unterminated tag '" ++ shown ++ "', expected '\x7d'"
  | .closingTagArguments shown => "Closing tag '" ++ shown ++ "' takes no arguments"
  | .unclosedTag shown => "Unclosed tag '" ++ shown ++ "'"
  | .strayClosingTag shown => "Unexpected closing tag '" ++ shown ++ "'"
  | .unknownTag shown => "Unknown tag '" ++ shown ++ "'"
  | .mismatchedClose close opened =>
    "Closing tag '" ++ close ++ "' does not match '" ++ opened ++ "'"
  | .invalidComponentName written => "Invalid component name '" ++ written ++ "'"
  | .missingComponentName shown => "'" ++ shown ++ "' needs a component name expression"

/-- A cause with its place, and what was expected there in the order of descriptions. -/
structure SyntaxError where
  span : Span
  fault : SyntaxFault
  expected : List Expectation := []
deriving DecidableEq, Repr

/-- A message about a place in a source text. -/
structure Diagnostic where
  span : Span
  message : String
  expected : List String
deriving DecidableEq, Repr

/-- The message of an error. -/
def SyntaxError.diagnostic (e : SyntaxError) : Diagnostic :=
  ⟨e.span, e.fault.message, e.expected.map Expectation.describe⟩

/-- A diagnostic on one line. -/
def Diagnostic.display (d : Diagnostic) : String :=
  s!"Syntax error at {d.span.start}..{d.span.stop}: {d.message}"

/-- An error on one line. -/
def SyntaxError.display (e : SyntaxError) : String := e.diagnostic.display

/-- The same error in a source that has `offset` more bytes in front. -/
def SyntaxError.shift (offset : Nat) (e : SyntaxError) : SyntaxError :=
  { e with span := e.span.shift offset }

end SlotTemplates
