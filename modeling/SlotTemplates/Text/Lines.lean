/-!
# Lines of a text

A text divides into lines at carriage returns, line feeds and the other separators of lines;
a carriage return and a line feed together count as one. Every character of the text is in
exactly one line, a separator in the line that it ends.
-/

namespace SlotTemplates

/-- A line with its separator, and the number of characters before it. -/
structure TextLine where
  start : Nat
  chars : List Char
deriving DecidableEq, Repr, Inhabited

/-- Whether a character ends a line. -/
def isLineEnd (c : Char) : Bool :=
  ['\r', '\n', '\x0b', '\x0c', '\u0085', '\u2028', '\u2029'].contains c

/-- The lines of a text of which `read` characters, last first, belong to a line that starts
at `start`. -/
def splitLines (start : Nat) (read : List Char) : List Char → List TextLine
  | [] => if read.isEmpty then [] else [⟨start, read.reverse⟩]
  | '\r' :: '\n' :: rest =>
    ⟨start, ('\n' :: '\r' :: read).reverse⟩ :: splitLines (start + read.length + 2) [] rest
  | c :: rest =>
    if isLineEnd c then
      ⟨start, (c :: read).reverse⟩ :: splitLines (start + read.length + 1) [] rest
    else splitLines start (c :: read) rest

/-- The lines of a text; an empty text is one empty line. -/
def linesOf (text : List Char) : List TextLine :=
  if text.isEmpty then [⟨0, []⟩] else splitLines 0 [] text

/-- The number of the line, counted from zero, that a place among the characters is in. The
end of the text is in the last line. -/
def lineNumber (lines : List TextLine) (place : Nat) : Nat :=
  (lines.takeWhile fun line => line.start ≤ place).length - 1

/-- A carriage return and a line feed end one line, and nothing after the last separator is no
line. -/
example : linesOf "a\r\nb\n".toList = [⟨0, "a\r\n".toList⟩, ⟨3, "b\n".toList⟩] := by decide

end SlotTemplates
