import SlotTemplates.Syntax.Error
import SlotTemplates.Text.Blank
import SlotTemplates.Text.Lines
import SlotTemplates.Text.Width

/-!
# Reports

A report shows a diagnostic on the lines of its source, with the place underlined and the
message below it. The numbers of a span are taken for numbers of characters. A place over
several lines is marked in the margin from its first line to its last one, and the lines in
between are left out.

`Diagnostic.report?` gives nothing for a span that ends before it starts. A span that does not
lie in the source is reported without any line.
-/

namespace SlotTemplates

namespace Report

/-- A text of one character repeated. -/
def fill (n : Nat) (c : Char) : String := String.ofList (List.replicate n c)

/-- The margin of a line without a number. -/
def margin (width : Nat) : String := fill (width + 2) ' ' ++ "│ "

/-- The margin of a line with its number, counted from zero. -/
def numbered (width line : Nat) : String :=
  let number := toString (line + 1)
  " " ++ fill (width - number.length) ' ' ++ number ++ " │ "

/-- The characters of a line that are shown: without blanks at the end. -/
def shownChars (line : TextLine) : List Char := trimEnd line.chars

/-- The text of a line, with blanks as spaces. -/
def shown (line : TextLine) : String :=
  String.ofList ((shownChars line).zipIdx.flatMap fun (c, index) =>
    if isBlank c then List.replicate (columnsOf index c) ' ' else [c])

/-- The numbers of columns of the first `count` characters of a line; one column for each that
is not shown. -/
def columns (line : TextLine) (count : Nat) : List Nat :=
  let chars := shownChars line
  (List.range count).map fun index => ((chars[index]?).map (columnsOf index)).getD 1

/-- A row under a line: `cell` gives for every character what stands in its first column and
what in the others. -/
def row (line : TextLine) (count : Nat) (cell : Nat → Char × Char) : String :=
  String.ofList ((columns line count).zipIdx.flatMap fun (width, index) =>
    (cell index).1 :: List.replicate (width - 1) (cell index).2 |>.take width)

/-- The rows of a place on one line: from `first` to before `stop` on the line, with the message
below its middle. -/
def inlineRows (width number : Nat) (line : TextLine) (first stop : Nat) (message : String) :
    List String :=
  let count := stop + 2
  let middle := (first + stop) / 2
  let marked (index : Nat) : Bool := first ≤ index && index < stop
  [numbered width number ++ shown line,
   margin width ++ row line count fun index =>
    if index = middle then (if marked index then ('┬', '─') else ('│', ' '))
    else if marked index then ('─', '─')
    else (' ', ' '),
   margin width ++ (row line count fun index =>
    if index = middle then ('╰', '─')
    else if middle < index then ('─', '─')
    else (' ', ' ')) ++ " " ++ message]

/-- The rows of a place over several lines. `beyond` tells that the place ends behind the
source: then its end is not shown. -/
def blockRows (width firstNumber lastNumber : Nat) (first last : TextLine) (beyond : Bool)
    (message : String) : List String :=
  let count := last.chars.length + 2
  let start := [numbered width firstNumber ++ "╭─▶ " ++ shown first]
  let gap :=
    if firstNumber + 1 < lastNumber || beyond then [fill (width + 2) ' ' ++ "┆ ┆   "] else []
  let stop :=
    if beyond then []
    else
      [numbered width lastNumber ++ "├─▶ " ++ shown last,
       margin width ++ "│   " ++ row last count fun _ => (' ', ' '),
       margin width ++ "╰───" ++ (row last count fun _ => ('─', '─')) ++ " " ++ message]
  start ++ gap ++ stop

/-- The place that stands over the lines: the file, and the line and column of a character. -/
def location (file : String) (lines : List TextLine) (place : Nat) : String :=
  let number := lineNumber lines place
  let column := place - (lines.getD number default).start
  s!"╭─[{file}:{number + 1}:{column + 1}]"

end Report

open Report in
/-- The report of a diagnostic in a source, which is named as a file. -/
def Diagnostic.report? (source : List Char) (file : String) (d : Diagnostic) : Option String :=
  let start := d.span.start
  let stop := d.span.stop
  if stop < start then none
  else
    let title := ["Error: " ++ d.message]
    let lastPlace := max start (stop - 1)
    let body :=
      if source.length < lastPlace then []
      else
        let lines := linesOf source
        let firstNumber := lineNumber lines start
        let lastNumber := lineNumber lines lastPlace
        let first := lines.getD firstNumber default
        let last := lines.getD lastNumber default
        let width := (toString (lastNumber + 1)).length
        let beyond := source.length < stop
        let message :=
          if d.expected.isEmpty then d.message
          else d.message ++ "\nExpected: " ++ ", ".intercalate d.expected
        let rows :=
          if firstNumber < lastNumber then
            blockRows width firstNumber lastNumber first last beyond message
          else if beyond then [margin width]
          else
            inlineRows width firstNumber first (start - first.start) (stop - first.start) message
        [fill (width + 2) ' ' ++ location file lines start, fill (width + 2) ' ' ++ "│"] ++
          rows ++ [fill (width + 2) '─' ++ "╯"]
    some (String.join ((title ++ body).map (· ++ "\n")))

end SlotTemplates
