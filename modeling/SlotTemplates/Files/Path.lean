import SlotTemplates.Text.Pieces

/-!
# Paths

A path is a text of names with slashes between them. `Path.join` puts one path behind another,
`Path.parts` takes it apart, and `Path.parent` is the directory that a path leads through last.
A path is kept as it is written: joining does not simplify it.
-/

namespace SlotTemplates

/-- A path as it is written. -/
abbrev Path := String

namespace Path

/-- The pieces of a path between slashes, as characters. -/
def rawParts (p : Path) : List (List Char) := pieces (· = '/') p.toList

/-- The pieces of a path between slashes, empty ones included. -/
def parts (p : Path) : List String := p.rawParts.map String.ofList

/-- Whether a path starts at the root. -/
def isAbsolute (p : Path) : Bool := p.toList.head? == some '/'

/-- A path seen from a directory: an absolute one stays what it is. -/
def join (base p : Path) : Path :=
  if p.isAbsolute || base.isEmpty then p
  else if base.toList.getLast? = some '/' then base ++ p
  else base ++ "/" ++ p

/-- Whether a part of a path stays where it is. -/
def staysPut (part : List Char) : Bool := part = [] || part = ['.']

/-- The directory in which the last name of a path stands; the empty path for a name alone. -/
def parent (p : Path) : Path :=
  let dropIdle (pieces : List (List Char)) := pieces.dropWhile staysPut
  match dropIdle p.rawParts.reverse with
  | [] => ""
  | _ :: above =>
    match dropIdle above, above.getLast? with
    | [], some [] => "/"
    | [], some ['.'] => "."
    | [], _ => ""
    | kept, _ => String.ofList (['/'].intercalate kept.reverse)

/-- The names that a path leads through, where `..` goes back. -/
def names (p : Path) : List String :=
  p.parts.foldl (fun acc part =>
      if part = "" ∨ part = "." then acc
      else if part = ".." then acc.dropLast
      else acc ++ [part])
    []

/-- The stem and the extension of a file name: the text before and after its last point, unless
that is its first character. -/
def splitExtension (name : String) : Option (String × String) :=
  let after := name.toList.reverse.takeWhile (· ≠ '.')
  match name.toList.reverse.dropWhile (· ≠ '.') with
  | [] => none
  | [_] => none
  | _ :: stem => some (String.ofList stem.reverse, String.ofList after.reverse)

/-! ### Forms of paths -/

/-- A separator is written once, also behind a base that ends in one. -/
example : join "a/" "b" = "a/b" ∧ join "a" "b" = "a/b" ∧ join "" "b" = "b" := by decide

/-- An absolute path does not depend on where it is seen from. -/
example : join "a" "/b" = "/b" := by decide

/-- A name alone stands in the directory without a name. -/
example : parent "a/b/c" = "a/b" ∧ parent "c" = "" ∧ parent "/c" = "/" := by decide

/-- Only the last point counts, and a first one does not. -/
example : splitExtension "a.b.tpl" = some ("a.b", "tpl") ∧ splitExtension ".tpl" = none := by
  decide

end Path

end SlotTemplates
