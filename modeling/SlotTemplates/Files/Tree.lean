import SlotTemplates.Entries
import SlotTemplates.Files.Path

/-!
# File trees

The files that a program can see, as a value: a directory holds named trees, a file a text or
bytes that are no text. Paths are looked up from the top of the tree; outside of it there is
nothing. `Tree.walk` follows a path and says why it cannot, `Tree.read` reads a text, and
`Tree.put` and `Tree.remove` change the tree.
-/

namespace SlotTemplates

/-- What a file holds. -/
inductive Content where
  | text (s : String)
  /-- Bytes that are no UTF-8. -/
  | binary
deriving DecidableEq, Repr, Inhabited

/-- A file or a directory. -/
inductive Tree where
  | file (content : Content)
  | dir (entries : List (String × Tree))
deriving Repr, Inhabited

/-- Why a file cannot be read. -/
inductive FileFault where
  | notFound
  | notDirectory
  | isDirectory
  | nameTooLong
  | nulInName
  | notText
deriving DecidableEq, Repr

/-- The wording of a fault. -/
def FileFault.message : FileFault → String
  | .notFound => "No such file or directory (os error 2)"
  | .notDirectory => "Not a directory (os error 20)"
  | .isDirectory => "Is a directory (os error 21)"
  | .nameTooLong => "File name too long (os error 36)"
  | .nulInName => "file name contained an unexpected NUL byte"
  | .notText => "stream did not contain valid UTF-8"

namespace Tree

/-- The number of bytes that a name can have. -/
def longestName : Nat := 255

/-- The tree that parts of a path lead to; `above` are the directories around the tree, the
nearest first. -/
def walk (above : List Tree) : Tree → List String → Except FileFault Tree
  | t, [] => .ok t
  | .file _, _ :: _ => .error .notDirectory
  | .dir entries, part :: parts =>
    if part = "" ∨ part = "." then walk above (.dir entries) parts
    else if part = ".." then
      match above with
      | [] => .error .notFound
      | t :: above => walk above t parts
    else
      match Entries.get? part entries with
      | some t => walk (.dir entries :: above) t parts
      | none => .error (if longestName < part.utf8ByteSize then .nameTooLong else .notFound)

/-- The tree at a path. -/
def locate (t : Tree) (path : Path) : Except FileFault Tree :=
  if path.toList.contains '\x00' then .error .nulInName
  else if path = "" ∨ path.isAbsolute then .error .notFound
  else walk [] t path.parts

/-- Whether there is a file at a path. -/
def isFile (t : Tree) (path : Path) : Bool :=
  match t.locate path with
  | .ok (.file _) => true
  | _ => false

/-- The text of the file at a path. -/
def read (t : Tree) (path : Path) : Except FileFault String :=
  match t.locate path with
  | .ok (.file (.text s)) => .ok s
  | .ok (.file .binary) => .error .notText
  | .ok (.dir _) => .error .isDirectory
  | .error fault => .error fault

mutual

/-- The files in a tree, each by the names that lead to it. -/
def files : Tree → List (List String)
  | .file _ => [[]]
  | .dir entries => filesOf entries

/-- The files in the entries of a directory. -/
def filesOf : List (String × Tree) → List (List String)
  | [] => []
  | (name, t) :: rest => (files t).map (name :: ·) ++ filesOf rest

end

/-- The files below the directory at a path; none if there is no directory. -/
def filesBelow (t : Tree) (path : Path) : List (List String) :=
  match t.locate path with
  | .ok (.dir entries) => filesOf entries
  | _ => []

/-- The tree with a file or a directory at the end of names. Missing directories are made, a
file takes the place of a file, and nothing else is replaced. -/
def putAt : List String → Tree → Option Tree → Tree
  | [], new, none => new
  | [], .file c, some (.file _) => .file c
  | [], _, some old => old
  | name :: names, new, none => .dir [(name, putAt names new none)]
  | name :: names, new, some (.dir entries) =>
    .dir (Entries.insert entries name (putAt names new (Entries.get? name entries)))
  | _ :: _, _, some (.file c) => .file c

/-- The tree with a file or a directory at a path. -/
def put (t : Tree) (path : Path) (new : Tree) : Tree := putAt path.names new (some t)

/-- The tree without what is at the end of names. -/
def removeAt : List String → Tree → Tree
  | [name], .dir entries => .dir (Entries.erase entries name)
  | name :: names, .dir entries =>
    match Entries.get? name entries with
    | some t => .dir (Entries.insert entries name (removeAt names t))
    | none => .dir entries
  | _, t => t

/-- The tree without what is at a path. -/
def remove (t : Tree) (path : Path) : Tree := removeAt path.names t

/-- The tree of files with their paths. -/
def ofFiles (files : List (Path × Tree)) : Tree :=
  files.foldl (fun t (path, new) => t.put path new) (.dir [])

end Tree

end SlotTemplates
