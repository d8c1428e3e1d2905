import SlotTemplates.Component.Error
import SlotTemplates.Syntax.Compile

/-!
# The catalog of components

A `Catalog` is a view of a file tree: directories in which components are looked for, and the
extensions that their files have. A name resolves to the first file that is there, by directory
and then by extension (`Catalog.resolve`). Loaded components are kept in a `Cache` under their
canonical names: `Catalog.lookup` answers from it, and enters only what was loaded without an
error, so that a failed lookup leaves it as it was.
-/

namespace SlotTemplates

/-- A loaded component. -/
structure Definition where
  /-- The canonical name. -/
  name : String
  path : Path
  declaration : Declaration
  /-- The whole file; its header is a comment. -/
  template : Template
deriving Repr, Inhabited

/-- Loaded components by canonical name. -/
abbrev Cache := Entries Definition

/-- Where components come from. -/
structure Catalog where
  files : Tree
  roots : List Path
  extensions : List String
  tags : TagSet

namespace Cache

/-- The cache without a component, under whatever spelling of its name. -/
def invalidate (cache : Cache) (name : String) : Cache :=
  match canonicalName? name with
  | some canonical => Entries.erase cache canonical
  | none => cache

/-- Whether a component is held, under whatever spelling of its name. -/
def holds (cache : Cache) (name : String) : Bool :=
  match canonicalName? name with
  | some canonical => Entries.has canonical cache
  | none => false

end Cache

namespace Catalog

/-! ### Files of a name -/

/-- The paths that a component can have, in the order of preference. -/
def candidates (cat : Catalog) (canonical : String) : List Path :=
  let segments := (pieces (· = '.') canonical.toList).map String.ofList
  cat.roots.flatMap fun root =>
    let dir := segments.dropLast.foldl Path.join root
    cat.extensions.map fun extension =>
      Path.join dir (segments.getLastD "" ++ "." ++ extension)

/-- The file of a component. -/
def resolve (cat : Catalog) (canonical : String) : Option Path :=
  (cat.candidates canonical).find? cat.files.isFile

/-! ### Names of files -/

/-- The name of the component that a file below a directory is, if its extension is one of a
component. A name with a point before the extension is none: the point would separate
segments. A file whose stem is a point alone stands for the directory that it is in. -/
def nameOf (cat : Catalog) (file : List String) : Option String := do
  let (stem, extension) ← Path.splitExtension (← file.getLast?)
  let directories := file.dropLast
  let segments :=
    if stem = "." ∧ directories ≠ [] then directories else directories ++ [stem]
  if cat.extensions.contains extension && segments.all fun s => !s.toList.contains '.' then
    canonicalName? (".".intercalate segments)
  else none

/-- The names of all components, in order and each once. -/
def names (cat : Catalog) : List String :=
  let found := cat.roots.flatMap fun root => (cat.files.filesBelow root).filterMap cat.nameOf
  (Entries.sorted (found.map fun name => (name, ()))).keys

/-! ### Loading -/

/-- The component that a file holds. -/
def load (cat : Catalog) (name : String) (path : Path) : Except ComponentError Definition := do
  let source ← (cat.files.read path).mapError (ComponentError.unreadable path)
  let declaration ← (Declaration.ofSource source.toList).mapError
    (ComponentError.badDeclaration name path)
  let template ← (Template.compile cat.tags path source).mapError
    (ComponentError.badTemplate name path)
  return { name, path, declaration, template }

/-- The component that a name means now, whatever was loaded before. -/
def fetch (cat : Catalog) (canonical : String) : Except ComponentError (Option Definition) :=
  match cat.resolve canonical with
  | some path => (cat.load canonical path).map some
  | none => .ok none

/-- The component of a name, and the cache afterwards. -/
def lookup (cat : Catalog) (cache : Cache) (name : String) :
    Except ComponentError (Option Definition) × Cache :=
  match canonicalName? name with
  | none => (.ok none, cache)
  | some canonical =>
    match Entries.get? canonical cache with
    | some definition => (.ok (some definition), cache)
    | none =>
      match cat.fetch canonical with
      | .ok (some definition) =>
        (.ok (some definition), Entries.insert cache canonical definition)
      | result => (result, cache)

/-- Whether a name has a component that can be loaded, and the cache afterwards. -/
def has (cat : Catalog) (cache : Cache) (name : String) : Bool × Cache :=
  match cat.lookup cache name with
  | (.ok (some _), cache) => (true, cache)
  | (_, cache) => (false, cache)

/-- The cache after a lookup of every name, up to the first error. -/
def lookupAll (cat : Catalog) : List String → Cache → Except ComponentError Unit × Cache
  | [], cache => (.ok (), cache)
  | name :: names, cache =>
    match cat.lookup cache name with
    | (.ok _, cache) => cat.lookupAll names cache
    | (.error e, cache) => (.error e, cache)

/-- The number of components, once all of them are loaded. -/
def preload (cat : Catalog) (cache : Cache) : Except ComponentError Nat × Cache :=
  match cat.lookupAll cat.names cache with
  | (.ok (), cache) => (.ok cat.names.length, cache)
  | (.error e, cache) => (.error e, cache)

end Catalog

end SlotTemplates
