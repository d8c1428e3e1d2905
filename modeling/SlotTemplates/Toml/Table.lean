import SlotTemplates.Toml.Item

/-!
# Building tables

A document names its tables piece by piece: by headers, by dotted keys, and by values in
braces. `Table.descend` goes along a path of keys and makes the tables that are missing;
`Table.bind` binds a key there. Both give nothing where a document would name something twice
in ways that exclude each other.
-/

namespace SlotTemplates.Toml

/-- The item of a key. -/
def findItem? (name : String) : List (Key × Item) → Option Item
  | [] => none
  | (key, item) :: rest => if key.name = name then some item else findItem? name rest

/-- The entries with the item of a key replaced in its place. -/
def replaceItem (name : String) (item : Item) : List (Key × Item) → List (Key × Item)
  | [] => []
  | (key, old) :: rest =>
    if key.name = name then (key, item) :: rest else (key, old) :: replaceItem name item rest

/-- The entries without a key. -/
def removeItem (name : String) (entries : List (Key × Item)) : List (Key × Item) :=
  entries.filter fun entry => entry.1.name ≠ name

namespace Table

/-- A table that only a longer key names. -/
def implied (inBraces dotted : Bool) : Table := (⟨none, inBraces, true, dotted⟩, [])

/-- The table with the one at the end of a path changed by `f`. A dotted path does not enter a
table that has a header or braces of its own, and no path enters a value; a list of tables
stands for its last one. -/
def descend (dotted : Bool) (f : Table → Option Table) : List Key → Table → Option Table
  | [], t => f t
  | key :: path, (info, entries) =>
    match findItem? key.name entries with
    | none => do
      let (i, es) ← descend dotted f path (implied info.inBraces dotted)
      return (info, entries ++ [(key, .table i es)])
    | some (.table i es) =>
      if i.inBraces ≠ info.inBraces ∨ (dotted ∧ ¬ i.implicit) then none
      else do
        let (i, es) ← descend dotted f path (i, es)
        return (info, replaceItem key.name (.table i es) entries)
    | some (.tables ts) =>
      match ts.getLast? with
      | none => none
      | some last => do
        let t ← descend dotted f path last
        return (info, replaceItem key.name (.tables (ts.dropLast ++ [t])) entries)
    | some _ => none

/-- The table with a value bound under a dotted path and a key. A table that dotted keys made
is extended by dotted keys only, and one that has a header by plain keys only. -/
def bind (path : List Key) (key : Key) (value : Item) (t : Table) : Option Table :=
  descend true (fun (info, entries) =>
      if info.dotted = path.isEmpty ∨ (findItem? key.name entries).isSome then none
      else some (info, entries ++ [(key, value)]))
    path t

/-- The table in braces with entries bound in order. -/
def ofBraces (span : Span) (entries : List (List Key × Key × Item)) : Option Table :=
  entries.foldlM (fun t (path, key, value) => bind path key value t)
    (⟨some span, true, false, false⟩, [])

end Table

end SlotTemplates.Toml
