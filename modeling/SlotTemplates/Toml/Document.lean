import SlotTemplates.Toml.Scalar
import SlotTemplates.Toml.Table

/-!
# Reading TOML documents

`readDocument` reads a whole document into its root table, or gives the place of the first
thing that is no TOML: a byte offset. The table of the header that was read last is held apart
until the next header comes, and then takes its place at the end of its parent.
-/

namespace SlotTemplates.Toml

/-- The range of a text of `total` bytes from where `before` is left to where `after` is. -/
def rangeOf (total : Nat) (before after : List Char) : Span :=
  ⟨total - byteLength before, total - byteLength after⟩

/-- The characters of a key without quotes. -/
def isKeyChar (c : Char) : Bool := c.isAlphanum || c = '_' || c = '-'

/-- A key without dots. -/
def simpleKey (total : Nat) (s : List Char) : Except Failure (Key × List Char) :=
  match s with
  | [] => miss []
  | c :: r =>
    if c = '"' ∨ c = '\'' then do
      let (name, rest) ← lineString c (r.length + 1) [] r
      return (⟨name, rangeOf total s rest⟩, rest)
    else
      let name := s.takeWhile isKeyChar
      let rest := s.dropWhile isKeyChar
      if name.isEmpty then miss s else .ok (⟨String.ofList name, rangeOf total s rest⟩, rest)

/-- The parts of a dotted key after its first part, as far as they go. -/
def moreKeys (total : Nat) : Nat → List Char → Except Failure (List Key × List Char)
  | 0, s => .ok ([], s)
  | steps + 1, s =>
    match s with
    | '.' :: r =>
      match simpleKey total (skipSpaces r) with
      | .ok (key, r) => do
        let (keys, rest) ← moreKeys total steps (skipSpaces r)
        return (key :: keys, rest)
      | .error ⟨rest, true⟩ => fail rest
      | .error ⟨_, false⟩ => .ok ([], s)
    | s => .ok ([], s)

/-- One more than the number of brackets that may stand around a value, and the number of
parts of a key. -/
def depthLimit : Nat := 80

/-- A key with its dots: the path and the last part. Blanks around it belong to it. -/
def dottedKey (total : Nat) (s : List Char) :
    Except Failure ((List Key × Key) × List Char) := do
  let (key, r) ← simpleKey total (skipSpaces s)
  let (keys, rest) ← moreKeys total r.length (skipSpaces r)
  if depthLimit ≤ keys.length + 1 then fail s
  else
    match (key :: keys).getLast? with
    | some last => return (((key :: keys).dropLast, last), rest)
    | none => miss s

mutual

/-- A value; `depth` counts the brackets around it. -/
def readValue (total : Nat) (depth : Nat) : Nat → List Char → Except Failure (Item × List Char)
  | 0, s => fail s
  | steps + 1, s =>
    match s with
    | '[' :: r =>
      if depthLimit ≤ depth then fail s
      else
        match readItems total (depth + 1) steps r with
        | .error f => .error f
        | .ok (items, rest) => .ok (.array (rangeOf total s rest) items, rest)
    | '{' :: r =>
      if depthLimit ≤ depth then fail s
      else
        match readEntries total (depth + 1) steps none r with
        | .error f => .error f
        | .ok (entries, rest) =>
          match Table.ofBraces (rangeOf total s rest) entries with
          | some (info, entries) => .ok (.table info entries, rest)
          | none => fail r
    | s =>
      match scalar s with
      | .error f => .error f
      | .ok (value, rest) => .ok (.scalar (rangeOf total s rest) value, rest)

/-- The items of an array up to its bracket. -/
def readItems (total : Nat) (depth : Nat) :
    Nat → List Char → Except Failure (List Item × List Char)
  | 0, s => fail s
  | steps + 1, s =>
    match skipBlanks false s with
    | ']' :: r => .ok ([], r)
    | s =>
      match must (readValue total depth steps s) with
      | .error f => .error f
      | .ok (item, r) =>
        match skipBlanks false r with
        | ',' :: r =>
          match readItems total depth steps r with
          | .error f => .error f
          | .ok (items, rest) => .ok (item :: items, rest)
        | ']' :: r => .ok ([item], r)
        | r => fail r

/-- The entries of a table in braces up to its brace; `comma` is the text from the comma that
was read last. -/
def readEntries (total : Nat) (depth : Nat) :
    Nat → Option (List Char) → List Char →
      Except Failure (List (List Key × Key × Item) × List Char)
  | 0, _, s => fail s
  | steps + 1, comma, s =>
    match dottedKey total s with
    | .error ⟨rest, true⟩ => fail rest
    | .error ⟨_, false⟩ =>
      match comma, skipSpaces s with
      | some comma, _ => fail comma
      | none, '}' :: r => .ok ([], r)
      | none, r => fail r
    | .ok ((path, key), r) =>
      match r with
      | '=' :: r =>
        match must (readValue total depth steps (skipSpaces r)) with
        | .error f => .error f
        | .ok (item, r) =>
          match skipSpaces r with
          | ',' :: r =>
            match readEntries total depth steps (some (',' :: r)) r with
            | .error f => .error f
            | .ok (entries, rest) => .ok ((path, key, item) :: entries, rest)
          | '}' :: r => .ok ([(path, key, item)], r)
          | r => fail r
      | r => fail r

end

/-- A document as far as it was read: the root without the table of the last header, that
table, its path, and whether its header is one of a list. -/
structure Draft where
  root : Table
  current : Table
  path : List Key
  listed : Bool

namespace Draft

/-- The document before anything was read. -/
def empty : Draft :=
  { root := (⟨none, false, false, false⟩, []),
    current := (⟨some ⟨0, 0⟩, false, false, false⟩, []), path := [], listed := false }

/-- The root with the current table in its place. -/
def close (d : Draft) : Option Table :=
  match d.path.getLast? with
  | none => some d.current
  | some key =>
    Table.descend false (fun (info, entries) =>
        if d.listed then
          match findItem? key.name entries with
          | some (.tables ts) =>
            some (info, replaceItem key.name (.tables (ts ++ [d.current])) entries)
          | _ => none
        else some (info, entries ++ [(key, .table d.current.1 d.current.2)]))
      d.path.dropLast d.root

/-- The document after a key and its value. The current table reaches to the end of it. -/
def bind (d : Draft) (path : List Key) (key : Key) (value : Item) : Option Draft := do
  let (info, entries) := d.current
  let span := match info.span, value.span? with
    | some a, some b => some (a.through b)
    | span, _ => span
  let current ← Table.bind path key value ({ info with span }, entries)
  return { d with current }

/-- The document after the header of a table. A table that was only implied so far leaves its
place and becomes the current one. -/
def openTable (d : Draft) (path : List Key) (key : Key) (span : Span) : Option Draft := do
  let closed ← d.close
  let root ← Table.descend false (fun (info, entries) =>
      match findItem? key.name entries with
      | none => some (info, entries)
      | some (.table i _) =>
        if i.implicit ∧ ¬ i.dotted ∧ ¬ i.inBraces then some (info, removeItem key.name entries)
        else none
      | some _ => none)
    path closed
  let kept := (itemAt (path ++ [key]) closed.2).getD []
  return { root, current := (⟨some span, false, false, false⟩, kept), path := path ++ [key],
           listed := false }
where
  /-- The entries of the table at the end of a path, the last one of a list. -/
  itemAt : List Key → List (Key × Item) → Option (List (Key × Item))
    | [], entries => some entries
    | key :: path, entries =>
      match findItem? key.name entries with
      | some (.table _ es) => itemAt path es
      | some (.tables ts) => ts.getLast?.bind fun t => itemAt path t.2
      | _ => none

/-- The document after the header of one more table of a list. -/
def openListed (d : Draft) (path : List Key) (key : Key) (span : Span) : Option Draft := do
  let closed ← d.close
  let root ← Table.descend false (fun (info, entries) =>
      match findItem? key.name entries with
      | none => some (info, entries ++ [(key, .tables [])])
      | some (.tables _) => some (info, entries)
      | some _ => none)
    path closed
  return { root, current := (⟨some span, false, false, false⟩, []), path := path ++ [key],
           listed := true }

end Draft

/-- The document after the header at the front of a text. -/
def readHeader (total : Nat) (d : Draft) (s : List Char) : Except Failure (Draft × List Char) :=
  let finish (opened : Option Draft) (rest : List Char) : Except Failure (Draft × List Char) :=
    match lineEnd rest with
    | .error f => .error f
    | .ok rest =>
      match opened with
      | some d => .ok (d, rest)
      | none => fail s
  match s with
  | '[' :: '[' :: r =>
    match must (dottedKey total r) with
    | .error f => .error f
    | .ok ((path, key), r) =>
      match r with
      | ']' :: ']' :: rest => finish (d.openListed path key (rangeOf total s rest)) rest
      | r => fail r
  | '[' :: c :: r =>
    match must (dottedKey total (c :: r)) with
    | .error f => .error f
    | .ok ((path, key), r) =>
      match r with
      | ']' :: rest => finish (d.openTable path key (rangeOf total s rest)) rest
      | r => fail r
  | s => fail s

/-- The document after the key and value at the front of a text. -/
def readBinding (total : Nat) (d : Draft) (s : List Char) : Except Failure (Draft × List Char) :=
  match must (dottedKey total s) with
  | .error f => .error f
  | .ok ((path, key), r) =>
    match r with
    | '=' :: r =>
      match must (readValue total 0 (r.length + 1) (skipSpaces r)) with
      | .error f => .error f
      | .ok (item, r) =>
        match lineEnd r with
        | .error f => .error f
        | .ok rest =>
          match d.bind path key item with
          | some d => .ok (d, rest)
          | none => fail s
    | r => fail r

/-- The document with what a text adds to it. Every step reads at least one character. -/
def readLines (total : Nat) : Nat → Draft → List Char → Except Failure Draft
  | 0, _, s => fail s
  | steps + 1, d, s =>
    match skipSpaces s with
    | [] => .ok d
    | c :: r =>
      let s := c :: r
      if c = '#' then
        match lineEnd s with
        | .error f => .error f
        | .ok rest => readLines total steps d rest
      else if c = '\n' ∨ c = '\r' then
        match newline? s with
        | some rest => readLines total steps d rest
        | none => fail s
      else
        match (if c = '[' then readHeader total d s else readBinding total d s) with
        | .error f => .error f
        | .ok (d, rest) => readLines total steps d rest

/-- The mark that may stand in front of a document. -/
def byteOrderMark : Char := '\ufeff'

/-- The root table of a document, or the byte offset of the first fault. -/
def readDocument (source : List Char) : Except Nat Table :=
  let total := byteLength source
  let s := match source with
    | c :: r => if c = byteOrderMark then r else c :: r
    | [] => []
  match readLines total (s.length + 1) Draft.empty s with
  | .error f => .error (total - byteLength f.rest)
  | .ok d =>
    match d.close with
    | some t => .ok t
    | none => .error total

end SlotTemplates.Toml
