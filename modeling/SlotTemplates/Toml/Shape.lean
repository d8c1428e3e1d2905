import SlotTemplates.Entries
import SlotTemplates.Toml.Fault

/-!
# Reading shapes out of TOML

Readers for the parts of a document whose shape is known: texts, flags, lists, tables with
named fields. On an `Item` a reader reports the place of what does not fit; on `Data`, which has
no places, it reports the fault alone. A structure with named fields (`Fields`) may be written
as a table, or as a list in the order of the fields.
-/

namespace SlotTemplates.Toml

/-- The only entry of the table that a date or time is for a reader of tables. -/
def datetimeKey : String := "$__toml_private_datetime"

namespace Item

/-- What an item of an unexpected type is refused with. -/
def refuse (item : Item) (expected : String) : Misfit :=
  ⟨item.span?, .wrongType item.described expected⟩

/-- A text. -/
def text (item : Item) (expected : String := "a string") : Except Misfit String :=
  match item with
  | .scalar _ (.string s) => .ok s
  | item => .error (item.refuse expected)

/-- A flag. -/
def flag (item : Item) : Except Misfit Bool :=
  match item with
  | .scalar _ (.boolean b) => .ok b
  | item => .error (item.refuse "a boolean")

/-- The entries of a table, as data. -/
def members (item : Item) : Except Misfit (List (String × Data)) :=
  match item with
  | .table _ entries => .ok (dataEntries entries)
  | .scalar _ (.datetime text) => .ok [(datetimeKey, .string text)]
  | item => .error (item.refuse "a map")

/-- A list of texts; `expected` names one of them. -/
def texts (item : Item) (expected : String := "a string") : Except Misfit (List String) :=
  match item with
  | .array _ items => items.mapM (text · expected)
  | .tables ts =>
    match ts with
    | [] => .ok []
    | (info, entries) :: _ => .error ((Item.table info entries).refuse expected |>.within
        (tablesSpan ts))
  | item => .error (item.refuse "a sequence")

end Item

namespace Data

/-- A text. -/
def text (d : Data) : Except ShapeFault String :=
  match d with
  | .string s => .ok s
  | d => .error (.wrongType d.described "a string")

/-- A flag. -/
def flag (d : Data) : Except ShapeFault Bool :=
  match d with
  | .boolean b => .ok b
  | d => .error (.wrongType d.described "a boolean")

/-- A list. -/
def list (d : Data) : Except ShapeFault (List Data) :=
  match d with
  | .array items => .ok items
  | d => .error (.wrongType d.described "a sequence")

end Data

/-- A structure with named fields, to be read from parts of type `δ` with faults of type `ε`. -/
structure Fields (δ ε α : Type) where
  /-- How faults name the structure. -/
  name : String
  /-- The fields in order; a list may end before a field that is marked `true`. -/
  order : List (String × Bool)
  /-- A list that goes on after the last field is refused. -/
  closed : Bool
  /-- The structure without any field. -/
  blank : α
  /-- The structure with a field read. -/
  set : α → String → δ → Except ε α
  /-- A fault at a place. -/
  fault : Option Span → ShapeFault → ε

namespace Fields

variable {δ ε α : Type}

/-- How faults count the parts of the structure. -/
def sized (fields : Fields δ ε α) : String :=
  s!"{fields.name} with {fields.order.length} elements"

/-- The structure that a table writes: its fields in any order, no others. -/
def ofTable (fields : Fields δ ε α) (entries : List (String × Option Span × δ)) : Except ε α :=
  entries.foldlM (fun a (name, span, d) =>
      if Entries.has name fields.order then fields.set a name d
      else .error (fields.fault span (.unknownField name (fields.order.map Prod.fst))))
    fields.blank

/-- The structure that a list of `length` items writes: one item for every field, in order;
`index` is the number of fields read so far. -/
def ofItems (fields : Fields δ ε α) (length : Nat) :
    Nat → List (String × Bool) → List δ → α → Except ε α
  | _, [], [], a => .ok a
  | _, [], _ :: _, a =>
    if fields.closed then
      .error (fields.fault none (.wrongLength length "fewer elements in array"))
    else .ok a
  | index, (name, _) :: order, d :: ds, a =>
    match fields.set a name d with
    | .error e => .error e
    | .ok a => ofItems fields length (index + 1) order ds a
  | index, (_, mayMiss) :: order, [], a =>
    if mayMiss then ofItems fields length (index + 1) order [] a
    else .error (fields.fault none (.wrongLength index fields.sized))

/-- The structure that a list writes. -/
def ofList (fields : Fields δ ε α) (items : List δ) : Except ε α :=
  fields.ofItems items.length 0 fields.order items fields.blank

end Fields

/-- The structure that data writes, as a table or as a list. -/
def Data.fields {α : Type} (fields : Fields Data ShapeFault α) (d : Data) : Except ShapeFault α :=
  match d with
  | .table entries => fields.ofTable (entries.map fun (name, d) => (name, none, d))
  | .array items => fields.ofList items
  | d => .error (.wrongType d.described fields.name)

/-- The structure that the entries of a table write. -/
def Table.fields {α : Type} (fields : Fields Item Misfit α) (entries : List (Key × Item)) :
    Except Misfit α :=
  fields.ofTable (entries.map fun (key, item) => (key.name, some key.span, item))

/-- The structure that an item writes, as a table or as a list. -/
def Item.fields {α : Type} (fields : Fields Item Misfit α) (item : Item) : Except Misfit α :=
  let result :=
    match item with
    | .table _ entries => Table.fields fields entries
    | .array _ items => fields.ofList items
    | .tables ts => fields.ofList (ts.map fun (info, entries) => .table info entries)
    | .scalar span (.datetime text) =>
      fields.ofTable [(datetimeKey, none, .scalar span (.string text))]
    | item => .error (item.refuse fields.name)
  result.mapError (Misfit.within item.span?)

end SlotTemplates.Toml
