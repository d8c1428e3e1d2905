import SlotTemplates.Json.Value
import SlotTemplates.Text.Span

/-!
# TOML trees

A TOML document as it was written: `Toml.Item` is a value, a table or a list of tables, with
the places of values and keys. `Toml.Data` is what is left when places and the ways to write a
table are forgotten; a date or time is its text there. `Data.toValue` is the JSON value of
data: numbers keep their kind, and a number that is not finite becomes `null`.
-/

namespace SlotTemplates.Toml

/-- A value that has no parts. -/
inductive Scalar where
  | string (s : String)
  | integer (n : Int)
  | float (x : Binary64)
  | boolean (b : Bool)
  /-- A date, a time or both, as text. -/
  | datetime (text : String)
deriving DecidableEq, Repr

/-- A key with its place. -/
structure Key where
  name : String
  span : Span
deriving DecidableEq, Repr

/-- How a table came to be. -/
structure TableInfo where
  /-- The place, unless the table only exists because a longer key names it. -/
  span : Option Span
  /-- Written in braces. -/
  inBraces : Bool
  /-- Named only as a part of a longer key. -/
  implicit : Bool
  /-- Named by a dotted key. -/
  dotted : Bool
deriving DecidableEq, Repr

/-- A value, a table or a list of tables. -/
inductive Item where
  | scalar (span : Span) (value : Scalar)
  | array (span : Span) (items : List Item)
  | table (info : TableInfo) (entries : List (Key × Item))
  | tables (tables : List (TableInfo × List (Key × Item)))
deriving Repr

/-- A table: how it came to be, and its entries in order. -/
abbrev Table := TableInfo × List (Key × Item)

/-- From the start of the first table that has a place to the end of the last one. -/
def tablesSpan (tables : List Table) : Option Span :=
  match (tables.head?.bind fun t => t.1.span), (tables.getLast?.bind fun t => t.1.span) with
  | some first, some last => some (first.through last)
  | _, _ => none

/-- The place of an item, if it has one. -/
def Item.span? : Item → Option Span
  | .scalar s _ => some s
  | .array s _ => some s
  | .table info _ => info.span
  | .tables ts => tablesSpan ts

/-- Data without places. -/
inductive Data where
  | string (s : String)
  | integer (n : Int)
  | float (x : Binary64)
  | boolean (b : Bool)
  | array (items : List Data)
  | table (entries : List (String × Data))
deriving Repr, Inhabited

/-- The data of a scalar. -/
def Scalar.data : Scalar → Data
  | .string s => .string s
  | .integer n => .integer n
  | .float x => .float x
  | .boolean b => .boolean b
  | .datetime text => .string text

namespace Item

mutual

/-- The data of an item. -/
def data : Item → Data
  | .scalar _ s => s.data
  | .array _ items => .array (dataList items)
  | .table _ entries => .table (dataEntries entries)
  | .tables ts => .array (dataTables ts)

/-- The data of every item of a list. -/
def dataList : List Item → List Data
  | [] => []
  | item :: rest => data item :: dataList rest

/-- The data of every entry of a table. -/
def dataEntries : List (Key × Item) → List (String × Data)
  | [] => []
  | (key, item) :: rest => (key.name, data item) :: dataEntries rest

/-- The data of every table of a list. -/
def dataTables : List (TableInfo × List (Key × Item)) → List Data
  | [] => []
  | (_, entries) :: rest => .table (dataEntries entries) :: dataTables rest

end

end Item

namespace Data

mutual

/-- The JSON value of data. -/
def toValue : Data → Value
  | .string s => .string s
  | .integer n => .number (.int n)
  | .float x => if x.isFinite then .number (.float x) else .null
  | .boolean b => .bool b
  | .array items => .array (toValues items)
  | .table entries => .object (toMembers entries)

/-- The JSON values of a list of data. -/
def toValues : List Data → List Value
  | [] => []
  | d :: rest => toValue d :: toValues rest

/-- The JSON members of the entries of a table. -/
def toMembers : List (String × Data) → List (String × Value)
  | [] => []
  | (name, d) :: rest => (name, toValue d) :: toMembers rest

end

end Data

end SlotTemplates.Toml
