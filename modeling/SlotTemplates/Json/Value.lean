import SlotTemplates.Decimal.Binary64
import SlotTemplates.Entries

/-!
# Values

The data that templates work with: JSON values whose objects keep the order of their members.
A number is an integer or a floating point number and remembers which; `Value.same`, the
equality that allow-lists use, tells the two kinds apart and does not look at the order of
members.
-/

namespace SlotTemplates

/-- A JSON number. -/
inductive Number where
  | int (n : Int)
  | float (x : Binary64)
deriving DecidableEq, Repr, Inhabited

namespace Number

/-- Equality within a kind: an integer never equals a floating point number. -/
def same : Number → Number → Bool
  | .int a, .int b => a == b
  | .float a, .float b => a.same b
  | _, _ => false

/-- The number that a decimal literal of a template stands for: a whole number of magnitude
below `9 · 10^15` is an integer, so that it prints without a fraction. `none` if the literal
is beyond the format. -/
def ofLiteral (x : Binary64) : Option Number :=
  match x.toInt? with
  | some n => if n.natAbs < 9 * tenPow 15 then some (.int n) else some (.float x)
  | none => if x.isFinite then some (.float x) else none

end Number

/-- A JSON value; objects are lists of members in order. -/
inductive Value where
  | null
  | bool (b : Bool)
  | number (n : Number)
  | string (s : String)
  | array (items : List Value)
  | object (members : List (String × Value))
deriving Repr, Inhabited

namespace Value

/-- The name of a value's type in diagnostics. -/
def typeName : Value → String
  | .null => "null"
  | .bool _ => "boolean"
  | .number _ => "number"
  | .string _ => "string"
  | .array _ => "array"
  | .object _ => "object"

/-- Whether a value is `null`. -/
def isNull : Value → Bool
  | .null => true
  | _ => false

mutual

/-- Equality of values: members are compared by name, in whatever order they stand. -/
def same : Value → Value → Bool
  | .null, .null => true
  | .bool a, .bool b => a == b
  | .number a, .number b => a.same b
  | .string a, .string b => a == b
  | .array a, .array b => sameItems a b
  | .object a, .object b => a.length == b.length && sameMembers a b
  | _, _ => false

/-- Pairwise equality of items. -/
def sameItems : List Value → List Value → Bool
  | [], [] => true
  | a :: as, b :: bs => same a b && sameItems as bs
  | _, _ => false

/-- Whether the second object has every member of the first. -/
def sameMembers : List (String × Value) → List (String × Value) → Bool
  | [], _ => true
  | (name, a) :: rest, other =>
    (match Entries.get? name other with
      | some b => same a b
      | none => false) && sameMembers rest other

end

/-- The member of an object by name; `null` for anything else. -/
def member (base : Value) (name : String) : Value :=
  match base with
  | .object members => (Entries.get? name members).getD .null
  | _ => .null

/-- The member of an object by a string, or the item of an array by a natural number;
`null` for anything else. -/
def item : Value → Value → Value
  | .object members, .string name => (Entries.get? name members).getD .null
  | .array items, .number (.int (.ofNat i)) => (items[i]?).getD .null
  | _, _ => .null

end Value

end SlotTemplates
