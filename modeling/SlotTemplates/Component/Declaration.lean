import SlotTemplates.Entries
import SlotTemplates.Json.Printer

/-!
# Declarations

What a component says about itself: a description, whether it refuses props that it does not
declare, the props it takes and the slots it has. `PropDef.check` is the test that a supplied
value has to pass, and `toValue` describes a prop or a slot as a value, for templates that look
at components.
-/

namespace SlotTemplates

/-- The type of the values of a prop. -/
inductive PropType where
  | string
  | number
  | boolean
  | array
  | object
  | any
deriving DecidableEq, Repr, Inhabited

namespace PropType

/-- The name under which a type is shown. -/
def name : PropType → String
  | .string => "string"
  | .number => "number"
  | .boolean => "boolean"
  | .array => "array"
  | .object => "object"
  | .any => "any"

/-- All names by which a declaration can mention a type. -/
def names : Entries PropType :=
  [("string", .string), ("str", .string),
   ("number", .number), ("int", .number), ("integer", .number), ("float", .number),
   ("boolean", .boolean), ("bool", .boolean),
   ("array", .array), ("list", .array),
   ("object", .object), ("map", .object),
   ("any", .any), ("mixed", .any)]

/-- The type that a name mentions. -/
def ofName? (name : String) : Option PropType := names.get? name

/-- Whether a value is of a type. Only `any` takes `null`. -/
def accepts : PropType → Value → Bool
  | .any, _ => true
  | .string, .string _ => true
  | .number, .number _ => true
  | .boolean, .bool _ => true
  | .array, .array _ => true
  | .object, .object _ => true
  | _, _ => false

end PropType

/-- Why a value is refused for a prop. -/
inductive ValueFault where
  | wrongType (expected : PropType) (value : Value)
  | notAllowed (value : Value) (allowed : List Value)
deriving Repr

/-- The wording of a refusal. -/
def ValueFault.message : ValueFault → String
  | .wrongType expected value => s!"expected {expected.name}, got {value.typeName}"
  | .notAllowed value allowed =>
    value.compact ++ " is not one of [" ++ ", ".intercalate (allowed.map Value.compact) ++ "]"

/-- A declared prop. -/
structure PropDef where
  name : String
  type : PropType := .any
  required : Bool := false
  /-- The value when none is supplied. -/
  default : Option Value := none
  /-- The allow-list, if there is one. -/
  values : Option (List Value) := none
  description : Option String := none
deriving Repr, Inhabited

/-- A declared slot. -/
structure SlotDef where
  name : String
  required : Bool := false
  description : Option String := none
deriving DecidableEq, Repr, Inhabited

/-- A text or `null`. -/
def Value.ofText? (text : Option String) : Value := (text.map Value.string).getD .null

namespace PropDef

/-- Whether a value passes: `null` always does, any other value has to be of the type and in
the allow-list. -/
def check (p : PropDef) (value : Value) : Except ValueFault Unit :=
  if value.isNull then .ok ()
  else if !p.type.accepts value then .error (.wrongType p.type value)
  else
    match p.values with
    | none => .ok ()
    | some allowed =>
      if allowed.any fun v => v.same value then .ok () else .error (.notAllowed value allowed)

/-- The description of a prop as a value. -/
def toValue (p : PropDef) : Value :=
  .object [("type", .string p.type.name),
    ("required", .bool p.required),
    ("default", p.default.getD .null),
    ("values", (p.values.map Value.array).getD .null),
    ("description", .ofText? p.description)]

end PropDef

/-- The description of a slot as a value. -/
def SlotDef.toValue (s : SlotDef) : Value :=
  .object [("required", .bool s.required), ("description", .ofText? s.description)]

/-- Everything that a component declares. -/
structure Declaration where
  description : Option String := none
  /-- Props that are not declared are refused. -/
  strict : Bool := false
  props : List PropDef := []
  slots : List SlotDef := []
deriving Repr, Inhabited

namespace Declaration

/-- The declared prop of a name. -/
def prop? (d : Declaration) (name : String) : Option PropDef :=
  d.props.find? fun p => p.name == name

/-- The descriptions of props, by name. -/
def describeProps (props : List PropDef) : Value :=
  .object (props.map fun p => (p.name, p.toValue))

/-- The descriptions of slots, by name. -/
def describeSlots (slots : List SlotDef) : Value :=
  .object (slots.map fun s => (s.name, s.toValue))

end Declaration

end SlotTemplates
