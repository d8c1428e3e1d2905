import SlotTemplates.Component.Declaration
import SlotTemplates.Syntax.Segment
import SlotTemplates.Toml.Shape

/-!
# Declaration headers

A component file may open with a comment of its own kind that holds its declaration as TOML.
`splitHeader` finds that text, `Declaration.ofToml` reads it, and `Declaration.ofSource` does
both; a file without such a comment declares nothing.
-/

namespace SlotTemplates

/-- Why the declaration of a prop is refused. -/
inductive PropFault where
  | shape (fault : Toml.ShapeFault)
  | unknownType (name : String)
  | invalidDefault (fault : ValueFault)
deriving Repr

/-- The wording of a refused prop. -/
def PropFault.message : PropFault → String
  | .shape fault => fault.message
  | .unknownType name => "unknown type '" ++ name ++ "'"
  | .invalidDefault fault => "invalid default: " ++ fault.message

/-- Why a declaration cannot be read. -/
inductive DeclarationError where
  | unterminated
  | toml (error : Toml.Error)
  | prop (name : String) (fault : PropFault)
  | slot (name : String) (fault : Toml.ShapeFault)
deriving Repr

/-- The wording of an error. -/
def DeclarationError.message : DeclarationError → String
  | .unterminated =>
    "unterminated declaration header, expected '" ++ String.ofList Scan.headerClose ++ "'"
  | .toml error => "invalid TOML: " ++ error.message
  | .prop name fault => s!"prop '{name}': {fault.message}"
  | .slot name fault => s!"slot '{name}': {fault.message}"

/-- The text of the header that a source opens with, if it does. -/
def splitHeader (source : List Char) : Except DeclarationError (Option (List Char)) :=
  let s := trimStart source
  if Scan.headerOpen.isPrefixOf s then
    match Scan.splitAt? Scan.headerClose (s.drop Scan.headerOpen.length) with
    | some (header, _) => .ok (some header)
    | none => .error .unterminated
  else .ok none

/-! ### The shapes in a header -/

/-- A header before its props and slots are looked at. -/
structure HeaderShape where
  description : Option String := none
  strict : Bool := false
  props : List (String × Toml.Data) := []
  slots : List (String × Toml.Data) := []

/-- A prop as it is written. -/
structure PropShape where
  type : Option String := none
  required : Bool := false
  default : Option Toml.Data := none
  values : Option (List Toml.Data) := none
  description : Option String := none

/-- A slot as it is written. -/
structure SlotShape where
  required : Bool := false
  description : Option String := none

/-- The fields of a header. -/
def HeaderShape.fields : Toml.Fields Toml.Item Toml.Misfit HeaderShape where
  name := "struct TomlHeader"
  order := [("description", false), ("strict", true), ("props", true), ("slots", true)]
  closed := false
  blank := {}
  set h name item :=
    match name with
    | "description" => item.text.map fun s => { h with description := some s }
    | "strict" => item.flag.map fun b => { h with strict := b }
    | "props" => item.members.map fun entries => { h with props := entries }
    | _ => item.members.map fun entries => { h with slots := entries }
  fault span fault := ⟨span, fault⟩

/-- The fields of a prop. -/
def PropShape.fields : Toml.Fields Toml.Data Toml.ShapeFault PropShape where
  name := "struct TomlProp"
  order := [("type", false), ("required", true), ("default", false), ("values", false),
    ("description", false)]
  closed := true
  blank := {}
  set p name d :=
    match name with
    | "type" => d.text.map fun s => { p with type := some s }
    | "required" => d.flag.map fun b => { p with required := b }
    | "default" => .ok { p with default := some d }
    | "values" => d.list.map fun ds => { p with values := some ds }
    | _ => d.text.map fun s => { p with description := some s }
  fault _ fault := fault

/-- The fields of a slot. -/
def SlotShape.fields : Toml.Fields Toml.Data Toml.ShapeFault SlotShape where
  name := "struct TomlSlot"
  order := [("required", true), ("description", false)]
  closed := true
  blank := {}
  set s name d :=
    match name with
    | "required" => d.flag.map fun b => { s with required := b }
    | _ => d.text.map fun t => { s with description := some t }
  fault _ fault := fault

/-! ### Declarations -/

/-- The type that a prop mentions; any value is taken if it mentions none. -/
def PropType.ofWritten : Option String → Except PropFault PropType
  | none => .ok .any
  | some name =>
    match PropType.ofName? name with
    | some type => .ok type
    | none => .error (.unknownType name)

/-- The prop that data declares under a name. A default has to pass the prop's own check. -/
def PropDef.ofData (name : String) (d : Toml.Data) : Except PropFault PropDef := do
  let shape ← (d.fields PropShape.fields).mapError .shape
  let type ← PropType.ofWritten shape.type
  let prop : PropDef :=
    { name, type, required := shape.required, default := shape.default.map Toml.Data.toValue,
      values := shape.values.map fun ds => ds.map Toml.Data.toValue,
      description := shape.description }
  match prop.default with
  | none => return prop
  | some value => (prop.check value).mapError .invalidDefault |>.map fun () => prop

/-- The slot that data declares under a name. -/
def SlotDef.ofData (name : String) (d : Toml.Data) : Except Toml.ShapeFault SlotDef :=
  (d.fields SlotShape.fields).map fun s =>
    { name, required := s.required, description := s.description }

namespace Declaration

/-- The declaration that the text of a header makes. -/
def ofToml (header : List Char) : Except DeclarationError Declaration :=
  match Toml.readDocument header with
  | .error offset => .error (.toml (Toml.malformedAt header offset))
  | .ok (info, entries) => do
    let shape ← (Toml.Table.fields HeaderShape.fields entries).mapError fun m =>
      .toml (Toml.misshapenAt header (m.within info.span))
    let props ← shape.props.mapM fun (name, d) =>
      (PropDef.ofData name d).mapError (DeclarationError.prop name)
    let slots ← shape.slots.mapM fun (name, d) =>
      (SlotDef.ofData name d).mapError (DeclarationError.slot name)
    return { description := shape.description, strict := shape.strict, props, slots }

/-- The declaration of a component's source. -/
def ofSource (source : List Char) : Except DeclarationError Declaration := do
  match ← splitHeader source with
  | some header => ofToml header
  | none => return {}

end Declaration

end SlotTemplates
