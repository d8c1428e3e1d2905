import SlotTemplates.Component.Declaration
import SlotTemplates.Text.Blank

/-!
# Binding props and slots

What a component sees of what a caller passes to it. `bindProps` checks the supplied values and
puts the declared props in front, in declared order, each with its supplied value, its default
or `null`; the undeclared ones follow in supplied order. `bindSlots` gives every declared slot a
text, and refuses a required one that nothing fills.
-/

namespace SlotTemplates

/-- Why props or slots cannot be bound. -/
inductive BindingFault where
  | missingProp (prop : String)
  | unknownProp (prop : String)
  | invalidProp (prop : String) (fault : ValueFault)
  | missingSlot (slot : String)
deriving Repr

/-- Whether a prop of a name is declared. -/
def declaresProp (props : List PropDef) (name : String) : Bool :=
  props.any fun p => p.name == name

/-- The value of one declared prop. -/
def PropDef.bind (p : PropDef) (supplied : Entries Value) : Except BindingFault Value :=
  match supplied.get? p.name with
  | some value =>
    match p.check value with
    | .ok () => .ok value
    | .error fault => .error (.invalidProp p.name fault)
  | none =>
    match p.default with
    | some value => .ok value
    | none => if p.required then .error (.missingProp p.name) else .ok .null

/-- The declared props with their values, in declared order. -/
def bindDeclared (supplied : Entries Value) : List PropDef → Except BindingFault (Entries Value)
  | [] => .ok []
  | p :: props => do
    let value ← p.bind supplied
    let rest ← bindDeclared supplied props
    return (p.name, value) :: rest

/-- The supplied entries that no prop declares. -/
def undeclared (props : List PropDef) (supplied : Entries Value) : Entries Value :=
  supplied.filter fun entry => !declaresProp props entry.1

/-- The props that a component sees. A strict component refuses the first undeclared one. -/
def bindProps (props : List PropDef) (strict : Bool) (supplied : Entries Value) :
    Except BindingFault (Entries Value) :=
  match strict, undeclared props supplied with
  | true, (name, _) :: _ => .error (.unknownProp name)
  | _, extra => (bindDeclared supplied props).map (· ++ extra)

/-- The default content as far as a slot can take it: if the slot stands for it and the content
is not blank. -/
def contentFor (isDefault : String → Bool) (content : Option String) (slot : String) :
    Option String :=
  if isDefault slot then content.filter fun text => !isBlankText text else none

/-- The supplied text of a slot, unless it is blank. -/
def suppliedFor (supplied : Entries String) (slot : String) : Option String :=
  (supplied.get? slot).filter fun text => !isBlankText text

/-- The slots that a component sees, in the order of names: every declared one has its supplied
text, the default content if it stands for it, or the empty text, and the others are unchanged. -/
def bindSlots (isDefault : String → Bool) (content : Option String) :
    List SlotDef → Entries String → Except BindingFault (Entries String)
  | [], supplied => .ok supplied
  | slot :: slots, supplied =>
    let text := (suppliedFor supplied slot.name).or (contentFor isDefault content slot.name)
    if slot.required && text.isNone then .error (.missingSlot slot.name)
    else bindSlots isDefault content slots (supplied.insertSorted slot.name (text.getD ""))

end SlotTemplates
