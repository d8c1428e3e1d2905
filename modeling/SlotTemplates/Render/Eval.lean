import SlotTemplates.Render.Computation

/-!
# Evaluating expressions and rendering nodes

`eval` gives the value of an expression, `renderNodes` the text of nodes. Both are recursive on
the tree alone, and give a computation: where a component or an included template is to be
rendered they ask for its text, so that files do not come into the recursion here.
-/

namespace SlotTemplates

/-! ### Functions -/

/-- The name of a component among the arguments of a function. -/
def nameArgument (calledAs : String) : Option Value → Except RenderError String
  | some (.string name) => .ok name
  | some v => .error (.invalidArguments calledAs (.nameOfType v.typeName))
  | none => .error (.invalidArguments calledAs .missingName)

/-- The text of a value as content: without blanks around it. -/
def contentText (v : Value) : String := trimText v.display

namespace Invocation

/-- A text as default content: an empty one counts as none. -/
def contentOf (text : String) : Option String := if text.isEmpty then none else some text

/-- The invocation that the arguments of the render function describe: a name, props, content
and slots. -/
def ofArguments (calledAs : String) (args : List Value) : Except RenderError Invocation := do
  if maxArguments < args.length then
    throw (.invalidArguments calledAs (.tooMany args.length))
  let name ← nameArgument calledAs args[0]?
  let props ←
    match args[1]?.getD .null with
    | .null => .ok []
    | .object members => .ok members
    | v => .error (.invalidArguments calledAs (.propsOfType v.typeName))
  let content :=
    match args[2]?.getD .null with
    | .null => none
    | v => contentOf (contentText v)
  let slots ←
    match args[3]?.getD .null with
    | .null => .ok []
    | .object members => .ok (Entries.sorted (Entries.mapValues contentText members))
    | v => .error (.invalidArguments calledAs (.slotsOfType v.typeName))
  return { name, props, content, slots }

end Invocation

/-- What the component of a name declares; nothing if there is no such component. -/
def findDeclaration (name : String) : Render Declaration := do
  match ← Render.definition? name with
  | some definition => return definition.declaration
  | none => return {}

/-- The text of the first argument; empty if that is no string. -/
def textArgument : List Value → String
  | .string s :: _ => s
  | _ => ""

/-- The result of a function. -/
def TemplateFunction.call (args : List Value) : TemplateFunction → Render Value
  | .component calledAs => do
    let invocation ← Render.ofExcept (Invocation.ofArguments calledAs args)
    return .string (← Render.invoke invocation)
  | .hasComponent =>
    match args.head? with
    | some (.string name) => do return .bool (← Render.hasComponent name)
    | _ => return .bool false
  | .componentProps => do
    let name ← Render.ofExcept (nameArgument "componentProps" args.head?)
    return Declaration.describeProps (← findDeclaration name).props
  | .componentSlots => do
    let name ← Render.ofExcept (nameArgument "componentSlots" args.head?)
    return Declaration.describeSlots (← findDeclaration name).slots
  | .host f => Render.ofExcept (f args)
  | .render => do return .string (← Render.invoke { name := textArgument args })
  | .included => do return .string (← Render.expand (textArgument args))

/-! ### Expressions -/

mutual

/-- The value of an expression. -/
def eval (env : Environment) : Expr → Render Value
  | .literal _ value => return value
  | .var _ name => Render.value name
  | .list _ items => do return .array (← evalList env items)
  | .map _ entries => do return .object (Entries.ofList (← evalEntries env entries))
  | .attr _ base name => do return (← eval env base).member name
  | .index _ base position => do
    let base ← eval env base
    return base.item (← eval env position)
  | .call _ name _ args =>
    match env.function? name with
    | none => Render.fail (.unknownFunction name)
    | some f => do f.call (← evalList env args)
  | .concat _ left right => do
    let left ← eval env left
    return .string (left.display ++ (← eval env right).display)
  | .coalesce _ left right => do
    match ← eval env left with
    | .null => eval env right
    | value => return value

/-- The values of expressions, from left to right. -/
def evalList (env : Environment) : List Expr → Render (List Value)
  | [] => return []
  | e :: rest => do
    let value ← eval env e
    return value :: (← evalList env rest)

/-- The entries of a map, from left to right. -/
def evalEntries (env : Environment) : List (String × Expr) → Render (List (String × Value))
  | [] => return []
  | (key, e) :: rest => do
    let value ← eval env e
    return (key, value) :: (← evalEntries env rest)

end

/-- The props with what an attribute adds to them. -/
def evalAttr (env : Environment) (props : Entries Value) : Attr → Render (Entries Value)
  | .named name _ none => return props.insert name (.bool true)
  | .named name _ (some e) => do return props.insert name (← eval env e)
  | .spread e => do
    match ← eval env e with
    | .object members => return props.extend members
    | .null => return props
    | value => Render.fail (.invalidArguments "..." (.spreadOfValue value))

/-- The props with what attributes add to them, from left to right. -/
def evalAttrsFrom (env : Environment) (props : Entries Value) : List Attr → Render (Entries Value)
  | [] => return props
  | attr :: rest => do evalAttrsFrom env (← evalAttr env props attr) rest

/-- The props that attributes make. -/
def evalAttrs (env : Environment) (attrs : List Attr) : Render (Entries Value) :=
  evalAttrsFrom env [] attrs

/-- The name of the component that an invocation means. -/
def evalName (env : Environment) : ComponentName → Render String
  | .literal name => return name
  | .dynamic e => do
    match ← eval env e with
    | .string name => return name
    | value => Render.fail (.invalidArguments env.config.tag (.nameOfValue value))

/-! ### Nodes -/

mutual

/-- The text of a node. -/
def renderNode (env : Environment) : Node → Render String
  | .text _ text => return text
  | .output _ e => do return (← eval env e).display
  | .component _ name attrs body slots => do
    let name ← evalName env name
    let props ← evalAttrs env attrs
    let content ← renderNodes env body
    let slots ← renderSlots env [] slots
    Render.invoke { name, props, content := Invocation.contentOf (trimText content), slots }
  | .slot head body => do
    match ← Render.passed head.name with
    | some text => return text
    | none => renderNodes env body

/-- The text of nodes. -/
def renderNodes (env : Environment) : List Node → Render String
  | [] => return ""
  | node :: rest => do
    let text ← renderNode env node
    return text ++ (← renderNodes env rest)

/-- The slots with what captured ones add to them: a slot that is captured more than once has
its texts one after the other. -/
def renderSlots (env : Environment) (slots : Entries String) :
    List (SlotHead × List Node) → Render (Entries String)
  | [] => return slots
  | (head, body) :: rest => do
    let text ← renderNodes env body
    let before := (slots.get? head.name).getD ""
    renderSlots env (slots.insertSorted head.name (before ++ trimText text)) rest

end

end SlotTemplates
