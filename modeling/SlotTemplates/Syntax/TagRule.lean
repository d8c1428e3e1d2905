import SlotTemplates.Component.Name
import SlotTemplates.Syntax.Grammar
import SlotTemplates.Syntax.Node
import SlotTemplates.Syntax.Segment

/-!
# Tag rules

Which block tags there are and what they mean. Every rule claims some heads and balances its
tags under a *kind*; the first rule of a `TagSet` that claims a head owns it. `TagRule.opening`
reads the arguments of an opening tag, and `Opening.node` makes the node of a tag and its body.

The component rule takes `{x:name …}`, with a literal name, and `{x expr …}`, with a computed
one; the slot rule takes `{slot name}`. Further tags come from a host, with heads, a kind and a
reading of their own: `TagRule.verbatim` stands for its own arguments, and `TagRule.block` is a slot
under a head of its own.
-/

namespace SlotTemplates

/-- A kind of block tag. -/
inductive TagRule where
  /-- Invocations under a keyword; slots with one of the names hold default content. -/
  | component (keyword : String) (contentNames : List String)
  | slot (keyword : String)
  /-- A tag of a host, with a body or without: `read` checks the arguments, and says what node the
  range of the tag and its body make. -/
  | host (heads : String → Bool) (kind : String) (takesBody : Bool)
      (read : Tag → Except SyntaxError (Span → List Node → Node))

/-- Rules in the order in which they are asked. -/
abbrev TagSet := List TagRule

namespace TagRule

/-- The key under which invocations balance. -/
def componentKind : String := "component"

/-- The key under which slots balance. -/
def slotKind : String := "slot"

/-- The key under which the tags of a rule balance. -/
def kind : TagRule → String
  | .component .. => componentKind
  | .slot _ => slotKind
  | .host _ kind _ _ => kind

/-- A tag without a body that stands for the text of its arguments. -/
def verbatim (head kind : String) : TagRule :=
  .host (· == head) kind false fun t => .ok fun span _ => .text span (String.ofList (trim t.args))

/-- A slot whose name is the text of the arguments. -/
def block (head kind : String) : TagRule :=
  .host (· == head) kind true fun t =>
    .ok fun span body => .slot ⟨span, String.ofList (trim t.args), t.argsSpan⟩ body

/-- The component name that a head writes after the keyword and a colon, if it has one. -/
def literalName? (keyword head : String) : Option String :=
  let lead := keyword.toList ++ [':']
  let name := head.toList.drop lead.length
  if lead.isPrefixOf head.toList && !name.isEmpty then some (String.ofList name) else none

/-- Whether a rule owns a head. -/
def claims (head : String) : TagRule → Bool
  | .component keyword _ => head == keyword || (literalName? keyword head).isSome
  | .slot keyword => head == keyword
  | .host heads _ _ _ => heads head

end TagRule

namespace TagSet

/-- The rule that owns a head. -/
def rule? (tags : TagSet) (head : String) : Option TagRule := tags.find? (TagRule.claims head)

/-- Whether some rule owns a head. -/
def claims (tags : TagSet) (head : String) : Bool := tags.any (TagRule.claims head)

end TagSet

/-- An opening tag with its arguments read. -/
inductive Opening where
  | component (keyword : String) (contentNames : List String) (name : ComponentName)
      (attrs : List Attr)
  | slot (name : String) (nameSpan : Span)
  | host (takesBody : Bool) (make : Span → List Node → Node)

namespace TagRule

/-- The arguments of an invocation. -/
def invocation (keyword : String) (contentNames : List String) (t : Tag) :
    Except SyntaxError Opening :=
  match literalName? keyword t.head with
  | some written =>
    match canonicalName? written with
    | none => .error { span := t.span, fault := .invalidComponentName written }
    | some name =>
      (parseAttrs t.argsSpan.start t.args).map (.component keyword contentNames (.literal name))
  | none =>
    if allBlank t.args then
      .error { span := t.span, fault := .missingComponentName t.display }
    else
      (parseDynamic t.argsSpan.start t.args).map fun (name, attrs) =>
        .component keyword contentNames (.dynamic name) attrs

/-- The arguments of an opening tag under its rule. -/
def opening (t : Tag) : TagRule → Except SyntaxError Opening
  | .component keyword contentNames => invocation keyword contentNames t
  | .slot _ =>
    (parseSlotName t.argsSpan.start t.args).map fun (name, span) => .slot name span
  | .host _ _ takesBody read => (read t).map (.host takesBody)

end TagRule

namespace Opening

/-- Whether a tag that does not close itself has a body. -/
def takesBody : Opening → Bool
  | .host takesBody _ => takesBody
  | _ => true

/-- Whether a closing tag may end what was opened: one without a component name ends
anything, one with a name only an invocation of that literal name. -/
def closedBy (close : Tag) : Opening → Bool
  | .component keyword _ name _ =>
    match TagRule.literalName? keyword close.head, name with
    | none, _ => true
    | some written, .literal opened => canonicalName? written == some opened
    | some _, .dynamic _ => false
  | _ => true

/-- What an invocation's body gives to the default content: a slot that stands for it gives
its own body, any other slot nothing. -/
def contentOf (contentNames : List String) (nodes : List Node) : List Node :=
  nodes.flatMap fun
    | .slot head body => if contentNames.contains head.name then body else []
    | node => [node]

/-- The slots that an invocation's body captures. -/
def slotsOf (contentNames : List String) (nodes : List Node) : List (SlotHead × List Node) :=
  nodes.flatMap fun
    | .slot head body => if contentNames.contains head.name then [] else [(head, body)]
    | _ => []

/-- The node of a tag over a range, with its body. -/
def node (span : Span) (body : List Node) : Opening → Node
  | .component _ contentNames name attrs =>
    .component span name attrs (contentOf contentNames body) (slotsOf contentNames body)
  | .slot name nameSpan => .slot ⟨span, name, nameSpan⟩ body
  | .host _ make => make span body

end Opening

end SlotTemplates
