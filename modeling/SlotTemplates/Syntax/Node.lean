import SlotTemplates.Syntax.Expr

/-!
# Nodes

What a template is made of once it is compiled: text, outputs, component invocations with
their attributes, body and captured slots, and slots that stand on their own.
-/

namespace SlotTemplates

/-- How an invocation names its component: by a canonical name in the tag, or by an
expression. -/
inductive ComponentName where
  | literal (name : String)
  | dynamic (value : Expr)
deriving Repr, Inhabited

/-- The name of a slot, its place, and the range of the whole slot. -/
structure SlotHead where
  span : Span
  name : String
  nameSpan : Span
deriving DecidableEq, Repr, Inhabited

/-- A node of a template. -/
inductive Node where
  | text (span : Span) (text : String)
  | output (span : Span) (value : Expr)
  /-- An invocation; `slots` are the slots that stand directly in it, with their bodies. -/
  | component (span : Span) (name : ComponentName) (attrs : List Attr) (body : List Node)
      (slots : List (SlotHead × List Node))
  | slot (head : SlotHead) (body : List Node)
deriving Repr, Inhabited

/-- A compiled source; `name` labels it in diagnostics. -/
structure Template where
  name : String
  nodes : List Node
deriving Repr, Inhabited

/-- The range of source that a node covers. -/
def Node.span : Node → Span
  | .text s _ => s
  | .output s _ => s
  | .component s _ _ _ _ => s
  | .slot head _ => head.span

namespace ComponentName

/-- The name with `f` applied to every range in it. -/
def mapSpans (f : Span → Span) : ComponentName → ComponentName
  | .literal name => .literal name
  | .dynamic e => .dynamic (e.mapSpans f)

end ComponentName

/-- The head with `f` applied to both ranges. -/
def SlotHead.mapSpans (f : Span → Span) (h : SlotHead) : SlotHead :=
  ⟨f h.span, h.name, f h.nameSpan⟩

namespace Node

mutual

/-- The node with `f` applied to every range in it. -/
def mapSpans (f : Span → Span) : Node → Node
  | .text s t => .text (f s) t
  | .output s e => .output (f s) (e.mapSpans f)
  | .component s name attrs body slots =>
    .component (f s) (name.mapSpans f) (attrs.map (Attr.mapSpans f)) (mapSpansList f body)
      (mapSpansSlots f slots)
  | .slot head body => .slot (head.mapSpans f) (mapSpansList f body)

/-- `mapSpans` on every node of a list. -/
def mapSpansList (f : Span → Span) : List Node → List Node
  | [] => []
  | n :: rest => mapSpans f n :: mapSpansList f rest

/-- `mapSpans` on captured slots. -/
def mapSpansSlots (f : Span → Span) :
    List (SlotHead × List Node) → List (SlotHead × List Node)
  | [] => []
  | (head, body) :: rest => (head.mapSpans f, mapSpansList f body) :: mapSpansSlots f rest

end

/-- The node without its places. -/
def unplaced : Node → Node := mapSpans fun _ => ⟨0, 0⟩

end Node

end SlotTemplates
