import SlotTemplates.Render.Environment

/-!
# The state of a render

Rendering reads and changes a `State`: the variables in scope, the slots that were passed to
the components being rendered, the chain of those components, and the cache. A component is
rendered between `State.enter`, which gives it variables and a frame of its own and puts its name
on the chain, and `State.leave`, which takes all of that back.
-/

namespace SlotTemplates

/-- What was passed to a component besides its props. -/
structure Frame where
  content : Option String
  slots : Entries String
deriving Repr, Inhabited

/-- The state of a render. -/
structure State where
  vars : Entries Value
  /-- The frames of the components being rendered, innermost first. -/
  frames : List Frame
  /-- The canonical names of the components being rendered, outermost first. -/
  chain : List String
  cache : Cache
deriving Repr, Inhabited

/-- A result or an error, and the state afterwards in either case. -/
abbrev Rendered (α : Type) := Except RenderError α × State

/-- What follows on a result; an error stays, with the state that it left. -/
def Rendered.andThen {α β : Type} (x : Rendered α) (next : α → State → Rendered β) : Rendered β :=
  match x with
  | (.ok a, s) => next a s
  | (.error e, s) => (.error e, s)

/-- What a component is rendered with. -/
structure Entry where
  /-- The canonical name of the component. -/
  name : String
  nodes : List Node
  vars : Entries Value
  frame : Frame
deriving Repr, Inhabited

namespace State

/-- The state at the start of a render. -/
def start (vars : Entries Value) (cache : Cache) : State :=
  { vars, frames := [], chain := [], cache }

/-- The text that was passed for a slot of the innermost component, unless it is blank. -/
def outlet (config : Config) (name : String) (s : State) : Option String :=
  match s.frames with
  | [] => none
  | frame :: _ =>
    (if config.isDefaultSlot name then frame.content else frame.slots.get? name).filter
      fun text => !isBlankText text

/-- The state in which the template of a component is rendered. -/
def enter (s : State) (entry : Entry) : State :=
  { s with vars := entry.vars, frames := entry.frame :: s.frames, chain := s.chain ++ [entry.name] }

/-- The state after a component, in which its caller's variables are back. -/
def leave (s : State) (vars : Entries Value) : State :=
  { s with vars, frames := s.frames.tail, chain := s.chain.dropLast }

end State

end SlotTemplates
