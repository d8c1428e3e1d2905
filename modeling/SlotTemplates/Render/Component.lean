import SlotTemplates.Render.Eval
import SlotTemplates.Render.State

/-!
# Rendering components

A computation is run from a state by `Render.run`, which answers what it asks for; what the
text of a component or of an included template is, is up to a `Host`. A component is rendered in
a scope of its own: it sees the globals, its props, and under the names `props`, `content` and
`slots` what was passed to it. `prepare` finds and checks a component before it is rendered. A
component that is being rendered already is refused, so that every component on the chain has
another name; `depthBound` is a number of components that no chain can exceed, and `Host.atDepth`
renders up to a given depth.
-/

namespace SlotTemplates

/-- The variables that a component sees. -/
def componentVars (globals props : Entries Value) (content : Option String)
    (slots : Entries String) : Entries Value :=
  (((globals.extend props).insert "props" (.object props)).insert "content"
    (.ofText? content)).insert "slots" (.object (slots.mapValues Value.string))

/-- What a component is rendered with when its definition is found under its canonical name. -/
def Definition.entry (definition : Definition) (env : Environment) (canonical : String)
    (invocation : Invocation) : Except RenderError Entry := do
  let config := env.config
  let refuse (fault : BindingFault) : RenderError :=
    .component (.binding definition.name fault)
  let declaration := definition.declaration
  let props ← (bindProps declaration.props
    (config.strictProps || declaration.strict) invocation.props).mapError refuse
  let slots ← (bindSlots config.isDefaultSlot invocation.content
    declaration.slots invocation.slots).mapError refuse
  return {
    name := canonical
    nodes := definition.template.nodes
    vars := componentVars env.globals props invocation.content slots
    frame := ⟨invocation.content, slots⟩ }

/-- What a component is rendered with, if it is found, is not being rendered already and takes
what is passed to it. -/
def prepare (env : Environment) (invocation : Invocation) (s : State) : Rendered Entry :=
  let notFound : RenderError := .component (.notFound invocation.name)
  match canonicalName? invocation.name with
  | none => (.error notFound, s)
  | some canonical =>
    if s.chain.contains canonical then
      (.error (.component (.circular (s.chain ++ [canonical]))), s)
    else
      match env.catalog.lookup s.cache canonical with
      | (.error e, cache) => (.error (.component e), { s with cache })
      | (.ok none, cache) => (.error notFound, { s with cache })
      | (.ok (some definition), cache) =>
        (definition.entry env canonical invocation, { s with cache })

/-! ### Running computations -/

/-- What computations are run with. -/
structure Host where
  env : Environment
  /-- Renders a component. -/
  component : Invocation → State → Rendered String
  /-- Compiles a text and renders it in the current scope. -/
  included : String → State → Rendered String

/-- The outcome of a computation from a state. -/
def Render.run {α : Type} (host : Host) : Render α → State → Rendered α
  | .done a, s => (.ok a, s)
  | .fail e, s => (.error e, s)
  | .var name next, s => run host (next ((s.vars.get? name).getD .null)) s
  | .outlet slot next, s => run host (next (s.outlet host.env.config slot)) s
  | .lookup name next, s =>
    let (found, cache) := host.env.catalog.lookup s.cache name
    run host (next found) { s with cache }
  | .component invocation next, s =>
    (host.component invocation s).andThen fun text s => run host (next text) s
  | .included source next, s =>
    (host.included source s).andThen fun text s => run host (next text) s

/-- The text of a component; `host` renders what its template asks for. -/
def renderComponent (host : Host) (invocation : Invocation) (s : State) : Rendered String :=
  (prepare host.env invocation s).andThen fun entry s =>
    let (result, after) := (renderNodes host.env entry.nodes).run host (s.enter entry)
    (result.map trimText, after.leave s.vars)

/-- The name of included templates in errors. -/
def includedName : String := "included"

/-- The text of a template in the current scope. -/
def renderIncluded (host : Host) (source : String) (s : State) : Rendered String :=
  match host.env.compile includedName source with
  | .error e => (.error e, s)
  | .ok template => (renderNodes host.env template.nodes).run host s

/-- The host that renders components and included templates up to a depth. -/
def Host.atDepth (env : Environment) : Nat → Host
  | 0 =>
    { env
      component := fun _ s => (.error .tooDeep, s)
      included := fun _ s => (.error .tooDeep, s) }
  | depth + 1 =>
    let inner := Host.atDepth env depth
    { env, component := renderComponent inner, included := renderIncluded inner }

mutual

/-- The number of files and directories in a tree, itself included. -/
def Tree.size : Tree → Nat
  | .file _ => 1
  | .dir entries => 1 + sizeEntries entries

/-- The number of files and directories in the entries of a directory. -/
def Tree.sizeEntries : List (String × Tree) → Nat
  | [] => 0
  | (_, t) :: rest => size t + sizeEntries rest

end

/-- A number of names that is not exceeded by those that are loaded or resolve: every name that
resolves has a place of its own in the tree below one of the roots, and the others are only in
the cache. -/
def depthBound (env : Environment) (cache : Cache) : Nat :=
  env.config.roots.length * env.files.size +
    (cache.filter fun entry => (env.catalog.resolve entry.1).isNone).length

/-- How often templates can include templates. -/
def includeLimit : Nat := 1000

/-- The host of a render that starts with a cache. -/
def Environment.host (env : Environment) (cache : Cache) : Host :=
  Host.atDepth env (depthBound env cache + includeLimit)

/-! ### Rendering from the outside -/

namespace Environment

/-- The outcome of a computation from a state. -/
def run {α : Type} (env : Environment) (x : Render α) (s : State) : Rendered α :=
  x.run (env.host s.cache) s

/-- The result of a computation on its own, and the cache afterwards. -/
def runAlone {α : Type} (env : Environment) (x : Render α) (vars : Entries Value)
    (cache : Cache) : Except RenderError α × Cache :=
  let outcome := env.run x (.start vars cache)
  (outcome.1, outcome.2.cache)

/-- The text of a compiled template, with variables over the globals. -/
def renderTemplate (env : Environment) (template : Template) (vars : Entries Value)
    (cache : Cache) : Except RenderError String × Cache :=
  env.runAlone (renderNodes env template.nodes) (env.globals.extend vars) cache

/-- The text of a template that is compiled under a name. -/
def renderSource (env : Environment) (name source : String) (vars : Entries Value)
    (cache : Cache) : Except RenderError String × Cache :=
  match env.compile name source with
  | .ok template => env.renderTemplate template vars cache
  | .error e => (.error e, cache)

/-- The name of a template that is given as text. -/
def textName : String := "<string>"

/-- The text of a template that is given as text. -/
def renderText (env : Environment) (source : String) (vars : Entries Value) (cache : Cache) :
    Except RenderError String × Cache :=
  env.renderSource textName source vars cache

/-- The text of a template in a file. -/
def renderFile (env : Environment) (path : Path) (vars : Entries Value) (cache : Cache) :
    Except RenderError String × Cache :=
  match env.files.read path with
  | .ok source => env.renderSource path source vars cache
  | .error fault => (.error (.unreadable path fault), cache)

/-- The text of a component. -/
def render (env : Environment) (invocation : Invocation) (cache : Cache) :
    Except RenderError String × Cache :=
  env.runAlone (Render.invoke invocation) [] cache

end Environment

/-- The text of a template in a fresh environment of settings. -/
def renderWith (config : Config) (files : Tree) (source : String) : Except RenderError String :=
  match Environment.make config [] files with
  | .ok env => (env.renderText source [] []).1
  | .error e => .error (.config e)

end SlotTemplates
