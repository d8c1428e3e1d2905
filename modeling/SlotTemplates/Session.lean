import SlotTemplates.Render.Component

/-!
# Sessions

An environment answers one question after another, and keeps a cache of components meanwhile. A
`Query` asks about a component or for a text; an `Operation` is a query or drops what is cached.
`cacheAfter` is the cache that a sequence of operations leaves behind, whether they succeed or
fail.
-/

namespace SlotTemplates

/-- A question to an environment. -/
inductive Query where
  | component (name : String)
  | hasComponent (name : String)
  | props (name : String)
  | slots (name : String)
  | preload
  | compile (name source : String)
  | render (invocation : Invocation)
  | renderText (source : String) (vars : Entries Value)
  | renderFile (path : Path) (vars : Entries Value)
deriving Repr

/-- What an environment answers. -/
inductive Answer where
  | done
  | flag (result : Bool)
  | component (result : Except ComponentError (Option Definition))
  | props (result : Except ComponentError (List PropDef))
  | slots (result : Except ComponentError (List SlotDef))
  | count (result : Except ComponentError Nat)
  | template (result : Except RenderError Template)
  | text (result : Except RenderError String)
deriving Repr

/-- An answer made of a result, with the cache after it. -/
def Answer.of {α : Type} (answer : α → Answer) (result : α × Cache) : Answer × Cache :=
  (answer result.1, result.2)

/-- What a component declares; nothing if there is none. -/
def declared (found : Except ComponentError (Option Definition)) :
    Except ComponentError Declaration :=
  found.map fun definition => (definition.map Definition.declaration).getD {}

/-- The answer to a query, and the cache afterwards. -/
def Query.answer (env : Environment) (cache : Cache) : Query → Answer × Cache
  | .component name => Answer.of .component (env.catalog.lookup cache name)
  | .hasComponent name => Answer.of .flag (env.catalog.has cache name)
  | .props name =>
    Answer.of (fun found => .props ((declared found).map Declaration.props))
      (env.catalog.lookup cache name)
  | .slots name =>
    Answer.of (fun found => .slots ((declared found).map Declaration.slots))
      (env.catalog.lookup cache name)
  | .preload => Answer.of .count (env.catalog.preload cache)
  | .compile name source => (.template (env.compile name source), cache)
  | .render invocation => Answer.of .text (env.render invocation cache)
  | .renderText source vars => Answer.of .text (env.renderText source vars cache)
  | .renderFile path vars => Answer.of .text (env.renderFile path vars cache)

/-- A query, or a change of the cache. -/
inductive Operation where
  | query (query : Query)
  /-- Drops one component, under whatever spelling of its name. -/
  | invalidate (name : String)
  /-- Drops all components. -/
  | clear
deriving Repr

/-- The answer to an operation, and the cache afterwards. -/
def Operation.perform (env : Environment) (cache : Cache) : Operation → Answer × Cache
  | .query q => q.answer env cache
  | .invalidate name => (.flag (cache.holds name), cache.invalidate name)
  | .clear => (.done, [])

/-- The cache after operations that start from a cache. -/
def cacheAfter (env : Environment) (cache : Cache) (operations : List Operation) : Cache :=
  operations.foldl (fun cache operation => (operation.perform env cache).2) cache

end SlotTemplates
