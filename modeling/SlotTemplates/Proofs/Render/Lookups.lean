import SlotTemplates.Proofs.Render.Scope

/-!
# The lookups of a render

A render changes the cache by looking components up, and by nothing else. `Render.lookups` lists
the lookups of a run in their order, those of nested components and included templates among them,
each with what it found. They lead from the cache before the run to the cache after it
(`Environment.leads_run`), also if the run fails half-way.

What a host does for a computation is not seen from outside. So the list is made beside the run: a
`Watch` knows the lookups of what a host renders, and `Watch.atDepth` is built as `Host.atDepth` is.
-/

namespace SlotTemplates

/-- A lookup that was made, and what it found. -/
structure Lookup where
  name : String
  found : Except ComponentError (Option Definition)

namespace Catalog

/-- The lookup of a name with a cache. -/
def asked (catalog : Catalog) (cache : Cache) (name : String) : Lookup :=
  ⟨name, (catalog.lookup cache name).1⟩

/-- Lookups that lead from one cache to another: each of them finds what the cache before it
gives. -/
inductive Leads (catalog : Catalog) : Cache → List Lookup → Cache → Prop where
  | nil {cache} : Leads catalog cache [] cache
  | cons {cache cache' name lookups} (h : Leads catalog (catalog.lookup cache name).2 lookups cache') :
    Leads catalog cache (catalog.asked cache name :: lookups) cache'

namespace Leads

variable {catalog : Catalog} {c d e : Cache} {lookups more : List Lookup}

theorem append (h : catalog.Leads c lookups d) (h' : catalog.Leads d more e) :
    catalog.Leads c (lookups ++ more) e := by
  induction h with
  | nil => exact h'
  | cons _ ih => exact .cons (ih h')

theorem single (catalog : Catalog) (cache : Cache) (name : String) :
    catalog.Leads cache [catalog.asked cache name] (catalog.lookup cache name).2 := .cons .nil

end Leads

end Catalog

/-! ## What is looked up -/

/-- The lookups of what follows on a result; nothing follows on an error. -/
def Rendered.lookupsThen {α : Type} (x : Rendered α) (next : α → State → List Lookup) :
    List Lookup :=
  match x with
  | (.ok a, s) => next a s
  | (.error _, _) => []

/-- The lookups that are made for components and for included templates. -/
structure Watch where
  component : Invocation → State → List Lookup
  included : String → State → List Lookup

/-- The lookups of a computation that is run from a state. -/
def Render.lookups {α : Type} (host : Host) (watch : Watch) : Render α → State → List Lookup
  | .done _, _ => []
  | .fail _, _ => []
  | .var name next, s => lookups host watch (next ((s.vars.get? name).getD .null)) s
  | .outlet slot next, s => lookups host watch (next (s.outlet host.env.config slot)) s
  | .lookup name next, s =>
    let (found, cache) := host.env.catalog.lookup s.cache name
    host.env.catalog.asked s.cache name :: lookups host watch (next found) { s with cache }
  | .component invocation next, s =>
    watch.component invocation s ++
      (host.component invocation s).lookupsThen fun text s => lookups host watch (next text) s
  | .included source next, s =>
    watch.included source s ++
      (host.included source s).lookupsThen fun text s => lookups host watch (next text) s

/-- The lookup before a component is rendered: none for a name that cannot resolve, and none for a
component that is being rendered. -/
def prepareLookups (env : Environment) (invocation : Invocation) (s : State) : List Lookup :=
  match canonicalName? invocation.name with
  | none => []
  | some canonical =>
    if s.chain.contains canonical then [] else [env.catalog.asked s.cache canonical]

/-- The lookups of a component, its own and those of its template. -/
def componentLookups (host : Host) (watch : Watch) (invocation : Invocation) (s : State) :
    List Lookup :=
  prepareLookups host.env invocation s ++
    (prepare host.env invocation s).lookupsThen fun entry s =>
      (renderNodes host.env entry.nodes).lookups host watch (s.enter entry)

/-- The lookups of an included template. -/
def includedLookups (host : Host) (watch : Watch) (source : String) (s : State) : List Lookup :=
  match host.env.compile includedName source with
  | .error _ => []
  | .ok template => (renderNodes host.env template.nodes).lookups host watch s

/-- The lookups that the host makes that renders up to a depth. -/
def Watch.atDepth (env : Environment) : Nat → Watch
  | 0 => { component := fun _ _ => [], included := fun _ _ => [] }
  | depth + 1 =>
    let host := Host.atDepth env depth
    let watch := Watch.atDepth env depth
    { component := componentLookups host watch, included := includedLookups host watch }

/-- The lookups of a computation from a state. -/
def Environment.lookups {α : Type} (env : Environment) (x : Render α) (s : State) : List Lookup :=
  x.lookups (env.host s.cache) (Watch.atDepth env (depthBound env s.cache + includeLimit)) s

/-! ## The cache after a render -/

/-- A host whose lookups a watch knows. -/
structure Host.Watched (host : Host) (watch : Watch) : Prop where
  component : ∀ (invocation : Invocation) (s : State), host.env.catalog.Leads s.cache
    (watch.component invocation s) (host.component invocation s).2.cache
  included : ∀ (source : String) (s : State), host.env.catalog.Leads s.cache
    (watch.included source s) (host.included source s).2.cache

section
variable {host : Host} {watch : Watch}

/-- The lookups of a step and of what follows on it lead to the cache after both. -/
theorem Rendered.leads_andThen {α β : Type} {catalog : Catalog} {cache : Cache} {x : Rendered α}
    {f : α → State → Rendered β} {lookups : List Lookup} {next : α → State → List Lookup}
    (h : catalog.Leads cache lookups x.2.cache)
    (hf : ∀ a s, catalog.Leads s.cache (next a s) (f a s).2.cache) :
    catalog.Leads cache (lookups ++ x.lookupsThen next) (x.andThen f).2.cache := by
  obtain ⟨e | a, s⟩ := x
  · rw [lookupsThen, List.append_nil]
    exact h
  · exact h.append (hf a s)

theorem Render.leads_run {α : Type} (h : host.Watched watch) (x : Render α) (s : State) :
    host.env.catalog.Leads s.cache (x.lookups host watch s) (x.run host s).2.cache := by
  induction x generalizing s with
  | done | fail => exact .nil
  | var _ _ ih | outlet _ _ ih => exact ih _ _
  | lookup name next ih =>
    let outcome := host.env.catalog.lookup s.cache name
    exact .cons (ih outcome.1 { s with cache := outcome.2 })
  | component invocation next ih => exact Rendered.leads_andThen (h.component _ _) ih
  | included source next ih => exact Rendered.leads_andThen (h.included _ _) ih

theorem leads_prepare (env : Environment) (invocation : Invocation) (s : State) :
    env.catalog.Leads s.cache (prepareLookups env invocation s)
      (prepare env invocation s).2.cache := by
  unfold prepareLookups prepare
  dsimp only
  cases canonicalName? invocation.name with
  | none => exact .nil
  | some canonical =>
    dsimp only
    split
    · exact .nil
    · have hsingle := Catalog.Leads.single env.catalog s.cache canonical
      generalize env.catalog.asked s.cache canonical = asked at hsingle
      generalize env.catalog.lookup s.cache canonical = outcome at hsingle
      obtain ⟨e | _ | definition, cache⟩ := outcome <;> exact hsingle

theorem leads_component (h : host.Watched watch) (invocation : Invocation) (s : State) :
    host.env.catalog.Leads s.cache (componentLookups host watch invocation s)
      (renderComponent host invocation s).2.cache := by
  have hprepare := leads_prepare host.env invocation s
  exact Rendered.leads_andThen hprepare fun entry s => Render.leads_run h _ (s.enter entry)

theorem leads_included (h : host.Watched watch) (source : String) (s : State) :
    host.env.catalog.Leads s.cache (includedLookups host watch source s)
      (renderIncluded host source s).2.cache := by
  unfold includedLookups renderIncluded
  cases host.env.compile includedName source with
  | error e => exact .nil
  | ok template => exact Render.leads_run h _ s

/-- At every depth the watch knows the lookups of the host. -/
theorem Host.atDepth_watched (env : Environment) (depth : Nat) :
    (Host.atDepth env depth).Watched (Watch.atDepth env depth) := by
  induction depth with
  | zero => exact ⟨fun _ _ => .nil, fun _ _ => .nil⟩
  | succ depth ih =>
    have hcomponent := leads_component ih
    have hincluded := leads_included ih
    simp only [Host.atDepth_env] at hcomponent hincluded
    exact ⟨hcomponent, hincluded⟩

end

/-- The lookups of a computation lead to the cache that it leaves. -/
theorem Environment.leads_run {α : Type} (env : Environment) (x : Render α) (s : State) :
    env.catalog.Leads s.cache (env.lookups x s) (env.run x s).2.cache := by
  have hwatched := Host.atDepth_watched env (depthBound env s.cache + includeLimit)
  have hleads := Render.leads_run hwatched x s
  rwa [Host.atDepth_env] at hleads

theorem Environment.leads_runAlone {α : Type} (env : Environment) (x : Render α)
    (vars : Entries Value) (cache : Cache) :
    env.catalog.Leads cache (env.lookups x (.start vars cache)) (env.runAlone x vars cache).2 :=
  env.leads_run x (.start vars cache)

end SlotTemplates
