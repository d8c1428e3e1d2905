import Mathlib.Data.Finset.SDiff
import SlotTemplates.Proofs.Component.Resolvable
import SlotTemplates.Proofs.Render.Isolation
import SlotTemplates.Proofs.Render.Machine
import SlotTemplates.Proofs.Render.Requests

/-!
# Rendering comes to an end

With the built-in functions alone a render ends (`Environment.render_completes`). What becomes less
at every component that is entered is the number of names that lookups find and that are not on
the chain (`State.HasRoom`): a component on the chain is refused. There are not more such names
than `depthBound` says (`Environment.knownNames`), so the depth is never exhausted
(`Environment.run_ne_tooDeep`), and the machine ends with the result.

The chain holds no name twice and only names that resolve, in every state of a render
(`Machine.ChainResolves`), so it is not longer than the number of names that resolve.
-/

namespace SlotTemplates

/-! ## Built-in functions -/

/-- There are no functions but those that every environment has. -/
def Environment.OnlyBuiltIns (env : Environment) : Prop :=
  ∀ name f, env.function? name = some f → f.isBuiltIn = true

theorem TemplateFunction.isBuiltIn_of_mem {config : Config} {entry : String × TemplateFunction}
    (h : entry ∈ builtIns config) : entry.2.isBuiltIn = true := by
  simp only [builtIns, List.mem_append, List.mem_map, List.mem_cons, List.not_mem_nil,
    or_false] at h
  rcases h with ⟨_, _, rfl⟩ | rfl | rfl | rfl <;> rfl

/-- An environment without extensions has only built-in functions. -/
theorem Environment.onlyBuiltIns_make {config : Config} {files : Tree} {env : Environment}
    (h : Environment.make config [] files = .ok env) : env.OnlyBuiltIns := by
  unfold make at h
  split at h
  · cases h
  cases h
  intro name f hf
  rcases Entries.get?_extend_cases hf with hf | hf
  · cases hf
  · rw [List.flatMap_nil, List.append_nil] at hf
    exact TemplateFunction.isBuiltIn_of_mem hf

/-- With built-in functions alone no template says that the depth is exhausted, and none is
included. -/
theorem Environment.OnlyBuiltIns.allows {env : Environment} (h : env.OnlyBuiltIns) :
    env.Allows (· ≠ .tooDeep) False where
  unknownFunction _ := nofun
  invalidArguments _ _ := nofun
  host hf _ := nomatch h _ _ hf
  included hf := nomatch h _ _ hf

/-! ## The depth suffices -/

section
variable {env : Environment} {finds : String → Except ComponentError (Option Definition)}
  {names : Finset String} {depth : Nat} {s t : State}

/-- Fewer than `depth` of the names are not on the chain. -/
structure State.HasRoom (env : Environment)
    (finds : String → Except ComponentError (Option Definition)) (names : Finset String)
    (depth : Nat) (s : State) : Prop where
  finds : env.catalog.Finds finds s.cache
  room : (names \ s.chain.toFinset).card < depth

namespace State.HasRoom

theorem after (h : s.HasRoom env finds names depth) (hs : s.SameScope t)
    (ht : env.catalog.Finds finds t.cache) : t.HasRoom env finds names depth :=
  ⟨ht, by rw [hs.chain]; exact h.room⟩

/-- One name less is left where a component is entered. -/
theorem enter {entry : Entry} (h : s.HasRoom env finds names (depth + 1))
    (hname : entry.name ∈ names) (hchain : entry.name ∉ s.chain) :
    (s.enter entry).HasRoom env finds names depth := by
  refine ⟨h.finds, ?_⟩
  have hmem : entry.name ∈ names \ s.chain.toFinset := by simp [hname, hchain]
  have hless := Finset.card_erase_lt_of_mem hmem
  have hrest : names \ (s.enter entry).chain.toFinset =
      (names \ s.chain.toFinset).erase entry.name := by
    ext name
    simp only [State.enter, List.toFinset_append, Finset.mem_sdiff, Finset.mem_union,
      Finset.mem_erase, List.mem_toFinset, List.toFinset_cons, List.toFinset_nil,
      Finset.mem_insert, Finset.notMem_empty, or_false, not_or]
    tauto
  have := h.room
  rw [hrest]
  omega

end State.HasRoom

/-- Nothing that is rendered exhausts the depth if no component does. -/
theorem Render.run_ne_tooDeep {α : Type}
    (hhost : ∀ (invocation : Invocation) (s : State), s.HasRoom env finds names depth →
      ((Host.atDepth env depth).component invocation s).1 ≠ .error .tooDeep)
    {x : Render α} (hx : x.Within (· ≠ .tooDeep) False) (hs : s.HasRoom env finds names depth) :
    (x.run (Host.atDepth env depth) s).1 ≠ .error .tooDeep := by
  induction x generalizing s with
  | done a => exact nofun
  | fail e => exact fun h => hx (Except.error.inj h)
  | var _ _ ih | outlet _ _ ih => exact ih _ (hx _) hs
  | lookup name next ih =>
    refine ih _ (hx _ fun _ _ => nofun) (hs.after (.cache s _) ?_)
    rw [Host.atDepth_env]
    exact hs.finds.lookup name
  | component invocation next ih =>
    have hcomponent := hhost invocation s hs
    have hscope := (Host.atDepth_restoring env depth).component invocation s
    have hfinds := Host.atDepth_finds depth invocation s hs.finds
    rw [run]
    generalize (Host.atDepth env depth).component invocation s = outcome at *
    obtain ⟨e | text, t⟩ := outcome
    · intro h
      cases h
      exact hcomponent rfl
    · exact ih text (hx text) (hs.after hscope hfinds)
  | included source next ih => exact hx.1.elim

/-- No component exhausts the depth if it is larger than the number of names that are left. -/
theorem Host.atDepth_ne_tooDeep (henv : env.OnlyBuiltIns)
    (hnames : ∀ name definition, canonicalName? name = some name →
      finds name = .ok (some definition) → name ∈ names)
    (invocation : Invocation) (hs : s.HasRoom env finds names depth) :
    ((Host.atDepth env depth).component invocation s).1 ≠ .error .tooDeep := by
  induction depth generalizing invocation s with
  | zero => exact absurd hs.room (Nat.not_lt_zero _)
  | succ depth ih =>
    change (renderComponent (Host.atDepth env depth) invocation s).1 ≠ .error .tooDeep
    unfold renderComponent
    rw [Host.atDepth_env]
    cases hp : prepare env invocation s with
    | mk found t =>
    obtain ⟨hscope, hfinds⟩ := prepare_after hp hs.finds
    cases found with
    | error e =>
      obtain ⟨cause, rfl, -⟩ := prepare_error hp
      exact nofun
    | ok entry =>
      obtain ⟨hname, hchain, definition, hlookup, -⟩ := prepare_ok hp
      have hfound : finds entry.name = .ok (some definition) := by
        rw [← hs.finds, hlookup]
      have ht : t.HasRoom env finds names (depth + 1) := hs.after hscope hfinds
      have inner := ht.enter (hnames _ _ (canonicalName?_canonical hname) hfound)
        (by rw [hscope.chain]; exact hchain)
      have hbody := Render.run_ne_tooDeep (fun invocation _ => ih invocation)
        (renderNodes_within henv.allows entry.nodes) inner
      rw [Rendered.andThen_ok]
      dsimp only
      generalize ((renderNodes env entry.nodes).run (Host.atDepth env depth) (t.enter entry)) =
        outcome at hbody
      obtain ⟨e | text, u⟩ := outcome
      · exact hbody
      · exact nofun

/-- The names under which lookups can find components: those of places, and those in the cache
that do not resolve. -/
def Environment.knownNames (env : Environment) (cache : Cache) : List String :=
  env.catalog.namesOfPlaces ++
    (cache.filter fun entry => (env.catalog.resolve entry.1).isNone).map Prod.fst

theorem Environment.length_knownNames_le (env : Environment) (cache : Cache) :
    (env.knownNames cache).length ≤ depthBound env cache := by
  rw [knownNames, List.length_append, List.length_map, depthBound]
  exact Nat.add_le_add_right env.catalog.length_namesOfPlaces_le _

/-- Lookups find components under known names only. -/
theorem Environment.mem_knownNames {cache : Cache} {name : String} {definition : Definition}
    (hname : canonicalName? name = some name)
    (h : (env.catalog.lookup cache name).1 = .ok (some definition)) :
    name ∈ env.knownNames cache := by
  refine List.mem_append.2 ?_
  by_cases hresolve : (env.catalog.resolve name).isSome
  · exact .inl (Catalog.mem_namesOfPlaces ⟨hname, hresolve⟩)
  refine .inr ?_
  rcases Catalog.lookup_cases env.catalog cache name with
    ⟨canonical, held, hc, hheld, -⟩ | ⟨canonical, loaded, hc, -, hfetch, -⟩ | ⟨hnone, hl⟩
  · obtain rfl : name = canonical := by simpa [hname] using hc
    exact List.mem_map.2 ⟨(name, held), List.mem_filter.2 ⟨Entries.mem_of_get? hheld,
      by simpa using hresolve⟩, rfl⟩
  · obtain rfl : name = canonical := by simpa [hname] using hc
    exact absurd (Catalog.resolve_of_fetch hfetch) hresolve
  · rw [hl] at h
    exact absurd h (hnone definition)

/-- With built-in functions alone the depth is never exhausted, whatever the state is. -/
theorem Environment.run_ne_tooDeep {α : Type} (henv : env.OnlyBuiltIns) {x : Render α}
    (hx : x.Within (· ≠ .tooDeep) False) (s : State) : (env.run x s).1 ≠ .error .tooDeep := by
  have hroom : s.HasRoom env (fun name => (env.catalog.lookup s.cache name).1)
      (env.knownNames s.cache).toFinset (depthBound env s.cache + includeLimit) := by
    refine ⟨fun _ => rfl, ?_⟩
    calc ((env.knownNames s.cache).toFinset \ s.chain.toFinset).card
        ≤ (env.knownNames s.cache).toFinset.card := Finset.card_le_card Finset.sdiff_subset
      _ ≤ (env.knownNames s.cache).length := List.toFinset_card_le _
      _ ≤ depthBound env s.cache := env.length_knownNames_le s.cache
      _ < depthBound env s.cache + includeLimit := Nat.lt_add_of_pos_right (by decide)
  refine Render.run_ne_tooDeep (fun invocation _ hs => ?_) hx hroom
  exact Host.atDepth_ne_tooDeep henv
    (fun name definition hname hfound => List.mem_toFinset.2 (mem_knownNames hname hfound))
    invocation hs

end

/-! ## The chain -/

section
variable {env : Environment} {m m' : Machine}

/-- The chain holds no name twice, and only names that resolve. -/
structure Machine.ChainResolves (env : Environment) (m : Machine) : Prop where
  finds : env.catalog.Finds env.catalog.find m.state.cache
  nodup : m.state.chain.Nodup
  resolves : ∀ name ∈ m.state.chain, name ∈ env.catalog.resolvable

/-- A step keeps the chain as it should be: only a component that is entered adds a name. -/
theorem Machine.ChainResolves.step (h : m.ChainResolves env) (hstep : Steps env m m') :
    m'.ChainResolves env := by
  cases hstep.move with
  | leave =>
    exact ⟨h.finds, h.nodup.sublist (List.dropLast_sublist _),
      fun name hname => h.resolves name (List.dropLast_subset _ hname)⟩
  | resume | var | outlet | expand | reject => exact ⟨h.finds, h.nodup, h.resolves⟩
  | lookup => exact ⟨h.finds.lookup _, h.nodup, h.resolves⟩
  | refuse hp =>
    obtain ⟨hscope, hfinds⟩ := prepare_after hp h.finds
    exact ⟨hfinds, by rw [hscope.chain]; exact h.nodup, by rw [hscope.chain]; exact h.resolves⟩
  | @enter _ _ _ _ entry _ hp =>
    obtain ⟨hscope, hfinds⟩ := prepare_after hp h.finds
    obtain ⟨hname, hchain, definition, hlookup, -⟩ := prepare_ok hp
    have hfound := h.finds entry.name
    rw [hlookup] at hfound
    have hresolves := Catalog.mem_resolvable (canonicalName?_canonical hname) hfound.symm
    refine ⟨hfinds, ?_, ?_⟩
    · rw [State.enter, hscope.chain]
      exact List.nodup_append.2 ⟨h.nodup, List.nodup_singleton _, fun _ hn _ hn' heq =>
        hchain (by rwa [← List.mem_singleton.1 hn', ← heq])⟩
    · intro name hmem
      rcases List.mem_append.1 hmem with hmem | hmem
      · exact h.resolves name (by rwa [← hscope.chain])
      · rw [List.mem_singleton.1 hmem]
        exact hresolves

/-- So it is in all states that are reached. -/
theorem Machine.ChainResolves.reaches (h : m.ChainResolves env) (hr : Reaches env m m') :
    m'.ChainResolves env := by
  induction hr with
  | refl => exact h
  | tail _ hstep ih => exact ih.step hstep

/-- A chain without repeated names is not longer than the number of names that resolve. -/
theorem Machine.ChainResolves.length_le (h : m.ChainResolves env) :
    m.state.chain.length ≤ env.catalog.resolvable.ncard := by
  rw [← List.toFinset_card_of_nodup h.nodup, ← Set.ncard_coe_finset]
  exact Set.ncard_le_ncard (fun name hname => h.resolves name (by simpa using hname))
    env.catalog.resolvable_finite

/-- A render from an empty cache, step by step: it ends with a result, and until then the chain
of components has no name twice and is bounded by the number of names that resolve. -/
structure Machine.Completes (env : Environment) (m : Machine)
    (result : Except RenderError String × Cache) : Prop where
  ends : ∃ steps, m.result? env steps = some result
  notTooDeep : result.1 ≠ .error .tooDeep
  nodup : ∀ m', Reaches env m m' → m'.state.chain.Nodup
  length_le : ∀ m', Reaches env m m' →
    m'.state.chain.length ≤ env.catalog.resolvable.ncard

/-- A computation that asks for no included templates completes. -/
theorem Environment.runAlone_completes (henv : env.OnlyBuiltIns) {x : Render String}
    (hx : x.Within (· ≠ .tooDeep) False) (vars : Entries Value) :
    (Machine.start x (.start vars [])).Completes env (env.runAlone x vars []) := by
  have hchain : (Machine.start x (.start vars [])).ChainResolves env :=
    ⟨(Catalog.faithful_nil _).finds, List.nodup_nil, nofun⟩
  have hdepth := Environment.run_ne_tooDeep henv hx (.start vars [])
  exact ⟨Environment.exists_result? hdepth, hdepth, fun _ hr => (hchain.reaches hr).nodup,
    fun _ hr => (hchain.reaches hr).length_le⟩

/-- With built-in functions alone every render ends: there are finitely many names that resolve,
and the render of every template with all variables, and of every component with everything that
can be passed to it, completes with the result that `Environment.renderTemplate` and
`Environment.render` give. -/
theorem Environment.render_completes (env : Environment) (henv : env.OnlyBuiltIns) :
    env.catalog.resolvable.Finite ∧
    (∀ (template : Template) (vars : Entries Value),
      (Machine.start (renderNodes env template.nodes)
        (.start (env.globals.extend vars) [])).Completes env
          (env.renderTemplate template vars [])) ∧
    (∀ invocation : Invocation,
      (Machine.start (Render.invoke invocation) (.start [] [])).Completes env
        (env.render invocation [])) :=
  ⟨env.catalog.resolvable_finite,
    fun template _ => runAlone_completes henv (renderNodes_within henv.allows template.nodes) _,
    fun invocation => runAlone_completes henv (.invoke invocation) _⟩

/-- A component that asks for itself under a name that it computes. -/
def Tree.askingForItself : Tree :=
  .dir [("components", .dir [("self.tpl", .file (.text "\x7b\x7b c('se' ~ 'lf') \x7d\x7d"))])]

/-- With the default settings its render completes. -/
theorem Environment.render_completes_itself :
    ∃ env, Environment.make {} [] .askingForItself = .ok env ∧ env.OnlyBuiltIns ∧
      (Machine.start (Render.invoke { name := "self" }) (.start [] [])).Completes env
        (env.render { name := "self" } []) := by
  obtain ⟨env, hmake⟩ : ∃ env, Environment.make {} [] .askingForItself = .ok env := ⟨_, rfl⟩
  have hbuiltIns := onlyBuiltIns_make hmake
  obtain ⟨-, -, hcomponents⟩ := Environment.render_completes env hbuiltIns
  exact ⟨env, hmake, hbuiltIns, hcomponents { name := "self" }⟩

end

end SlotTemplates
