import Mathlib
import SlotTemplates.Proofs.Render.Chain
import SlotTemplates.Proofs.Render.Termination

/-!
# Circular references

A component invokes another one directly if its template has an invocation with the literal name
of the other one where it is evaluated in every render: on the top level, or in the body or a
captured slot of such an invocation (`Node.certain`, `Catalog.Invokes`). A component from which a
cycle of direct invocations is reachable has no text (`Environment.cycle_has_no_text`). The reason
is that a text of a component is rendered at some depth, and at a smaller one the texts of all
components that it invokes directly (`renderNodes_certain`).
-/

namespace SlotTemplates

/-! ## Direct invocations -/

namespace Node

mutual

/-- The literal names of the invocations that are evaluated whenever a node is rendered. -/
def certain : Node → List String
  | .component _ (.literal name) _ body slots => name :: (certainOf body ++ certainOfSlots slots)
  | .component _ (.dynamic _) _ body slots => certainOf body ++ certainOfSlots slots
  | .text _ _ => []
  | .output _ _ => []
  | .slot _ _ => []

/-- The literal names of the invocations that are evaluated whenever nodes are rendered. -/
def certainOf : List Node → List String
  | [] => []
  | node :: rest => certain node ++ certainOf rest

/-- The literal names of the invocations that are evaluated whenever slots are captured. -/
def certainOfSlots : List (SlotHead × List Node) → List String
  | [] => []
  | (_, body) :: rest => certainOf body ++ certainOfSlots rest

end

end Node

/-- The template of the first component has an invocation of the second one that is evaluated in
every render. -/
def Catalog.Invokes (catalog : Catalog) (a b : String) : Prop :=
  ∃ definition name, catalog.fetch a = .ok (some definition) ∧
    name ∈ Node.certainOf definition.template.nodes ∧ canonicalName? name = some b

/-- A component from which one is reachable that reaches itself. -/
def Catalog.LeadsToCycle (catalog : Catalog) (a : String) : Prop :=
  ∃ c, Relation.ReflTransGen catalog.Invokes a c ∧ Relation.TransGen catalog.Invokes c c

/-- A component that leads to a cycle invokes one that does. -/
theorem Catalog.LeadsToCycle.invokes {catalog : Catalog} {a : String}
    (h : catalog.LeadsToCycle a) : ∃ b, catalog.Invokes a b ∧ catalog.LeadsToCycle b := by
  obtain ⟨c, hreach, hcycle⟩ := h
  rcases hreach.cases_head with rfl | ⟨b, hab, hbc⟩
  · obtain ⟨b, hab, hba⟩ := Relation.TransGen.head'_iff.1 hcycle
    exact ⟨b, hab, a, hba, hcycle⟩
  · exact ⟨b, hab, c, hbc, hcycle⟩

/-! ## What succeeds with a template -/

section
variable {env : Environment} {finds : String → Except ComponentError (Option Definition)}
  {depth : Nat}

/-- Some invocation of a name succeeds at a depth. -/
def Environment.Succeeds (env : Environment)
    (finds : String → Except ComponentError (Option Definition)) (depth : Nat) (name : String) :
    Prop :=
  ∃ (invocation : Invocation) (s : State) (text : String) (t : State), invocation.name = name ∧
    env.catalog.Finds finds s.cache ∧
    (Host.atDepth env depth).component invocation s = (.ok text, t)

/-- If two computations succeed one after the other, both do. -/
theorem Render.run_bind_ok {α β : Type} {x : Render α} {f : α → Render β} {b : β} {s u : State}
    (hs : env.catalog.Finds finds s.cache)
    (h : (x >>= f).run (Host.atDepth env depth) s = (.ok b, u)) :
    ∃ a t, x.run (Host.atDepth env depth) s = (.ok a, t) ∧ env.catalog.Finds finds t.cache ∧
      (f a).run (Host.atDepth env depth) t = (.ok b, u) := by
  have hfinds : env.catalog.Finds finds (x.run (Host.atDepth env depth) s).2.cache :=
    Render.run_finds x s hs
  rw [run_bind] at h
  generalize x.run (Host.atDepth env depth) s = outcome at h hfinds
  obtain ⟨e | a, t⟩ := outcome
  · cases h
  · exact ⟨a, t, rfl, hfinds, h⟩

mutual

/-- If a node has a text, the invocations that are certain in it have succeeded. -/
theorem renderNode_certain (node : Node) {s t : State} {text : String}
    (hs : env.catalog.Finds finds s.cache)
    (h : (renderNode env node).run (Host.atDepth env depth) s = (.ok text, t)) :
    ∀ name ∈ node.certain, env.Succeeds finds depth name := by
  cases node with
  | text | output | slot => exact nofun
  | component span name attrs body slots =>
    obtain ⟨name', t₁, hname, hs₁, h₁⟩ := Render.run_bind_ok hs h
    obtain ⟨props, t₂, -, hs₂, h₂⟩ := Render.run_bind_ok hs₁ h₁
    obtain ⟨content, t₃, hbody, hs₃, h₃⟩ := Render.run_bind_ok hs₂ h₂
    obtain ⟨captured, t₄, hslots, hs₄, hinvoke⟩ := Render.run_bind_ok hs₃ h₃
    have hbody := renderNodes_certain body hs₂ hbody
    have hslots := renderSlots_certain [] slots hs₃ hslots
    have hinner : ∀ name ∈ Node.certainOf body ++ Node.certainOfSlots slots,
        env.Succeeds finds depth name := by
      intro name hmem
      rcases List.mem_append.1 hmem with hmem | hmem
      · exact hbody name hmem
      · exact hslots name hmem
    cases name with
    | dynamic e => exact hinner
    | literal name =>
      intro other hmem
      rcases List.mem_cons.1 hmem with rfl | hmem
      · rw [Render.run_invoke] at hinvoke
        cases hname
        exact ⟨_, t₄, text, t, rfl, hs₄, hinvoke⟩
      · exact hinner other hmem

theorem renderNodes_certain (nodes : List Node) {s t : State} {text : String}
    (hs : env.catalog.Finds finds s.cache)
    (h : (renderNodes env nodes).run (Host.atDepth env depth) s = (.ok text, t)) :
    ∀ name ∈ Node.certainOf nodes, env.Succeeds finds depth name := by
  cases nodes with
  | nil => exact nofun
  | cons node rest =>
    obtain ⟨first, t₁, hfirst, hs₁, h⟩ := Render.run_bind_ok hs h
    obtain ⟨others, t₂, hrest, -, -⟩ := Render.run_bind_ok hs₁ h
    intro name hmem
    rcases List.mem_append.1 hmem with hmem | hmem
    · exact renderNode_certain node hs hfirst name hmem
    · exact renderNodes_certain rest hs₁ hrest name hmem

theorem renderSlots_certain (captured : Entries String) (slots : List (SlotHead × List Node))
    {s t : State} {result : Entries String} (hs : env.catalog.Finds finds s.cache)
    (h : (renderSlots env captured slots).run (Host.atDepth env depth) s = (.ok result, t)) :
    ∀ name ∈ Node.certainOfSlots slots, env.Succeeds finds depth name := by
  cases slots with
  | nil => exact nofun
  | cons slot rest =>
    obtain ⟨head, body⟩ := slot
    obtain ⟨text, t₁, hbody, hs₁, h⟩ := Render.run_bind_ok hs h
    intro name hmem
    rcases List.mem_append.1 hmem with hmem | hmem
    · exact renderNodes_certain body hs hbody name hmem
    · exact renderSlots_certain _ rest hs₁ h name hmem

end

/-! ## Cycles -/

/-- What a component with a text invokes directly has succeeded one level deeper. -/
theorem Environment.Succeeds.invokes {a b name : String}
    (h : env.Succeeds env.catalog.find (depth + 1) name) (hname : canonicalName? name = some a)
    (hab : env.catalog.Invokes a b) :
    ∃ name, canonicalName? name = some b ∧ env.Succeeds env.catalog.find depth name := by
  obtain ⟨invocation, s, text, t, rfl, hs, h⟩ := h
  obtain ⟨definition, name, hfetch, hmem, hb⟩ := hab
  refine ⟨name, hb, ?_⟩
  change renderComponent (Host.atDepth env depth) invocation s = _ at h
  unfold renderComponent at h
  rw [Host.atDepth_env] at h
  cases hp : prepare env invocation s with
  | mk found u =>
  rw [hp] at h
  cases found with
  | error e => cases h
  | ok entry =>
    obtain ⟨hentry, -, loaded, hlookup, hnodes⟩ := prepare_ok hp
    obtain rfl : a = entry.name := Option.some.inj (hname.symm.trans hentry)
    have hloaded : env.catalog.find entry.name = .ok (some loaded) := by
      rw [← hs, hlookup]
    rw [Catalog.find, canonicalName?_canonical hname] at hloaded
    obtain rfl : definition = loaded := by simpa [hfetch] using hloaded
    rw [Rendered.andThen_ok, hnodes] at h
    generalize hrun : (renderNodes env definition.template.nodes).run (Host.atDepth env depth)
      (u.enter entry) = outcome at h
    obtain ⟨e | inner, v⟩ := outcome
    · cases h
    · have hfinds : env.catalog.Finds env.catalog.find (u.enter entry).cache :=
        (prepare_after hp hs).2
      exact renderNodes_certain _ hfinds hrun name hmem

/-- At no depth there is a text of a component that leads to a cycle. -/
theorem Environment.not_succeeds {a name : String} (hname : canonicalName? name = some a)
    (ha : env.catalog.LeadsToCycle a) : ¬ env.Succeeds env.catalog.find depth name := by
  induction depth generalizing a name with
  | zero =>
    rintro ⟨invocation, s, text, t, -, -, h⟩
    cases h
  | succ depth ih =>
    intro h
    obtain ⟨b, hab, hb⟩ := ha.invokes
    obtain ⟨name', hname', h'⟩ := h.invokes hname hab
    exact ih hname' hb h'

end

/-- With built-in functions alone no function of the host fails. -/
theorem Environment.OnlyBuiltIns.not_hostFails {env : Environment} (h : env.OnlyBuiltIns)
    {e : RenderError} : ¬ env.HostFails e := by
  rintro ⟨name, f, args, hf, -⟩
  cases h name _ hf

/-- A component that leads to a cycle of direct invocations has no text, whatever is passed to it
and wherever it is rendered with a faithful cache. The depth is not the reason if there are only
built-in functions. If the reason is a circular reference, its chain ends with a name that is in it
already, and every name was asked for while those before it were being rendered; the only other
origin of such an error is a function of the host that makes one up. -/
theorem Environment.cycle_has_no_text (env : Environment) (invocation : Invocation) (s : State)
    {a c : String} (hname : canonicalName? invocation.name = some a)
    (hcache : env.catalog.Faithful s.cache)
    (hreach : Relation.ReflTransGen env.catalog.Invokes a c)
    (hcycle : Relation.TransGen env.catalog.Invokes c c) :
    ∃ e, (env.run (Render.invoke invocation) s).1 = .error e ∧
      (env.OnlyBuiltIns → e ≠ .tooDeep) ∧
      ∀ chain, e = .component (.circular chain) →
        env.HostFails e ∨
          (Machine.start (Render.invoke invocation) s).ClosesCycle env chain := by
  cases h : (env.run (Render.invoke invocation) s).1 with
  | ok text =>
    have hrun : env.run (Render.invoke invocation) s =
        (.ok text, (env.run (Render.invoke invocation) s).2) := Prod.ext h rfl
    rw [run, host, Render.run_invoke] at hrun
    exact absurd ⟨invocation, s, text, _, rfl, hcache.finds, hrun⟩
      (not_succeeds hname ⟨c, hreach, hcycle⟩)
  | error e =>
    refine ⟨e, rfl, fun henv he => ?_, fun chain he => ?_⟩
    · rw [he] at h
      exact run_ne_tooDeep henv (.invoke invocation) s h
    · rw [he] at h ⊢
      exact circular_closes h

/-- Two components that invoke each other, with the settings as they are by default. -/
def Environment.loop : Environment where
  config := {}
  tags := componentTags {}
  functions := Entries.ofList (TemplateFunction.builtIns {})
  globals := []
  files := .dir [("components",
    .dir [("a.tpl", .file (.text "A{x:b /}")), ("b.tpl", .file (.text "B{x:a /}"))])]

/-- Neither of the two has a text, and no function of the host is the reason. -/
theorem Environment.cycle_has_no_text_loop :
    Environment.loop.catalog.Invokes "a" "b" ∧ Environment.loop.catalog.Invokes "b" "a" ∧
      ∃ e, (Environment.loop.render { name := "a" } []).1 = .error e ∧ e ≠ .tooDeep ∧
        ∀ chain, e = .component (.circular chain) →
          (Machine.start (Render.invoke { name := "a" }) (.start [] [])).ClosesCycle
            .loop chain := by
  have invokes (name other : String) (path : Path) (source text : String)
      (hpath : Environment.loop.catalog.resolve name = some path)
      (hsource : Environment.loop.files.read path = .ok source)
      (hdeclaration : Declaration.ofSource source.toList = .ok {})
      (htemplate : Template.compile Environment.loop.tags path source =
        .ok ⟨path, [.text ⟨0, 1⟩ text, .component ⟨1, 8⟩ (.literal other) [] [] []]⟩)
      (hother : canonicalName? other = some other) :
      Environment.loop.catalog.Invokes name other :=
    ⟨_, other, Catalog.fetch_eq hpath hsource hdeclaration htemplate,
      by simp [Node.certainOf, Node.certain], hother⟩
  have hab : Environment.loop.catalog.Invokes "a" "b" :=
    invokes "a" "b" "components/a.tpl" "A{x:b /}" "A" (by decide +kernel) rfl rfl (by cbv)
      (by decide)
  have hba : Environment.loop.catalog.Invokes "b" "a" :=
    invokes "b" "a" "components/b.tpl" "B{x:a /}" "B" (by decide +kernel) rfl rfl (by cbv)
      (by decide)
  have hmake : Environment.make {} [] Environment.loop.files = .ok .loop := rfl
  have hbuiltIns := onlyBuiltIns_make hmake
  obtain ⟨e, he, hdepth, hchain⟩ := Environment.loop.cycle_has_no_text { name := "a" }
    (.start [] []) (by decide) (Catalog.faithful_nil _) .refl (.tail (.single hab) hba)
  exact ⟨hab, hba, e, he, hdepth hbuiltIns, fun chain heq =>
    (hchain chain heq).resolve_left hbuiltIns.not_hostFails⟩

end SlotTemplates
