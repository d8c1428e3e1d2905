import SlotTemplates.Proofs.Render.Forwarding
import SlotTemplates.Proofs.Render.Outlet

/-!
# The variables of a component

A component sees the globals, over them its props, and over these `props`, `content` and `slots`
(`get?_componentVars`). A prop under one of these three names is therefore seen as a member of
`props` only; every other one is a variable of its name, whatever global has the name too.

It is one all the time that the template of the component is rendered. Components that the template
invokes put variables of their own in the place of these, and take them away again: between them the
variables are those that were entered with (`Machine.outermostVars_reaches`). And it is one all over
the template: if references are replaced by what is bound, in outputs, attributes, what is captured
and the bodies of outlets, the template renders the same (`run_renderNodes_subst`).
-/

namespace SlotTemplates

/-! ## The scope that is entered -/

/-- The names under which a component sees what was passed to it as a whole. -/
def implicitNames : List String := ["props", "content", "slots"]

namespace Entries

variable {α : Type}

/-- Entries that are inserted over others are found first. -/
theorem get?_extend {m other : Entries α} (h : other.keys.Nodup) (name : String) :
    (m.extend other).get? name = (other.get? name).or (m.get? name) := by
  induction other generalizing m with
  | nil => rfl
  | cons entry other ih =>
    obtain ⟨key, value⟩ := entry
    obtain ⟨hkey, hother⟩ := List.nodup_cons.1 h
    have hstep : m.extend ((key, value) :: other) = (m.insert key value).extend other := rfl
    rw [hstep, ih hother, get?_insert, get?_cons]
    by_cases heq : key = name
    · rw [if_pos heq, if_pos heq, get?_eq_none_of_not_mem (heq ▸ hkey)]
      rfl
    · rw [if_neg heq, if_neg heq]

end Entries

/-- Under a name that is none of the implicit ones a component sees its prop, or else the global. -/
theorem get?_componentVars {globals bound : Entries Value} (hbound : bound.keys.Nodup)
    (content : Option String) (slots : Entries String) {name : String}
    (hname : name ∉ implicitNames) :
    (componentVars globals bound content slots).get? name =
      (bound.get? name).or (globals.get? name) := by
  simp only [implicitNames, List.mem_cons, List.not_mem_nil, or_false, not_or] at hname
  simp only [componentVars, Entries.get?_insert, Entries.get?_extend hbound]
  rw [if_neg (Ne.symm hname.2.2), if_neg (Ne.symm hname.2.1), if_neg (Ne.symm hname.1)]

/-! ## At all times -/

/-- The variables that are back when what a computation waits for is there. -/
def Waiting.vars? : Waiting → Option (Entries Value)
  | .component _ vars _ => some vars
  | .included _ => none

namespace Machine

variable {env : Environment} {m m' : Machine}

/-- The variables of the computation that was started: those that come back after all components
that are entered now. -/
def outermostVars (m : Machine) : Entries Value :=
  (m.waiting.filterMap Waiting.vars?).getLast?.getD m.state.vars

theorem outermostVars_step (h : Steps env m m') : m'.outermostVars = m.outermostVars := by
  cases h.move with
  | leave =>
    simp only [outermostVars, List.filterMap_cons, Waiting.vars?, List.getLast?_cons,
      Option.getD_some]
    rfl
  | enter hp =>
    simp only [outermostVars, List.filterMap_cons, Waiting.vars?, List.getLast?_cons,
      Option.getD_some, (prepare_scope hp).vars]
  | refuse hp => simp only [outermostVars, (prepare_scope hp).vars]
  | var | outlet | lookup | resume | expand | reject => rfl

theorem outermostVars_reaches (h : Reaches env m m') : m'.outermostVars = m.outermostVars := by
  induction h with
  | refl => rfl
  | tail _ hstep ih => exact (outermostVars_step hstep).trans ih

/-- Where no component is entered, the outermost variables are those in scope. -/
theorem outermostVars_eq (h : m.active = []) : m.outermostVars = m.state.vars := by
  have hnone : m.waiting.filterMap Waiting.vars? = [] := by
    rw [active, List.reverse_eq_nil_iff, List.filterMap_eq_nil_iff] at h
    refine List.filterMap_eq_nil_iff.2 fun waiting hwaiting => ?_
    cases waiting with
    | component => cases h _ hwaiting
    | included => rfl
  rw [outermostVars, hnone]
  rfl

/-- In a machine a variable has a value: that is what a reference to it evaluates to, and what the
machine goes on with where it comes to one. -/
structure Sees (env : Environment) (m : Machine) (name : String) (value : Value) : Prop where
  eval : ∀ (host : Host) (span : Span),
    (eval env (.var span name)).run host m.state = (.ok value, m.state)
  step : ∀ (span : Span) (next : Value → Render String),
    m.program = SlotTemplates.eval env (.var span name) >>= next →
      m.step env = .inl { m with program := next value }

theorem Sees.of_get? {name : String} {value : Value} (h : m.state.vars.get? name = some value) :
    m.Sees env name value where
  eval host span := by simp [SlotTemplates.eval, Render.value, Render.run, h]
  step span next hm := by
    obtain ⟨program, waiting, s⟩ := m
    obtain rfl : program = _ := hm
    simp [SlotTemplates.eval, Render.value, Machine.step, h]

end Machine

theorem Entry.Renders.vars_eq {entry : Entry} {env : Environment} {caller : State} {m : Machine}
    (h : entry.Renders env caller m) : m.state.vars = entry.vars :=
  (Machine.outermostVars_eq h.active).symm.trans (Machine.outermostVars_reaches h.reaches)

/-! ## All over the template -/

/-- In a state, variables have the values that they are known to have. -/
def State.Knows (known : Entries Value) (s : State) : Prop :=
  ∀ name value, known.get? name = some value → s.vars.get? name = some value

theorem State.Knows.sameScope {known : Entries Value} {s t : State} (h : s.Knows known)
    (hscope : s.SameScope t) : t.Knows known := by
  rw [Knows, hscope.vars]
  exact h

/-- What follows on a step that leaves the scope can count on what is known. -/
theorem State.Knows.andThen_congr {α β : Type} {known : Entries Value} {s : State}
    (h : s.Knows known) {x : Rendered α} (hscope : s.SameScope x.2)
    {f g : α → State → Rendered β} (hfg : ∀ a t, t.Knows known → f a t = g a t) :
    x.andThen f = x.andThen g := by
  obtain ⟨e | a, t⟩ := x
  · rfl
  · exact hfg a t (h.sameScope hscope)

namespace Render

variable {α β : Type} {known : Entries Value}

/-- The computation with the values of some variables known. It does not ask for these. -/
def given (known : Entries Value) : Render α → Render α
  | .done a => .done a
  | .fail e => .fail e
  | .var name next =>
    match known.get? name with
    | some value => given known (next value)
    | none => .var name fun value => given known (next value)
  | .outlet slot next => .outlet slot fun text => given known (next text)
  | .lookup name next => .lookup name fun found => given known (next found)
  | .component invocation next => .component invocation fun text => given known (next text)
  | .included source next => .included source fun text => given known (next text)

theorem given_bind (x : Render α) (f : α → Render β) :
    (x >>= f).given known = x.given known >>= fun a => (f a).given known := by
  induction x with
  | done | fail => rfl
  | var name next ih =>
    rw [var_bind, given, given]
    cases known.get? name with
    | none => simp only [ih, var_bind]
    | some value => exact ih value
  | outlet _ _ ih | lookup _ _ ih | component _ _ ih | included _ _ ih =>
    simp only [outlet_bind, lookup_bind, component_bind, included_bind, given, ih]

/-- A computation runs the same if what is known is so. -/
theorem run_given {host : Host} (hhost : host.Restoring) (x : Render α) {s : State}
    (h : s.Knows known) : (x.given known).run host s = x.run host s := by
  induction x generalizing s with
  | done | fail => rfl
  | var name next ih =>
    rw [given]
    cases hknown : known.get? name with
    | none => exact ih _ h
    | some value =>
      rw [run, h name value hknown]
      exact ih value h
  | outlet slot next ih => exact ih _ h
  | lookup name next ih => exact ih _ (h.sameScope (.cache s _))
  | component invocation next ih =>
    exact h.andThen_congr (hhost.component invocation s) fun text t ht => ih text ht
  | included source next ih =>
    exact h.andThen_congr (hhost.included source s) fun text t ht => ih text ht

end Render

/-! ### Replacing references -/

mutual

/-- The expression with the variables that are known replaced by their values. -/
def Expr.subst (known : Entries Value) : Expr → Expr
  | .literal span value => .literal span value
  | .var span name =>
    match known.get? name with
    | some value => .literal span value
    | none => .var span name
  | .list span items => .list span (Expr.substList known items)
  | .map span entries => .map span (Expr.substEntries known entries)
  | .attr span base name => .attr span (base.subst known) name
  | .index span base position => .index span (base.subst known) (position.subst known)
  | .call span name nameSpan args => .call span name nameSpan (Expr.substList known args)
  | .concat span left right => .concat span (left.subst known) (right.subst known)
  | .coalesce span left right => .coalesce span (left.subst known) (right.subst known)

/-- `Expr.subst` on every expression of a list. -/
def Expr.substList (known : Entries Value) : List Expr → List Expr
  | [] => []
  | e :: rest => e.subst known :: Expr.substList known rest

/-- `Expr.subst` on every value of the entries of a map. -/
def Expr.substEntries (known : Entries Value) : List (String × Expr) → List (String × Expr)
  | [] => []
  | (key, e) :: rest => (key, e.subst known) :: Expr.substEntries known rest

end

/-- `Expr.subst` on what an attribute passes. -/
def Attr.subst (known : Entries Value) : Attr → Attr
  | .named name span value => .named name span (value.map (Expr.subst known))
  | .spread e => .spread (e.subst known)

/-- `Expr.subst` on a name that is computed. -/
def ComponentName.subst (known : Entries Value) : ComponentName → ComponentName
  | .literal name => .literal name
  | .dynamic e => .dynamic (e.subst known)

mutual

/-- The node with the variables that are known replaced by their values, in all that it evaluates:
in outputs, names and attributes, and in the nodes of bodies and captured slots. -/
def Node.subst (known : Entries Value) : Node → Node
  | .text span shown => .text span shown
  | .output span e => .output span (e.subst known)
  | .component span name attrs body slots =>
    .component span (name.subst known) (attrs.map (Attr.subst known)) (Node.substList known body)
      (Node.substSlots known slots)
  | .slot head body => .slot head (Node.substList known body)

/-- `Node.subst` on every node of a list. -/
def Node.substList (known : Entries Value) : List Node → List Node
  | [] => []
  | node :: rest => node.subst known :: Node.substList known rest

/-- `Node.subst` on captured slots. -/
def Node.substSlots (known : Entries Value) :
    List (SlotHead × List Node) → List (SlotHead × List Node)
  | [] => []
  | (head, body) :: rest => (head, Node.substList known body) :: Node.substSlots known rest

end

section
variable {env : Environment} {known : Entries Value}

@[simp] theorem Render.given_pure {α : Type} (a : α) :
    (pure a : Render α).given known = pure a := rfl

theorem Render.given_ofExcept {α : Type} (result : Except RenderError α) :
    (Render.ofExcept result).given known = Render.ofExcept result := by
  cases result <;> rfl

theorem Render.given_hasComponent (name : String) :
    (Render.hasComponent name).given known = Render.hasComponent name := by
  refine congrArg (Render.lookup name) (funext fun found => ?_)
  cases found with
  | error e => rfl
  | ok found => cases found <;> rfl

theorem given_findDeclaration (name : String) :
    (findDeclaration name).given known = findDeclaration name := by
  refine congrArg (Render.lookup name) (funext fun found => ?_)
  cases found with
  | error e => rfl
  | ok found => cases found <;> rfl

/-- No function reads a variable by itself. -/
theorem TemplateFunction.given_call (f : TemplateFunction) (args : List Value) :
    (f.call args).given known = f.call args := by
  cases f with
  | component calledAs =>
    rw [call, Render.given_bind, Render.given_ofExcept]
    rfl
  | hasComponent =>
    rw [call]
    split
    · rw [Render.given_bind, Render.given_hasComponent]
      rfl
    · rfl
  | componentProps | componentSlots =>
    simp only [call, Render.given_bind, Render.given_ofExcept, given_findDeclaration,
      Render.given_pure]
  | host f => exact Render.given_ofExcept _
  | render | included => rfl

mutual

theorem eval_subst : ∀ e : Expr, eval env (e.subst known) = (eval env e).given known
  | .literal .. => rfl
  | .var span name => by
    rw [Expr.subst, eval, Render.value, Render.given]
    cases known.get? name <;> rfl
  | .list _ items => by
    rw [Expr.subst, eval, eval, evalList_subst items, Render.given_bind]
    rfl
  | .map _ entries => by
    rw [Expr.subst, eval, eval, evalEntries_subst entries, Render.given_bind]
    rfl
  | .attr _ base _ => by
    rw [Expr.subst, eval, eval, eval_subst base, Render.given_bind]
    rfl
  | .index _ base position => by
    rw [Expr.subst, eval, eval, eval_subst base, eval_subst position]
    simp only [Render.given_bind, Render.given_pure]
  | .call _ name _ args => by
    rw [Expr.subst, eval, eval, evalList_subst args]
    cases env.function? name with
    | none => rfl
    | some f => simp only [Render.given_bind, TemplateFunction.given_call]
  | .concat _ left right => by
    rw [Expr.subst, eval, eval, eval_subst left, eval_subst right]
    simp only [Render.given_bind, Render.given_pure]
  | .coalesce _ left right => by
    rw [Expr.subst, eval, eval, eval_subst left, eval_subst right, Render.given_bind]
    congr 1
    funext value
    cases value <;> rfl

theorem evalList_subst : ∀ es : List Expr,
    evalList env (Expr.substList known es) = (evalList env es).given known
  | [] => rfl
  | e :: rest => by
    rw [Expr.substList, evalList, evalList, eval_subst e, evalList_subst rest]
    simp only [Render.given_bind, Render.given_pure]

theorem evalEntries_subst : ∀ entries : List (String × Expr),
    evalEntries env (Expr.substEntries known entries) = (evalEntries env entries).given known
  | [] => rfl
  | (key, e) :: rest => by
    rw [Expr.substEntries, evalEntries, evalEntries, eval_subst e, evalEntries_subst rest]
    simp only [Render.given_bind, Render.given_pure]

end

theorem evalAttr_subst (props : Entries Value) (attr : Attr) :
    evalAttr env props (attr.subst known) = (evalAttr env props attr).given known := by
  cases attr with
  | named name span value =>
    cases value with
    | none => rfl
    | some e =>
      rw [Attr.subst, Option.map_some, evalAttr, evalAttr, eval_subst, Render.given_bind]
      rfl
  | spread e =>
    rw [Attr.subst, evalAttr, evalAttr, eval_subst, Render.given_bind]
    congr 1
    funext value
    cases value <;> rfl

theorem evalAttrsFrom_subst (props : Entries Value) (attrs : List Attr) :
    evalAttrsFrom env props (attrs.map (Attr.subst known)) =
      (evalAttrsFrom env props attrs).given known := by
  induction attrs generalizing props with
  | nil => rfl
  | cons attr attrs ih =>
    rw [List.map_cons, evalAttrsFrom, evalAttrsFrom, evalAttr_subst, Render.given_bind]
    simp only [ih]

theorem evalName_subst (name : ComponentName) :
    evalName env (name.subst known) = (evalName env name).given known := by
  cases name with
  | literal name => rfl
  | dynamic e =>
    rw [ComponentName.subst, evalName, evalName, eval_subst, Render.given_bind]
    congr 1
    funext value
    cases value <;> rfl

mutual

theorem renderNode_subst : ∀ node : Node,
    renderNode env (node.subst known) = (renderNode env node).given known
  | .text .. => rfl
  | .output _ e => by
    rw [Node.subst, renderNode, renderNode, eval_subst, Render.given_bind]
    rfl
  | .component _ name attrs body slots => by
    simp only [Node.subst, renderNode, evalName_subst, evalAttrs, evalAttrsFrom_subst,
      renderNodes_subst body, renderSlots_subst slots, Render.given_bind]
    rfl
  | .slot head body => by
    rw [Node.subst, renderNode, renderNode, renderNodes_subst body, Render.given_bind]
    refine congrArg (Render.outlet head.name) (funext fun passed => ?_)
    cases passed <;> rfl

theorem renderNodes_subst : ∀ nodes : List Node,
    renderNodes env (Node.substList known nodes) = (renderNodes env nodes).given known
  | [] => rfl
  | node :: rest => by
    rw [Node.substList, renderNodes, renderNodes, renderNode_subst node, renderNodes_subst rest]
    simp only [Render.given_bind, Render.given_pure]

theorem renderSlots_subst : ∀ (captured : List (SlotHead × List Node)) (slots : Entries String),
    renderSlots env slots (Node.substSlots known captured) =
      (renderSlots env slots captured).given known
  | [], _ => rfl
  | (head, body) :: rest, slots => by
    simp only [Node.substSlots, renderSlots, renderNodes_subst body, renderSlots_subst rest,
      Render.given_bind]

end

/-- A template renders the same if references to variables are replaced by their values. -/
theorem run_renderNodes_subst {host : Host} (hhost : host.Restoring) (nodes : List Node) {s : State}
    (h : s.Knows known) :
    (renderNodes env (Node.substList known nodes)).run host s =
      (renderNodes env nodes).run host s := by
  rw [renderNodes_subst, Render.run_given hhost _ h]

end

/-! ## Props -/

/-- The props that are variables of their own names. -/
def visibleProps (bound : Entries Value) : Entries Value :=
  bound.filter fun entry => entry.1 ∉ implicitNames

theorem bound_of_visible {bound : Entries Value} {name : String} {value : Value}
    (h : (visibleProps bound).get? name = some value) :
    bound.get? name = some value ∧ name ∉ implicitNames := by
  induction bound with
  | nil => cases h
  | cons entry bound ih =>
    obtain ⟨key, other⟩ := entry
    rw [visibleProps, List.filter_cons] at h
    rw [Entries.get?_cons]
    by_cases hkey : key ∈ implicitNames
    · rw [if_neg (by simpa using hkey)] at h
      obtain ⟨hvalue, hname⟩ := ih h
      have hne : key ≠ name := by
        rintro rfl
        exact hname hkey
      exact ⟨by rwa [if_neg hne], hname⟩
    · rw [if_pos (by simpa using hkey), Entries.get?_cons] at h
      split at h
      · next heq =>
        rw [if_pos heq]
        exact ⟨h, heq ▸ hkey⟩
      · next hne =>
        rw [if_neg hne]
        exact ih h

section
variable {env : Environment} {definition : Definition} {canonical : String}
  {invocation : Invocation} {entry : Entry} {bound : Entries Value}

/-- A component is entered with the variables of what is bound for it. -/
theorem Definition.entry_vars (hentry : definition.entry env canonical invocation = .ok entry)
    (hbound : bindProps definition.declaration.props
      (env.config.strictProps || definition.declaration.strict) invocation.props = .ok bound) :
    entry.vars = componentVars env.globals bound invocation.content entry.frame.slots := by
  obtain ⟨props, slots, hprops, -, rfl⟩ := Definition.entry_eq_ok_iff.1 hentry
  cases hprops.symm.trans hbound
  rfl

/-- While the template of a component is rendered, every prop that is bound for it is a variable of
its name, in front of a global with that name, unless it is called `props`, `content` or `slots`:
under these names the component sees all its props, its content or `null`, and its slots, and so
every prop as a member of `props`. The text is the same if references to props that are variables
are replaced by their values all over the template. -/
theorem Definition.props_visible (hprops : (definition.declaration.props.map PropDef.name).Nodup)
    (hsupplied : invocation.props.keys.Nodup)
    (hbound : bindProps definition.declaration.props
      (env.config.strictProps || definition.declaration.strict) invocation.props = .ok bound)
    (hentry : definition.entry env canonical invocation = .ok entry) :
    (∀ caller m, entry.Renders env caller m →
      (∀ name value, bound.get? name = some value →
        (name ∉ implicitNames → m.Sees env name value) ∧
          ∀ host span place, (eval env (.attr span (.var place "props") name)).run host m.state =
            (.ok value, m.state)) ∧
      m.Sees env "props" (.object bound) ∧
      m.Sees env "content" (.ofText? invocation.content) ∧
      m.Sees env "slots" (.object (entry.frame.slots.mapValues .string))) ∧
    ∀ (depth : Nat) (caller : State),
      (renderNodes env (Node.substList (visibleProps bound) entry.nodes)).run
          (Host.atDepth env depth) (caller.enter entry) =
        (renderNodes env entry.nodes).run (Host.atDepth env depth) (caller.enter entry) := by
  have hvars := entry_vars hentry hbound
  obtain ⟨-, -, heq⟩ := bindProps_eq_ok_iff.1 hbound
  have hnodup := (bound_entries hprops hsupplied heq).2.1
  have hvisible : ∀ name value, bound.get? name = some value → name ∉ implicitNames →
      entry.vars.get? name = some value := by
    intro name value hvalue hname
    rw [hvars, get?_componentVars hnodup _ _ hname, hvalue]
    rfl
  refine ⟨fun caller m hm => ?_, fun depth caller => ?_⟩
  · have hall : m.Sees env "props" (.object bound) :=
      .of_get? (by rw [hm.vars_eq, hvars, get?_componentVars_props])
    refine ⟨fun name value hvalue => ⟨fun hname => ?_, fun host span place => ?_⟩, hall, ?_, ?_⟩
    · exact .of_get? (by rw [hm.vars_eq]; exact hvisible name value hvalue hname)
    · rw [eval, Render.run_bind, hall.eval]
      simp [Value.member, hvalue, Render.run]
    · exact .of_get? (by rw [hm.vars_eq, hvars]; simp [componentVars, Entries.get?_insert])
    · exact .of_get? (by rw [hm.vars_eq, hvars]; simp [componentVars, Entries.get?_insert])
  · refine run_renderNodes_subst (Host.atDepth_restoring env depth) entry.nodes ?_
    intro name value hknown
    obtain ⟨hvalue, hname⟩ := bound_of_visible hknown
    exact hvisible name value hvalue hname

end

/-- The default of a note is in front of a global of the same name. -/
theorem Definition.props_visible_note :
    let env := { Environment.plain with globals := [("kind", .string "global")] }
    let invocation : Invocation := { name := "note", props := [("message", .string "text")] }
    ∃ entry, noteDefinition.entry env "note" invocation = .ok entry ∧
      (Machine.start (renderNodes env entry.nodes) ((State.start [] []).enter entry)).Sees env
        "kind" (.string "info") := by
  intro env invocation
  obtain ⟨entry, hentry⟩ : ∃ entry, noteDefinition.entry env "note" invocation = .ok entry :=
    ⟨_, rfl⟩
  let bound : Entries Value := [("message", .string "text"), ("kind", .string "info")]
  have hprops : (noteDefinition.declaration.props.map PropDef.name).Nodup := by decide
  have hsupplied : invocation.props.keys.Nodup := List.nodup_singleton "message"
  have hbound : bindProps noteDefinition.declaration.props
      (env.config.strictProps || noteDefinition.declaration.strict) invocation.props =
        .ok bound := rfl
  have hkind : bound.get? "kind" = some (.string "info") := rfl
  obtain ⟨hsees, -⟩ := props_visible hprops hsupplied hbound hentry
  obtain ⟨hvisible, -⟩ := hsees (.start [] []) _ ⟨.refl, rfl⟩
  exact ⟨entry, hentry, (hvisible "kind" _ hkind).1 (by decide)⟩

/-- A prop that is called `content` is bound, and the variable of that name is not the prop. -/
theorem Environment.prop_behind_content :
    let definition : Definition := {
      name := "card", path := "components/card.tpl", declaration := {},
      template := ⟨"components/card.tpl", [.output ⟨0, 13⟩ (.var ⟨3, 10⟩ "content")]⟩ }
    let props : Entries Value := [("content", .string "X")]
    bindProps definition.declaration.props false props = .ok props ∧
      (Environment.plain.render { name := "card", props } [("card", definition)]).1 = .ok "" ∧
      (Value.string "X").display = "X" :=
  ⟨rfl, rfl, rfl⟩

end SlotTemplates
