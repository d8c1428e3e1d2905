import SlotTemplates.Proofs.Component.Defaults
import SlotTemplates.Proofs.Render.Invocation
import SlotTemplates.Proofs.Syntax.Moving

/-!
# Forwarding props

What is bound is bound again to itself: a value that passed its check passes it again, a default has
passed it when its header was read, and `null` always does (`bindProps_bindProps`). A component sees
all that was bound for it under the name `props`, so it can pass it on with `...props` to a component
that declares the same, which is given exactly that (`Declaration.forwards_props`).
-/

namespace SlotTemplates

/-! ## Binding again -/

section
variable {props : List PropDef} {p : PropDef} {supplied bound : Entries Value} {strict : Bool}

/-- The value of a prop passes its check, if its default does. -/
theorem PropDef.check_valueFrom (hnot : ∀ fault, ¬ p.Refuses supplied fault)
    (hdefault : ∀ value, p.default = some value → p.check value = .ok ()) :
    p.check (p.valueFrom supplied) = .ok () := by
  unfold valueFrom
  cases hsupplied : supplied.get? p.name with
  | some value =>
    cases hcheck : p.check value with
    | ok => exact hcheck
    | error fault => exact absurd (.invalid hsupplied hcheck) (hnot _)
  | none =>
    cases hvalue : p.default with
    | some value => exact hdefault value hvalue
    | none => rfl

/-- A prop takes a value that passes its check, required or not. -/
theorem PropDef.takes_of_check {value : Value} (hsupplied : supplied.get? p.name = some value)
    (hcheck : p.check value = .ok ()) (fault : BindingFault) : ¬ p.Refuses supplied fault := by
  rintro (⟨hother, herror⟩ | ⟨hnone, -, -⟩)
  · cases hsupplied.symm.trans hother
    cases hcheck.symm.trans herror
  · cases hsupplied.symm.trans hnone

/-- Entries for declared props add no undeclared ones. -/
theorem undeclared_append_declared (f : PropDef → Value) :
    undeclared props ((props.map fun p => (p.name, f p)) ++ undeclared props supplied) =
      undeclared props supplied := by
  have hdeclared : undeclared props (props.map fun p => (p.name, f p)) = [] := by
    refine List.filter_eq_nil_iff.2 fun entry hentry => ?_
    obtain ⟨p, hp, rfl⟩ := List.mem_map.1 hentry
    simpa [declaresProp] using ⟨p, hp, rfl⟩
  have hundeclared : undeclared props (undeclared props supplied) = undeclared props supplied := by
    simp [undeclared]
  have happend := List.filter_append (p := fun entry : String × Value =>
    !declaresProp props entry.1) (props.map fun p => (p.name, f p)) (undeclared props supplied)
  exact happend.trans (congrArg₂ (· ++ ·) hdeclared hundeclared)

/-- What is bound is bound to itself, if defaults pass their checks. -/
theorem bindProps_bindProps (hprops : (props.map PropDef.name).Nodup)
    (hdefaults : ∀ p ∈ props, ∀ value, p.default = some value → p.check value = .ok ())
    (h : bindProps props strict supplied = .ok bound) :
    bindProps props strict bound = .ok bound := by
  have hvalue : ∀ p ∈ props, bound.get? p.name = some (p.valueFrom supplied) :=
    fun p hp => get?_bindProps hprops h hp
  obtain ⟨hknown, hnone, hbound⟩ := bindProps_eq_ok_iff.1 h
  have hundeclared : undeclared props bound = undeclared props supplied := by
    rw [hbound]
    exact undeclared_append_declared _
  refine bindProps_eq_ok_iff.2 ⟨?_, fun p hp => ?_, ?_⟩
  · rwa [← keys_undeclared, hundeclared, keys_undeclared]
  · have hcheck := PropDef.check_valueFrom (hnone p hp) (hdefaults p hp)
    exact PropDef.takes_of_check (hvalue p hp) hcheck
  · have hsame : ∀ p ∈ props, (p.name, p.valueFrom bound) = (p.name, p.valueFrom supplied) := by
      intro p hp
      rw [PropDef.valueFrom, hvalue p hp]
      rfl
    rw [hundeclared, List.map_congr_left hsame]
    exact hbound

end

/-! ## Passing on what is bound -/

/-- What a component is rendered with once its props are bound. -/
def Definition.entryWith (definition : Definition) (env : Environment) (canonical : String)
    (invocation : Invocation) (bound : Entries Value) : Except RenderError Entry := do
  let slots ← (bindSlots env.config.isDefaultSlot invocation.content
    definition.declaration.slots invocation.slots).mapError
      fun fault => .component (.binding definition.name fault)
  return {
    name := canonical
    nodes := definition.template.nodes
    vars := componentVars env.globals bound invocation.content slots
    frame := ⟨invocation.content, slots⟩ }

theorem Definition.entry_eq {definition : Definition} {env : Environment} {canonical : String}
    {invocation : Invocation} {bound : Entries Value}
    (h : bindProps definition.declaration.props
      (env.config.strictProps || definition.declaration.strict) invocation.props = .ok bound) :
    definition.entry env canonical invocation =
      definition.entryWith env canonical invocation bound := by
  rw [entry, h]
  rfl

/-- A component sees what is bound for it under the name `props`. -/
theorem get?_componentVars_props (globals bound : Entries Value) (content : Option String)
    (slots : Entries String) :
    (componentVars globals bound content slots).get? "props" = some (.object bound) := by
  simp [componentVars, Entries.get?_insert]

/-- The attributes that pass on all props, wherever they stand. -/
theorem parse_forwarding (pos : Nat) :
    parseAttrs pos "...props".toList = .ok [.spread (.var ⟨pos + 3, pos + 8⟩ "props")] := by
  have hstart : parseAttrs 0 "...props".toList = .ok [.spread (.var ⟨3, 8⟩ "props")] := by cbv
  have hmoved := parseAttrs_shift hstart pos
  simpa [Attr.shift, Attr.mapSpans, Expr.mapSpans, Span.shift, Nat.add_comm] using hmoved

/-- They make the props that are bound, each in its place. -/
theorem run_forwarding (host : Host) (env : Environment) {bound : Entries Value} {s : State}
    {span : Span} (hbound : bound.keys.Nodup)
    (hprops : s.vars.get? "props" = some (.object bound)) :
    (evalAttrs env [.spread (.var span "props")]).run host s = (.ok bound, s) := by
  have hextend : Entries.extend [] bound = bound := Entries.extend_of_nodup hbound
  simp [evalAttrs, evalAttrsFrom, evalAttr, eval, Render.value, Render.run, hprops, hextend]

/-- What is bound for a component with a declaration that was read from a header is bound to itself
when it is passed on: a second binding refuses nothing, puts in no default and keeps the order. So a
component that passes on all props with `...props`, wherever that is written, passes on what was
bound for it, and a component with the same declaration is rendered with it, if it is given its
slots. -/
theorem Declaration.forwards_props {header : List Char} {declaration : Declaration}
    (h : ofToml header = .ok declaration) :
    (∀ strict supplied bound, bindProps declaration.props strict supplied = .ok bound →
      bindProps declaration.props strict bound = .ok bound) ∧
    ∀ (env : Environment) (sender receiver : Definition) (canonical : String)
      (invocation : Invocation) (entry : Entry), sender.declaration = declaration →
      receiver.declaration = declaration → invocation.props.keys.Nodup →
      sender.entry env canonical invocation = .ok entry →
      ∃ bound, bindProps declaration.props (env.config.strictProps || declaration.strict)
          invocation.props = .ok bound ∧
        (∀ pos, ∃ attrs, parseAttrs pos "...props".toList = .ok attrs ∧
          ∀ (host : Host) (s : State), s.vars = entry.vars →
            (evalAttrs env attrs).run host s = (.ok bound, s)) ∧
        ∀ (canonical : String) (forwarded : Invocation), forwarded.props = bound →
          receiver.entry env canonical forwarded =
            receiver.entryWith env canonical forwarded bound := by
  have hdistinct := (ofToml_distinct h).1
  have hdefaults : ∀ p ∈ declaration.props, ∀ value, p.default = some value →
      p.check value = .ok () := by
    intro p hp value hvalue
    obtain ⟨-, -, -, hcheck⟩ := default_written h hp hvalue
    exact hcheck
  have hagain : ∀ strict supplied bound, bindProps declaration.props strict supplied = .ok bound →
      bindProps declaration.props strict bound = .ok bound :=
    fun strict supplied bound => bindProps_bindProps hdistinct hdefaults
  refine ⟨hagain, ?_⟩
  rintro env sender receiver canonical invocation entry hsender hreceiver hsupplied hentry
  obtain ⟨bound, slots, hbound, -, rfl⟩ := Definition.entry_eq_ok_iff.1 hentry
  rw [hsender] at hbound
  refine ⟨bound, hbound, fun pos => ⟨_, parse_forwarding pos, fun host s hs => ?_⟩, ?_⟩
  · obtain ⟨-, -, heq⟩ := bindProps_eq_ok_iff.1 hbound
    refine run_forwarding host env (bound_entries hdistinct hsupplied heq).2.1 ?_
    rw [hs]
    exact get?_componentVars_props _ _ _ _
  · rintro canonical forwarded rfl
    refine Definition.entry_eq ?_
    rw [hreceiver]
    exact hagain _ _ _ hbound

/-- A header that declares a required prop and one with a default. -/
def noteHeader : String := "[props.message]\nrequired = true\n[props.kind]\ndefault = \"info\"\n"

/-- A component with that header. -/
def noteDefinition : Definition where
  name := "note"
  path := "components/note.tpl"
  declaration.props := [{ name := "message", required := true },
    { name := "kind", default := some (.string "info") }]
  template := ⟨"components/note.tpl", []⟩

/-- A `null` that was supplied, a default and an undeclared prop are passed on to the same
component. -/
theorem Declaration.forwards_props_note :
    let supplied : Entries Value := [("id", .bool true), ("message", .null)]
    let bound : Entries Value :=
      [("message", .null), ("kind", .string "info"), ("id", .bool true)]
    ofToml noteHeader.toList = .ok noteDefinition.declaration ∧
      bindProps noteDefinition.declaration.props false supplied = .ok bound ∧
      bindProps noteDefinition.declaration.props false bound = .ok bound ∧
      ∃ entry attrs again,
        noteDefinition.entry .plain "note" { name := "note", props := supplied } = .ok entry ∧
        parseAttrs 8 "...props".toList = .ok attrs ∧
        (∀ (host : Host) (s : State), s.vars = entry.vars →
          (evalAttrs .plain attrs).run host s = (.ok bound, s)) ∧
        noteDefinition.entry .plain "note" { name := "note", props := bound } = .ok again := by
  intro supplied bound
  have hread : ofToml noteHeader.toList = .ok noteDefinition.declaration := by cbv
  have hbound : bindProps noteDefinition.declaration.props false supplied = .ok bound := rfl
  have hsupplied : supplied.keys.Nodup := by decide
  obtain ⟨hagain, hforwards⟩ := forwards_props hread
  obtain ⟨other, hother, hattrs, hreceiver⟩ := hforwards .plain noteDefinition noteDefinition "note"
    { name := "note", props := supplied } _ rfl rfl hsupplied rfl
  obtain rfl : bound = other := Except.ok.inj (hbound.symm.trans hother)
  obtain ⟨attrs, hparse, hevals⟩ := hattrs 8
  exact ⟨hread, hbound, hagain false supplied bound hbound, _, attrs, _, rfl, hparse, hevals,
    hreceiver "note" { name := "note", props := bound } rfl⟩

end SlotTemplates
