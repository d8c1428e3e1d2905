import Mathlib
import SlotTemplates.Proofs.Component.Catalog
import SlotTemplates.Proofs.Component.Slots
import SlotTemplates.Proofs.Render.Machine

/-!
# What an outlet emits

What fills a slot is decided twice. `bindSlots` decides it before a component is rendered: a text
that was supplied under the name of the slot comes first, then the default content. An outlet
decides again (`State.outlet`): the default content if the slot stands for it, otherwise the slot
that was bound. The two agree unless a slot that stands for the default content was supplied by its
name (`Definition.outlet_emits`). There the supplied text is lost: the outlet emits the default
content, or its own body if there is none, even if the slot is required and was bound for that
reason (`Environment.outlet_ignores_supplied`).
-/

namespace SlotTemplates

/-- A component is entered with the content and the slots that were bound in its frame. -/
theorem Definition.entry_frame {definition : Definition} {env : Environment} {canonical : String}
    {invocation : Invocation} {entry : Entry}
    (h : definition.entry env canonical invocation = .ok entry) :
    entry.frame.content = invocation.content ∧
      bindSlots env.config.isDefaultSlot invocation.content definition.declaration.slots
        invocation.slots = .ok entry.frame.slots := by
  obtain ⟨props, slots, -, hslots, rfl⟩ := Definition.entry_eq_ok_iff.1 h
  exact ⟨rfl, hslots⟩

/-- What a component that is loaded and not being rendered already is entered with. -/
theorem prepare_eq {env : Environment} {invocation : Invocation} {s : State} {canonical : String}
    {definition : Definition} (hname : canonicalName? invocation.name = some canonical)
    (hchain : s.chain.contains canonical = false) (hcache : s.cache.get? canonical = none)
    (hfetch : env.catalog.fetch canonical = .ok (some definition)) :
    prepare env invocation s = (definition.entry env canonical invocation,
      { s with cache := s.cache.insert canonical definition }) := by
  have hlookup : env.catalog.lookup s.cache canonical =
      (.ok (some definition), s.cache.insert canonical definition) := by
    rw [Catalog.lookup, canonicalName?_canonical hname]
    dsimp only
    rw [hcache]
    dsimp only
    rw [hfetch]
  simp only [prepare, hname, hchain, hlookup, Bool.false_eq_true, if_false]

/-! ## The frames of a machine -/

namespace Machine

variable {env : Environment} {m m' m'' : Machine}

/-- On the frames of `m` stand those of the components that were entered since, one for each. -/
def Framed (m m' : Machine) : Prop :=
  ∃ entered, m'.state.frames = entered ++ m.state.frames ∧ entered.length = m'.active.length

theorem Framed.start (program : Render String) (s : State) :
    (start program s).Framed (start program s) := ⟨[], rfl, rfl⟩

/-- A step with the same frames and the same active components. -/
theorem Framed.same (h : m.Framed m') (hframes : m''.state.frames = m'.state.frames)
    (hactive : m''.active = m'.active) : m.Framed m'' := by
  rw [Framed, hframes, hactive]
  exact h

/-- Every step keeps it so: a component that is entered puts one frame on the others, and one
that is left takes it away. -/
theorem Framed.step (h : m.Framed m') (hstep : Steps env m' m'') : m.Framed m'' := by
  cases hstep.move with
  | var | outlet | lookup | reject | resume | expand => exact h.same rfl rfl
  | refuse hp => exact h.same (prepare_scope hp).frames rfl
  | @leave text name vars next waiting s =>
    obtain ⟨entered, hframes, hlength⟩ := h
    simp only [active, List.filterMap_cons, Waiting.name?, List.length_reverse,
      List.length_cons] at hlength
    cases entered with
    | nil => cases hlength
    | cons frame entered =>
      have hrest : (s.leave vars).frames = entered ++ m.state.frames := by
        rw [State.leave, hframes]
        rfl
      exact ⟨entered, hrest, by simpa [active] using hlength⟩
  | @enter invocation next waiting s entry t hp =>
    obtain ⟨entered, hframes, hlength⟩ := h
    refine ⟨entry.frame :: entered, ?_, ?_⟩
    · rw [State.enter, (prepare_scope hp).frames]
      exact congrArg (List.cons entry.frame) hframes
    · simpa [active, Waiting.name?] using hlength

theorem Framed.reaches (h : m.Framed m') (hr : Reaches env m' m'') : m.Framed m'' := by
  induction hr with
  | refl => exact h
  | tail _ hstep ih => exact ih.step hstep

/-- Between the components that it enters, a machine has the frames that it started with. -/
theorem Framed.frames_eq (h : m.Framed m') (hactive : m'.active = []) :
    m'.state.frames = m.state.frames := by
  obtain ⟨entered, hframes, hlength⟩ := h
  rw [hactive] at hlength
  rw [hframes, List.eq_nil_of_length_eq_zero hlength, List.nil_append]

/-- A machine is at an outlet, and `next` goes on with the text of the outlet. -/
def AtOutlet (env : Environment) (m : Machine) (head : SlotHead) (body : List Node)
    (next : String → Render String) : Prop :=
  m.program = renderNode env (.slot head body) >>= next

/-- The outlet is passed in a step: with the text that was passed, or else with its body. -/
theorem AtOutlet.step {head : SlotHead} {body : List Node} {next : String → Render String}
    (h : m.AtOutlet env head body next) :
    m.step env = .inl { m with
      program :=
        (m.state.outlet env.config head.name).elim (renderNodes env body >>= next) next } := by
  obtain ⟨program, waiting, s⟩ := m
  obtain rfl : program = _ := h
  simp only [renderNode, Render.passed, Render.outlet_bind, Render.done_bind, step]
  cases s.outlet env.config head.name <;> rfl

end Machine

/-! ## The outlets of a component -/

section
variable {env : Environment} {definition : Definition} {canonical : String}
  {invocation : Invocation} {entry : Entry} {caller : State} {m : Machine} {head : SlotHead}
  {body : List Node} {next : String → Render String}

/-- A machine that renders the template of a component that was entered, and is not in a component
that the template invokes. -/
structure Entry.Renders (entry : Entry) (env : Environment) (caller : State) (m : Machine) :
    Prop where
  reaches : Machine.Reaches env (.start (renderNodes env entry.nodes) (caller.enter entry)) m
  active : m.active = []

theorem Entry.Renders.frames_eq (h : entry.Renders env caller m) :
    m.state.frames = entry.frame :: caller.frames :=
  ((Machine.Framed.start _ _).reaches h.reaches).frames_eq h.active

/-- What an outlet takes: the default content if the slot stands for it, else what was bound. -/
theorem Definition.outlet_eq (hentry : definition.entry env canonical invocation = .ok entry)
    (h : entry.Renders env caller m) (slot : String) :
    m.state.outlet env.config slot =
      if env.config.isDefaultSlot slot then
        contentFor env.config.isDefaultSlot invocation.content slot
      else suppliedFor entry.frame.slots slot := by
  rw [State.outlet, h.frames_eq]
  dsimp only
  rw [(Definition.entry_frame hentry).1]
  split
  · next hdefault => rw [contentFor, if_pos hdefault]
  · rfl

/-- An outlet takes the filling of its slot, unless the slot stands for the default content and was
supplied by its name. -/
theorem Definition.outlet_eq_fillingOf
    (hentry : definition.entry env canonical invocation = .ok entry)
    (h : entry.Renders env caller m) {slot : String}
    (hslot : env.config.isDefaultSlot slot = false ∨ suppliedFor invocation.slots slot = none) :
    m.state.outlet env.config slot =
      fillingOf env.config.isDefaultSlot invocation.content invocation.slots slot := by
  have hbound := fillingOf_bindSlots (Definition.entry_frame hentry).2 slot
  rw [Definition.outlet_eq hentry h]
  cases hdefault : env.config.isDefaultSlot slot with
  | false =>
    rw [if_neg Bool.false_ne_true, ← hbound, fillingOf, contentFor, hdefault]
    simp
  | true =>
    have hnone := hslot.resolve_left (by simp [hdefault])
    rw [if_pos rfl, fillingOf, hnone, Option.none_or]

/-- An outlet of a slot that does not stand for the default content, or was not supplied by its
name, emits the text that the slot is bound to; and if the slot is required it never emits its own
body. -/
theorem Definition.outlet_emits (hentry : definition.entry env canonical invocation = .ok entry)
    (h : entry.Renders env caller m) (hm : m.AtOutlet env head body next)
    (hslot : env.config.isDefaultSlot head.name = false ∨
      suppliedFor invocation.slots head.name = none) :
    (∀ text, entry.frame.slots.get? head.name = some text → isBlankText text = false →
      m.step env = .inl { m with program := next text }) ∧
    (∀ slot ∈ definition.declaration.slots, slot.name = head.name → slot.required = true →
      ∃ text, isBlankText text = false ∧ m.step env = .inl { m with program := next text }) := by
  have hbind := (Definition.entry_frame hentry).2
  have hstep : ∀ text,
      fillingOf env.config.isDefaultSlot invocation.content invocation.slots head.name =
        some text → m.step env = .inl { m with program := next text } := by
    intro text htext
    rw [hm.step, Definition.outlet_eq_fillingOf hentry h hslot, htext]
    rfl
  refine ⟨fun text hbound htext => hstep text (fillingOf_of_bound hbind hbound htext), ?_⟩
  rintro slot hmem hname hrequired
  obtain ⟨text, htext⟩ := fillingOf_required hbind hmem hrequired
  rw [hname] at htext
  exact ⟨text, not_blank_of_fillingOf htext, hstep text htext⟩

/-- An outlet of a slot that stands for the default content emits that, or else its own body,
whatever was supplied by the name of the slot. -/
theorem Definition.outlet_of_default
    (hentry : definition.entry env canonical invocation = .ok entry)
    (h : entry.Renders env caller m) (hm : m.AtOutlet env head body next)
    (hdefault : env.config.isDefaultSlot head.name = true) :
    m.step env = .inl { m with
      program := (contentFor env.config.isDefaultSlot invocation.content head.name).elim
        (renderNodes env body >>= next) next } := by
  rw [hm.step, Definition.outlet_eq hentry h, if_pos hdefault]

end

/-- A component with a required slot that stands for the default content. -/
def Tree.box : Tree :=
  .dir [("components", .dir [("box.tpl", .file (.text
    "\x7b#---\n[slots.content]\nrequired = true\n---#\x7d\x7bslot content\x7dempty\x7b/slot\x7d"))])]

/-- An environment with the box and the settings as they are by default. -/
def Environment.boxes : Environment where
  config := {}
  tags := componentTags {}
  functions := Entries.ofList (TemplateFunction.builtIns {})
  globals := []
  files := .box

/-- The box as it is loaded. -/
def boxDefinition : Definition where
  name := "box"
  path := "components/box.tpl"
  declaration := { slots := [{ name := "content", required := true }] }
  template := { name := "components/box.tpl", nodes := [
    .slot ⟨⟨43, 69⟩, "content", ⟨49, 56⟩⟩ [.text ⟨57, 62⟩ "empty"]] }

theorem boxes_fetch : Environment.boxes.catalog.fetch "box" = .ok (some boxDefinition) :=
  Catalog.fetch_eq (by decide +kernel) rfl (by cbv) (by cbv)

/-- The box shows the default content. -/
theorem Definition.outlet_emits_box :
    let invocation : Invocation := { name := "box", content := some "text" }
    ∃ entry, boxDefinition.entry .boxes "box" invocation = .ok entry ∧
      (Machine.start (renderNodes .boxes entry.nodes) ((State.start [] []).enter entry)).step
          .boxes =
        .inl ⟨renderNodes .boxes [] >>= fun rest => pure ("text" ++ rest), [],
          (State.start [] []).enter entry⟩ := by
  intro invocation
  obtain ⟨entry, hentry, hnodes, hslots⟩ : ∃ entry,
      boxDefinition.entry .boxes "box" invocation = .ok entry ∧
        entry.nodes = boxDefinition.template.nodes ∧ entry.frame.slots = [("content", "text")] :=
    ⟨_, rfl, rfl, rfl⟩
  have hrenders : entry.Renders .boxes (.start [] [])
      (.start (renderNodes .boxes entry.nodes) ((State.start [] []).enter entry)) := ⟨.refl, rfl⟩
  have hbound : entry.frame.slots.get? "content" = some "text" := by rw [hslots]; rfl
  have hat : (Machine.start (renderNodes .boxes entry.nodes)
      ((State.start [] []).enter entry)).AtOutlet .boxes ⟨⟨43, 69⟩, "content", ⟨49, 56⟩⟩
        [.text ⟨57, 62⟩ "empty"] fun text => renderNodes .boxes [] >>= fun rest =>
          pure (text ++ rest) := by
    rw [Machine.AtOutlet, Machine.start, hnodes]
    rfl
  obtain ⟨hemits, -⟩ := Definition.outlet_emits hentry hrenders hat (.inr rfl)
  exact ⟨entry, hentry, hemits "text" hbound (by decide)⟩

/-- The slot of the box is required, and bound to what is supplied by its name, but that is not
what the box shows. -/
theorem Environment.outlet_ignores_supplied :
    let invocation : Invocation := { name := "box", slots := [("content", "X")] }
    (∃ entry, boxDefinition.entry .boxes "box" invocation = .ok entry ∧
      entry.frame.slots = [("content", "X")]) ∧ isBlankText "X" = false ∧
      (Environment.boxes.render invocation []).1 = .ok "empty" := by
  intro invocation
  refine ⟨⟨_, rfl, rfl⟩, by decide, ?_⟩
  obtain ⟨depth, hrun⟩ := Environment.boxes.run_invoke invocation (.start [] [])
  change (Environment.boxes.run (Render.invoke invocation) (.start [] [])).1 = _
  rw [hrun, renderComponent, Host.atDepth_env, prepare_eq (by decide) rfl rfl boxes_fetch]
  cases depth <;> rfl

end SlotTemplates
