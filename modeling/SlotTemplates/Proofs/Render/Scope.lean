import SlotTemplates.Proofs.Component.Catalog
import SlotTemplates.Proofs.Except
import SlotTemplates.Render.Component

/-!
# Running computations: sequencing and scope

`Render.run` runs one computation after another as it is said by `>>=` (`Render.run_bind`), and a
state that is run from has the same scope afterwards, whatever the result is: the same variables,
frames and chain (`Render.run_sameScope`), so that only the cache tells that something was
rendered. What `prepare` can answer is listed in `prepare_ok` and `prepare_error`.
-/

namespace SlotTemplates

/-- The second state differs from the first one in the cache at most. -/
structure State.SameScope (s t : State) : Prop where
  vars : t.vars = s.vars
  frames : t.frames = s.frames
  chain : t.chain = s.chain

namespace State.SameScope

variable {s t u : State}

@[refl] theorem refl (s : State) : s.SameScope s := ⟨rfl, rfl, rfl⟩

theorem trans (h : s.SameScope t) (h' : t.SameScope u) : s.SameScope u :=
  ⟨h'.vars.trans h.vars, h'.frames.trans h.frames, h'.chain.trans h.chain⟩

/-- The cache is no part of the scope. -/
theorem cache (s : State) (cache : Cache) : s.SameScope { s with cache } := ⟨rfl, rfl, rfl⟩

/-- A scope that was entered and left again is as before. -/
theorem leave {entry : Entry} (h : (s.enter entry).SameScope t) : s.SameScope (t.leave s.vars) where
  vars := rfl
  frames := by simp [State.leave, h.frames, State.enter]
  chain := by simp [State.leave, h.chain, State.enter]

end State.SameScope

/-! ## Sequencing -/

namespace Rendered

variable {α β γ : Type}

@[simp] theorem andThen_ok (a : α) (s : State) (f : α → State → Rendered β) :
    andThen (.ok a, s) f = f a s := rfl

@[simp] theorem andThen_error (e : RenderError) (s : State) (f : α → State → Rendered β) :
    andThen (.error e, s) f = (.error e, s) := rfl

theorem andThen_assoc (x : Rendered α) (f : α → State → Rendered β) (g : β → State → Rendered γ) :
    (x.andThen f).andThen g = x.andThen fun a s => (f a s).andThen g := by
  obtain ⟨_ | _, _⟩ := x <;> rfl

theorem andThen_pure (x : Rendered α) : (x.andThen fun a s => (.ok a, s)) = x := by
  obtain ⟨_ | _, _⟩ := x <;> rfl

/-- What follows on a step starts in the scope of the step. -/
theorem andThen_sameScope {x : Rendered α} {f : α → State → Rendered β} {s : State}
    (h : s.SameScope x.2) (hf : ∀ a t, x = (.ok a, t) → t.SameScope (f a t).2) :
    s.SameScope (x.andThen f).2 := by
  obtain ⟨e | a, t⟩ := x
  · exact h
  · exact h.trans (hf a t rfl)

end Rendered

namespace Render

variable {α β : Type} (host : Host)

/-- The second of two computations is run from the state after the first one. -/
theorem run_bind (x : Render α) (f : α → Render β) (s : State) :
    (x >>= f).run host s = (x.run host s).andThen fun a s => (f a).run host s := by
  induction x generalizing s with
  | done | fail => rfl
  | var _ _ ih | outlet _ _ ih | lookup _ _ ih => exact ih _ _
  | component _ _ ih =>
    rw [component_bind, run, run, Rendered.andThen_assoc]
    simp only [ih]
  | included _ _ ih =>
    rw [included_bind, run, run, Rendered.andThen_assoc]
    simp only [ih]

/-- A component that is asked for is rendered. -/
theorem run_invoke (invocation : Invocation) (s : State) :
    (invoke invocation).run host s = host.component invocation s :=
  Rendered.andThen_pure _

end Render

/-! ## What is checked before a component is rendered -/

section
variable {env : Environment} {invocation : Invocation} {s t : State} {entry : Entry}

/-- A component is entered with the props and the slots that are bound for it. -/
theorem Definition.entry_eq_ok_iff {definition : Definition} {canonical : String} :
    definition.entry env canonical invocation = .ok entry ↔
      ∃ props slots,
        bindProps definition.declaration.props
          (env.config.strictProps || definition.declaration.strict) invocation.props = .ok props ∧
        bindSlots env.config.isDefaultSlot invocation.content definition.declaration.slots
          invocation.slots = .ok slots ∧
        entry = {
          name := canonical
          nodes := definition.template.nodes
          vars := componentVars env.globals props invocation.content slots
          frame := ⟨invocation.content, slots⟩ } := by
  simp only [Definition.entry, bind_eq_ok_iff, mapError_eq_ok_iff]
  constructor
  · rintro ⟨props, hprops, slots, hslots, h⟩
    cases h
    exact ⟨props, slots, hprops, hslots, rfl⟩
  · rintro ⟨props, slots, hprops, hslots, rfl⟩
    exact ⟨props, hprops, slots, hslots, rfl⟩

/-- It is refused with the fault of its props, or else with that of its slots. -/
theorem Definition.entry_eq_error_iff {definition : Definition} {canonical : String}
    {e : RenderError} :
    definition.entry env canonical invocation = .error e ↔
      ∃ fault, e = .component (.binding definition.name fault) ∧
        (bindProps definition.declaration.props
            (env.config.strictProps || definition.declaration.strict) invocation.props =
              .error fault ∨
          ∃ props, bindProps definition.declaration.props
              (env.config.strictProps || definition.declaration.strict) invocation.props =
                .ok props ∧
            bindSlots env.config.isDefaultSlot invocation.content definition.declaration.slots
              invocation.slots = .error fault) := by
  simp only [Definition.entry, bind_eq_error_iff, mapError_eq_ok_iff, mapError_eq_error_iff]
  constructor
  · rintro (⟨fault, hprops, rfl⟩ | ⟨props, hprops, ⟨fault, hslots, rfl⟩ | ⟨slots, -, h⟩⟩)
    · exact ⟨fault, rfl, .inl hprops⟩
    · exact ⟨fault, rfl, .inr ⟨props, hprops, hslots⟩⟩
    · cases h
  · rintro ⟨fault, rfl, hprops | ⟨props, hprops, hslots⟩⟩
    · exact .inl ⟨fault, hprops, rfl⟩
    · exact .inr ⟨props, hprops, .inl ⟨fault, hslots, rfl⟩⟩

/-- Nothing but the cache changes before a component is entered. -/
theorem prepare_sameScope (env : Environment) (invocation : Invocation) (s : State) :
    s.SameScope (prepare env invocation s).2 := by
  unfold prepare
  dsimp only
  split
  · rfl
  split
  · rfl
  split <;> exact .cache _ _

theorem prepare_scope {found : Except RenderError Entry}
    (hp : prepare env invocation s = (found, t)) : s.SameScope t := by
  have hscope := prepare_sameScope env invocation s
  rwa [hp] at hscope

/-- What lookups find stays the same before a component is entered, and the scope as well. -/
theorem prepare_after {finds : String → Except ComponentError (Option Definition)}
    {found : Except RenderError Entry} (hp : prepare env invocation s = (found, t))
    (h : env.catalog.Finds finds s.cache) : s.SameScope t ∧ env.catalog.Finds finds t.cache := by
  refine ⟨prepare_scope hp, ?_⟩
  unfold prepare at hp
  dsimp only at hp
  split at hp
  · cases hp
    exact h
  next canonical hname =>
  split at hp
  · cases hp
    exact h
  have hafter := h.lookup canonical
  split at hp <;> next hlookup => rw [hlookup] at hafter; cases hp; exact hafter

/-- A component that is entered has a name that is not on the chain, and a definition. -/
theorem prepare_ok (h : prepare env invocation s = (.ok entry, t)) :
    canonicalName? invocation.name = some entry.name ∧ entry.name ∉ s.chain ∧
      ∃ definition, env.catalog.lookup s.cache entry.name = (.ok (some definition), t.cache) ∧
        entry.nodes = definition.template.nodes := by
  unfold prepare at h
  dsimp only at h
  split at h
  · cases h
  next canonical hname =>
  split at h
  · cases h
  next hchain =>
  split at h
  · cases h
  · cases h
  next definition cache hlookup =>
  obtain ⟨hentry, rfl⟩ := Prod.mk.inj h
  obtain ⟨props, slots, -, -, rfl⟩ := Definition.entry_eq_ok_iff.1 hentry
  exact ⟨hname, by simpa using hchain, definition, hlookup, rfl⟩

/-- A component is refused by a component error, and said to be rendered already only if its
name is on the chain, which the error shows with the name at its end. -/
theorem prepare_error {e : RenderError} (h : prepare env invocation s = (.error e, t)) :
    ∃ cause, e = .component cause ∧ ∀ chain, cause = .circular chain →
      ∃ canonical, canonicalName? invocation.name = some canonical ∧ canonical ∈ s.chain ∧
        chain = s.chain ++ [canonical] := by
  unfold prepare at h
  dsimp only at h
  split at h
  · cases h
    exact ⟨_, rfl, fun _ hc => by cases hc⟩
  next canonical hname =>
  split at h
  · next hchain =>
    cases h
    refine ⟨_, rfl, fun chain hc => ?_⟩
    cases hc
    exact ⟨canonical, hname, by simpa using hchain, rfl⟩
  split at h
  · next cause cache hlookup =>
    cases h
    exact ⟨cause, rfl, fun chain hc =>
      absurd hc (Catalog.lookup_ne_circular (by rw [hlookup]) chain)⟩
  · cases h
    exact ⟨_, rfl, fun _ hc => by cases hc⟩
  · obtain ⟨fault, rfl, -⟩ := Definition.entry_eq_error_iff.1 (Prod.mk.inj h).1
    exact ⟨_, rfl, fun _ hc => by cases hc⟩

end

/-! ## The scope after a run -/

/-- A host that leaves the scope as it is. -/
structure Host.Restoring (host : Host) : Prop where
  component : ∀ (invocation : Invocation) (s : State), s.SameScope (host.component invocation s).2
  included : ∀ (source : String) (s : State), s.SameScope (host.included source s).2

variable {host : Host}

/-- A computation leaves the scope that it is run in as it is. -/
theorem Render.run_sameScope {α : Type} (h : host.Restoring) (x : Render α) (s : State) :
    s.SameScope (x.run host s).2 := by
  induction x generalizing s with
  | done | fail => rfl
  | var _ _ ih | outlet _ _ ih => exact ih _ _
  | lookup name next ih => exact (State.SameScope.cache s _).trans (ih _ _)
  | component invocation next ih =>
    exact Rendered.andThen_sameScope (h.component invocation s) fun _ _ _ => ih _ _
  | included source next ih =>
    exact Rendered.andThen_sameScope (h.included source s) fun _ _ _ => ih _ _

/-- A component leaves the scope of its caller as it is. -/
theorem renderComponent_sameScope (h : host.Restoring) (invocation : Invocation) (s : State) :
    s.SameScope (renderComponent host invocation s).2 :=
  Rendered.andThen_sameScope (prepare_sameScope host.env invocation s) fun _ _ _ =>
    .leave (Render.run_sameScope h _ _)

/-- An included template leaves the scope that it is rendered in as it is. -/
theorem renderIncluded_sameScope (h : host.Restoring) (source : String) (s : State) :
    s.SameScope (renderIncluded host source s).2 := by
  unfold renderIncluded
  split
  · rfl
  · exact Render.run_sameScope h _ _

@[simp] theorem Host.atDepth_env (env : Environment) (depth : Nat) :
    (Host.atDepth env depth).env = env := by
  cases depth <;> rfl

/-- A component that is asked for is rendered at some depth. -/
theorem Environment.run_invoke (env : Environment) (invocation : Invocation) (s : State) :
    ∃ depth, env.run (Render.invoke invocation) s =
      renderComponent (Host.atDepth env depth) invocation s :=
  ⟨depthBound env s.cache + 999,
    Render.run_invoke (Host.atDepth env (depthBound env s.cache + 999 + 1)) invocation s⟩

theorem Host.atDepth_restoring (env : Environment) (depth : Nat) :
    (Host.atDepth env depth).Restoring := by
  induction depth with
  | zero => exact ⟨fun _ _ => .refl _, fun _ _ => .refl _⟩
  | succ depth ih => exact ⟨renderComponent_sameScope ih, renderIncluded_sameScope ih⟩

end SlotTemplates
