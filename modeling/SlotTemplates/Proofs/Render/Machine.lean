import Mathlib.Logic.Relation
import SlotTemplates.Proofs.Render.Scope

/-!
# Rendering step by step

`Machine` renders without a bound on the depth: a computation, the computations that wait for its
text, and the state. `Machine.step` answers one request, enters a component or leaves it. The
components that are entered and not left are those that are waited for (`Machine.active`).

What `Render.run` gives at some depth is what the machine comes to, unless the depth was
exhausted (`Host.atDepth_performs`, `Environment.exists_result?`). So statements about all
states that a render goes through are statements about all machines that are reached.
-/

namespace SlotTemplates

/-- A computation that waits for a text. -/
inductive Waiting where
  /-- It waits for the component `name`, and its variables are `vars`. -/
  | component (name : String) (vars : Entries Value) (next : String → Render String)
  | included (next : String → Render String)

/-- A render that is under way. -/
structure Machine where
  program : Render String
  /-- The computations that wait, the innermost first. -/
  waiting : List Waiting
  state : State

namespace Waiting

/-- The component that is waited for. -/
def name? : Waiting → Option String
  | .component name _ _ => some name
  | .included _ => none

/-- What goes on when the text is there. -/
def next : Waiting → String → Render String
  | .component _ _ next => next
  | .included next => next

end Waiting

namespace Machine

/-- The machine that starts with a computation. -/
def start (program : Render String) (s : State) : Machine := ⟨program, [], s⟩

/-- The components that are entered and not left, the outermost first. -/
def active (m : Machine) : List String := (m.waiting.filterMap Waiting.name?).reverse

/-- The next machine, or the result and the cache at the end. -/
def step (env : Environment) (m : Machine) : Machine ⊕ (Except RenderError String × Cache) :=
  match m.program with
  | .done text =>
    match m.waiting with
    | [] => .inr (.ok text, m.state.cache)
    | .component _ vars next :: waiting =>
      .inl ⟨next (trimText text), waiting, m.state.leave vars⟩
    | .included next :: waiting => .inl ⟨next text, waiting, m.state⟩
  | .fail e => .inr (.error e, m.state.cache)
  | .var name next => .inl { m with program := next ((m.state.vars.get? name).getD .null) }
  | .outlet slot next => .inl { m with program := next (m.state.outlet env.config slot) }
  | .lookup name next =>
    let (found, cache) := env.catalog.lookup m.state.cache name
    .inl { m with program := next found, state := { m.state with cache } }
  | .component invocation next =>
    match prepare env invocation m.state with
    | (.ok entry, s) =>
      .inl ⟨renderNodes env entry.nodes, .component entry.name s.vars next :: m.waiting,
        s.enter entry⟩
    | (.error e, s) => .inl ⟨.fail e, m.waiting, s⟩
  | .included source next =>
    match env.compile includedName source with
    | .ok template =>
      .inl ⟨renderNodes env template.nodes, .included next :: m.waiting, m.state⟩
    | .error e => .inl { m with program := .fail e }

/-- The result and the cache at the end, if it is reached within a number of steps. -/
def result? (env : Environment) : Nat → Machine → Option (Except RenderError String × Cache)
  | 0, _ => none
  | steps + 1, m =>
    match m.step env with
    | .inl m => result? env steps m
    | .inr result => some result

/-- One machine comes after another one. -/
def Steps (env : Environment) (m m' : Machine) : Prop := m.step env = .inl m'

/-- One machine comes some time after another one, or is it. -/
abbrev Reaches (env : Environment) : Machine → Machine → Prop := Relation.ReflTransGen (Steps env)

/-- What a step can be. -/
inductive Move (env : Environment) : Machine → Machine → Prop where
  /-- A component is left with its text. -/
  | leave {text name vars next waiting s} :
    Move env ⟨.done text, .component name vars next :: waiting, s⟩
      ⟨next (trimText text), waiting, s.leave vars⟩
  /-- An included template is left with its text. -/
  | resume {text next waiting s} :
    Move env ⟨.done text, .included next :: waiting, s⟩ ⟨next text, waiting, s⟩
  | var {name next waiting s} :
    Move env ⟨.var name next, waiting, s⟩ ⟨next ((s.vars.get? name).getD .null), waiting, s⟩
  | outlet {slot next waiting s} :
    Move env ⟨.outlet slot next, waiting, s⟩ ⟨next (s.outlet env.config slot), waiting, s⟩
  | lookup {name next waiting s} :
    Move env ⟨.lookup name next, waiting, s⟩ ⟨next (env.catalog.lookup s.cache name).1, waiting,
      { s with cache := (env.catalog.lookup s.cache name).2 }⟩
  | enter {invocation next waiting s entry t} (h : prepare env invocation s = (.ok entry, t)) :
    Move env ⟨.component invocation next, waiting, s⟩
      ⟨renderNodes env entry.nodes, .component entry.name t.vars next :: waiting, t.enter entry⟩
  | refuse {invocation next waiting s e t} (h : prepare env invocation s = (.error e, t)) :
    Move env ⟨.component invocation next, waiting, s⟩ ⟨.fail e, waiting, t⟩
  | expand {source next waiting s template}
      (h : env.compile includedName source = .ok template) :
    Move env ⟨.included source next, waiting, s⟩
      ⟨renderNodes env template.nodes, .included next :: waiting, s⟩
  | reject {source next waiting s e} (h : env.compile includedName source = .error e) :
    Move env ⟨.included source next, waiting, s⟩ ⟨.fail e, waiting, s⟩

variable {env : Environment} {m m' : Machine}

/-- Every step is one of the moves. -/
theorem Steps.move (h : Steps env m m') : Move env m m' := by
  obtain ⟨program, waiting, s⟩ := m
  unfold Steps step at h
  dsimp only at h
  split at h
  · split at h
    · cases h
    · cases h; exact .leave
    · cases h; exact .resume
  · cases h
  · cases h; exact .var
  · cases h; exact .outlet
  · cases h; exact .lookup
  · split at h
    · next hp => cases h; exact .enter hp
    · next hp => cases h; exact .refuse hp
  · split at h
    · next hc => cases h; exact .expand hc
    · next hc => cases h; exact .reject hc

/-- What ends after steps ends within a number of them. -/
theorem Reaches.result? (h : Reaches env m m') {result : Except RenderError String × Cache}
    (hm : m'.step env = .inr result) : ∃ steps, m.result? env steps = some result := by
  induction h using Relation.ReflTransGen.head_induction_on with
  | refl => exact ⟨1, by rw [Machine.result?, hm]⟩
  | head hstep _ ih =>
    obtain ⟨steps, ih⟩ := ih
    exact ⟨steps + 1, by rw [Machine.result?, hstep]; exact ih⟩

end Machine

/-! ## What a run does, step by step -/

section
variable {α β : Type} {env : Environment} {host : Host}

/-- A machine comes to an outcome: to the machine that goes on with the result, or to a failure
with the error. Nothing is said about an outcome that the depth is exhausted. -/
def Machine.ComesTo (env : Environment) (m : Machine) (goOn : α → State → Machine) :
    Rendered α → Prop
  | (.ok a, t) => Reaches env m (goOn a t)
  | (.error e, t) =>
    e ≠ .tooDeep → ∃ waiting u, Reaches env m ⟨.fail e, waiting, u⟩ ∧ u.cache = t.cache

namespace Machine.ComesTo

variable {m m' : Machine} {goOn : α → State → Machine} {outcome : Rendered α}

theorem head (h : ComesTo env m' goOn outcome) (hstep : Steps env m m') :
    ComesTo env m goOn outcome := by
  obtain ⟨e | a, t⟩ := outcome
  · intro he
    obtain ⟨waiting, u, hr, hc⟩ := h he
    exact ⟨waiting, u, hr.head hstep, hc⟩
  · exact Relation.ReflTransGen.head hstep h

/-- A machine comes to an outcome and then to what follows on it. -/
theorem andThen {goOn' : β → State → Machine} {g : α → State → Rendered β}
    (h : ComesTo env m goOn outcome) (hg : ∀ a t, ComesTo env (goOn a t) goOn' (g a t)) :
    ComesTo env m goOn' (outcome.andThen g) := by
  obtain ⟨e | a, t⟩ := outcome
  · exact h
  rw [Rendered.andThen_ok]
  have hg := hg a t
  generalize g a t = outcome at hg
  obtain ⟨e | b, u⟩ := outcome
  · intro he
    obtain ⟨waiting, v, hr, hc⟩ := hg he
    exact ⟨waiting, v, h.trans hr, hc⟩
  · exact h.trans hg

/-- A machine comes to an outcome, and in one more step to what is made of it. -/
theorem tail (h : ComesTo env m goOn outcome) (goOn' : β → State → Machine) (f : α → β)
    (g : State → State) (hg : ∀ t, (g t).cache = t.cache)
    (hstep : ∀ a t, Steps env (goOn a t) (goOn' (f a) (g t))) :
    ComesTo env m goOn' (outcome.1.map f, g outcome.2) := by
  obtain ⟨e | a, t⟩ := outcome
  · intro he
    obtain ⟨waiting, u, hr, hc⟩ := h he
    exact ⟨waiting, u, hr, hc.trans (hg t).symm⟩
  · exact Relation.ReflTransGen.tail h (hstep a t)

end Machine.ComesTo

/-- Whatever waits for a computation, the machine comes from it to its outcome. -/
def Render.Performs (env : Environment) (x : Render α) (s : State) (outcome : Rendered α) : Prop :=
  ∀ (next : α → Render String) (waiting : List Waiting),
    Machine.ComesTo env ⟨x >>= next, waiting, s⟩ (fun a t => ⟨next a, waiting, t⟩) outcome

/-- Hosts to whose answers the machine comes. -/
structure Host.Performing (host : Host) (env : Environment) : Prop where
  component : ∀ (invocation : Invocation) (s : State),
    (Render.invoke invocation).Performs env s (host.component invocation s)
  included : ∀ (source : String) (s : State),
    (Render.expand source).Performs env s (host.included source s)

/-- The machine comes to the outcome of every run with a host to whose answers it comes. -/
theorem Render.run_performs (henv : host.env = env) (hh : host.Performing env) (x : Render α)
    (s : State) : x.Performs env s (x.run host s) := by
  induction x generalizing s with
  | done a => exact fun _ _ => .refl
  | fail e => exact fun _ waiting _ => ⟨waiting, s, .refl, rfl⟩
  | var name next ih => exact fun goOn waiting => (ih _ s goOn waiting).head rfl
  | outlet slot next ih =>
    rw [run, henv]
    exact fun goOn waiting => (ih _ s goOn waiting).head rfl
  | lookup name next ih =>
    rw [run, henv]
    exact fun goOn waiting => (ih _ _ goOn waiting).head rfl
  | component invocation next ih =>
    exact fun goOn waiting => (hh.component invocation s (fun text => next text >>= goOn)
      waiting).andThen fun text t => ih text t goOn waiting
  | included source next ih =>
    exact fun goOn waiting => (hh.included source s (fun text => next text >>= goOn)
      waiting).andThen fun text t => ih text t goOn waiting

/-- The machine comes to the text of a computation that something waits for. -/
theorem Render.Performs.comesTo {x : Render String} {s : State} {outcome : Rendered String}
    (h : x.Performs env s outcome) (waiting : List Waiting) :
    Machine.ComesTo env ⟨x, waiting, s⟩ (fun text t => ⟨.done text, waiting, t⟩) outcome := by
  simpa only [bind_done] using h .done waiting

/-- The machine enters a component, comes to its outcome, and leaves it. -/
theorem renderComponent_performs (henv : host.env = env) (hh : host.Performing env)
    (invocation : Invocation) (s : State) :
    (Render.invoke invocation).Performs env s (renderComponent host invocation s) := by
  intro next waiting
  unfold renderComponent
  rw [henv]
  cases hp : prepare env invocation s with
  | mk found t =>
  cases found with
  | error e =>
    exact fun _ => ⟨waiting, t, .single (by simp [Machine.Steps, Machine.step, Render.invoke, hp]),
      rfl⟩
  | ok entry =>
    have enters : Machine.Steps env ⟨Render.invoke invocation >>= next, waiting, s⟩
        ⟨renderNodes env entry.nodes, .component entry.name t.vars next :: waiting,
          t.enter entry⟩ := by
      simp [Machine.Steps, Machine.step, Render.invoke, hp]
    have body := Render.run_performs henv hh (renderNodes env entry.nodes) (t.enter entry)
    exact ((body.comesTo _).head enters).tail (fun text u => ⟨next text, waiting, u⟩) trimText
      (State.leave · t.vars) (fun _ => rfl) fun _ _ => rfl

/-- The machine comes to the outcome of an included template. -/
theorem renderIncluded_performs (henv : host.env = env) (hh : host.Performing env)
    (source : String) (s : State) :
    (Render.expand source).Performs env s (renderIncluded host source s) := by
  intro next waiting
  unfold renderIncluded
  rw [henv]
  cases hc : env.compile includedName source with
  | error e =>
    exact fun _ => ⟨waiting, s, .single (by simp [Machine.Steps, Machine.step, Render.expand, hc]),
      rfl⟩
  | ok template =>
    have enters : Machine.Steps env ⟨Render.expand source >>= next, waiting, s⟩
        ⟨renderNodes env template.nodes, .included next :: waiting, s⟩ := by
      simp [Machine.Steps, Machine.step, Render.expand, hc]
    have body := Render.run_performs henv hh (renderNodes env template.nodes) s
    dsimp only
    rw [← Rendered.andThen_pure ((renderNodes env template.nodes).run host s)]
    exact ((body.comesTo _).head enters).andThen fun _ _ => .single rfl

/-- The machine comes to what is answered at any depth. -/
theorem Host.atDepth_performs (env : Environment) (depth : Nat) :
    (Host.atDepth env depth).Performing env := by
  induction depth with
  | zero => exact ⟨fun _ _ _ _ h => absurd rfl h, fun _ _ _ _ h => absurd rfl h⟩
  | succ depth ih =>
    have henv := Host.atDepth_env env depth
    exact ⟨renderComponent_performs henv ih, renderIncluded_performs henv ih⟩

/-- The machine comes to the outcome of a computation, unless the depth was exhausted. -/
theorem Environment.run_performs (env : Environment) (x : Render α) (s : State) :
    x.Performs env s (env.run x s) :=
  Render.run_performs (Host.atDepth_env env _) (Host.atDepth_performs env _) x s

/-- The machine ends with the result of a computation and the cache afterwards, unless the depth
was exhausted. -/
theorem Environment.exists_result? {x : Render String} {s : State}
    (h : (env.run x s).1 ≠ .error .tooDeep) :
    ∃ steps, (Machine.start x s).result? env steps =
      some ((env.run x s).1, (env.run x s).2.cache) := by
  have hp := (env.run_performs x s).comesTo []
  generalize env.run x s = outcome at hp h
  obtain ⟨e | text, t⟩ := outcome
  · obtain ⟨waiting, u, hr, hc⟩ := hp (by simpa using h)
    exact hr.result? (by simp [Machine.step, hc])
  · exact Machine.Reaches.result? hp rfl

end

end SlotTemplates
