import SlotTemplates.Proofs.Render.Machine
import SlotTemplates.Proofs.Render.Requests

/-!
# The chain of a circular reference

An error that says that components refer to each other in a circle shows a chain of names. It is
what it seems to be (`Environment.circular_closes`): its last name is in it already, and every
name was asked for while the components before it were being rendered. That these are the
components that the machine has entered and not left is the invariant `Machine.Traced`.
-/

namespace SlotTemplates

namespace Machine

variable {env : Environment} {m m' m'' : Machine} {name : String}

/-- The machine asks for the component of a canonical name. -/
def Asks (m : Machine) (name : String) : Prop :=
  ∃ invocation next, m.program = .component invocation next ∧
    canonicalName? invocation.name = some name

/-- A machine that is reached from `m` asks for a component while `before` are those that are
being rendered: first those on the chain of `m`, then those that were entered since. -/
def Invoked (env : Environment) (m : Machine) (before : List String) (name : String) : Prop :=
  ∃ m', Reaches env m m' ∧ m'.Asks name ∧ m'.state.chain = before ∧
    m.state.chain ++ m'.active = before

/-- A chain that goes on from that of `m`, ends with a name that is in it already, and each of
whose names was asked for while the components before it were being rendered. -/
structure ClosesCycle (env : Environment) (m : Machine) (chain : List String) : Prop where
  goesOn : m.state.chain <+: chain
  repeats : ∃ names last, chain = names ++ [last] ∧ last ∈ names
  invoked : ∀ before name, m.state.chain <+: before → before ++ [name] <+: chain →
    m.Invoked env before name

/-! ## The chain and what is active -/

/-- The chain of a machine that is reached from `m` grew by what is active, and every name on it
was asked for while those before it were being rendered. -/
structure Traced (env : Environment) (m m' : Machine) : Prop where
  reaches : Reaches env m m'
  chain : m'.state.chain = m.state.chain ++ m'.active
  entered : ∀ before name, m.state.chain <+: before → before ++ [name] <+: m'.state.chain →
    m.Invoked env before name

theorem Traced.start (program : Render String) (s : State) :
    (start program s).Traced env (start program s) where
  reaches := .refl
  chain := (List.append_nil _).symm
  entered before name hbefore hname := by
    have hle := hbefore.length_le
    have hlt := hname.length_le
    rw [List.length_append, List.length_singleton] at hlt
    omega

/-- A machine that asks for a component does so while its chain is being rendered. -/
theorem Traced.invoked (h : m.Traced env m') (hm : m'.Asks name) :
    m.Invoked env m'.state.chain name :=
  ⟨m', h.reaches, hm, rfl, h.chain.symm⟩

/-- A step with the same chain and the same active components keeps the trace. -/
theorem Traced.same (h : m.Traced env m') (hstep : Steps env m' m'')
    (hchain : m''.state.chain = m'.state.chain) (hactive : m''.active = m'.active) :
    m.Traced env m'' where
  reaches := h.reaches.tail hstep
  chain := by rw [hchain, hactive]; exact h.chain
  entered := by rw [hchain]; exact h.entered

/-- Every step keeps the trace: a component that is entered was asked for, and one that is left
is the last of the active ones. -/
theorem Traced.step (h : m.Traced env m') (hstep : Steps env m' m'') : m.Traced env m'' := by
  cases hstep.move with
  | var | outlet | lookup | reject => exact h.same hstep rfl rfl
  | resume | expand => exact h.same hstep rfl rfl
  | refuse hp => exact h.same hstep (prepare_scope hp).chain rfl
  | @leave text name vars next waiting s =>
    have hchain := h.chain
    simp only [active, List.filterMap_cons, Waiting.name?, List.reverse_cons] at hchain
    have hleft : (s.leave vars).chain = m.state.chain ++
        (waiting.filterMap Waiting.name?).reverse := by
      rw [State.leave, hchain, ← List.append_assoc, List.dropLast_concat]
    refine ⟨h.reaches.tail hstep, hleft, fun before name hbefore hname => ?_⟩
    exact h.entered before name hbefore (hname.trans (List.dropLast_prefix _))
  | @enter invocation next waiting s entry t hp =>
    have hscope := prepare_scope hp
    obtain ⟨hname, -⟩ := prepare_ok hp
    have hentered : (t.enter entry).chain = s.chain ++ [entry.name] := by
      rw [State.enter, hscope.chain]
    refine ⟨h.reaches.tail hstep, ?_, fun before name hbefore hprefix => ?_⟩
    · rw [hentered, h.chain]
      simp [active, Waiting.name?]
    · rw [hentered] at hprefix
      rcases List.prefix_concat_iff.1 hprefix with heq | hprefix
      · obtain ⟨rfl, hlast⟩ := List.append_inj' heq rfl
        rw [List.singleton_inj.1 hlast]
        exact h.invoked ⟨invocation, next, rfl, hname⟩
      · exact h.entered before name hbefore hprefix

/-- A refused component closes a cycle if it is refused because it is being rendered. -/
theorem Traced.closesCycle (h : m.Traced env m') (hm : m'.Asks name)
    (hmem : name ∈ m'.state.chain) : m.ClosesCycle env (m'.state.chain ++ [name]) where
  goesOn := by rw [h.chain, List.append_assoc]; exact List.prefix_append _ _
  repeats := ⟨_, _, rfl, hmem⟩
  invoked before other hbefore hprefix := by
    rcases List.prefix_concat_iff.1 hprefix with heq | hprefix
    · obtain ⟨rfl, hlast⟩ := List.append_inj' heq rfl
      rw [List.singleton_inj.1 hlast]
      exact h.invoked hm
    · exact h.entered before other hbefore hprefix

end Machine

/-! ## Where a circular reference comes from -/

/-- A source that does not compile is refused by an error of the syntax. -/
theorem Environment.compile_error {env : Environment} {name source : String} {e : RenderError}
    (h : env.compile name source = .error e) : ∃ error, e = .parse name error := by
  unfold compile at h
  cases hc : Template.compile env.tags name source with
  | ok template => rw [hc] at h; cases h
  | error error => rw [hc] at h; cases h; exact ⟨error, rfl⟩

/-- A function of the host fails by an error. -/
def Environment.HostFails (env : Environment) (e : RenderError) : Prop :=
  ∃ name f args, env.function? name = some (.host f) ∧ f args = .error e

namespace Machine

variable {env : Environment} {m m' m'' : Machine}

/-- An error that says that components are in a circle comes from the host or closes a cycle. -/
def Truthful (env : Environment) (m : Machine) (e : RenderError) : Prop :=
  ∀ chain, e = .component (.circular chain) → env.HostFails e ∨ m.ClosesCycle env chain

theorem allows_truthful (env : Environment) (m : Machine) :
    env.Allows (m.Truthful env) True where
  unknownFunction _ := nofun
  invalidArguments _ _ := nofun
  host hf he := fun _ _ => .inl ⟨_, _, _, hf, he⟩
  included _ := trivial

/-- Whatever a machine that is reached from `m` fails by is truthful. -/
structure FailsTruthfully (env : Environment) (m m' : Machine) : Prop where
  traced : m.Traced env m'
  program : m'.program.Within (m.Truthful env) True
  waiting : ∀ w ∈ m'.waiting, ∀ text, (w.next text).Within (m.Truthful env) True

/-- Every step keeps it so: only a refused component can say that there is a circle. -/
theorem FailsTruthfully.step (h : m.FailsTruthfully env m') (hstep : Steps env m' m'') :
    m.FailsTruthfully env m'' := by
  have htraced := h.traced.step hstep
  have hprogram := h.program
  have hwaiting := h.waiting
  have hnodes := renderNodes_within (m.allows_truthful env)
  cases hstep.move with
  | leave | resume =>
    exact ⟨htraced, hwaiting _ List.mem_cons_self _,
      fun w hw => hwaiting w (List.mem_cons_of_mem _ hw)⟩
  | var | outlet => exact ⟨htraced, hprogram _, hwaiting⟩
  | lookup =>
    refine ⟨htraced, hprogram _ fun e he chain heq => ?_, hwaiting⟩
    cases heq
    exact absurd rfl (Catalog.lookup_ne_circular he chain)
  | @enter invocation next waiting s entry t hp =>
    refine ⟨htraced, hnodes _, fun w hw => ?_⟩
    rcases List.mem_cons.1 hw with rfl | hw
    · exact hprogram
    · exact hwaiting w hw
  | @expand source next waiting s template hc =>
    refine ⟨htraced, hnodes _, fun w hw => ?_⟩
    rcases List.mem_cons.1 hw with rfl | hw
    · exact hprogram.2
    · exact hwaiting w hw
  | @reject source next waiting s e hc =>
    refine ⟨htraced, fun chain heq => ?_, hwaiting⟩
    obtain ⟨error, he⟩ := Environment.compile_error hc
    cases he.symm.trans heq
  | @refuse invocation next waiting s e t hp =>
    refine ⟨htraced, fun chain heq => .inr ?_, hwaiting⟩
    obtain ⟨cause, rfl, hcause⟩ := prepare_error hp
    obtain ⟨canonical, hname, hmem, rfl⟩ := hcause chain (RenderError.component.inj heq)
    exact h.traced.closesCycle ⟨invocation, next, rfl, hname⟩ hmem

theorem FailsTruthfully.reaches (h : m.FailsTruthfully env m') (hr : Reaches env m' m'') :
    m.FailsTruthfully env m'' := by
  induction hr with
  | refl => exact h
  | tail _ hstep ih => exact ih.step hstep

end Machine

/-- An error that says that components are in a circle closes a cycle, unless it comes from a
function of the host. -/
theorem Environment.circular_closes {env : Environment} {invocation : Invocation} {s : State}
    {chain : List String}
    (h : (env.run (Render.invoke invocation) s).1 = .error (.component (.circular chain))) :
    env.HostFails (.component (.circular chain)) ∨
      (Machine.start (Render.invoke invocation) s).ClosesCycle env chain := by
  have hcomes := (env.run_performs (Render.invoke invocation) s).comesTo []
  generalize env.run (Render.invoke invocation) s = outcome at hcomes h
  obtain ⟨result, t⟩ := outcome
  obtain rfl : result = _ := h
  obtain ⟨waiting, u, hr, -⟩ := hcomes nofun
  have hstart : (Machine.start (Render.invoke invocation) s).FailsTruthfully env
      (Machine.start (Render.invoke invocation) s) :=
    ⟨.start _ _, .invoke invocation, nofun⟩
  exact (hstart.reaches hr).program chain rfl

end SlotTemplates
