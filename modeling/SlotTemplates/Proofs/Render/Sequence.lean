import SlotTemplates.Proofs.Render.Transparent

/-!
# Rendering one part after another

Whatever is evaluated or rendered, the scope is as it was before, also if an error comes up in the
middle of components that are being rendered (`Render.run_sameScope`). The cache, which may have
grown, answers as it did (`Render.run_after`). So it does not matter where a render has got to when
a part of it starts: parts that follow each other may as well be run from one state
(`Render.result_bind`), and nodes give the texts that they give on their own, one after the other
(`Environment.run_restores`, `Environment.run_nodes`).
-/

namespace SlotTemplates

/-- Both of two computations may be run from the state that the first one starts from. -/
theorem Render.result_bind {α β : Type} {env : Environment} {depth : Nat} (x : Render α)
    (f : α → Render β) (s : State) :
    ((x >>= f).run (Host.atDepth env depth) s).1 =
      (x.run (Host.atDepth env depth) s).1 >>= fun a =>
        ((f a).run (Host.atDepth env depth) s).1 := by
  cases h : (x.run (Host.atDepth env depth) s).1 with
  | ok a => exact run_bind_result h f
  | error e =>
    rw [run_bind]
    generalize x.run (Host.atDepth env depth) s = outcome at h ⊢
    obtain ⟨result, t⟩ := outcome
    obtain rfl : result = .error e := h
    rfl

/-- Nodes that follow others are rendered as if nothing had been rendered before. -/
theorem Environment.run_append (env : Environment) (front back : List Node) (s : State) :
    (env.run (renderNodes env (front ++ back)) s).1 = (do
      let text ← (env.run (renderNodes env front) s).1
      return text ++ (← (env.run (renderNodes env back) s).1)) := by
  rw [renderNodes_append, run, run, host, Render.result_bind]
  exact congrArg _ (funext fun text => Render.result_bind (renderNodes env back) _ s)

/-- The text of nodes is made of the texts that they give on their own. -/
theorem Environment.run_nodes (env : Environment) (nodes : List Node) (s : State) :
    (env.run (renderNodes env nodes) s).1 =
      (nodes.mapM fun node => (env.run (renderNode env node) s).1).map String.join := by
  induction nodes with
  | nil => rfl
  | cons node rest ih =>
    rw [← List.singleton_append, env.run_append, renderNodes_single, ih, List.singleton_append,
      List.mapM_cons]
    cases (env.run (renderNode env node) s).1 with
    | error e => rfl
    | ok text =>
      cases rest.mapM fun node => (env.run (renderNode env node) s).1 with
      | error e => rfl
      | ok texts => exact congrArg Except.ok String.join_cons.symm

/-- The variables, the frames and the chain of a state are the same after an expression is
evaluated, nodes are rendered or a component is, whether there is a result or an error. Hence nodes
that follow others give the text of the others and then the text that they give from the same
state; they fail if either part does, with the error of the first part that fails. -/
theorem Environment.run_restores (env : Environment) (s : State) :
    (∀ e, s.SameScope (env.run (eval env e) s).2) ∧
      (∀ template : Template, s.SameScope (env.run (renderNodes env template.nodes) s).2) ∧
      (∀ invocation, s.SameScope (env.run (Render.invoke invocation) s).2) ∧
      ∀ front back, (env.run (renderNodes env (front ++ back)) s).1 = (do
        let text ← (env.run (renderNodes env front) s).1
        return text ++ (← (env.run (renderNodes env back) s).1)) := by
  have restored {α : Type} (x : Render α) : s.SameScope (env.run x s).2 :=
    Render.run_sameScope (Host.atDepth_restoring env _) x s
  exact ⟨fun e => restored (eval env e), fun template => restored (renderNodes env template.nodes),
    fun invocation => restored (Render.invoke invocation),
    fun front back => env.run_append front back s⟩

end SlotTemplates
