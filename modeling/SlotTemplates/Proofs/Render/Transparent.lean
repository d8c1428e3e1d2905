import SlotTemplates.Proofs.Render.Invocation

/-!
# Slots outside of components

A slot that stands on its own is filled by the component that is being rendered. Outside of
components there is nothing to fill it with, and its body takes its place. So it makes no difference
whether such slots are there at all: `Node.dissolve` puts the bodies of the slots where the slots
stand, at every depth, and leaves those alone that invocations capture; without a component around
it, a template renders like what is left of it (`Environment.renders_dissolved`).

Two computations that give the same outcome from all states outside of components
(`Render.SameOutside`) may stand for each other in a longer one, so the proof follows the nodes.
-/

namespace SlotTemplates

/-! ## Dissolving slots -/

namespace Node

mutual

/-- What stands for a node when slots give way to their bodies. -/
def dissolve : Node → List Node
  | .text span content => [.text span content]
  | .output span value => [.output span value]
  | .component span name attrs body slots =>
    [.component span name attrs (dissolveList body) (dissolveSlots slots)]
  | .slot _ body => dissolveList body

/-- What stands for nodes. -/
def dissolveList : List Node → List Node
  | [] => []
  | node :: rest => dissolve node ++ dissolveList rest

/-- Captured slots are kept; what stands for the nodes in them. -/
def dissolveSlots : List (SlotHead × List Node) → List (SlotHead × List Node)
  | [] => []
  | (head, body) :: rest => (head, dissolveList body) :: dissolveSlots rest

end

mutual

/-- Whether no slot stands in a node, except those that invocations capture. -/
def slotless : Node → Bool
  | .text .. | .output .. => true
  | .component _ _ _ body slots => slotlessList body && slotlessSlots slots
  | .slot .. => false

/-- Whether no slot stands in any of some nodes. -/
def slotlessList : List Node → Bool
  | [] => true
  | node :: rest => slotless node && slotlessList rest

/-- Whether no slot stands in a captured one. -/
def slotlessSlots : List (SlotHead × List Node) → Bool
  | [] => true
  | (_, body) :: rest => slotlessList body && slotlessSlots rest

end

theorem slotlessList_append (left right : List Node) :
    slotlessList (left ++ right) = (slotlessList left && slotlessList right) := by
  induction left with
  | nil => rfl
  | cons node left ih => simp [slotlessList, ih, Bool.and_assoc]

mutual

theorem dissolve_slotless : ∀ node : Node, slotlessList node.dissolve = true
  | .text .. | .output .. => rfl
  | .component _ _ _ body slots => by
    simp [dissolve, slotlessList, slotless, dissolveList_slotless body,
      dissolveSlots_slotless slots]
  | .slot _ body => dissolveList_slotless body

/-- No slot is left of its own. -/
theorem dissolveList_slotless : ∀ nodes, slotlessList (dissolveList nodes) = true
  | [] => rfl
  | node :: rest => by
    simp [dissolveList, slotlessList_append, dissolve_slotless node, dissolveList_slotless rest]

theorem dissolveSlots_slotless : ∀ slots, slotlessSlots (dissolveSlots slots) = true
  | [] => rfl
  | (_, body) :: rest => by
    simp [dissolveSlots, slotlessSlots, dissolveList_slotless body, dissolveSlots_slotless rest]

end

end Node

/-- The template in which slots have given way to their bodies. -/
def Template.dissolve (template : Template) : Template :=
  { template with nodes := Node.dissolveList template.nodes }

/-! ## Computations outside of components -/

/-- Two computations have the same outcome from every state outside of components. -/
def Render.SameOutside {α : Type} (host : Host) (x y : Render α) : Prop :=
  ∀ s : State, s.frames = [] → x.run host s = y.run host s

section
variable {host : Host} {env : Environment}

namespace Render.SameOutside

variable {α β : Type}

theorem refl (x : Render α) : SameOutside host x x := fun _ _ => rfl

theorem trans {x y z : Render α} (h : SameOutside host x y) (h' : SameOutside host y z) :
    SameOutside host x z :=
  fun s hs => (h s hs).trans (h' s hs)

/-- What follows is run outside of components as well. -/
theorem bind (hr : host.Restoring) {x y : Render α} {f g : α → Render β}
    (h : SameOutside host x y) (hf : ∀ a, SameOutside host (f a) (g a)) :
    SameOutside host (x >>= f) (y >>= g) := by
  intro s hs
  have hafter : (y.run host s).2.frames = [] := (run_sameScope hr y s).frames.trans hs
  rw [run_bind, run_bind, h s hs]
  generalize y.run host s = outcome at hafter
  obtain ⟨_ | a, t⟩ := outcome
  · rfl
  · exact hf a t hafter

end Render.SameOutside

/-! ## Rendering -/

/-- The text of nodes that follow others follows the text of the others. -/
theorem renderNodes_append (env : Environment) (left right : List Node) :
    renderNodes env (left ++ right) =
      (do return (← renderNodes env left) ++ (← renderNodes env right)) := by
  induction left with
  | nil => simp [renderNodes, Render.bind_done]
  | cons node left ih => simp [renderNodes, ih, String.append_assoc]

theorem renderNodes_single (env : Environment) (node : Node) :
    renderNodes env [node] = renderNode env node := by
  simp [renderNodes, Render.bind_done]

/-- Nothing fills a slot outside of components. -/
theorem renderNode_slot_outside (head : SlotHead) (body : List Node) :
    Render.SameOutside host (renderNode env (.slot head body)) (renderNodes env body) := by
  intro s hs
  have hempty : s.outlet host.env.config head.name = none := by simp [State.outlet, hs]
  rw [renderNode, Render.run_bind, Render.passed, Render.run, hempty]
  rfl

mutual

theorem renderNode_dissolve (hr : host.Restoring) : ∀ node : Node,
    Render.SameOutside host (renderNodes env node.dissolve) (renderNode env node)
  | .text .. | .output .. => by
    rw [Node.dissolve, renderNodes_single]
    exact .refl _
  | .component span name attrs body slots => by
    rw [Node.dissolve, renderNodes_single, renderNode, renderNode]
    refine .bind hr (.refl _) fun name => .bind hr (.refl _) fun props => ?_
    refine .bind hr (renderNodes_dissolve hr body) fun content => ?_
    exact .bind hr (renderSlots_dissolve hr [] slots) fun slots => .refl _
  | .slot head body => by
    have hbody := renderNodes_dissolve hr body
    exact hbody.trans fun s hs => (renderNode_slot_outside head body s hs).symm

/-- Nodes whose slots have given way to their bodies render like the nodes outside of
components. -/
theorem renderNodes_dissolve (hr : host.Restoring) : ∀ nodes : List Node,
    Render.SameOutside host (renderNodes env (Node.dissolveList nodes)) (renderNodes env nodes)
  | [] => .refl _
  | node :: rest => by
    rw [Node.dissolveList, renderNodes_append, renderNodes]
    refine .bind hr (renderNode_dissolve hr node) fun text => ?_
    exact .bind hr (renderNodes_dissolve hr rest) fun _ => .refl _

/-- Invocations capture the same texts under the same names. -/
theorem renderSlots_dissolve (hr : host.Restoring) :
    ∀ (slots : Entries String) (captured : List (SlotHead × List Node)),
    Render.SameOutside host (renderSlots env slots (Node.dissolveSlots captured))
      (renderSlots env slots captured)
  | _, [] => .refl _
  | _, (head, body) :: rest => by
    rw [Node.dissolveSlots, renderSlots, renderSlots]
    exact .bind hr (renderNodes_dissolve hr body) fun _ => renderSlots_dissolve hr _ rest

end

/-- A slot among other nodes, in a state outside of components, is as good as its body. -/
theorem Environment.run_slot_among (env : Environment) (before after body : List Node)
    (head : SlotHead) {s : State} (h : s.frames = []) :
    env.run (renderNodes env (before ++ .slot head body :: after)) s =
      env.run (renderNodes env (before ++ (body ++ after))) s := by
  have hr := Host.atDepth_restoring env (depthBound env s.cache + includeLimit)
  refine Render.SameOutside.trans (y := do
    return (← renderNodes env before) ++ (← renderNodes env (body ++ after))) ?_ ?_ s h
  · rw [renderNodes_append]
    refine .bind hr (.refl _) fun _ => .bind hr ?_ fun _ => .refl _
    rw [renderNodes_append, renderNodes]
    exact .bind hr (renderNode_slot_outside head body) fun _ => .refl _
  · rw [← renderNodes_append]
    exact .refl _

/-- In a state outside of components a template has the same outcome, a text or an error and the
state afterwards, as the template in which its slots have given way to their bodies, and none is
left but those that invocations capture. So it is for a render from outside. -/
theorem Environment.renders_dissolved (env : Environment) (template : Template) (s : State)
    (h : s.frames = []) :
    env.run (renderNodes env template.dissolve.nodes) s =
        env.run (renderNodes env template.nodes) s ∧
      Node.slotlessList template.dissolve.nodes = true ∧
      ∀ vars cache, env.renderTemplate template.dissolve vars cache =
        env.renderTemplate template vars cache := by
  have same (s : State) (hs : s.frames = []) :
      env.run (renderNodes env template.dissolve.nodes) s =
        env.run (renderNodes env template.nodes) s :=
    renderNodes_dissolve (Host.atDepth_restoring env _) template.nodes s hs
  refine ⟨same s h, Node.dissolveList_slotless _, fun vars cache => ?_⟩
  rw [renderTemplate, renderTemplate, runAlone, runAlone, same _ rfl]

end

/-- A slot in a slot beside an invocation that captures one slot and has another in its body. -/
def Template.nested : Template where
  name := "page"
  nodes := [
    .slot ⟨⟨0, 50⟩, "outer", ⟨6, 11⟩⟩ [.text ⟨12, 13⟩ "a",
      .slot ⟨⟨13, 40⟩, "inner", ⟨19, 24⟩⟩ [.text ⟨25, 26⟩ "b"]],
    .component ⟨50, 120⟩ (.literal "card") []
      [.text ⟨58, 59⟩ "c", .slot ⟨⟨59, 80⟩, "footer", ⟨65, 71⟩⟩ [.text ⟨72, 73⟩ "d"]]
      [(⟨⟨80, 110⟩, "side", ⟨86, 90⟩⟩, [.slot ⟨⟨92, 104⟩, "x", ⟨98, 99⟩⟩ [.text ⟨100, 101⟩ "e"]])]]

/-- Beside a card, where no component is being rendered. -/
theorem Environment.renders_dissolved_nested :
    State.besideCard.frames = [] ∧
      Template.nested.dissolve.nodes = [.text ⟨12, 13⟩ "a", .text ⟨25, 26⟩ "b",
        .component ⟨50, 120⟩ (.literal "card") [] [.text ⟨58, 59⟩ "c", .text ⟨72, 73⟩ "d"]
          [(⟨⟨80, 110⟩, "side", ⟨86, 90⟩⟩, [.text ⟨100, 101⟩ "e"])]] ∧
      Environment.plain.run (renderNodes .plain Template.nested.dissolve.nodes) .besideCard =
        Environment.plain.run (renderNodes .plain Template.nested.nodes) .besideCard :=
  ⟨rfl, rfl, (Environment.plain.renders_dissolved .nested .besideCard rfl).1⟩

end SlotTemplates
