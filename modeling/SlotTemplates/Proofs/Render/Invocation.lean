import SlotTemplates.Proofs.Entries
import SlotTemplates.Proofs.Render.Isolation
import SlotTemplates.Proofs.Text.Trim

/-!
# Three ways to a component

A component is rendered by a tag, by a call of the render function, and from outside of all
templates. With the same name, props, content and slots these have the same result
(`Environment.invocation_agrees`). There are two reasons. What was evaluated before a computation
does not change its result (`Render.run_after`), so that a tag comes to a request for the component
with what its parts evaluate to. And what a tag captures is in the form that the function brings its
arguments into: texts without blanks around them (`Invocation.contentOf_trimText`), the slots in
the order of their names (`renderSlots_captured`).
-/

namespace SlotTemplates

section
variable {α β : Type} {env : Environment} {depth : Nat} {s : State}

/-! ## One computation after another -/

/-- What was run before does not change the result of a computation. -/
theorem Render.run_after (x : Render α) (y : Render β) (s : State) :
    (y.run (Host.atDepth env depth) (x.run (Host.atDepth env depth) s).2).1 =
      (y.run (Host.atDepth env depth) s).1 := by
  have hcat := env.catalog.answersAlike_finds fun name => (env.catalog.lookup s.cache name).1
  have hrestoring := Host.atDepth_restoring env depth
  have hscope := Render.run_sameScope hrestoring x s
  have hfinds : env.catalog.Finds (fun name => (env.catalog.lookup s.cache name).1)
      (x.run (Host.atDepth env depth) s).2.cache := Render.run_finds x s fun _ => rfl
  refine (Render.run_agree (by simpa using hcat) hrestoring (Host.atDepth_agree hcat depth) y
    { cache := ⟨hfinds, fun _ => rfl⟩, chain := ?_, chain_eq := fun _ => hscope.chain,
      vars := hscope.vars, frame := congrArg List.head? hscope.frames } (.inr trivial)).1
  rw [hscope.chain]
  exact List.Subset.refl _

/-- After a computation that succeeds, what goes on with its result might as well be run alone. -/
theorem Render.run_bind_result {x : Render α} {a : α}
    (h : (x.run (Host.atDepth env depth) s).1 = .ok a) (f : α → Render β) :
    ((x >>= f).run (Host.atDepth env depth) s).1 = ((f a).run (Host.atDepth env depth) s).1 := by
  rw [run_bind, ← Render.run_after x (f a) s]
  generalize x.run (Host.atDepth env depth) s = outcome at h ⊢
  obtain ⟨result, t⟩ := outcome
  obtain rfl : result = .ok a := h
  rfl

/-- A result that is only changed at the end. -/
theorem Render.run_map_result (x : Render α) (f : α → β) :
    ((x >>= fun a => pure (f a)).run (Host.atDepth env depth) s).1 =
      (x.run (Host.atDepth env depth) s).1.map f := by
  rw [run_bind]
  generalize x.run (Host.atDepth env depth) s = outcome
  obtain ⟨_ | _, _⟩ := outcome <;> rfl

end

/-! ## What is captured -/

/-- Slots in the order of their names, whose texts have no blanks around them. -/
structure Captured (slots : Entries String) : Prop where
  ordered : slots.Ordered
  trimmed : ∀ slot ∈ slots, TrimmedText slot.2

namespace Captured

variable {slots : Entries String}

theorem nil : Captured [] := ⟨Entries.ordered_nil, nofun⟩

/-- The text of a slot that was captured before, or none, has no blanks around it. -/
theorem trimmed_get? (h : Captured slots) (name : String) :
    TrimmedText ((slots.get? name).getD "") := by
  cases hget : slots.get? name with
  | none => exact trimmedText_empty
  | some text => exact h.trimmed _ (Entries.mem_of_get? hget)

theorem insertSorted (h : Captured slots) {text : String} (ht : TrimmedText text)
    (name : String) : Captured (slots.insertSorted name text) where
  ordered := h.ordered.insertSorted name text
  trimmed slot hslot := by
    rcases Entries.mem_insertSorted hslot with rfl | hslot
    · exact ht
    · exact h.trimmed slot hslot

end Captured

/-- Slots that are captured one after the other, in whatever number under one name. -/
theorem renderSlots_captured {env : Environment} {host : Host}
    {captured : List (SlotHead × List Node)} {before slots : Entries String} {s : State}
    (hbefore : Captured before)
    (h : ((renderSlots env before captured).run host s).1 = .ok slots) : Captured slots := by
  induction captured generalizing before s with
  | nil =>
    cases h
    exact hbefore
  | cons slot captured ih =>
    obtain ⟨head, body⟩ := slot
    rw [renderSlots, Render.run_bind] at h
    generalize (renderNodes env body).run host s = outcome at h
    obtain ⟨e | text, t⟩ := outcome
    · cases h
    · refine ih (hbefore.insertSorted ?_ head.name) h
      exact (hbefore.trimmed_get? head.name).append (trimmedText_trimText text)

/-! ## What the render function makes of its arguments -/

namespace Invocation

/-- The values that describe an invocation to the render function. -/
def arguments (invocation : Invocation) : List Value :=
  [.string invocation.name, .object invocation.props, .ofText? invocation.content,
    .object (invocation.slots.mapValues .string)]

/-- An invocation as tags make it: its texts have no blanks around them, an empty content counts
as none, and the slots are in the order of their names. -/
structure Tidy (invocation : Invocation) : Prop where
  content : ∀ text ∈ invocation.content, TrimmedText text ∧ text ≠ ""
  slots : Captured invocation.slots

theorem contentOf_trimText {text shown : String} (h : contentOf (trimText text) = some shown) :
    TrimmedText shown ∧ shown ≠ "" := by
  unfold contentOf at h
  split at h
  · cases h
  next hne =>
  cases h
  exact ⟨trimmedText_trimText text, by simpa using hne⟩

/-- Texts without blanks around them stay as they are when they are passed as values. -/
theorem mapValues_contentText {slots : Entries String} (h : Captured slots) :
    Entries.mapValues contentText (slots.mapValues .string) = slots := by
  have hsame : ∀ slot ∈ slots, (slot.1, contentText (.string slot.2)) = slot :=
    fun slot hslot => Prod.ext rfl (h.trimmed slot hslot).trimText_eq
  rw [Entries.mapValues, Entries.mapValues, List.map_map]
  exact (List.map_congr_left hsame).trans (List.map_id slots)

/-- The render function understands its arguments as the invocation that they describe. -/
theorem Tidy.ofArguments_arguments {invocation : Invocation} (h : invocation.Tidy)
    (calledAs : String) : ofArguments calledAs invocation.arguments = .ok invocation := by
  obtain ⟨name, props, content, slots⟩ := invocation
  have hslots : Entries.sorted (Entries.mapValues contentText (slots.mapValues .string)) =
      slots := by
    rw [mapValues_contentText h.slots]
    exact h.slots.ordered.sorted_eq
  have hcontent : ∀ text, content = some text →
      contentOf (contentText (.string text)) = some text := by
    intro text htext
    obtain ⟨htrimmed, hne⟩ := h.content text htext
    have hshown : contentText (.string text) = text := htrimmed.trimText_eq
    rw [hshown, contentOf, if_neg (by simpa using hne)]
  cases content with
  | none =>
    change Except.ok (Invocation.mk name props none (Entries.sorted _)) = _
    rw [hslots]
  | some text =>
    change Except.ok (Invocation.mk name props (contentOf (contentText (.string text)))
      (Entries.sorted _)) = _
    rw [hslots, hcontent text rfl]

end Invocation

/-! ## The three ways -/

section
variable {env : Environment} {s : State}

/-- What is rendered from a state without components that are being rendered is what is rendered
from outside. -/
theorem Environment.run_invoke_alone (env : Environment) (invocation : Invocation)
    (hchain : s.chain = []) :
    (env.run (Render.invoke invocation) s).1 = (env.render invocation s.cache).1 := by
  have alike : s.Alike (· = ·) True (.start [] s.cache) :=
    ⟨rfl, List.nil_subset _, fun _ => hchain⟩
  have hagree := (Host.atDepth_agree env.catalog.answersAlike_eq
    (depthBound env s.cache + includeLimit)).component invocation alike
  rw [render, runAlone, run, run, host, State.start, Render.run_invoke, Render.run_invoke]
  exact (hagree (.inr trivial)).1

/-- The parts of a tag, each evaluated in the state `s`, make an invocation: its name, its
attributes, what its body captures without the blanks around it, or none if that is empty, and the
slots that it captures. -/
structure Environment.Captures (env : Environment) (s : State) (name : ComponentName)
    (attrs : List Attr) (body : List Node) (captured : List (SlotHead × List Node))
    (invocation : Invocation) : Prop where
  name : (env.run (evalName env name) s).1 = .ok invocation.name
  props : (env.run (evalAttrs env attrs) s).1 = .ok invocation.props
  content : ∃ text, (env.run (renderNodes env body) s).1 = .ok text ∧
    invocation.content = Invocation.contentOf (trimText text)
  slots : (env.run (renderSlots env [] captured) s).1 = .ok invocation.slots

variable {name : ComponentName} {attrs : List Attr} {body : List Node}
  {captured : List (SlotHead × List Node)} {invocation : Invocation}

theorem Environment.Captures.tidy (h : env.Captures s name attrs body captured invocation) :
    invocation.Tidy where
  content shown hshown := by
    obtain ⟨text, -, hcontent⟩ := h.content
    exact Invocation.contentOf_trimText (hcontent.symm.trans hshown)
  slots := renderSlots_captured .nil h.slots

/-- A tag comes to a request for the component with what its parts evaluate to. -/
theorem Environment.Captures.run_node (h : env.Captures s name attrs body captured invocation)
    (span : Span) :
    (env.run (renderNode env (.component span name attrs body captured)) s).1 =
      (env.run (Render.invoke invocation) s).1 := by
  obtain ⟨componentName, props, content, slots⟩ := invocation
  obtain ⟨text, hbody, hcontent⟩ := h.content
  obtain rfl : content = _ := hcontent
  rw [renderNode, run, host, Render.run_bind_result h.name, Render.run_bind_result h.props,
    Render.run_bind_result hbody, Render.run_bind_result h.slots]
  rfl

/-- The render function comes to the same request. -/
theorem Invocation.Tidy.run_call (h : invocation.Tidy) (env : Environment) (s : State)
    (calledAs : String) :
    (env.run ((TemplateFunction.component calledAs).call invocation.arguments) s).1 =
      (env.run (Render.invoke invocation) s).1.map Value.string := by
  rw [TemplateFunction.call, h.ofArguments_arguments calledAs]
  exact Render.run_map_result (Render.invoke invocation) Value.string

/-- A tag, the render function under any of its names, and a render from outside have the same
result, a text or an error: if the function is called in the state of the tag with what the parts of
the tag evaluate to, be it by itself or in an expression, and, for the render from outside, if no
component is being rendered where the tag stands. -/
theorem Environment.invocation_agrees (env : Environment) (s : State) (name : ComponentName)
    (attrs : List Attr) (body : List Node) (captured : List (SlotHead × List Node))
    (invocation : Invocation) (h : env.Captures s name attrs body captured invocation)
    (span : Span) :
    (∀ calledAs : String,
      (env.run ((TemplateFunction.component calledAs).call invocation.arguments) s).1 =
        (env.run (renderNode env (.component span name attrs body captured)) s).1.map
          Value.string) ∧
    (∀ (callSpan functionSpan : Span) (function calledAs : String) (args : List Expr),
      env.function? function = some (.component calledAs) →
      (env.run (evalList env args) s).1 = .ok invocation.arguments →
      (env.run (eval env (.call callSpan function functionSpan args)) s).1 =
        (env.run (renderNode env (.component span name attrs body captured)) s).1.map
          Value.string) ∧
    (s.chain = [] →
      (env.render invocation s.cache).1 =
        (env.run (renderNode env (.component span name attrs body captured)) s).1) := by
  rw [h.run_node span]
  refine ⟨h.tidy.run_call env s, fun _ _ function calledAs args hfunction hargs => ?_,
    fun hchain => (env.run_invoke_alone invocation hchain).symm⟩
  rw [eval, hfunction, run, host, Render.run_bind_result hargs]
  exact h.tidy.run_call env s calledAs

end

/-- An environment with the default functions and no files. -/
def Environment.plain : Environment :=
  { Environment.bare with functions := Entries.ofList (TemplateFunction.builtIns {}) }

/-- A state outside of components in which a card is held. -/
def State.besideCard : State := { State.inPage with frames := [], chain := [] }

/-- A card with a title, content and a footer. -/
def filledCard : Invocation :=
  { name := "card", props := [("title", .string "Hello")], content := some "text",
    slots := [("footer", "F")] }

/-- A card whose content and footer have blanks around them, by the function `c`, by its tag and
from outside. -/
theorem Environment.invocation_agrees_card :
    let attrs := [Attr.named "title" ⟨8, 13⟩ (some (.literal ⟨14, 21⟩ (.string "Hello")))]
    let body := [Node.text ⟨22, 28⟩ " text "]
    let captured := [(SlotHead.mk ⟨28, 49⟩ "footer" ⟨34, 40⟩, [Node.text ⟨41, 42⟩ " F"])]
    let call := Expr.call ⟨3, 9⟩ "c" ⟨3, 4⟩ (filledCard.arguments.map (.literal ⟨5, 8⟩))
    Environment.plain.Captures .besideCard (.literal "card") attrs body captured filledCard ∧
      (Environment.plain.run (eval .plain call) .besideCard).1 =
        (Environment.plain.run (renderNode .plain
          (.component ⟨0, 58⟩ (.literal "card") attrs body captured)) .besideCard).1.map
            Value.string ∧
      (Environment.plain.render filledCard State.besideCard.cache).1 =
        (Environment.plain.run (renderNode .plain
          (.component ⟨0, 58⟩ (.literal "card") attrs body captured)) .besideCard).1 := by
  intro attrs body captured call
  have hcaptures : Environment.plain.Captures .besideCard (.literal "card") attrs body captured
      filledCard :=
    ⟨rfl, rfl, ⟨" text ", rfl, by decide⟩, congrArg Except.ok (by decide)⟩
  obtain ⟨-, hcall, houtside⟩ := Environment.plain.invocation_agrees .besideCard (.literal "card")
    attrs body captured filledCard hcaptures ⟨0, 58⟩
  exact ⟨hcaptures, hcall ⟨3, 9⟩ ⟨3, 4⟩ "c" "c" _ rfl rfl, houtside rfl⟩

end SlotTemplates
