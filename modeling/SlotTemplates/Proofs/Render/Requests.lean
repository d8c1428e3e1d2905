import SlotTemplates.Render.Eval

/-!
# What templates fail by and ask for

A template fails by itself for few reasons: a function that is not there, arguments that do not
fit, a component that cannot be loaded, and what functions of the host say. And it asks for included
templates only if there is a function that includes them. `Render.Within` says that a computation
keeps to a kind of errors and to components alone; the nodes of every template do if the environment
allows the kind (`renderNodes_within`).
-/

namespace SlotTemplates

/-- Every failure of a computation is one of `errors`, also if lookups fail only by one of them,
and the computation asks for included templates only if `includes` holds. -/
def Render.Within {α : Type} (errors : RenderError → Prop) (includes : Prop) : Render α → Prop
  | .done _ => True
  | .fail e => errors e
  | .var _ next => ∀ value, Within errors includes (next value)
  | .outlet _ next => ∀ text, Within errors includes (next text)
  | .lookup _ next =>
    ∀ found, (∀ e, found = .error e → errors (.component e)) → Within errors includes (next found)
  | .component _ next => ∀ text, Within errors includes (next text)
  | .included _ next => includes ∧ ∀ text, Within errors includes (next text)

/-- Everything that templates fail by themselves in an environment is one of `errors`, and they
include templates only if `includes` holds. -/
structure Environment.Allows (env : Environment) (errors : RenderError → Prop) (includes : Prop) :
    Prop where
  unknownFunction : ∀ name, errors (.unknownFunction name)
  invalidArguments : ∀ function fault, errors (.invalidArguments function fault)
  host : ∀ {name f args e}, env.function? name = some (.host f) → f args = .error e → errors e
  included : ∀ {name}, env.function? name = some .included → includes

namespace Render.Within

variable {α β : Type} {errors : RenderError → Prop} {includes : Prop}

theorem bind {x : Render α} {f : α → Render β} (hx : x.Within errors includes)
    (hf : ∀ a, (f a).Within errors includes) : (x >>= f).Within errors includes := by
  induction x with
  | done a => exact hf a
  | fail e => exact hx
  | var _ _ ih | outlet _ _ ih | component _ _ ih => exact fun answer => ih answer (hx answer)
  | lookup _ _ ih => exact fun found hfound => ih found (hx found hfound)
  | included _ _ ih => exact ⟨hx.1, fun text => ih text (hx.2 text)⟩

/-- A computation whose result is only changed is within the same errors. -/
theorem map {x : Render α} (hx : x.Within errors includes) (f : α → β) :
    (x >>= fun a => pure (f a)).Within errors includes :=
  hx.bind fun _ => trivial

theorem ofExcept {x : Except RenderError α} (h : ∀ e, x = .error e → errors e) :
    (Render.ofExcept x).Within errors includes := by
  cases x with
  | ok a => exact trivial
  | error e => exact h e rfl

/-- The request for a component fails by nothing itself. -/
theorem invoke (invocation : Invocation) : (Render.invoke invocation).Within errors includes :=
  fun _ => trivial

end Render.Within

section
variable {env : Environment} {errors : RenderError → Prop} {includes : Prop}

/-! ## Functions -/

theorem nameArgument_error {calledAs : String} {arg : Option Value} {e : RenderError}
    (h : nameArgument calledAs arg = .error e) : ∃ fault, e = .invalidArguments calledAs fault := by
  unfold nameArgument at h
  split at h <;> cases h <;> exact ⟨_, rfl⟩

/-- Arguments that describe no invocation are refused under the name of the function. -/
theorem Invocation.ofArguments_error {calledAs : String} {args : List Value} {e : RenderError}
    (h : Invocation.ofArguments calledAs args = .error e) :
    ∃ fault, e = .invalidArguments calledAs fault := by
  unfold Invocation.ofArguments at h
  simp only [Bind.bind, Except.bind, throw, throwThe, MonadExceptOf.throw, pure, Except.pure] at h
  split at h
  · cases h
    exact ⟨_, rfl⟩
  cases hname : nameArgument calledAs args[0]? with
  | error e' =>
    rw [hname] at h
    cases h
    exact nameArgument_error hname
  | ok name =>
    rw [hname] at h
    generalize args[1]?.getD .null = props at h
    generalize args[3]?.getD .null = slots at h
    cases props <;> cases slots <;> cases h <;> exact ⟨_, rfl⟩

theorem findDeclaration_within (name : String) :
    (findDeclaration name).Within errors includes := by
  refine Render.Within.bind (fun found hfound => .ofExcept fun e he => ?_) fun found => ?_
  · cases found with
    | ok found => cases he
    | error e => cases he; exact hfound e rfl
  · cases found <;> exact trivial

/-- A function that an environment has. -/
theorem TemplateFunction.call_within (h : env.Allows errors includes) {name : String}
    {f : TemplateFunction} (hf : env.function? name = some f) (args : List Value) :
    (f.call args).Within errors includes := by
  have named {calledAs : String} {arg : Option Value} :
      (Render.ofExcept (nameArgument calledAs arg)).Within errors includes := by
    refine .ofExcept fun e he => ?_
    obtain ⟨fault, rfl⟩ := nameArgument_error he
    exact h.invalidArguments _ _
  cases f with
  | component calledAs =>
    refine .bind (.ofExcept fun e he => ?_) fun invocation => fun text => trivial
    obtain ⟨fault, rfl⟩ := Invocation.ofArguments_error he
    exact h.invalidArguments _ _
  | hasComponent =>
    rw [TemplateFunction.call]
    split
    · refine Render.Within.map (x := Render.hasComponent _) (fun found _ => ?_) _
      rcases found with _ | _ | _ <;> exact trivial
    · exact trivial
  | componentProps => exact .bind named fun name => .map (findDeclaration_within name) _
  | componentSlots => exact .bind named fun name => .map (findDeclaration_within name) _
  | host f => exact .ofExcept fun e he => h.host hf he
  | render => exact fun text => trivial
  | included => exact ⟨h.included hf, fun text => trivial⟩

/-! ## Expressions and nodes -/

mutual

theorem eval_within (h : env.Allows errors includes) :
    ∀ e, (eval env e).Within errors includes
  | .literal _ _ => trivial
  | .var _ _ => fun _ => trivial
  | .list _ items => (evalList_within h items).map _
  | .map _ entries => (evalEntries_within h entries).map _
  | .attr _ base _ => (eval_within h base).map _
  | .index _ base position => (eval_within h base).bind fun _ => (eval_within h position).map _
  | .call _ name _ args => by
    unfold eval
    split
    · exact h.unknownFunction name
    · next f hf =>
      exact (evalList_within h args).bind fun args => TemplateFunction.call_within h hf args
  | .concat _ left right => (eval_within h left).bind fun _ => (eval_within h right).map _
  | .coalesce _ left right => by
    unfold eval
    refine (eval_within h left).bind fun value => ?_
    split
    · exact eval_within h right
    · exact trivial

theorem evalList_within (h : env.Allows errors includes) :
    ∀ es, (evalList env es).Within errors includes
  | [] => trivial
  | e :: rest => (eval_within h e).bind fun _ => (evalList_within h rest).map _

theorem evalEntries_within (h : env.Allows errors includes) :
    ∀ entries, (evalEntries env entries).Within errors includes
  | [] => trivial
  | (_, e) :: rest => (eval_within h e).bind fun _ => (evalEntries_within h rest).map _

end

theorem evalAttr_within (h : env.Allows errors includes) (props : Entries Value) (attr : Attr) :
    (evalAttr env props attr).Within errors includes := by
  unfold evalAttr
  split
  · exact trivial
  · exact (eval_within h _).map _
  · refine (eval_within h _).bind fun value => ?_
    split
    · exact trivial
    · exact trivial
    · exact h.invalidArguments _ _

theorem evalAttrsFrom_within (h : env.Allows errors includes) (props : Entries Value)
    (attrs : List Attr) : (evalAttrsFrom env props attrs).Within errors includes := by
  induction attrs generalizing props with
  | nil => exact trivial
  | cons attr attrs ih => exact (evalAttr_within h props attr).bind ih

theorem evalName_within (h : env.Allows errors includes) (name : ComponentName) :
    (evalName env name).Within errors includes := by
  unfold evalName
  split
  · exact trivial
  · refine (eval_within h _).bind fun value => ?_
    split
    · exact trivial
    · exact h.invalidArguments _ _

mutual

theorem renderNode_within (h : env.Allows errors includes) :
    ∀ node, (renderNode env node).Within errors includes
  | .text _ _ => trivial
  | .output _ e => (eval_within h e).map _
  | .component _ name attrs body slots =>
    (evalName_within h name).bind fun _ => (evalAttrsFrom_within h [] attrs).bind fun _ =>
      (renderNodes_within h body).bind fun _ =>
        (renderSlots_within h [] slots).bind fun _ _ => trivial
  | .slot head body => by
    unfold renderNode
    intro text
    cases text with
    | some text => exact trivial
    | none => exact renderNodes_within h body

/-- Every template is within what its environment allows. -/
theorem renderNodes_within (h : env.Allows errors includes) :
    ∀ nodes, (renderNodes env nodes).Within errors includes
  | [] => trivial
  | node :: rest => (renderNode_within h node).bind fun _ => (renderNodes_within h rest).map _

theorem renderSlots_within (h : env.Allows errors includes) : ∀ slots captured,
    (renderSlots env slots captured).Within errors includes
  | _, [] => trivial
  | _, (_, body) :: rest => (renderNodes_within h body).bind fun _ => renderSlots_within h _ rest

end

end

end SlotTemplates
