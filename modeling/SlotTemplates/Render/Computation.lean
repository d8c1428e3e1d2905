import SlotTemplates.Render.Environment

/-!
# Computations of templates

What a template does is a `Render`: it ends with a result or an error, or it asks for something
and goes on with the answer. It can ask for the value of a variable, for what was passed to the
innermost component under the name of a slot, for the definition of a component, and for the text
of a component or of an included template. So a template reads nothing else of the state of a
render, and writes nothing of it. Who answers is left open here: `Render.run` does it from a state.

Computations are the same if they ask the same and go on in the same way, and they are a monad in
this sense (`LawfulMonad Render`).
-/

namespace SlotTemplates

/-- What is passed to a component. -/
structure Invocation where
  name : String
  props : Entries Value := []
  content : Option String := none
  slots : Entries String := []
deriving Repr, Inhabited

/-- A computation that asks for what it needs. -/
inductive Render (α : Type) where
  | done (result : α)
  | fail (error : RenderError)
  /-- Asks for the value of a variable. -/
  | var (name : String) (next : Value → Render α)
  /-- Asks for the text that was passed to the innermost component for a slot. -/
  | outlet (slot : String) (next : Option String → Render α)
  /-- Asks for the component of a name. -/
  | lookup (name : String) (next : Except ComponentError (Option Definition) → Render α)
  /-- Asks for the text of a component. -/
  | component (invocation : Invocation) (next : String → Render α)
  /-- Asks for the text of a template that is given as text, in the scope that is current. -/
  | included (source : String) (next : String → Render α)

namespace Render

variable {α β : Type}

/-- One computation after another, unless the first one fails. -/
def bind : Render α → (α → Render β) → Render β
  | .done a, f => f a
  | .fail e, _ => .fail e
  | .var name next, f => .var name fun value => bind (next value) f
  | .outlet slot next, f => .outlet slot fun text => bind (next text) f
  | .lookup name next, f => .lookup name fun found => bind (next found) f
  | .component invocation next, f => .component invocation fun text => bind (next text) f
  | .included source next, f => .included source fun text => bind (next text) f

instance : Monad Render where
  pure := .done
  bind := bind

/-! ### What asks once -/

/-- The result of a computation that asks for nothing. -/
def ofExcept : Except RenderError α → Render α
  | .ok a => .done a
  | .error e => .fail e

/-- The value of a variable. -/
def value (name : String) : Render Value := .var name .done

/-- The text that was passed for a slot. -/
def passed (slot : String) : Render (Option String) := .outlet slot .done

/-- The component of a name; an error if it cannot be loaded. -/
def definition? (name : String) : Render (Option Definition) :=
  .lookup name fun found => ofExcept (found.mapError .component)

/-- Whether a name has a component that can be loaded. -/
def hasComponent (name : String) : Render Bool :=
  .lookup name fun
    | .ok (some _) => .done true
    | _ => .done false

/-- The text of a component. -/
def invoke (invocation : Invocation) : Render String := .component invocation .done

/-- The text of a template that is given as text. -/
def expand (source : String) : Render String := .included source .done

/-! ### The laws of sequencing -/

@[simp] theorem pure_eq (a : α) : (pure a : Render α) = .done a := rfl

@[simp] theorem done_bind (a : α) (f : α → Render β) : (Render.done a >>= f) = f a := rfl

@[simp] theorem fail_bind (e : RenderError) (f : α → Render β) : (Render.fail e >>= f) = .fail e :=
  rfl

@[simp] theorem var_bind (name : String) (next : Value → Render α) (f : α → Render β) :
    (Render.var name next >>= f) = .var name fun v => next v >>= f := rfl

@[simp] theorem outlet_bind (slot : String) (next : Option String → Render α)
    (f : α → Render β) : (Render.outlet slot next >>= f) = .outlet slot fun t => next t >>= f :=
  rfl

@[simp] theorem lookup_bind (name : String)
    (next : Except ComponentError (Option Definition) → Render α) (f : α → Render β) :
    (Render.lookup name next >>= f) = .lookup name fun found => next found >>= f := rfl

@[simp] theorem component_bind (invocation : Invocation) (next : String → Render α)
    (f : α → Render β) :
    (Render.component invocation next >>= f) = .component invocation fun t => next t >>= f := rfl

@[simp] theorem included_bind (source : String) (next : String → Render α) (f : α → Render β) :
    (Render.included source next >>= f) = .included source fun t => next t >>= f := rfl

theorem bind_done (x : Render α) : (x >>= Render.done) = x := by
  induction x with
  | done | fail => rfl
  | var _ _ ih | outlet _ _ ih | lookup _ _ ih | component _ _ ih | included _ _ ih => simp [ih]

theorem bind_assoc {γ : Type} (x : Render α) (f : α → Render β) (g : β → Render γ) :
    (x >>= f >>= g) = x >>= fun a => f a >>= g := by
  induction x with
  | done | fail => rfl
  | var _ _ ih | outlet _ _ ih | lookup _ _ ih | component _ _ ih | included _ _ ih => simp [ih]

instance : LawfulMonad Render := LawfulMonad.mk' Render bind_done (fun _ _ => rfl) bind_assoc

end Render

end SlotTemplates
