import SlotTemplates.Proofs.Component.Binding
import SlotTemplates.Proofs.Render.Invocation

/-!
# The props that attributes make

Every attribute that can be evaluated mentions names with values (`Attr.Mentions`): a named one a
name, a spread all names of a map, a spread of `null` none. Inserted one after the other, these
entries have each name where it was mentioned first (`Entries.keys_ofList`), with the value that it
was mentioned with last (`Entries.get?_ofList`). So the last attribute wins
(`Environment.last_attribute_wins`), and undeclared props reach a component in the order of the
attributes that mentioned them first.
-/

namespace SlotTemplates

/-- What an attribute mentions that is evaluated in a state: names with values, in order. -/
inductive Attr.Mentions (env : Environment) (s : State) : Attr → Entries Value → Prop where
  | bare {name : String} {place : Span} :
    Mentions env s (.named name place none) [(name, .bool true)]
  | named {name : String} {place : Span} {e : Expr} {value : Value}
    (h : (env.run (eval env e) s).1 = .ok value) :
    Mentions env s (.named name place (some e)) [(name, value)]
  | spread {e : Expr} {members : Entries Value}
    (h : (env.run (eval env e) s).1 = .ok (.object members)) : Mentions env s (.spread e) members
  | nothing {e : Expr} (h : (env.run (eval env e) s).1 = .ok .null) : Mentions env s (.spread e) []

section
variable {env : Environment} {s : State} {attr : Attr} {attrs : List Attr}
  {entries : Entries Value} {mentioned : List (Entries Value)}

/-- An attribute adds what it mentions to the props. -/
theorem Attr.Mentions.run_evalAttr (h : attr.Mentions env s entries) (props : Entries Value) :
    (env.run (evalAttr env props attr) s).1 = .ok (props.extend entries) := by
  cases h with
  | bare => rfl
  | named h => exact Render.run_bind_result h _
  | spread h => exact Render.run_bind_result h _
  | nothing h => exact Render.run_bind_result h _

/-- So do attributes one after the other, although each is evaluated after those before it. -/
theorem run_evalAttrsFrom (h : List.Forall₂ (Attr.Mentions env s) attrs mentioned)
    (props : Entries Value) :
    (env.run (evalAttrsFrom env props attrs) s).1 = .ok (props.extend mentioned.flatten) := by
  induction h generalizing props with
  | nil => rfl
  | cons hfirst _ ih =>
    rw [List.flatten_cons, Entries.extend_append, ← ih]
    exact Render.run_bind_result (hfirst.run_evalAttr props) _

/-- The last attribute wins. Attributes that can all be evaluated make props whose names are those
that they mention, each once and where it is mentioned first, with the value that it is mentioned
with last. Of these, a component has the undeclared ones in the same order and with the same values,
behind its declared props. -/
theorem Environment.last_attribute_wins (h : List.Forall₂ (Attr.Mentions env s) attrs mentioned) :
    ∃ props, (env.run (evalAttrs env attrs) s).1 = .ok props ∧
      props.keys = (Entries.keys mentioned.flatten).eraseDups ∧ props.keys.Nodup ∧
      (∀ name, props.get? name = Entries.get? name mentioned.flatten.reverse) ∧
      ∀ declared strict bound, bindProps declared strict props = .ok bound →
        bound.keys = declared.map PropDef.name ++ unknownNames declared props ∧
          ∀ name ∈ unknownNames declared props, bound.get? name = props.get? name := by
  refine ⟨_, run_evalAttrsFrom h [], Entries.keys_ofList _, Entries.nodup_keys_ofList _,
    Entries.get?_ofList _, fun declared strict bound hbound => bindProps_undeclared hbound⟩

end

/-- A state with options for a card. -/
def State.withOptions : State :=
  { State.besideCard with vars := [("options", .object [("size", .null), ("open", .null)])] }

/-- Two titles, options between them, a name without a value, and a spread of a variable that is
not there. -/
theorem Environment.last_attribute_wins_card :
    let attrs := [Attr.named "title" ⟨8, 13⟩ (some (.literal ⟨14, 21⟩ (.string "First"))),
      .spread (.var ⟨25, 32⟩ "options"), .named "open" ⟨33, 37⟩ none,
      .spread (.var ⟨41, 48⟩ "nothing"),
      .named "title" ⟨49, 54⟩ (some (.literal ⟨55, 61⟩ (.string "Last")))]
    let mentioned := [[("title", .string "First")], [("size", .null), ("open", .null)],
      [("open", .bool true)], [], [("title", .string "Last")]]
    List.Forall₂ (Attr.Mentions .plain .withOptions) attrs mentioned ∧
      ∃ props, (Environment.plain.run (evalAttrs .plain attrs) .withOptions).1 = .ok props ∧
        props.keys = ["title", "size", "open"] ∧ props.get? "title" = some (.string "Last") ∧
        props.get? "open" = some (.bool true) ∧
        ∃ bound, bindProps [{ name := "size" }] false props = .ok bound ∧
          bound.keys = ["size", "title", "open"] := by
  intro attrs mentioned
  have hmentions : List.Forall₂ (Attr.Mentions .plain .withOptions) attrs mentioned :=
    .cons (.named rfl) (.cons (.spread rfl) (.cons .bare (.cons (.nothing rfl)
      (.cons (.named rfl) .nil))))
  obtain ⟨props, hprops, hkeys, -, hget, hbind⟩ := Environment.last_attribute_wins hmentions
  have hshown : props = [("title", .string "Last"), ("size", .null), ("open", .bool true)] :=
    Except.ok.inj (hprops.symm.trans rfl)
  have hbound : bindProps [{ name := "size" }] false props =
      .ok [("size", .null), ("title", .string "Last"), ("open", .bool true)] := by
    rw [hshown]
    rfl
  refine ⟨hmentions, props, hprops, hkeys.trans (by decide), hget "title", hget "open", _, hbound,
    (hbind _ _ _ hbound).1.trans ?_⟩
  rw [hshown]
  decide

end SlotTemplates
