import SlotTemplates.Render.Eval

/-!
# Places do not matter to a render

Expressions and nodes say where they stand in their source, for diagnostics. What is computed from
them does not depend on it (`eval_mapSpans`, `renderNodes_mapSpans`): the computation is the same
one, so it asks for the same, and its outcome is the same from every state.
-/

namespace SlotTemplates

section
variable {env : Environment} (f : Span → Span)

mutual

/-- The value of an expression is the same wherever it stands. -/
theorem eval_mapSpans : ∀ e : Expr, eval env (e.mapSpans f) = eval env e
  | .literal .. | .var .. => rfl
  | .list _ items => by rw [Expr.mapSpans, eval, eval, evalList_mapSpans items]
  | .map _ entries => by rw [Expr.mapSpans, eval, eval, evalEntries_mapSpans entries]
  | .attr _ base _ => by rw [Expr.mapSpans, eval, eval, eval_mapSpans base]
  | .index _ base position => by
    rw [Expr.mapSpans, eval, eval, eval_mapSpans base, eval_mapSpans position]
  | .call _ name _ args => by rw [Expr.mapSpans, eval, eval, evalList_mapSpans args]
  | .concat _ left right => by
    rw [Expr.mapSpans, eval, eval, eval_mapSpans left, eval_mapSpans right]
  | .coalesce _ left right => by
    rw [Expr.mapSpans, eval, eval, eval_mapSpans left, eval_mapSpans right]

theorem evalList_mapSpans : ∀ es, evalList env (Expr.mapSpansList f es) = evalList env es
  | [] => rfl
  | e :: rest => by
    rw [Expr.mapSpansList, evalList, evalList, eval_mapSpans e, evalList_mapSpans rest]

theorem evalEntries_mapSpans : ∀ entries,
    evalEntries env (Expr.mapSpansEntries f entries) = evalEntries env entries
  | [] => rfl
  | (_, e) :: rest => by
    rw [Expr.mapSpansEntries, evalEntries, evalEntries, eval_mapSpans e, evalEntries_mapSpans rest]

end

theorem evalAttr_mapSpans (props : Entries Value) (attr : Attr) :
    evalAttr env props (attr.mapSpans f) = evalAttr env props attr := by
  cases attr with
  | spread e => rw [Attr.mapSpans, evalAttr, evalAttr, eval_mapSpans]
  | named name span value =>
    cases value with
    | none => rfl
    | some e => rw [Attr.mapSpans, Option.map_some, evalAttr, evalAttr, eval_mapSpans]

theorem evalAttrsFrom_mapSpans (props : Entries Value) (attrs : List Attr) :
    evalAttrsFrom env props (attrs.map (Attr.mapSpans f)) = evalAttrsFrom env props attrs := by
  induction attrs generalizing props with
  | nil => rfl
  | cons attr attrs ih =>
    simp only [List.map_cons, evalAttrsFrom, evalAttr_mapSpans, ih]

/-- The props that attributes make are the same wherever they stand. -/
theorem evalAttrs_mapSpans (attrs : List Attr) :
    evalAttrs env (attrs.map (Attr.mapSpans f)) = evalAttrs env attrs :=
  evalAttrsFrom_mapSpans f [] attrs

theorem evalName_mapSpans (name : ComponentName) :
    evalName env (name.mapSpans f) = evalName env name := by
  cases name with
  | literal name => rfl
  | dynamic e => rw [ComponentName.mapSpans, evalName, evalName, eval_mapSpans]

mutual

/-- The text of a node is the same wherever it stands. -/
theorem renderNode_mapSpans : ∀ node : Node,
    renderNode env (node.mapSpans f) = renderNode env node
  | .text .. => rfl
  | .output _ e => by rw [Node.mapSpans, renderNode, renderNode, eval_mapSpans]
  | .component _ name attrs body slots => by
    simp only [Node.mapSpans, renderNode, evalName_mapSpans, evalAttrs_mapSpans,
      renderNodes_mapSpans body, renderSlots_mapSpans slots]
  | .slot head body => by
    rw [Node.mapSpans, renderNode, renderNode, renderNodes_mapSpans body]
    rfl

theorem renderNodes_mapSpans : ∀ nodes,
    renderNodes env (Node.mapSpansList f nodes) = renderNodes env nodes
  | [] => rfl
  | node :: rest => by
    rw [Node.mapSpansList, renderNodes, renderNodes, renderNode_mapSpans node,
      renderNodes_mapSpans rest]

theorem renderSlots_mapSpans : ∀ (captured : List (SlotHead × List Node)) (slots : Entries String),
    renderSlots env slots (Node.mapSpansSlots f captured) = renderSlots env slots captured
  | [], _ => rfl
  | (head, body) :: rest, slots => by
    simp only [Node.mapSpansSlots, renderSlots, renderNodes_mapSpans body,
      renderSlots_mapSpans rest]
    rfl

end

end

end SlotTemplates
