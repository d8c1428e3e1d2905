import SlotTemplates.Json.Value
import SlotTemplates.Text.Span

/-!
# Expressions and attributes

The trees that `{{ … }}` and tag arguments stand for. Every expression knows the range of
source that it was read from; `Expr.shift` moves all ranges of a tree at once, and
`Expr.unplaced` forgets them, which leaves the tree that two sources have in common.
-/

namespace SlotTemplates

/-- An expression. -/
inductive Expr where
  | literal (span : Span) (value : Value)
  | var (span : Span) (name : String)
  | list (span : Span) (items : List Expr)
  | map (span : Span) (entries : List (String × Expr))
  | attr (span : Span) (base : Expr) (name : String)
  | index (span : Span) (base : Expr) (position : Expr)
  | call (span : Span) (name : String) (nameSpan : Span) (args : List Expr)
  | concat (span : Span) (left right : Expr)
  | coalesce (span : Span) (left right : Expr)
deriving Repr, Inhabited

/-- What a tag passes to a component: a named value, a bare name, or the members of a map. -/
inductive Attr where
  | named (name : String) (nameSpan : Span) (value : Option Expr)
  | spread (value : Expr)
deriving Repr, Inhabited

namespace Expr

/-- The range of source that an expression was read from. -/
def span : Expr → Span
  | .literal s _ | .var s _ | .list s _ | .map s _ | .attr s _ _ | .index s _ _
  | .call s _ _ _ | .concat s _ _ | .coalesce s _ _ => s

mutual

/-- The expression with `f` applied to every range in it. -/
def mapSpans (f : Span → Span) : Expr → Expr
  | .literal s v => .literal (f s) v
  | .var s name => .var (f s) name
  | .list s items => .list (f s) (mapSpansList f items)
  | .map s entries => .map (f s) (mapSpansEntries f entries)
  | .attr s base name => .attr (f s) (mapSpans f base) name
  | .index s base position => .index (f s) (mapSpans f base) (mapSpans f position)
  | .call s name nameSpan args => .call (f s) name (f nameSpan) (mapSpansList f args)
  | .concat s left right => .concat (f s) (mapSpans f left) (mapSpans f right)
  | .coalesce s left right => .coalesce (f s) (mapSpans f left) (mapSpans f right)

/-- `mapSpans` on every expression of a list. -/
def mapSpansList (f : Span → Span) : List Expr → List Expr
  | [] => []
  | e :: rest => mapSpans f e :: mapSpansList f rest

/-- `mapSpans` on every value of the entries of a map. -/
def mapSpansEntries (f : Span → Span) : List (String × Expr) → List (String × Expr)
  | [] => []
  | (key, e) :: rest => (key, mapSpans f e) :: mapSpansEntries f rest

end

/-- The expression as read from a source that has `offset` more bytes in front. -/
def shift (offset : Nat) : Expr → Expr := mapSpans (Span.shift offset)

/-- The expression without its places. -/
def unplaced : Expr → Expr := mapSpans fun _ => ⟨0, 0⟩

end Expr

namespace Attr

/-- The attribute with `f` applied to every range in it. -/
def mapSpans (f : Span → Span) : Attr → Attr
  | .named name nameSpan value => .named name (f nameSpan) (value.map (Expr.mapSpans f))
  | .spread value => .spread (value.mapSpans f)

/-- The attribute as read from a source that has `offset` more bytes in front. -/
def shift (offset : Nat) : Attr → Attr := mapSpans (Span.shift offset)

/-- The attribute without its places. -/
def unplaced : Attr → Attr := mapSpans fun _ => ⟨0, 0⟩

end Attr

end SlotTemplates
