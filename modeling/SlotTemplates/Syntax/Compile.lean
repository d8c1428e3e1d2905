import SlotTemplates.Syntax.TagRule

/-!
# Compiling templates

`Template.compile` turns a source into a tree of nodes under a set of tag rules, or into the
first error. `parseNodes` goes over the segments: an opening tag takes the segments up to the
closing tag that balances it among tags of its kind (`splitBlock`) as its body, and whatever
else stands in the body has to be balanced there.
-/

namespace SlotTemplates

/-- A tag's part in balancing a kind: none, opening, or closing. -/
inductive Balance where
  | none
  | opens
  | closes
deriving DecidableEq, Repr

/-- The part of a segment in balancing a kind. -/
def Segment.balance (tags : TagSet) (kind : String) : Segment → Balance
  | .tag t =>
    match tags.rule? t.head with
    | some rule =>
      if rule.kind ≠ kind then .none
      else if t.closing then .closes
      else if t.selfClosing then .none
      else .opens
    | none => .none
  | _ => .none

/-- The segments before the closing tag that ends a block of a kind, that tag, and the
segments after it; `depth` counts the blocks of the kind that are open inside. -/
def splitBlock (tags : TagSet) (kind : String) (depth : Nat) :
    List Segment → Option (List Segment × Tag × List Segment)
  | [] => none
  | segment :: rest =>
    let inside (depth : Nat) :=
      (splitBlock tags kind depth rest).map fun (body, close, after) =>
        (segment :: body, close, after)
    match segment.balance tags kind, depth, segment with
    | .closes, 0, .tag close => some ([], close, rest)
    | .closes, depth, _ => inside (depth - 1)
    | .opens, depth, _ => inside (depth + 1)
    | .none, depth, _ => inside depth

theorem splitBlock_length {tags : TagSet} {kind : String} {depth : Nat}
    {segments body after : List Segment} {close : Tag}
    (h : splitBlock tags kind depth segments = some (body, close, after)) :
    body.length + after.length < segments.length := by
  induction segments generalizing depth body with
  | nil => cases h
  | cons segment rest ih =>
    have inner : ∀ d, ((splitBlock tags kind d rest).map fun (body, close, after) =>
          (segment :: body, close, after)) = some (body, close, after) →
        body.length + after.length < (segment :: rest).length := by
      intro d hd
      obtain ⟨⟨b, c, a⟩, hs, he⟩ := Option.map_eq_some_iff.1 hd
      cases he
      have := ih hs
      simp only [List.length_cons]
      omega
    unfold splitBlock at h
    dsimp only at h
    split at h
    · cases h
      simp
    · exact inner _ h
    · exact inner _ h
    · exact inner _ h

/-- The nodes of a sequence of segments, or the first error. -/
def parseNodes (tags : TagSet) (segments : List Segment) : Except SyntaxError (List Node) :=
  match segments with
  | [] => .ok []
  | .text span text :: rest =>
    (parseNodes tags rest).map (.text span (String.ofList text) :: ·)
  | .output span inner source :: rest => do
    let value ← parseExpr inner.start source
    (parseNodes tags rest).map (.output span value :: ·)
  | .tag t :: rest =>
    if t.closing then .error { span := t.span, fault := .strayClosingTag t.display }
    else
      match tags.rule? t.head with
      | none => .error { span := t.span, fault := .unknownTag t.display }
      | some rule => do
        let opening ← rule.opening t
        if t.selfClosing || !opening.takesBody then
          (parseNodes tags rest).map (opening.node t.span [] :: ·)
        else
          match _h : splitBlock tags rule.kind 0 rest with
          | none => .error { span := t.span, fault := .unclosedTag t.display }
          | some (body, close, after) => do
            let nodes ← parseNodes tags body
            if opening.closedBy close then
              (parseNodes tags after).map (opening.node (t.span.through close.span) nodes :: ·)
            else
              .error { span := close.span, fault := .mismatchedClose close.display t.display }
termination_by segments.length
decreasing_by
  all_goals simp only [List.length_cons]
  · omega
  · omega
  · omega
  all_goals
    have := splitBlock_length (by assumption)
    omega

/-- The template of a source under a set of tag rules; `name` labels it in diagnostics. -/
def Template.compile (tags : TagSet) (name source : String) : Except SyntaxError Template := do
  let segments ← scan tags.claims source.toList
  let nodes ← parseNodes tags segments
  return { name, nodes }

end SlotTemplates
