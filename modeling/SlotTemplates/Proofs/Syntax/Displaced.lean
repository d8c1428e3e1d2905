import SlotTemplates.Proofs.Syntax.Conservation
import SlotTemplates.Proofs.Syntax.Moving

/-!
# Segments at other places

Where segments stand matters to the places in their nodes alone. Segments that are the same as
others, each of them as much further as it may be (`Segment.Displaced`), are read as nodes that are
the same but for their places (`Parses.displaced`), if no tag is one of a host: a host may read off
a tag where it stands.

Unlike with a source that moves as a whole (`Parses.shift`) the two ends of a block need not move
alike. What a tag opens moves with it (`TagRule.Moves.opening`), and where the block ends is only a
place in the node (`TagRule.unplaced_node`).
-/

namespace SlotTemplates

/-! ## Trees without their places -/

namespace Expr

variable (f g : Span → Span)

mutual

theorem mapSpans_mapSpans : ∀ e : Expr, (e.mapSpans f).mapSpans g = e.mapSpans (g ∘ f)
  | .literal .. | .var .. => rfl
  | .list _ items => by simp only [mapSpans, mapSpansList_mapSpansList items, Function.comp]
  | .map _ entries => by
    simp only [mapSpans, mapSpansEntries_mapSpansEntries entries, Function.comp]
  | .attr _ base _ => by simp only [mapSpans, mapSpans_mapSpans base, Function.comp]
  | .index _ base position => by
    simp only [mapSpans, mapSpans_mapSpans base, mapSpans_mapSpans position, Function.comp]
  | .call _ _ _ args => by simp only [mapSpans, mapSpansList_mapSpansList args, Function.comp]
  | .concat _ left right | .coalesce _ left right => by
    simp only [mapSpans, mapSpans_mapSpans left, mapSpans_mapSpans right, Function.comp]

theorem mapSpansList_mapSpansList :
    ∀ items : List Expr, mapSpansList g (mapSpansList f items) = mapSpansList (g ∘ f) items
  | [] => rfl
  | e :: rest => by
    simp only [mapSpansList, mapSpans_mapSpans e, mapSpansList_mapSpansList rest]

theorem mapSpansEntries_mapSpansEntries : ∀ entries : List (String × Expr),
    mapSpansEntries g (mapSpansEntries f entries) = mapSpansEntries (g ∘ f) entries
  | [] => rfl
  | (key, e) :: rest => by
    simp only [mapSpansEntries, mapSpans_mapSpans e, mapSpansEntries_mapSpansEntries rest]

end

end Expr

theorem Attr.mapSpans_mapSpans (f g : Span → Span) (attr : Attr) :
    (attr.mapSpans f).mapSpans g = attr.mapSpans (g ∘ f) := by
  cases attr with
  | named name nameSpan value =>
    cases value <;> simp [mapSpans, Expr.mapSpans_mapSpans]
  | spread value => rw [mapSpans, mapSpans, Expr.mapSpans_mapSpans, mapSpans]

theorem ComponentName.mapSpans_mapSpans (f g : Span → Span) (name : ComponentName) :
    (name.mapSpans f).mapSpans g = name.mapSpans (g ∘ f) := by
  cases name with
  | literal => rfl
  | dynamic value => rw [mapSpans, mapSpans, Expr.mapSpans_mapSpans, mapSpans]

namespace Node

section
variable (f g : Span → Span)

mutual

theorem mapSpans_mapSpans : ∀ node : Node, (node.mapSpans f).mapSpans g = node.mapSpans (g ∘ f)
  | .text .. => rfl
  | .output _ e => by simp only [mapSpans, Expr.mapSpans_mapSpans, Function.comp]
  | .component _ name attrs body slots => by
    simp only [mapSpans, ComponentName.mapSpans_mapSpans, List.map_map,
      mapSpansList_mapSpansList body, mapSpansSlots_mapSpansSlots slots]
    exact congrArg (component _ _ · _ _) (List.map_congr_left fun a _ => a.mapSpans_mapSpans f g)
  | .slot head body => by
    simp only [mapSpans, mapSpansList_mapSpansList body]
    rfl

theorem mapSpansList_mapSpansList :
    ∀ nodes : List Node, mapSpansList g (mapSpansList f nodes) = mapSpansList (g ∘ f) nodes
  | [] => rfl
  | node :: rest => by
    simp only [mapSpansList, mapSpans_mapSpans node, mapSpansList_mapSpansList rest]

theorem mapSpansSlots_mapSpansSlots : ∀ slots : List (SlotHead × List Node),
    mapSpansSlots g (mapSpansSlots f slots) = mapSpansSlots (g ∘ f) slots
  | [] => rfl
  | (head, body) :: rest => by
    simp only [mapSpansSlots, mapSpansList_mapSpansList body, mapSpansSlots_mapSpansSlots rest]
    rfl

end

end

/-- Moving a node changes its places alone. -/
theorem unplaced_shift (offset : Nat) (node : Node) :
    (node.shift offset).unplaced = node.unplaced :=
  node.mapSpans_mapSpans ..

theorem map_unplaced_shift (offset : Nat) (nodes : List Node) :
    (nodes.map (shift offset)).map unplaced = nodes.map unplaced := by
  rw [List.map_map]
  exact List.map_congr_left fun node _ => node.unplaced_shift offset

end Node

/-! ## Displaced segments -/

/-- A tag that stands somewhere else, with what is read in it as much further as its arguments. -/
inductive Tag.Displaced (t : Tag) : Tag → Prop where
  | mk (offset : Nat) (span : Span) : Displaced t { t.shift offset with span }

/-- A segment that stands somewhere else, with what is read in it at least as far behind. -/
inductive Segment.Displaced : Segment → Segment → Prop where
  | text {content} (span moved : Span) : Displaced (.text span content) (.text moved content)
  | output {inner source} (span moved : Span) (offset : Nat) :
    Displaced (.output span inner source) (.output moved (inner.shift offset) source)
  | tag {t t' : Tag} (h : t.Displaced t') : Displaced (.tag t) (.tag t')

namespace Segment

theorem Displaced.shift (offset : Nat) (segment : Segment) :
    segment.Displaced (segment.shift offset) := by
  cases segment with
  | text => exact .text ..
  | output => exact .output ..
  | tag t => exact .tag (.mk offset (t.span.shift offset))

theorem Displaced.refl (segment : Segment) : segment.Displaced segment := by
  have hshift : segment.shift 0 = segment := by cases segment <;> rfl
  have hmoved := Displaced.shift 0 segment
  rwa [hshift] at hmoved

section
variable {tags : TagSet} {kind : String} {segment moved : Segment}

theorem Displaced.balance_eq (h : segment.Displaced moved) :
    moved.balance tags kind = segment.balance tags kind := by
  cases h with
  | text | output => rfl
  | tag h =>
    cases h
    rfl

end

end Segment

section
variable {tags : TagSet} {kind : String} {depth : Nat}
  {segments inside after all : List Segment} {close t t' : Tag}

/-- A block ends at the same segment wherever the segments stand. -/
theorem splitBlock_displaced (hall : List.Forall₂ Segment.Displaced segments all)
    (h : splitBlock tags kind depth segments = some (inside, close, after)) :
    ∃ inside' close' after', splitBlock tags kind depth all = some (inside', close', after') ∧
      List.Forall₂ Segment.Displaced inside inside' ∧ close.Displaced close' ∧
      List.Forall₂ Segment.Displaced after after' := by
  induction hall generalizing depth inside with
  | nil => cases h
  | @cons segment moved rest others hmoved hrest ih =>
    -- the block ends behind the first segment, at whatever depth it is sought there
    have behind {depth' : Nat}
        (hfound : inFrontOf [segment] (splitBlock tags kind depth' rest) =
          some (inside, close, after))
        (hsame : splitBlock tags kind depth (moved :: others) =
          inFrontOf [moved] (splitBlock tags kind depth' others)) :
        ∃ inside' close' after',
          splitBlock tags kind depth (moved :: others) = some (inside', close', after') ∧
          List.Forall₂ Segment.Displaced inside inside' ∧ close.Displaced close' ∧
          List.Forall₂ Segment.Displaced after after' := by
      obtain ⟨⟨more, _, _⟩, hmore, heq⟩ := Option.map_eq_some_iff.1 hfound
      cases heq
      obtain ⟨inside', close', after', hothers, hinside, hclose, hafter⟩ := ih hmore
      exact ⟨moved :: inside', close', after', by rw [hsame, hothers]; rfl, .cons hmoved hinside,
        hclose, hafter⟩
    have hbalance : moved.balance tags kind = segment.balance tags kind := hmoved.balance_eq
    cases hsegment : segment.balance tags kind with
    | none =>
      rw [splitBlock_none hsegment] at h
      exact behind h (splitBlock_none (hbalance.trans hsegment))
    | opens =>
      rw [splitBlock_opens hsegment] at h
      exact behind h (splitBlock_opens (hbalance.trans hsegment))
    | closes =>
      cases depth with
      | succ depth =>
        rw [splitBlock_closes_inside hsegment] at h
        exact behind h (splitBlock_closes_inside (hbalance.trans hsegment))
      | zero =>
        cases hmoved with
        | text | output => cases hsegment
        | tag hclose =>
          rw [splitBlock_closes hsegment] at h
          cases h
          exact ⟨[], _, others, splitBlock_closes (hbalance.trans hsegment), .nil, hclose, hrest⟩

/-! ## Nodes of displaced segments -/

/-- Which tags close what is open is said by their heads. -/
theorem Opening.closedBy_displaced (opening : Opening) (h : t.Displaced t') :
    opening.closedBy t' = opening.closedBy t := by
  cases h
  cases opening <;> rfl

namespace TagRule

variable {rule : TagRule} {opening : Opening}

/-- A tag is read without regard to where it ends. -/
theorem opening_span (hown : rule.isOwn = true) (h : rule.opening t = .ok opening) (span : Span) :
    rule.opening { t with span } = .ok opening := by
  cases rule with
  | component keyword names =>
    simp only [TagRule.opening, invocation] at h ⊢
    split at h
    · split at h
      · cases h
      · exact h
    · split at h
      · cases h
      · next hargs => exact (if_neg hargs).trans h
  | slot => exact h
  | host => cases hown

/-- Nodes that are the same but for their places, and wherever they stand, are in nodes that are the
same but for theirs. -/
theorem unplaced_node (hown : rule.isOwn = true) (h : rule.opening t = .ok opening)
    (span span' : Span) {nodes nodes' : List Node}
    (hnodes : nodes'.map Node.unplaced = nodes.map Node.unplaced) :
    (opening.node span' nodes').unplaced = (opening.node span nodes).unplaced := by
  unfold Node.unplaced at hnodes ⊢
  cases rule with
  | component keyword names =>
    obtain ⟨name, attrs, rfl⟩ := invocation_eq_ok h
    simp only [Opening.node, Node.mapSpans, mapSpansNodes_eq_map, mapSpansSlots_eq_map,
      ← Opening.contentOf_map, ← Opening.slotsOf_map, hnodes]
  | slot =>
    obtain ⟨⟨name, nameSpan⟩, -, rfl⟩ := map_eq_ok_iff.1 h
    simp only [Opening.node, Node.mapSpans, mapSpansNodes_eq_map, hnodes]
    rfl
  | host => cases hown

/-- A displaced tag opens what makes the same nodes but for their places. -/
theorem opening_displaced (hown : rule.isOwn = true) (h : rule.opening t = .ok opening)
    (ht : t.Displaced t') :
    ∃ opening', rule.opening t' = .ok opening' ∧ opening'.takesBody = opening.takesBody ∧
      (∀ close close' : Tag, close.Displaced close' →
        opening'.closedBy close' = opening.closedBy close) ∧
      ∀ span span' nodes nodes', nodes'.map Node.unplaced = nodes.map Node.unplaced →
        (opening'.node span' nodes').unplaced = (opening.node span nodes).unplaced := by
  obtain ⟨offset, place⟩ := ht
  have hmoves : rule.Moves := by
    cases rule with
    | component | slot => trivial
    | host => cases hown
  obtain ⟨moved, hopening, hmoved⟩ := hmoves.opening offset h
  refine ⟨moved, opening_span hown hopening place, hmoved.takesBody, fun close close' hclose => ?_,
    fun span span' nodes nodes' hnodes => ?_⟩
  · have hshift : close.Displaced (close.shift offset) := .mk offset (close.span.shift offset)
    rw [← hmoved.closedBy, moved.closedBy_displaced hshift, moved.closedBy_displaced hclose]
  · calc (moved.node span' nodes').unplaced
      _ = (moved.node (span.shift offset) (nodes.map (Node.shift offset))).unplaced :=
        unplaced_node hown hopening _ _ (hnodes.trans (Node.map_unplaced_shift offset nodes).symm)
      _ = ((opening.node span nodes).shift offset).unplaced := by rw [hmoved.node]
      _ = (opening.node span nodes).unplaced := Node.unplaced_shift ..

end TagRule

/-- Displaced segments are read as nodes that are the same but for their places. -/
theorem Parses.displaced (hown : tags.IsOwn) {nodes : List Node} (h : Parses tags segments nodes)
    (hall : List.Forall₂ Segment.Displaced segments all) :
    ∃ found, Parses tags all found ∧ found.map Node.unplaced = nodes.map Node.unplaced := by
  induction h generalizing all with
  | nil =>
    cases hall
    exact ⟨[], .nil, rfl⟩
  | text _ ih =>
    cases hall with
    | cons hfirst hothers =>
    cases hfirst
    obtain ⟨found, hfound, hsame⟩ := ih hothers
    exact ⟨_, .text hfound, congrArg (Node.text ⟨0, 0⟩ _ :: ·) hsame⟩
  | @output span inner source value rest nodes hvalue _ ih =>
    cases hall with
    | cons hfirst hothers =>
    cases hfirst with
    | output _ place offset =>
    obtain ⟨found, hfound, hsame⟩ := ih hothers
    refine ⟨_, .output (parseExpr_shift hvalue offset) hfound, ?_⟩
    have hmoved : (Node.output place (value.shift offset)).unplaced =
        (Node.output span value).unplaced :=
      congrArg (Node.output ⟨0, 0⟩) (value.mapSpans_mapSpans ..)
    rw [List.map_cons, List.map_cons, hmoved, hsame]
  | @alone t rule opening rest nodes hopens hrule hopening hbare _ ih =>
    cases hall with
    | cons hfirst hothers =>
    cases hfirst with
    | @tag _ t' ht =>
    obtain ⟨opening', hopening', htakes, -, hnode⟩ :=
      TagRule.opening_displaced (hown rule (TagSet.rule?_mem hrule)) hopening ht
    obtain ⟨found, hfound, hsame⟩ := ih hothers
    refine ⟨opening'.node t'.span [] :: found, ?_, ?_⟩
    · cases ht
      exact .alone hopens hrule hopening' (by rw [htakes]; exact hbare) hfound
    · rw [List.map_cons, List.map_cons, hnode t.span t'.span [] [] rfl, hsame]
  | @block t rule opening rest inside close after inner nodes hopens hrule hopening hbare hblock _
      hclose _ ihinside ihafter =>
    cases hall with
    | cons hfirst hothers =>
    cases hfirst with
    | @tag _ t' ht =>
    obtain ⟨opening', hopening', htakes, hcloses, hnode⟩ :=
      TagRule.opening_displaced (hown rule (TagSet.rule?_mem hrule)) hopening ht
    obtain ⟨inside', close', after', hblock', hinside, hclose', hafter⟩ :=
      splitBlock_displaced hothers hblock
    obtain ⟨inner', hinner, hsameInner⟩ := ihinside hinside
    obtain ⟨found, hfound, hsame⟩ := ihafter hafter
    refine ⟨opening'.node (t'.span.through close'.span) inner' :: found, ?_, ?_⟩
    · cases ht
      exact .block hopens hrule hopening' (by rw [htakes]; exact hbare) hblock' hinner
        ((hcloses close close' hclose').trans hclose) hfound
    · rw [List.map_cons, List.map_cons,
        hnode (t.span.through close.span) (t'.span.through close'.span) inner inner' hsameInner,
        hsame]

end

end SlotTemplates
