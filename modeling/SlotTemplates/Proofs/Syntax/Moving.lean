import SlotTemplates.Proofs.Component.Header

/-!
# Sources that stand further

A template does not depend on where its source stands, but for its places. What the grammar reads
moves with the text that it is read from, and so do nodes with the segments that they are made of
(`Parses.shift`), if the tags of the host move with them (`TagRule.Moves`).

`Parses` is what it means that segments are read as nodes (`parseNodes_eq_ok_iff`), also where
there are tags of a host that take no body. Such tags count as opened where the end of a block is
looked for, so nodes can leave blocks of a kind open, but never close one that is not theirs
(`Parses.leavesOpen`).
-/

namespace SlotTemplates

/-- The node in a source that has `offset` more bytes in front. -/
def Node.shift (offset : Nat) : Node → Node := mapSpans (Span.shift offset)

/-- A rule reads a tag that stands further as the same tag, and makes the same node of it, as much
further. It is so for components and slots; a host says where its nodes are. -/
def TagRule.Moves : TagRule → Prop
  | .host _ _ _ read => ∀ offset t make, read t = .ok make →
    ∃ moved, read (t.shift offset) = .ok moved ∧ ∀ span nodes,
      moved (span.shift offset) (nodes.map (Node.shift offset)) = (make span nodes).shift offset
  | _ => True

/-- Segments are read as nodes. -/
inductive Parses (tags : TagSet) : List Segment → List Node → Prop where
  | nil : Parses tags [] []
  | text {span content rest nodes} (hrest : Parses tags rest nodes) :
    Parses tags (.text span content :: rest) (.text span (String.ofList content) :: nodes)
  | output {span inner source value rest nodes}
      (hvalue : parseExpr inner.start source = .ok value) (hrest : Parses tags rest nodes) :
    Parses tags (.output span inner source :: rest) (.output span value :: nodes)
  | alone {t rule opening rest nodes} (hopens : t.closing = false)
      (hrule : tags.rule? t.head = some rule) (hopening : rule.opening t = .ok opening)
      (hbare : (t.selfClosing || !opening.takesBody) = true) (hrest : Parses tags rest nodes) :
    Parses tags (.tag t :: rest) (opening.node t.span [] :: nodes)
  | block {t rule opening rest inside close after inner nodes} (hopens : t.closing = false)
      (hrule : tags.rule? t.head = some rule) (hopening : rule.opening t = .ok opening)
      (hbare : (t.selfClosing || !opening.takesBody) = false)
      (hfound : splitBlock tags rule.kind 0 rest = some (inside, close, after))
      (hinside : Parses tags inside inner) (hclose : opening.closedBy close = true)
      (hafter : Parses tags after nodes) :
    Parses tags (.tag t :: rest) (opening.node (t.span.through close.span) inner :: nodes)

section
variable {tags : TagSet} {segments : List Segment} {nodes : List Node}

theorem parses_of_parseNodes (h : parseNodes tags segments = .ok nodes) :
    Parses tags segments nodes := by
  fun_induction parseNodes tags segments generalizing nodes with
  | case1 =>
    cases h
    exact .nil
  | case2 span text rest ih =>
    obtain ⟨more, hmore, rfl⟩ := map_eq_ok_iff.1 h
    exact .text (ih hmore)
  | case3 span inner source rest ih =>
    obtain ⟨value, hvalue, h⟩ := bind_eq_ok_iff.1 h
    obtain ⟨more, hmore, rfl⟩ := map_eq_ok_iff.1 h
    exact .output hvalue (ih hmore)
  | case4 | case5 => cases h
  | case6 t rest hopens rule hrule ih ihbody ihafter =>
    have hopens : t.closing = false := by simpa using hopens
    obtain ⟨opening, hopening, h⟩ := bind_eq_ok_iff.1 h
    split at h
    · next hbare =>
      obtain ⟨more, hmore, rfl⟩ := map_eq_ok_iff.1 h
      exact .alone hopens hrule hopening hbare (ih hmore)
    next hbare =>
    split at h
    · cases h
    next inside close after hfound =>
    obtain ⟨inner, hinside, h⟩ := bind_eq_ok_iff.1 h
    split at h
    · next hclose =>
      obtain ⟨more, hmore, rfl⟩ := map_eq_ok_iff.1 h
      exact .block hopens hrule hopening (by simpa using hbare) hfound
        (ihbody _ _ _ hfound hinside) hclose (ihafter _ _ _ hfound hmore)
    · cases h

theorem Parses.parseNodes_eq (h : Parses tags segments nodes) :
    parseNodes tags segments = .ok nodes := by
  induction h with
  | nil => rw [parseNodes]
  | text _ ih => rw [parseNodes, ih]; rfl
  | output hvalue _ ih => rw [parseNodes, hvalue, ih]; rfl
  | alone hopens hrule hopening hbare _ ih =>
    simp only [parseNodes, hopens, hrule, hopening, bind, Except.bind, hbare, ih]
    rfl
  | block hopens hrule hopening hbare hfound _ hclose _ ihinside ihafter =>
    simp only [parseNodes, hopens, hrule, hopening, bind, Except.bind, hbare, Bool.false_eq_true,
      if_false]
    split
    · next hnone =>
      rw [hfound] at hnone
      cases hnone
    · next heq =>
      rw [hfound] at heq
      cases heq
      simp only [ihinside, hclose, ihafter]
      rfl

theorem parseNodes_eq_ok_iff : parseNodes tags segments = .ok nodes ↔ Parses tags segments nodes :=
  ⟨parses_of_parseNodes, Parses.parseNodes_eq⟩

end

/-! ## Blocks that are left open -/

/-- Where the end of a block of a kind is looked for, segments are passed over, and leave a number
of blocks open. -/
def LeavesOpen (tags : TagSet) (kind : String) (segments : List Segment) (extra : Nat) : Prop :=
  ∀ depth rest, splitBlock tags kind depth (segments ++ rest) =
    inFrontOf segments (splitBlock tags kind (depth + extra) rest)

section
variable {tags : TagSet} {kind : String} {segment : Segment}
  {segments more inside after : List Segment} {t close : Tag} {extra extra' : Nat}

namespace LeavesOpen

theorem nil : LeavesOpen tags kind [] 0 := fun depth rest => by
  cases hfound : splitBlock tags kind depth rest <;> simp [inFrontOf, hfound]

theorem single (h : segment.balance tags kind = .none) : LeavesOpen tags kind [segment] 0 :=
  fun _ _ => splitBlock_none h

theorem opened (h : segment.balance tags kind = .opens) : LeavesOpen tags kind [segment] 1 :=
  fun _ _ => splitBlock_opens h

theorem append (h : LeavesOpen tags kind segments extra)
    (hmore : LeavesOpen tags kind more extra') :
    LeavesOpen tags kind (segments ++ more) (extra + extra') := by
  intro depth rest
  rw [List.append_assoc, h, hmore, inFrontOf_append, Nat.add_assoc]

theorem closed (h : LeavesOpen tags kind segments (extra + 1))
    (hcloses : segment.balance tags kind = .closes) :
    LeavesOpen tags kind (segments ++ [segment]) extra := by
  intro depth rest
  rw [List.append_assoc, h, ← Nat.add_assoc, List.cons_append, splitBlock_closes_inside hcloses,
    inFrontOf_append, List.nil_append]

/-- Nothing is left open in a block that was found. -/
theorem eq_zero (h : LeavesOpen tags kind inside extra)
    (hcloses : (Segment.tag close).balance tags kind = .closes)
    (hfound : splitBlock tags kind 0 (inside ++ .tag close :: after) =
      some (inside, close, after)) :
    extra = 0 := by
  cases extra with
  | zero => rfl
  | succ extra =>
    rw [h, Nat.zero_add, splitBlock_closes_inside hcloses, inFrontOf_append] at hfound
    obtain ⟨⟨body, c, a⟩, -, heq⟩ := Option.map_eq_some_iff.1 hfound
    have hlength := congrArg (fun found => found.1.length) heq
    simp only [List.length_append, List.length_singleton] at hlength
    omega

/-- A block leaves open what is left open in it and behind it, and none of its own kind in it. -/
theorem block (hmatches : tags.Matches t close) (hkind : tags.kind? t = some kind)
    (hfound : splitBlock tags kind 0 (inside ++ .tag close :: after) = some (inside, close, after))
    (hinside : ∀ kind, ∃ extra, LeavesOpen tags kind inside extra) {other : String}
    (hafter : LeavesOpen tags other after extra) :
    ∃ extra, LeavesOpen tags other (.tag t :: (inside ++ .tag close :: after)) extra := by
  obtain ⟨_, hsame, hclose⟩ := hmatches.kind
  cases hkind.symm.trans hsame
  have hopened := Segment.balance_opened hmatches hkind other
  have hclosed := Segment.balance_close hmatches.closes hclose other
  obtain ⟨open', hopen⟩ := hinside other
  have hparts : Segment.tag t :: (inside ++ .tag close :: after) =
      ([.tag t] ++ inside ++ [.tag close]) ++ after := by simp
  rw [hparts]
  by_cases hother : kind = other
  · subst hother
    rw [if_pos rfl] at hopened hclosed
    obtain rfl := hopen.eq_zero hclosed hfound
    have hpair : LeavesOpen tags kind ([.tag t] ++ inside ++ [.tag close]) 0 :=
      ((LeavesOpen.opened hopened).append hopen).closed hclosed
    exact ⟨_, hpair.append hafter⟩
  · rw [if_neg hother] at hopened hclosed
    exact ⟨_, (((LeavesOpen.single hopened).append hopen).append (.single hclosed)).append hafter⟩

end LeavesOpen

/-- Segments that are nodes may leave blocks of a kind open. -/
theorem Parses.leavesOpen {nodes : List Node} (h : Parses tags segments nodes) (kind : String) :
    ∃ extra, LeavesOpen tags kind segments extra := by
  induction h generalizing kind with
  | nil => exact ⟨0, .nil⟩
  | text _ ih =>
    obtain ⟨extra, hrest⟩ := ih kind
    exact ⟨_, (LeavesOpen.single rfl).append hrest⟩
  | output _ _ ih =>
    obtain ⟨extra, hrest⟩ := ih kind
    exact ⟨_, (LeavesOpen.single rfl).append hrest⟩
  | @alone t rule opening rest nodes hopens hrule hopening hbare _ ih =>
    obtain ⟨extra, hrest⟩ := ih kind
    cases hbalance : (Segment.tag t).balance tags kind with
    | none => exact ⟨_, (LeavesOpen.single hbalance).append hrest⟩
    | opens => exact ⟨_, (LeavesOpen.opened hbalance).append hrest⟩
    | closes => cases hopens.symm.trans (Segment.closing_of_balance hbalance).1
  | @block t rule opening rest inside close after inner nodes hopens hrule hopening hbare hfound _ _
      _ ihinside ihafter =>
    obtain ⟨extra, hafter⟩ := ihafter kind
    obtain ⟨rfl, hcloses, hkind⟩ := splitBlock_eq_some hfound
    have hself : t.selfClosing = false := (Bool.or_eq_false_iff.1 hbare).1
    have hrulekind : tags.kind? t = some rule.kind := by rw [TagSet.kind?, hrule]; rfl
    exact LeavesOpen.block ⟨hopens, hself, hcloses, rule.kind, hrulekind, hkind⟩ hrulekind hfound
      ihinside hafter

/-- A closing tag behind segments that are nodes ends the block that they stand in, or none. -/
theorem Parses.splitBlock_close {nodes : List Node} (h : Parses tags segments nodes)
    (hcloses : (Segment.tag close).balance tags kind = .closes)
    {found : List Segment × Tag × List Segment}
    (hfound : splitBlock tags kind 0 (segments ++ [.tag close]) = some found) :
    found = (segments, close, []) := by
  obtain ⟨extra, hopen⟩ := h.leavesOpen kind
  rw [hopen, Nat.zero_add] at hfound
  cases extra with
  | zero =>
    rw [splitBlock_closes hcloses] at hfound
    simpa [inFrontOf] using hfound.symm
  | succ extra =>
    rw [splitBlock_closes_inside hcloses] at hfound
    cases hfound

end

/-! ## What is read further in a source -/

section
variable {pos : Nat} {s : List Char}

theorem parseAttrs_shift {attrs : List Attr} (h : parseAttrs pos s = .ok attrs) (offset : Nat) :
    parseAttrs (pos + offset) s = .ok (attrs.map (Attr.shift offset)) := by
  obtain ⟨lexemes, hlexes, hattrs⟩ := parseAttrs_eq_ok_iff.1 h
  have hmoved := ((tokenize_eq_ok_iff.1 hlexes).shift offset).tokenize_eq
  exact parseAttrs_eq_ok_iff.2 ⟨_, hmoved, hattrs.mapSpans (Span.shift_through offset)⟩

theorem parseDynamic_shift {name : Expr} {attrs : List Attr}
    (h : parseDynamic pos s = .ok (name, attrs)) (offset : Nat) :
    parseDynamic (pos + offset) s = .ok (name.shift offset, attrs.map (Attr.shift offset)) := by
  obtain ⟨lexemes, rest, hlexes, hname, hattrs⟩ := parseDynamic_eq_ok_iff.1 h
  have hmoved := ((tokenize_eq_ok_iff.1 hlexes).shift offset).tokenize_eq
  have hthrough := Span.shift_through offset
  exact parseDynamic_eq_ok_iff.2
    ⟨_, _, hmoved, hname.mapSpans hthrough, hattrs.mapSpans hthrough⟩

theorem parseSlotName_shift {name : String} {span : Span}
    (h : parseSlotName pos s = .ok (name, span)) (offset : Nat) :
    parseSlotName (pos + offset) s = .ok (name, span.shift offset) := by
  obtain ⟨lexemes, hlexes, hname⟩ := Grammar.run_eq_ok_iff.1 h
  have hmoved := ((tokenize_eq_ok_iff.1 hlexes).shift offset).tokenize_eq
  refine Grammar.run_eq_ok_iff.2 ⟨_, hmoved, ?_⟩
  unfold Grammar.slotName Grammar.finish at hname
  split at hname
  · split at hname <;> cases hname
    rfl
  · split at hname <;> cases hname
    rfl
  · cases hname

end

section
variable {tags : TagSet} {kind : String} {depth : Nat} {segments : List Segment} (offset : Nat)

theorem Segment.balance_shift (segment : Segment) :
    (segment.shift offset).balance tags kind = segment.balance tags kind := by
  cases segment <;> rfl

theorem splitBlock_shift :
    splitBlock tags kind depth (segments.map (Segment.shift offset)) =
      (splitBlock tags kind depth segments).map fun (inside, close, after) =>
        (inside.map (Segment.shift offset), close.shift offset,
          after.map (Segment.shift offset)) := by
  have front (segment : Segment) (found : Option (List Segment × Tag × List Segment)) :
      inFrontOf [segment.shift offset] (found.map fun (inside, close, after) =>
        (inside.map (Segment.shift offset), close.shift offset, after.map (Segment.shift offset))) =
      (inFrontOf [segment] found).map fun (inside, close, after) =>
        (inside.map (Segment.shift offset), close.shift offset,
          after.map (Segment.shift offset)) := by
    cases found <;> rfl
  induction segments generalizing depth with
  | nil => rfl
  | cons segment rest ih =>
    have hmoved : (segment.shift offset).balance tags kind = segment.balance tags kind :=
      segment.balance_shift offset
    rw [List.map_cons]
    cases hbalance : segment.balance tags kind with
    | none =>
      rw [splitBlock_none (hmoved.trans hbalance), splitBlock_none hbalance, ih, front]
    | opens =>
      rw [splitBlock_opens (hmoved.trans hbalance), splitBlock_opens hbalance, ih, front]
    | closes =>
      cases depth with
      | succ depth =>
        rw [splitBlock_closes_inside (hmoved.trans hbalance), splitBlock_closes_inside hbalance, ih,
          front]
      | zero =>
        cases segment with
        | text | output => cases hbalance
        | tag t =>
          rw [splitBlock_closes hbalance]
          exact splitBlock_closes (hmoved.trans hbalance)

end

/-! ## Nodes further in a source -/

/-- An opening tag that stands further. -/
structure Opening.Moved (offset : Nat) (opening moved : Opening) : Prop where
  takesBody : moved.takesBody = opening.takesBody
  closedBy : ∀ close : Tag, moved.closedBy (close.shift offset) = opening.closedBy close
  node : ∀ span nodes, moved.node (span.shift offset) (nodes.map (Node.shift offset)) =
    (opening.node span nodes).shift offset

section
variable {tags : TagSet} (offset : Nat)

theorem mapSpansNodes_eq_map (f : Span → Span) (nodes : List Node) :
    Node.mapSpansList f nodes = nodes.map (Node.mapSpans f) := by
  induction nodes with
  | nil => rfl
  | cons node nodes ih => rw [Node.mapSpansList, ih, List.map_cons]

theorem mapSpansSlots_eq_map (f : Span → Span) (slots : List (SlotHead × List Node)) :
    Node.mapSpansSlots f slots =
      slots.map fun (head, body) => (head.mapSpans f, body.map (Node.mapSpans f)) := by
  induction slots with
  | nil => rfl
  | cons slot slots ih =>
    obtain ⟨head, body⟩ := slot
    rw [Node.mapSpansSlots, ih, List.map_cons, mapSpansNodes_eq_map]

namespace Opening

theorem contentOf_map (f : Span → Span) (names : List String) (nodes : List Node) :
    contentOf names (nodes.map (Node.mapSpans f)) =
      (contentOf names nodes).map (Node.mapSpans f) := by
  rw [contentOf, contentOf, List.flatMap_map, List.map_flatMap]
  congr 1
  funext node
  cases node with
  | text | output | component => rfl
  | slot head body =>
    simp only [Node.mapSpans, SlotHead.mapSpans, mapSpansNodes_eq_map]
    split <;> rfl

theorem slotsOf_map (f : Span → Span) (names : List String) (nodes : List Node) :
    slotsOf names (nodes.map (Node.mapSpans f)) =
      (slotsOf names nodes).map fun (head, body) =>
        (head.mapSpans f, body.map (Node.mapSpans f)) := by
  rw [slotsOf, slotsOf, List.flatMap_map, List.map_flatMap]
  congr 1
  funext node
  cases node with
  | text | output | component => rfl
  | slot head body =>
    simp only [Node.mapSpans, SlotHead.mapSpans, mapSpansNodes_eq_map]
    split <;> rfl

theorem Moved.component (keyword : String) (names : List String) (name : ComponentName)
    (attrs : List Attr) :
    Moved offset (.component keyword names name attrs)
      (.component keyword names (name.mapSpans (Span.shift offset))
        (attrs.map (Attr.shift offset))) where
  takesBody := rfl
  closedBy close := by
    simp only [Opening.closedBy, Tag.shift]
    cases TagRule.literalName? keyword close.head <;> cases name <;> rfl
  node span nodes := by
    simp only [Opening.node, Node.shift, Node.mapSpans, contentOf_map, slotsOf_map,
      mapSpansNodes_eq_map, mapSpansSlots_eq_map]
    rfl

theorem Moved.slot (name : String) (span : Span) :
    Moved offset (.slot name span) (.slot name (span.shift offset)) where
  takesBody := rfl
  closedBy _ := rfl
  node span nodes := by
    simp only [Opening.node, Node.shift, Node.mapSpans, mapSpansNodes_eq_map]
    rfl

end Opening

/-- A tag that stands further is read as the same opening. -/
theorem TagRule.Moves.opening {rule : TagRule} (h : rule.Moves) {t : Tag} {opening : Opening}
    (hopening : rule.opening t = .ok opening) :
    ∃ moved, rule.opening (t.shift offset) = .ok moved ∧ opening.Moved offset moved := by
  cases rule with
  | component keyword names =>
    have hhead : (t.shift offset).head = t.head := rfl
    simp only [TagRule.opening, invocation, hhead] at hopening ⊢
    cases hliteral : literalName? keyword t.head with
    | some written =>
      rw [hliteral] at hopening
      cases hname : canonicalName? written with
      | none => simp [hname] at hopening
      | some name =>
        simp only [hname] at hopening ⊢
        obtain ⟨attrs, hattrs, rfl⟩ := map_eq_ok_iff.1 hopening
        exact ⟨_, map_eq_ok_iff.2 ⟨_, parseAttrs_shift hattrs offset, rfl⟩, .component ..⟩
    | none =>
      rw [hliteral] at hopening
      dsimp only at hopening ⊢
      split at hopening
      · cases hopening
      next hargs =>
      obtain ⟨⟨name, attrs⟩, hname, rfl⟩ := map_eq_ok_iff.1 hopening
      refine ⟨_, (if_neg hargs).trans ?_, .component ..⟩
      exact map_eq_ok_iff.2 ⟨_, parseDynamic_shift hname offset, rfl⟩
  | slot keyword =>
    obtain ⟨⟨name, span⟩, hname, rfl⟩ := map_eq_ok_iff.1 hopening
    exact ⟨_, map_eq_ok_iff.2 ⟨_, parseSlotName_shift hname offset, rfl⟩, .slot ..⟩
  | host heads kind takesBody read =>
    obtain ⟨make, hread, rfl⟩ := map_eq_ok_iff.1 hopening
    obtain ⟨moved, hmoved, hmake⟩ := h offset t make hread
    exact ⟨_, map_eq_ok_iff.2 ⟨_, hmoved, rfl⟩, ⟨rfl, fun _ => rfl, hmake⟩⟩

theorem TagSet.rule?_mem {head : String} {rule : TagRule} (h : tags.rule? head = some rule) :
    rule ∈ tags := List.mem_of_find?_eq_some h

/-- Segments that stand further are read as the same nodes, as much further. -/
theorem Parses.shift (htags : ∀ rule ∈ tags, rule.Moves) {segments : List Segment}
    {nodes : List Node} (h : Parses tags segments nodes) :
    Parses tags (segments.map (Segment.shift offset)) (nodes.map (Node.shift offset)) := by
  induction h with
  | nil => exact .nil
  | text _ ih => exact .text ih
  | output hvalue _ ih => exact .output (parseExpr_shift hvalue offset) ih
  | @alone t rule opening rest nodes hopens hrule hopening hbare _ ih =>
    obtain ⟨moved, hmoved, hsame⟩ :=
      (htags rule (TagSet.rule?_mem hrule)).opening offset hopening
    have hbare : (t.selfClosing || !moved.takesBody) = true := by rw [hsame.takesBody, hbare]
    rw [List.map_cons, List.map_cons, ← hsame.node t.span []]
    exact .alone hopens hrule hmoved hbare ih
  | @block t rule opening rest inside close after inner nodes hopens hrule hopening hbare hfound _
      hclose _ ihinside ihafter =>
    obtain ⟨moved, hmoved, hsame⟩ :=
      (htags rule (TagSet.rule?_mem hrule)).opening offset hopening
    have hbare : (t.selfClosing || !moved.takesBody) = false := by rw [hsame.takesBody, hbare]
    have hfound := (splitBlock_shift offset).trans (congrArg (Option.map _) hfound)
    have hclose : moved.closedBy (close.shift offset) = true := by rw [hsame.closedBy, hclose]
    have hspan : (t.span.through close.span).shift offset =
        (t.shift offset).span.through (close.shift offset).span := rfl
    rw [List.map_cons, List.map_cons, ← hsame.node, hspan]
    exact .block hopens hrule hmoved hbare hfound ihinside hclose ihafter

end

/-- The tags that stand for their own arguments move with their source, and so do blocks under a
head of their own. -/
theorem TagRule.moves_verbatim (head kind : String) :
    (verbatim head kind).Moves ∧ (block head kind).Moves := by
  constructor
  · rintro offset t make hread
    cases hread
    exact ⟨_, rfl, fun span nodes => rfl⟩
  · rintro offset t make hread
    cases hread
    refine ⟨_, rfl, fun span nodes => ?_⟩
    simp only [Node.shift, Node.mapSpans, mapSpansNodes_eq_map]
    rfl

end SlotTemplates
