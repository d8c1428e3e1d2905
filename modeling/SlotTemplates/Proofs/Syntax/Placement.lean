import SlotTemplates.Proofs.Syntax.Spans

/-!
# Where nodes stand

A node is *placed* in a source (`Node.Placed`) if what stands in it stands in its range, one behind
the other, down to the names in its expressions, and if a text is what the source has at its place.
The nodes of a template that compiles are placed (`Template.compile_placed`).

Nodes are placed block by block (`Block.IsNode.placed`). An invocation's body and its slots are
parts of what stands between its tags: each of them is in order, although the slots of the default
content have left the body, and the nodes in them have come in their place.
-/

namespace SlotTemplates

/-- The expressions in the name of a component. -/
def ComponentName.values : ComponentName → List Expr
  | .literal _ => []
  | .dynamic value => [value]

/-- The places of what the opening tag of an invocation holds. -/
def ComponentName.placesWith (name : ComponentName) (attrs : List Attr) : List Span :=
  name.values.map Expr.span ++ attrs.flatMap Attr.places

/-- A node in a source with all that stands in it where its places say. Behind what the opening tag
holds there stand the nodes of the body, in order, and the slots, in order. -/
inductive Node.Placed (source : List Char) : Node → Prop where
  | text {span content} (hspan : span.start < span.stop)
    (hcontent : Stands 0 source span content.toList) : Placed source (.text span content)
  | output {span value} (hspan : span.start < span.stop)
    (hvalue : value.PlacedIn source span.start span.stop) : Placed source (.output span value)
  | component {span name attrs body slots} (hspan : span.start < span.stop)
    (hname : ∀ value ∈ name.values, value.Placed source)
    (hattrs : ∀ attr ∈ attrs, attr.Placed source)
    (harranged : Arranged span.start span.stop (name.placesWith attrs ++ body.map Node.span))
    (hbody : ∀ node ∈ body, Placed source node)
    (hslotsArranged :
      Arranged span.start span.stop (name.placesWith attrs ++ slots.map fun slot => slot.1.span))
    (hslots : ∀ slot ∈ slots, Placed source (.slot slot.1 slot.2)) :
    Placed source (.component span name attrs body slots)
  | slot {head body} (hspan : head.span.start < head.span.stop) (hname : head.NameStands source)
    (harranged : Arranged head.span.start head.span.stop (head.nameSpan :: body.map Node.span))
    (hbody : ∀ node ∈ body, Placed source node) : Placed source (.slot head body)

theorem Node.Placed.nonempty {source : List Char} {node : Node} (h : node.Placed source) :
    node.span.start < node.span.stop := by
  cases h <;> assumption

/-! ## Parts of what stands in a source -/

section
variable {claims : String → Bool} {pos : Nat} {source front text back written : List Char}
  {span : Span} {t : Tag}

/-- A part of what stands at a place stands there as far behind as there is in front of it. -/
theorem Stands.part (h : Stands pos source span (front ++ text ++ back)) :
    Stands pos source (Span.sized (span.start + byteLength front) (byteLength text)) text ∧
      span.start + byteLength front + byteLength text ≤ span.stop := by
  obtain ⟨before, after, rfl, rfl⟩ := h
  refine ⟨⟨before ++ front, back ++ after, by simp, ?_⟩, ?_⟩
  · simp only [Span.sized, byteLength_append, Nat.add_assoc]
  · simp only [Span.sized, byteLength_append]
    omega

/-- The source of an output stands between its braces. -/
theorem Segment.WrittenAs.output_stands {inner : Span}
    (h : (Segment.output span inner text).WrittenAs claims written)
    (hstands : Stands 0 source span written) :
    Stands 0 source inner text ∧ span.start ≤ inner.start ∧ inner.stop ≤ span.stop := by
  obtain ⟨rfl, rfl⟩ := h
  have hbraces : byteLength ['{', '{'] = 2 := by decide
  obtain ⟨hpart, hstop⟩ := hstands.part
  rw [hbraces] at hpart hstop
  exact ⟨hpart, Nat.le_add_right _ _, hstop⟩

/-- The arguments of a tag stand between its head and its end. -/
theorem Tag.WrittenAs.args_stand (h : t.WrittenAs claims written)
    (hstands : Stands 0 source t.span written) :
    Stands 0 source t.argsSpan t.args ∧ t.span.start ≤ t.argsSpan.start ∧
      t.argsSpan.stop ≤ t.span.stop := by
  obtain ⟨blanks, -, hwritten⟩ := h.text
  let front := '{' :: ((if t.closing then ['/'] else []) ++ t.head.toList)
  have hsplit : written =
      front ++ t.args ++ ((if t.selfClosing then ['/'] else []) ++ blanks ++ ['}']) := by
    rw [hwritten]
    simp [front, Scan.writtenTag]
  have hfront : t.span.start + byteLength front =
      t.span.start + 1 + (if t.closing then 1 else 0) + byteLength t.head.toList := by
    obtain ⟨hopen, -, hslash, -⟩ := delimiter_widths
    cases hclosing : t.closing <;> simp [front, hclosing, hopen, hslash] <;> omega
  rw [hsplit] at hstands
  obtain ⟨hpart, hstop⟩ := hstands.part
  rw [hfront] at hpart hstop
  rw [h.argsSpan]
  refine ⟨hpart, ?_, hstop⟩
  show t.span.start ≤ t.span.start + 1 + (if t.closing then 1 else 0) + byteLength t.head.toList
  omega

end

/-! ## Nodes of blocks -/

namespace Opening

variable {names : List String} {nodes : List Node} {node : Node} {slot : SlotHead × List Node}

/-- A node of the default content is one of the nodes, or stands in a slot among them. -/
theorem mem_contentOf (h : node ∈ contentOf names nodes) :
    node ∈ nodes ∨ ∃ head body, .slot head body ∈ nodes ∧ node ∈ body := by
  obtain ⟨around, haround, hmem⟩ := List.mem_flatMap.1 h
  cases around with
  | text | output | component =>
    rw [List.mem_singleton.1 hmem]
    exact .inl haround
  | slot head body =>
    dsimp only at hmem
    split at hmem
    · exact .inr ⟨head, body, haround, hmem⟩
    · cases hmem

/-- A captured slot is one of the nodes. -/
theorem mem_slotsOf (h : slot ∈ slotsOf names nodes) : .slot slot.1 slot.2 ∈ nodes := by
  obtain ⟨around, haround, hmem⟩ := List.mem_flatMap.1 h
  cases around with
  | text | output | component => cases hmem
  | slot head body =>
    dsimp only at hmem
    split at hmem
    · cases hmem
    · rw [List.mem_singleton.1 hmem]
      exact haround

variable {source : List Char}

theorem placed_contentOf (h : ∀ node ∈ nodes, node.Placed source) :
    ∀ node ∈ contentOf names nodes, node.Placed source := by
  intro node hmem
  rcases mem_contentOf hmem with hmem | ⟨head, body, hslot, hmem⟩
  · exact h node hmem
  · cases h _ hslot with
    | slot _ _ _ hbody => exact hbody node hmem

end Opening

section
variable {tags : TagSet} {claims : String → Bool} {source : List Char} {segments : List Segment}
  {blocks rest : Blocks} {block : Block} {nodes inner : List Node} {node : Node} {t : Tag}
  {lo hi first last : Nat}

/-- What the opening tag of an invocation holds stands in its arguments. -/
theorem invocation_placed {keyword : String} {names : List String} {name : ComponentName}
    {attrs : List Attr} (hargs : Stands 0 source t.argsSpan t.args)
    (h : TagRule.invocation keyword names t = .ok (.component keyword names name attrs)) :
    Arranged t.argsSpan.start t.argsSpan.stop (name.placesWith attrs) ∧
      (∀ value ∈ name.values, value.Placed source) ∧ ∀ attr ∈ attrs, attr.Placed source := by
  unfold TagRule.invocation at h
  split at h
  · split at h
    · cases h
    · obtain ⟨found, hfound, heq⟩ := map_eq_ok_iff.1 h
      cases heq
      obtain ⟨harranged, hattrs⟩ := parseAttrs_placed hargs hfound
      exact ⟨harranged, List.forall_mem_nil _, hattrs⟩
  · split at h
    · cases h
    · obtain ⟨⟨value, found⟩, hfound, heq⟩ := map_eq_ok_iff.1 h
      cases heq
      obtain ⟨harranged, hvalue, hattrs⟩ := parseDynamic_placed hargs hfound
      exact ⟨harranged, by simpa [ComponentName.values] using hvalue, hattrs⟩

/-- A block begins in a source as its first segment is written. -/
def Block.Begins (claims : String → Bool) (source : List Char) (block : Block) : Prop :=
  ∃ text, Stands 0 source block.first.span text ∧ block.first.WrittenAs claims text

/-- The arguments of the tag with which a block begins stand in it. -/
theorem Block.Begins.args_stand (h : block.Begins claims source) (hfirst : block.first = .tag t) :
    Stands 0 source t.argsSpan t.args ∧ block.span.start ≤ t.argsSpan.start ∧
      t.argsSpan.stop ≤ block.first.span.stop ∧ block.first.span.start < block.first.span.stop := by
  obtain ⟨text, hstands, hwritten⟩ := h
  have hspan := hstands.nonempty hwritten.ne_nil
  rw [← block.start_first]
  rw [hfirst] at hstands hwritten hspan ⊢
  obtain ⟨hargs, hstart, hstop⟩ := Tag.WrittenAs.args_stand hwritten hstands
  exact ⟨hargs, hstart, hstop, hspan⟩

/-- What stands in a block begins behind its first segment. -/
theorem Blocks.Spread.first_stop_le (h : (block.cons rest).Spread lo hi) :
    lo ≤ block.span.start ∧ (∃ first last, block.first.span.stop ≤ first ∧ first ≤ last ∧
      last ≤ block.span.stop ∧ block.inside.Spread first last) ∧
      rest.Spread block.span.stop hi := by
  cases block with
  | single segment =>
    obtain ⟨hlo, hle, hrest⟩ := h
    exact ⟨hlo, ⟨_, _, Nat.le_refl _, Nat.le_refl _, Nat.le_refl _, Nat.le_refl _⟩, hrest⟩
  | pair opened inside close =>
    obtain ⟨hlo, hopened, hinside, hclose, hrest⟩ := h
    exact ⟨hlo, ⟨_, _, Nat.le_refl _, hinside.le, hclose, hinside⟩, hrest⟩

/-- The node of a block is placed if what stands in the block is. -/
theorem Block.IsNode.placed (h : block.IsNode tags inner node) (hown : tags.IsOwn)
    (hbegins : block.Begins claims source) (hinner : tags.Makes block.inside inner)
    (hspread : block.inside.Spread first last) (hfirst : block.first.span.stop ≤ first)
    (hlast : last ≤ block.span.stop) (hplaced : ∀ node ∈ inner, node.Placed source) :
    node.Placed source := by
  have hle := hspread.le
  obtain ⟨hwithin, hparted⟩ := hinner.within hown hspread
  have hnonempty : ∀ node ∈ inner, node.span.start < node.span.stop := fun node hmem =>
    (hplaced node hmem).nonempty
  cases h with
  | @text span content =>
    obtain ⟨text, hstands, hwritten⟩ := hbegins
    obtain ⟨rfl, hne⟩ := hwritten
    refine .text (hstands.nonempty hne) ?_
    rw [String.toList_ofList]
    exact hstands
  | @output span innerSpan text value hvalue =>
    obtain ⟨written, hstands, hwritten⟩ := hbegins
    have hspan := hstands.nonempty hwritten.ne_nil
    obtain ⟨htext, hstart, hstop⟩ := hwritten.output_stands hstands
    exact .output hspan ((parseExpr_placed htext hvalue).mono hstart hstop)
  | @invocation _ t keyword names name attrs _ htag hrule hopening =>
    obtain ⟨hargs, hstart, hstop, hspan⟩ := hbegins.args_stand htag
    obtain ⟨hplaces, hname, hattrs⟩ := invocation_placed hargs hopening
    have hbody : Arranged first last ((Opening.contentOf names inner).map Node.span) := by
      refine ⟨(hparted names).1, List.forall_mem_map.2 fun other hmem => ?_⟩
      exact (Opening.placed_contentOf hplaced other hmem).nonempty
    have hslots : Arranged first last
        ((Opening.slotsOf names inner).map fun slot => slot.1.span) := by
      refine ⟨(hparted names).2, List.forall_mem_map.2 fun slot hmem => ?_⟩
      exact hnonempty _ (Opening.mem_slotsOf hmem)
    have hstartSpan := block.start_first
    have hhead := hplaces.mono hstart (hstop.trans hfirst)
    refine .component (by omega) hname hattrs ?_ (Opening.placed_contentOf hplaced) ?_ ?_
    · exact (hhead.append hbody (by omega) hle).mono (Nat.le_refl _) hlast
    · exact (hhead.append hslots (by omega) hle).mono (Nat.le_refl _) hlast
    · exact fun slot hmem => hplaced _ (Opening.mem_slotsOf hmem)
  | @slot _ t keyword name nameSpan _ htag hrule hname =>
    obtain ⟨hargs, hstart, hstop, hspan⟩ := hbegins.args_stand htag
    obtain ⟨hlo, hnameSpan, hhi, hstands⟩ := parseSlotName_placed hargs hname
    have hstartSpan := block.start_first
    have hbody : Arranged first last (inner.map Node.span) :=
      ⟨hwithin, List.forall_mem_map.2 hnonempty⟩
    have hbehind : nameSpan.stop ≤ first := by omega
    refine .slot (show block.span.start < block.span.stop by omega) hstands ?_ hplaced
    exact .cons (hstart.trans hlo) hnameSpan (hbody.mono hbehind hlast)
      (hbehind.trans (hle.trans hlast))

/-- Nodes are placed where their blocks begin as they are written. -/
theorem TagSet.Makes.placed (hown : tags.IsOwn) (h : tags.Makes blocks nodes) :
    ∀ {lo hi}, blocks.Spread lo hi → (∀ block ∈ blocks.deep, block.Begins claims source) →
      ∀ node ∈ nodes, node.Placed source := by
  induction blocks, nodes, h using byBlock hown with
  | nil => exact fun _ _ => nofun
  | @cons block inner node rest nodes hnode hinner _ _ ihinside ihrest =>
    intro lo hi hspread hbegins
    obtain ⟨-, ⟨first, last, hfirst, -, hlast, hinside⟩, hrest⟩ := hspread.first_stop_le
    rw [Blocks.deep_cons] at hbegins
    obtain ⟨hblock, hmore⟩ := List.forall_mem_cons.1 hbegins
    obtain ⟨hbeginsInside, hbeginsRest⟩ := List.forall_mem_append.1 hmore
    have hplaced := ihinside hinside hbeginsInside
    exact List.forall_mem_cons.2 ⟨hnode.placed hown hblock hinner hinside hfirst hlast hplaced,
      ihrest hrest hbeginsRest⟩

/-- A template that compiles with the tags of components and slots alone points into its source:
its nodes stand in it, one behind the other, and each of them with all that stands in it is where
its places say. -/
theorem Template.compile_placed (hown : tags.IsOwn) {name source : String} {template : Template}
    (h : compile tags name source = .ok template) :
    Arranged 0 (byteLength source.toList) (template.nodes.map Node.span) ∧
      ∀ node ∈ template.nodes, node.Placed source.toList := by
  obtain ⟨segments, blocks, hscan, hbrackets, hmakes, -⟩ := compile_conserves hown h
  obtain ⟨pieces, htiles, rfl, hsource⟩ := exists_tiles hscan
  have hwithin : Within 0 (byteLength source.toList)
      ((pieces.filterMap Piece.segment).map Segment.span) := by
    refine ⟨fun _ _ => Nat.zero_le _, List.forall_mem_map.2 fun segment hmem => ?_,
      List.pairwise_map.2 htiles.ordered⟩
    rw [← hsource]
    simpa using htiles.stop_le segment hmem
  have hspread := hbrackets.spread hwithin (fun segment hmem => (htiles.nonempty segment hmem).le)
    (Nat.zero_le _)
  have hbegins : ∀ block ∈ blocks.deep, block.Begins tags.claims source.toList := by
    intro block hmem
    have hfirst : block.first ∈ pieces.filterMap Piece.segment := by
      have hmem := List.mem_map_of_mem (f := Block.first) hmem
      rw [hbrackets.firsts] at hmem
      exact (List.mem_filter.1 hmem).1
    rw [← hsource]
    exact htiles.stands _ hfirst
  have hplaced := hmakes.placed hown hspread hbegins
  exact ⟨⟨(hmakes.within hown hspread).1, List.forall_mem_map.2 fun node hmem =>
    (hplaced node hmem).nonempty⟩, hplaced⟩

end

/-- A computed name and an attribute behind it, a slot of the default content, one whose name is
quoted, and a character of two bytes before all of them. -/
theorem Template.compile_placed_dynamic :
    let tags : TagSet := [.component "x" ["main"], .slot "slot"]
    let source := "é{x f(a) k}{slot main}t{/slot}\x7bslot \"s\" /\x7d{/x}"
    tags.IsOwn ∧ ∃ template, Template.compile tags "page" source = .ok template ∧
      template.nodes.map Node.span = [⟨0, 2⟩, ⟨2, 47⟩] ∧
      Arranged 0 (byteLength source.toList) (template.nodes.map Node.span) ∧
      ∀ node ∈ template.nodes, node.Placed source.toList := by
  intro tags source
  have hown : tags.IsOwn := by simp [tags, TagSet.IsOwn, TagRule.isOwn]
  have hcompile : Template.compile tags "page" source = .ok ⟨"page", [.text ⟨0, 2⟩ "é",
      .component ⟨2, 47⟩ (.dynamic (.call ⟨5, 9⟩ "f" ⟨5, 6⟩ [.var ⟨7, 8⟩ "a"]))
        [.named "k" ⟨10, 11⟩ none] [.text ⟨23, 24⟩ "t"] [(⟨⟨31, 43⟩, "s", ⟨37, 40⟩⟩, [])]]⟩ := by
    cbv
  exact ⟨hown, _, hcompile, rfl, Template.compile_placed hown hcompile⟩

end SlotTemplates
