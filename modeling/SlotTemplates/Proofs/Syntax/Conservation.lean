import SlotTemplates.Proofs.Syntax.Tiling

/-!
# Nothing is lost in compiling

The nodes of a template, at every depth and in the order of the source, are its texts, its outputs
and its opening tags, each once (`Template.compile_conserves`). Only slots that stand directly in an
invocation, under a name of its default content, have no node of their own: the nodes in them stand
in their place.

A block (`Block`) makes a node of the nodes that are made of what stands in it (`Block.IsNode`), and
this is the induction by which all is shown here (`TagSet.Makes.byBlock`). An invocation parts the
nodes inside it into a body and slots. What is collected from the two is what is collected from the
nodes before, less the slots that are spliced (`Node.allUnder_cons`), so blocks are listed by
listing what stands in each of them (`Listing.cons`).
-/

namespace SlotTemplates

/-! ## Blocks -/

/-- A text, an output or a self-closing tag, or two tags and what stands between them. -/
inductive Block where
  | single (segment : Segment)
  | pair (opened : Tag) (inside : Blocks) (close : Tag)

namespace Block

/-- The segment with which a block begins. -/
def first : Block → Segment
  | .single segment => segment
  | .pair opened _ _ => .tag opened

/-- The range of source that a block covers. -/
def span : Block → Span
  | .single segment => segment.span
  | .pair opened _ close => opened.span.through close.span

/-- What stands in a block. -/
def inside : Block → Blocks
  | .single _ => .nil
  | .pair _ inside _ => inside

/-- A block in front of others. -/
def cons (rest : Blocks) : Block → Blocks
  | .single segment => .single segment rest
  | .pair opened inside close => .pair opened inside close rest

/-- The rule of the tag with which a block begins. -/
def rule? (tags : TagSet) (block : Block) : Option TagRule :=
  match block.first with
  | .tag t => tags.rule? t.head
  | _ => none

/-- The names of the slots that stand for the default content of an invocation. -/
def contentNames (tags : TagSet) (block : Block) : List String :=
  match block.rule? tags with
  | some (.component _ names) => names
  | _ => []

/-- Whether a block is a slot under one of some names. -/
def isSlotOf (tags : TagSet) (names : List String) (block : Block) : Bool :=
  match block.first, block.rule? tags with
  | .tag t, some (.slot _) =>
    match parseSlotName t.argsSpan.start t.args with
    | .ok (name, _) => names.contains name
    | .error _ => false
  | _, _ => false

end Block

namespace Blocks

/-- The blocks of a row, without those that stand in others. -/
def direct : Blocks → List Block
  | .nil => []
  | .single segment rest => .single segment :: rest.direct
  | .pair opened inside close rest => .pair opened inside close :: rest.direct

/-- All blocks of a row, in the order in which they begin. -/
def deep : Blocks → List Block
  | .nil => []
  | .single segment rest => .single segment :: rest.deep
  | .pair opened inside close rest => .pair opened inside close :: (inside.deep ++ rest.deep)

end Blocks

/-- The slots that stand directly in an invocation and for its default content. -/
def Block.spliced (tags : TagSet) (block : Block) : List Block :=
  block.inside.direct.filter (isSlotOf tags (block.contentNames tags))

/-- Those of all invocations. -/
def Blocks.spliced (tags : TagSet) (blocks : Blocks) : List Block :=
  blocks.deep.flatMap (Block.spliced tags)

/-- A block makes a node of the nodes that are made of what stands in it. -/
inductive Block.IsNode (tags : TagSet) : Block → List Node → Node → Prop where
  | text {span content} :
    IsNode tags (.single (.text span content)) [] (.text span (String.ofList content))
  | output {span inner source value} (h : parseExpr inner.start source = .ok value) :
    IsNode tags (.single (.output span inner source)) [] (.output span value)
  | invocation {block t keyword names name attrs nodes} (hfirst : block.first = .tag t)
      (hrule : tags.rule? t.head = some (.component keyword names))
      (h : TagRule.invocation keyword names t = .ok (.component keyword names name attrs)) :
    IsNode tags block nodes (.component block.span name attrs (Opening.contentOf names nodes)
      (Opening.slotsOf names nodes))
  | slot {block t keyword name nameSpan nodes} (hfirst : block.first = .tag t)
      (hrule : tags.rule? t.head = some (.slot keyword))
      (h : parseSlotName t.argsSpan.start t.args = .ok (name, nameSpan)) :
    IsNode tags block nodes (.slot ⟨block.span, name, nameSpan⟩ nodes)

/-- A block makes a node of what stands in it. -/
def Block.Makes (tags : TagSet) (block : Block) (node : Node) : Prop :=
  ∃ inner, tags.Makes block.inside inner ∧ block.IsNode tags inner node

/-! ## All nodes -/

namespace Node

mutual

/-- A node and the nodes in it. -/
def all : Node → List Node
  | .text span content => [.text span content]
  | .output span value => [.output span value]
  | .component span name attrs body slots =>
    .component span name attrs body slots :: (allList body ++ allSlots slots)
  | .slot head body => .slot head body :: allList body

/-- Nodes and the nodes in them. -/
def allList : List Node → List Node
  | [] => []
  | node :: rest => all node ++ allList rest

/-- Captured slots and the nodes in them. -/
def allSlots : List (SlotHead × List Node) → List Node
  | [] => []
  | (head, body) :: rest => .slot head body :: (allList body ++ allSlots rest)

end

/-- Whether a node is a text or an output. -/
def isLeaf : Node → Bool
  | .text .. | .output .. => true
  | _ => false

/-- Whether a node is a slot under one of some names. -/
def isSlotOf (names : List String) : Node → Bool
  | .slot head _ => names.contains head.name
  | _ => false

/-- Nodes in the order in which they start. -/
def sorted (nodes : List Node) : List Node :=
  nodes.mergeSort fun a b => a.span.start ≤ b.span.start

/-- What is collected from the body and the slots of an invocation with some nodes inside. -/
def allUnder (names : List String) (nodes : List Node) : List Node :=
  allList (Opening.contentOf names nodes) ++ allSlots (Opening.slotsOf names nodes)

end Node

namespace Segment

/-- Whether a segment is a text or an output. -/
def isLeaf : Segment → Bool
  | .tag _ => false
  | _ => true

/-- Whether a segment is a closing tag. -/
def isClosing : Segment → Bool
  | .tag t => t.closing
  | _ => false

/-- The node of a text or an output. -/
inductive Shows : Segment → Node → Prop where
  | text {span content} : Shows (.text span content) (.text span (String.ofList content))
  | output {span inner source value} (h : parseExpr inner.start source = .ok value) :
    Shows (.output span inner source) (.output span value)

end Segment

/-- Whether a rule is that of components or that of slots. -/
def TagRule.isOwn : TagRule → Bool
  | .host .. => false
  | _ => true

/-- No tag of a set is one of a host. -/
def TagSet.IsOwn (tags : TagSet) : Prop := ∀ rule ∈ tags, rule.isOwn = true

/-- What nodes keep of the segments that they are made of. -/
structure Conserved (tags : TagSet) (segments : List Segment) (blocks : Blocks)
    (nodes : List Node) : Prop where
  /-- Blocks begin with all segments but the closing tags. -/
  firsts : blocks.deep.map Block.first = segments.filter fun segment => !segment.isClosing
  leaves : List.Forall₂ Segment.Shows (segments.filter Segment.isLeaf)
    (Node.sorted ((Node.allList nodes).filter Node.isLeaf))
  /-- Every block has one node, except the slots that stand for default content. -/
  kept : ∃ kept : List Block, kept.Sublist blocks.deep ∧
    blocks.deep.Perm (kept ++ blocks.spliced tags) ∧
    List.Forall₂ (Block.Makes tags) kept (Node.sorted (Node.allList nodes))
  /-- The nodes in a slot like that stand where it stood. -/
  spliced : ∀ block ∈ blocks.deep, ∀ slot ∈ block.spliced tags,
    ∃ name attrs before inner after slots,
      .component block.span name attrs (before ++ inner ++ after) slots ∈ Node.allList nodes ∧
        tags.Makes slot.inside inner ∧
        (∀ node ∈ before, node.span.stop ≤ slot.span.start) ∧
        ∀ node ∈ after, slot.span.stop ≤ node.span.start
  ordered : ∀ span name attrs body slots,
    .component span name attrs body slots ∈ Node.allList nodes →
      body.Pairwise (fun a b => a.span.stop ≤ b.span.start) ∧
        slots.Pairwise fun a b => a.1.span.stop ≤ b.1.span.start

section
variable {tags : TagSet} {segments : List Segment} {blocks rest : Blocks} {nodes inner : List Node}
  {block : Block} {node : Node} {names : List String}

/-! ## Rows of blocks -/

@[simp] theorem Blocks.direct_cons (block : Block) (rest : Blocks) :
    (block.cons rest).direct = block :: rest.direct := by
  cases block <;> rfl

@[simp] theorem Blocks.deep_cons (block : Block) (rest : Blocks) :
    (block.cons rest).deep = block :: (block.inside.deep ++ rest.deep) := by
  cases block <;> rfl

theorem Blocks.spliced_cons (tags : TagSet) (block : Block) (rest : Blocks) :
    (block.cons rest).spliced tags =
      block.spliced tags ++ (block.inside.spliced tags ++ rest.spliced tags) := by
  simp [spliced]

theorem Block.contentNames_component {t : Tag} {keyword : String} (hfirst : block.first = .tag t)
    (hrule : tags.rule? t.head = some (.component keyword names)) :
    block.contentNames tags = names := by
  simp only [contentNames, rule?, hfirst, hrule]

/-- Only invocations have default content. -/
theorem Block.contentNames_slot {t : Tag} {keyword : String} (hfirst : block.first = .tag t)
    (hrule : tags.rule? t.head = some (.slot keyword)) : block.contentNames tags = [] := by
  simp only [contentNames, rule?, hfirst, hrule]

theorem Block.start_first (block : Block) : block.first.span.start = block.span.start := by
  cases block <;> rfl

/-- Blocks begin with all segments but the closing tags. -/
theorem TagSet.Brackets.firsts (h : tags.Brackets segments blocks) :
    blocks.deep.map Block.first = segments.filter fun segment => !segment.isClosing := by
  induction h with
  | nil => rfl
  | @single segment rest blocks hsingle _ ih =>
    have hopens : segment.isClosing = false := by
      cases segment with
      | text | output => rfl
      | tag t => simp_all [Segment.isSingle, Segment.isClosing]
    simp [Blocks.deep, Block.first, hopens, ih]
  | pair hmatches _ _ ihbody ihrest =>
    have hopens : (Segment.tag _).isClosing = false := hmatches.opens
    have hcloses : (Segment.tag _).isClosing = true := hmatches.closes
    simp [Blocks.deep, Block.first, hopens, hcloses, ihbody, ihrest]

/-! ## Nodes of blocks -/

/-- A tag of a component makes an invocation. -/
theorem TagRule.invocation_eq_ok {keyword : String} {t : Tag} {opening : Opening}
    (h : invocation keyword names t = .ok opening) :
    ∃ name attrs, opening = .component keyword names name attrs := by
  unfold invocation at h
  split at h
  · split at h
    · cases h
    · obtain ⟨attrs, -, rfl⟩ := map_eq_ok_iff.1 h
      exact ⟨_, attrs, rfl⟩
  · split at h
    · cases h
    · obtain ⟨⟨name, attrs⟩, -, rfl⟩ := map_eq_ok_iff.1 h
      exact ⟨_, attrs, rfl⟩

namespace Block.IsNode

/-- An opening tag makes a node of the nodes inside it. -/
theorem of_opening (hown : tags.IsOwn) {t : Tag} {rule : TagRule} {opening : Opening}
    (hfirst : block.first = .tag t) (hrule : tags.rule? t.head = some rule)
    (hopening : rule.opening t = .ok opening) :
    block.IsNode tags inner (opening.node block.span inner) := by
  cases rule with
  | component keyword names =>
    rw [TagRule.opening] at hopening
    obtain ⟨name, attrs, rfl⟩ := TagRule.invocation_eq_ok hopening
    exact .invocation hfirst hrule hopening
  | slot keyword =>
    obtain ⟨⟨name, nameSpan⟩, hname, rfl⟩ := map_eq_ok_iff.1 hopening
    exact .slot hfirst hrule hname
  | host => cases hown _ (List.mem_of_find?_eq_some hrule)

theorem span_eq (h : block.IsNode tags inner node) : node.span = block.span := by
  cases h <;> rfl

/-- The slots are the nodes of slots. -/
theorem isSlotOf_eq (h : block.IsNode tags inner node) (names : List String) :
    block.isSlotOf tags names = node.isSlotOf names := by
  cases h with
  | text | output => rfl
  | invocation hfirst hrule => simp [Block.isSlotOf, Block.rule?, hfirst, hrule, Node.isSlotOf]
  | slot hfirst hrule h => simp [Block.isSlotOf, Block.rule?, hfirst, hrule, h, Node.isSlotOf]

/-- Texts and outputs are not slots. -/
theorem isLeaf_eq (h : block.IsNode tags inner node) : node.isLeaf = block.first.isLeaf := by
  cases h with
  | text | output => rfl
  | invocation hfirst => rw [hfirst]; rfl
  | slot hfirst => rw [hfirst]; rfl

end Block.IsNode

/-- Nodes are made of blocks one by one. -/
theorem TagSet.Makes.byBlock (hown : tags.IsOwn)
    {motive : (blocks : Blocks) → (nodes : List Node) → tags.Makes blocks nodes → Prop}
    (nil : motive .nil [] .nil)
    (cons : ∀ (block : Block) {inner node rest nodes} (_ : block.IsNode tags inner node)
      (hinner : tags.Makes block.inside inner) (hrest : tags.Makes rest nodes)
      (h : tags.Makes (block.cons rest) (node :: nodes)),
      motive block.inside inner hinner → motive rest nodes hrest →
      motive (block.cons rest) (node :: nodes) h)
    (h : tags.Makes blocks nodes) : motive blocks nodes h := by
  induction h with
  | nil => exact nil
  | @text span content rest nodes hrest ih =>
    exact cons (.single (.text span content)) .text .nil hrest _ nil ih
  | @output span inner source value rest nodes hvalue hrest ih =>
    exact cons (.single (.output span inner source)) (.output hvalue) .nil hrest _ nil ih
  | @tag t rule opening rest nodes hrule hopening hrest ih =>
    exact cons (.single (.tag t)) (.of_opening hown rfl hrule hopening) .nil hrest _ nil ih
  | @pair opened close rule opening body inside rest nodes hrule hopening _ _ hbody hrest ihbody
      ihrest =>
    exact cons (.pair opened body close) (.of_opening hown rfl hrule hopening) hbody hrest _ ihbody
      ihrest

/-! ## Collecting nodes -/

namespace Node

theorem allList_append (a b : List Node) : allList (a ++ b) = allList a ++ allList b := by
  induction a with
  | nil => rfl
  | cons node a ih => simp [allList, ih]

/-- What is collected from an invocation's nodes: a slot that is spliced is left out. -/
theorem allUnder_cons (names : List String) (node : Node) (nodes : List Node) :
    (allUnder names (node :: nodes)).Perm
      ((if node.isSlotOf names then node.all.tail else node.all) ++ allUnder names nodes) := by
  cases node with
  | text | output | component =>
    simp [allUnder, Opening.contentOf, Opening.slotsOf, isSlotOf, allList]
  | slot head body =>
    cases hname : names.contains head.name with
    | true =>
      simp only [allUnder, Opening.contentOf, Opening.slotsOf, isSlotOf, List.flatMap_cons, hname,
        if_true, allList_append, all, List.tail_cons, List.nil_append, List.append_assoc]
      exact .refl _
    | false =>
      simp only [allUnder, Opening.contentOf, Opening.slotsOf, isSlotOf, List.flatMap_cons, hname,
        Bool.false_eq_true, if_false, all, List.nil_append, List.cons_append, allSlots]
      exact List.perm_middle.trans (.cons _ (List.perm_append_comm_assoc _ _ _))

/-- If no slot is spliced, all is collected. -/
theorem allUnder_nil (nodes : List Node) : (allUnder [] nodes).Perm (allList nodes) := by
  induction nodes with
  | nil => exact .refl _
  | cons node nodes ih =>
    have hnot : node.isSlotOf [] = false := by cases node <;> rfl
    have hcons := allUnder_cons [] node nodes
    rw [hnot, if_neg Bool.false_ne_true] at hcons
    exact hcons.trans (ih.append_left _)

end Node

theorem Block.IsNode.all_perm (h : block.IsNode tags inner node) :
    node.all.tail.Perm (Node.allUnder (block.contentNames tags) inner) := by
  cases h with
  | text | output => exact .refl _
  | invocation hfirst hrule =>
    rw [contentNames_component hfirst hrule]
    exact .refl _
  | slot hfirst hrule =>
    rw [contentNames_slot hfirst hrule]
    exact (Node.allUnder_nil _).symm

theorem Node.all_eq_cons (node : Node) : node.all = node :: node.all.tail := by
  cases node <;> rfl

/-- Blocks and nodes in the order in which they begin: each of the blocks makes its node, the nodes
are all of some, and the blocks are all but the slots that are spliced. -/
structure Listing (tags : TagSet) (names : List String) (blocks : Blocks) (nodes : List Node)
    (kept : List Block) (listed : List Node) : Prop where
  made : List.Forall₂ (Block.Makes tags) kept listed
  collected : listed.Perm (Node.allUnder names nodes)
  sublist : kept.Sublist blocks.deep
  perm : blocks.deep.Perm
    (kept ++ (blocks.direct.filter (Block.isSlotOf tags names) ++ blocks.spliced tags))

/-- Of a block and the blocks that are kept in it and behind it, none is lost but those that are
spliced. -/
theorem Listing.perm_cons {keptIn keptRest direct : List Block}
    (hin : block.inside.deep.Perm (keptIn ++ (block.spliced tags ++ block.inside.spliced tags)))
    (hrest : rest.deep.Perm (keptRest ++ (direct ++ rest.spliced tags))) :
    (block.cons rest).deep.Perm
      (block :: (keptIn ++ keptRest ++ (direct ++ (block.cons rest).spliced tags))) := by
  classical
  rw [Blocks.deep_cons, Blocks.spliced_cons]
  refine List.Perm.cons block (List.perm_iff_count.2 fun other => ?_)
  have hcount := hin.count_eq other
  have hcountRest := hrest.count_eq other
  simp only [List.count_append] at hcount hcountRest ⊢
  omega

/-- The listing of a block, in front of others, is that of what stands in it, behind the block and
its node unless they are spliced. -/
theorem Listing.cons {keptIn keptRest : List Block} {listedIn listedRest : List Node}
    (hnode : block.IsNode tags inner node) (hinner : tags.Makes block.inside inner)
    (hin : Listing tags (block.contentNames tags) block.inside inner keptIn listedIn)
    (hrest : Listing tags names rest nodes keptRest listedRest) :
    ∃ kept listed, Listing tags names (block.cons rest) (node :: nodes) kept listed := by
  have hall := Node.allUnder_cons names node nodes
  have htail := hnode.all_perm
  have hsublist := hin.sublist.append hrest.sublist
  have hblocks := Listing.perm_cons hin.perm hrest.perm
  cases hslot : block.isSlotOf tags names with
  | true =>
    -- The block has no node, and what is listed in it comes in its place.
    rw [← hnode.isSlotOf_eq, hslot, if_pos rfl] at hall
    refine ⟨keptIn ++ keptRest, listedIn ++ listedRest, ?_, ?_, ?_, ?_⟩
    · exact List.rel_append hin.made hrest.made
    · exact ((hin.collected.trans htail.symm).append hrest.collected).trans hall.symm
    · rw [Blocks.deep_cons]
      exact hsublist.cons _
    · rw [Blocks.direct_cons, List.filter_cons_of_pos hslot]
      exact hblocks.trans List.perm_middle.symm
  | false =>
    rw [← hnode.isSlotOf_eq, hslot, if_neg Bool.false_ne_true, node.all_eq_cons] at hall
    refine ⟨block :: (keptIn ++ keptRest), node :: (listedIn ++ listedRest), ?_, ?_, ?_, ?_⟩
    · exact .cons ⟨inner, hinner, hnode⟩ (List.rel_append hin.made hrest.made)
    · exact (((hin.collected.trans htail.symm).append hrest.collected).cons node).trans hall.symm
    · rw [Blocks.deep_cons]
      exact hsublist.cons_cons _
    · rw [Blocks.direct_cons, List.filter_cons_of_neg (by simp [hslot])]
      exact hblocks

theorem TagSet.Makes.exists_listing (hown : tags.IsOwn) (h : tags.Makes blocks nodes) :
    ∀ names, ∃ kept listed, Listing tags names blocks nodes kept listed := by
  induction blocks, nodes, h using byBlock hown with
  | nil => exact fun names => ⟨[], [], .nil, .refl _, .slnil, .refl _⟩
  | cons block hnode hinner _ _ ihin ihrest =>
    intro names
    obtain ⟨keptIn, listedIn, hin⟩ := ihin (block.contentNames tags)
    obtain ⟨keptRest, listedRest, hrest⟩ := ihrest names
    exact hin.cons hnode hinner hrest

/-! ## Places -/

/-- Places between two bytes, one behind the other. -/
structure Within (lo hi : Nat) (spans : List Span) : Prop where
  start_le : ∀ span ∈ spans, lo ≤ span.start
  le_stop : ∀ span ∈ spans, span.stop ≤ hi
  ordered : spans.Pairwise fun a b => a.stop ≤ b.start

/-- Blocks stand between two bytes, and what stands in one between its tags. -/
def Blocks.Spread : Nat → Nat → Blocks → Prop
  | lo, hi, .nil => lo ≤ hi
  | lo, hi, .single segment rest =>
    lo ≤ segment.span.start ∧ segment.span.start ≤ segment.span.stop ∧
      rest.Spread segment.span.stop hi
  | lo, hi, .pair opened inside close rest =>
    lo ≤ opened.span.start ∧ opened.span.start ≤ opened.span.stop ∧
      inside.Spread opened.span.stop close.span.start ∧ close.span.start ≤ close.span.stop ∧
      rest.Spread close.span.stop hi

section
variable {lo mid hi : Nat} {spans more : List Span} {span : Span}

namespace Within

theorem nil (lo hi : Nat) : Within lo hi [] := ⟨nofun, nofun, .nil⟩

theorem single (span : Span) : Within span.start span.stop [span] :=
  ⟨by simp, by simp, List.pairwise_singleton _ _⟩

theorem mono {lo' hi' : Nat} (h : Within lo hi spans) (hlo : lo' ≤ lo) (hhi : hi ≤ hi') :
    Within lo' hi' spans :=
  ⟨fun span hmem => hlo.trans (h.start_le span hmem),
    fun span hmem => (h.le_stop span hmem).trans hhi, h.ordered⟩

theorem append (h : Within lo mid spans) (hmore : Within mid hi more) (hlo : lo ≤ mid)
    (hhi : mid ≤ hi) : Within lo hi (spans ++ more) where
  start_le := List.forall_mem_append.2
    ⟨h.start_le, fun span hmem => hlo.trans (hmore.start_le span hmem)⟩
  le_stop := List.forall_mem_append.2
    ⟨fun span hmem => (h.le_stop span hmem).trans hhi, hmore.le_stop⟩
  ordered := List.pairwise_append.2 ⟨h.ordered, hmore.ordered, fun a ha b hb =>
    (h.le_stop a ha).trans (hmore.start_le b hb)⟩

/-- What is behind a place between the two bytes, and before it. -/
theorem split (h : Within lo hi (spans ++ span :: more)) :
    Within lo span.start spans ∧ lo ≤ span.start ∧ span.stop ≤ hi ∧ Within span.stop hi more := by
  obtain ⟨hstart, hstop, hordered⟩ := h
  obtain ⟨hfront, hback, hbetween⟩ := List.pairwise_append.1 hordered
  obtain ⟨hfirst, hback⟩ := List.pairwise_cons.1 hback
  refine ⟨⟨?_, ?_, hfront⟩, hstart span (by simp), hstop span (by simp), hfirst, ?_, hback⟩
  · exact fun a ha => hstart a (by simp [ha])
  · exact fun a ha => hbetween a ha span List.mem_cons_self
  · exact fun b hb => hstop b (by simp [hb])

theorem tail (h : Within lo hi (span :: more)) :
    lo ≤ span.start ∧ span.stop ≤ hi ∧ Within span.stop hi more :=
  (split (show Within lo hi ([] ++ span :: more) from h)).2

end Within

/-- A row of blocks is a block in front of others, or none. -/
theorem Blocks.byBlock {motive : Blocks → Prop} (nil : motive .nil)
    (cons : ∀ (block : Block) (rest : Blocks), motive block.inside → motive rest →
      motive (block.cons rest)) (blocks : Blocks) : motive blocks := by
  induction blocks with
  | nil => exact nil
  | single segment rest ih => exact cons (.single segment) rest nil ih
  | pair opened inside close rest ihinside ihrest =>
    exact cons (.pair opened inside close) rest ihinside ihrest

namespace Blocks.Spread

theorem le (h : blocks.Spread lo hi) : lo ≤ hi := by
  induction blocks generalizing lo hi with
  | nil => exact h
  | single segment rest ih =>
    obtain ⟨hlo, hle, hrest⟩ := h
    exact (hlo.trans hle).trans (ih hrest)
  | pair opened inside close rest ihinside ihrest =>
    obtain ⟨hlo, hopened, hinside, hclose, hrest⟩ := h
    have hle := ihinside hinside
    have hrest := ihrest hrest
    omega

theorem of_cons (h : (block.cons rest).Spread lo hi) :
    lo ≤ block.span.start ∧ block.span.start ≤ block.span.stop ∧
      (∃ first last, block.span.start ≤ first ∧ last ≤ block.span.stop ∧
        block.inside.Spread first last) ∧ rest.Spread block.span.stop hi := by
  cases block with
  | single segment =>
    obtain ⟨hlo, hle, hrest⟩ := h
    exact ⟨hlo, hle, ⟨_, _, hle, Nat.le_refl _, Nat.le_refl _⟩, hrest⟩
  | pair opened inside close =>
    obtain ⟨hlo, hopened, hinside, hclose, hrest⟩ := h
    have hle := hinside.le
    refine ⟨hlo, ?_, ⟨_, _, hopened, hclose, hinside⟩, hrest⟩
    simp only [Block.span, Span.through_start, Span.through_stop]
    omega

theorem direct_le (h : blocks.Spread lo hi) : ∀ block ∈ blocks.direct, lo ≤ block.span.start := by
  induction blocks using Blocks.byBlock generalizing lo with
  | nil => simp [direct]
  | cons block rest _ ih =>
    obtain ⟨hlo, hle, -, hrest⟩ := h.of_cons
    rw [direct_cons]
    exact List.forall_mem_cons.2
      ⟨hlo, fun other hmem => (hlo.trans hle).trans (ih hrest other hmem)⟩

/-- What stands in a block is between its ends, at every depth. -/
theorem deep (h : blocks.Spread lo hi) : ∀ block ∈ blocks.deep, ∃ first last,
    block.span.start ≤ first ∧ last ≤ block.span.stop ∧ block.inside.Spread first last := by
  induction blocks using Blocks.byBlock generalizing lo hi with
  | nil => simp [Blocks.deep]
  | cons block rest ihinside ihrest =>
    obtain ⟨-, -, ⟨first, last, hfirst, hlast, hinside⟩, hrest⟩ := h.of_cons
    rw [deep_cons]
    exact List.forall_mem_cons.2 ⟨⟨first, last, hfirst, hlast, hinside⟩,
      List.forall_mem_append.2 ⟨ihinside hinside, ihrest hrest⟩⟩

end Blocks.Spread

theorem TagSet.Brackets.spread (h : tags.Brackets segments blocks)
    (hwithin : Within lo hi (segments.map Segment.span))
    (hle : ∀ segment ∈ segments, segment.span.start ≤ segment.span.stop) (hlo : lo ≤ hi) :
    blocks.Spread lo hi := by
  induction h generalizing lo hi with
  | nil => exact hlo
  | @single segment rest blocks _ _ ih =>
    obtain ⟨hstart, hstop, hrest⟩ := hwithin.tail
    obtain ⟨hfirst, hle⟩ := List.forall_mem_cons.1 hle
    exact ⟨hstart, hfirst, ih hrest hle hstop⟩
  | @pair opened close inside body rest blocks _ _ _ ihbody ihrest =>
    simp only [List.forall_mem_cons, List.forall_mem_append] at hle
    obtain ⟨hopened, hinside, hclose, hrest⟩ := hle
    obtain ⟨hstart, -, hmore⟩ := hwithin.tail
    rw [List.map_append, List.map_cons] at hmore
    obtain ⟨hbody, hlast, hstop, hmore⟩ := hmore.split
    exact ⟨hstart, hopened, ihbody hbody hinside hlast, hclose, ihrest hmore hrest hstop⟩

theorem Opening.contentOf_cons (names : List String) (node : Node) (nodes : List Node) :
    contentOf names (node :: nodes) = contentOf names [node] ++ contentOf names nodes := by
  simp [contentOf]

theorem Opening.slotsOf_cons (names : List String) (node : Node) (nodes : List Node) :
    slotsOf names (node :: nodes) = slotsOf names [node] ++ slotsOf names nodes := by
  simp [slotsOf]

/-- Whichever of them a node goes to, it stays where its block stands. -/
theorem Block.IsNode.within (h : block.IsNode tags inner node) (names : List String)
    (hinner : Within lo hi (inner.map Node.span)) (hlo : block.span.start ≤ lo)
    (hhi : hi ≤ block.span.stop) :
    Within block.span.start block.span.stop
        ((Opening.contentOf names [node]).map Node.span) ∧
      Within block.span.start block.span.stop
        ((Opening.slotsOf names [node]).map fun slot => slot.1.span) := by
  cases h with
  | text | output | invocation => exact ⟨.single _, .nil _ _⟩
  | @slot _ _ _ name =>
    cases hname : names.contains name with
    | true =>
      simp only [Opening.contentOf, Opening.slotsOf, List.flatMap_singleton, hname, if_true]
      exact ⟨hinner.mono hlo hhi, .nil _ _⟩
    | false =>
      simp only [Opening.contentOf, Opening.slotsOf, List.flatMap_singleton, hname,
        Bool.false_eq_true, if_false]
      exact ⟨.nil _ _, .single _⟩

/-- Nodes have the places of their blocks, and so have the body and the slots that they are parted
into, but for what is spliced: that stands where the slot stood. -/
theorem TagSet.Makes.within (hown : tags.IsOwn) (h : tags.Makes blocks nodes) :
    ∀ {lo hi}, blocks.Spread lo hi → Within lo hi (nodes.map Node.span) ∧ ∀ names,
      Within lo hi ((Opening.contentOf names nodes).map Node.span) ∧
        Within lo hi ((Opening.slotsOf names nodes).map fun slot => slot.1.span) := by
  induction blocks, nodes, h using byBlock hown with
  | nil => exact fun _ => ⟨.nil _ _, fun _ => ⟨.nil _ _, .nil _ _⟩⟩
  | @cons block inner node rest nodes hnode _ _ _ ihinside ihrest =>
    intro lo hi hspread
    obtain ⟨hlo, hle, ⟨first, last, hfirst, hlast, hinside⟩, hrest⟩ := hspread.of_cons
    have hhi := hrest.le
    obtain ⟨hnodes, hparted⟩ := ihrest hrest
    refine ⟨?_, fun names => ?_⟩
    · have hnode : Within block.span.start block.span.stop [node.span] :=
        hnode.span_eq ▸ .single node.span
      exact (hnode.append hnodes hle hhi).mono hlo (Nat.le_refl _)
    · obtain ⟨hcontent, hslots⟩ := hnode.within names (ihinside hinside).1 hfirst hlast
      rw [Opening.contentOf_cons, Opening.slotsOf_cons, List.map_append, List.map_append]
      exact ⟨(hcontent.append (hparted names).1 hle hhi).mono hlo (Nat.le_refl _),
        (hslots.append (hparted names).2 hle hhi).mono hlo (Nat.le_refl _)⟩

/-- A block of a row makes one of its nodes, and what those before and behind it give to a body
stands before and behind the block. -/
theorem TagSet.Makes.split (hown : tags.IsOwn) (h : tags.Makes blocks nodes)
    (names : List String) : ∀ {lo hi}, blocks.Spread lo hi → ∀ block ∈ blocks.direct,
      ∃ front node back, nodes = front ++ node :: back ∧ block.Makes tags node ∧
        (∀ other ∈ Opening.contentOf names front, other.span.stop ≤ block.span.start) ∧
        ∀ other ∈ Opening.contentOf names back, block.span.stop ≤ other.span.start := by
  induction blocks, nodes, h using byBlock hown with
  | nil => simp [Blocks.direct]
  | @cons first inner node rest nodes hnode hinner hmore _ _ ihrest =>
    intro lo hi hspread block hmem
    obtain ⟨hlo, hle, ⟨_, _, hfirst, hlast, hinside⟩, hrest⟩ := hspread.of_cons
    rw [Blocks.direct_cons] at hmem
    rcases List.mem_cons.1 hmem with rfl | hmem
    · refine ⟨[], node, nodes, rfl, ⟨inner, hinner, hnode⟩, by simp [Opening.contentOf], ?_⟩
      exact fun other hother => ((hmore.within hown hrest).2 names).1.start_le _
        (List.mem_map_of_mem hother)
    · obtain ⟨front, found, back, rfl, hfound, hfront, hback⟩ := ihrest hrest block hmem
      refine ⟨node :: front, found, back, rfl, hfound, ?_, hback⟩
      have hnext := hrest.direct_le block hmem
      obtain ⟨hcontent, -⟩ := hnode.within names (hinner.within hown hinside).1 hfirst hlast
      rw [Opening.contentOf_cons]
      exact List.forall_mem_append.2 ⟨fun other hother =>
        (hcontent.le_stop _ (List.mem_map_of_mem hother)).trans hnext, hfront⟩

end

/-! ## The order of the source -/

/-- Nodes that start one behind the other are in their order. -/
theorem Node.sorted_eq {listed : List Node} (hperm : listed.Perm nodes)
    (h : listed.Pairwise fun a b => a.span.start < b.span.start) : sorted nodes = listed := by
  have hdistinct : (listed.map fun node => node.span.start).Nodup :=
    List.pairwise_map.2 (h.imp Nat.ne_of_lt)
  have hsame : (sorted nodes).Perm listed := (List.mergeSort_perm _ _).trans hperm.symm
  have hsorted : (sorted nodes).Pairwise fun a b => a.span.start ≤ b.span.start := by
    refine (List.pairwise_mergeSort (fun a b c hab hbc => ?_) (fun a b => ?_) nodes).imp fun h => ?_
    · simp only [decide_eq_true_eq] at hab hbc ⊢
      exact hab.trans hbc
    · simpa using Nat.le_total _ _
    · simpa using h
  refine hsame.eq_of_pairwise (fun a b ha hb hab hba => ?_) hsorted (h.imp Nat.le_of_lt)
  exact List.inj_on_of_nodup_map hdistinct (hsame.mem_iff.1 ha) hb (Nat.le_antisymm hab hba)

/-- Nodes that blocks make start where the blocks do. -/
theorem starts_eq {kept : List Block} {listed : List Node}
    (h : List.Forall₂ (Block.Makes tags) kept listed) :
    listed.map (fun node => node.span.start) = kept.map fun block => block.first.span.start := by
  induction h with
  | nil => rfl
  | cons hmakes _ ih =>
    obtain ⟨inner, -, hnode⟩ := hmakes
    rw [List.map_cons, List.map_cons, ih, hnode.span_eq, Block.start_first]

theorem exists_of_mem_made {kept : List Block} {listed : List Node}
    (h : List.Forall₂ (Block.Makes tags) kept listed) :
    (∀ block ∈ kept, ∃ node ∈ listed, block.Makes tags node) ∧
      ∀ node ∈ listed, ∃ block ∈ kept, block.Makes tags node := by
  induction h with
  | nil => exact ⟨nofun, nofun⟩
  | @cons block node kept listed hmakes _ ih =>
    obtain ⟨hblocks, hnodes⟩ := ih
    exact ⟨by simp_all, by simp_all⟩

/-- The blocks of segments in order begin one behind the other. -/
theorem TagSet.Brackets.deep_pairwise (h : tags.Brackets segments blocks)
    (hordered : segments.Pairwise fun a b => a.span.start < b.span.start) :
    blocks.deep.Pairwise fun a b => a.first.span.start < b.first.span.start := by
  have hfirsts : (blocks.deep.map Block.first).Pairwise fun a b => a.span.start < b.span.start :=
    h.firsts ▸ hordered.filter _
  simpa only [List.pairwise_map] using hfirsts

theorem Block.isSlotOf_nil (tags : TagSet) (block : Block) : block.isSlotOf tags [] = false := by
  unfold isSlotOf
  split
  · split <;> rfl
  · rfl

/-- A slot begins with a tag of a slot. -/
theorem Block.rule?_of_isSlotOf (h : block.isSlotOf tags names = true) :
    block.first.isLeaf = false ∧ ∃ keyword, block.rule? tags = some (.slot keyword) := by
  unfold isSlotOf at h
  split at h
  · next hfirst hrule => exact ⟨by rw [hfirst]; rfl, _, hrule⟩
  · cases h

theorem Block.spliced_eq_nil (h : block.isSlotOf tags names = true) : block.spliced tags = [] := by
  obtain ⟨-, keyword, hrule⟩ := rule?_of_isSlotOf h
  simp [spliced, contentNames, hrule, isSlotOf_nil]

theorem Blocks.mem_spliced (h : block ∈ blocks.spliced tags) :
    ∃ names, block.isSlotOf tags names = true := by
  obtain ⟨around, -, hmem⟩ := List.mem_flatMap.1 h
  exact ⟨_, (List.mem_filter.1 hmem).2⟩

/-- Texts and outputs are listed with their segments. -/
theorem shows_of_made {kept : List Block} {listed : List Node}
    (h : List.Forall₂ (Block.Makes tags) kept listed) :
    List.Forall₂ Segment.Shows ((kept.map Block.first).filter Segment.isLeaf)
      (listed.filter Node.isLeaf) := by
  induction h with
  | nil => exact .nil
  | @cons block node kept listed hmakes _ ih =>
    obtain ⟨inner, -, hnode⟩ := hmakes
    rw [List.map_cons, List.filter_cons, List.filter_cons, hnode.isLeaf_eq]
    cases hnode with
    | text => exact .cons .text ih
    | output h => exact .cons (.output h) ih
    | invocation hfirst | slot hfirst => simpa [hfirst, Segment.isLeaf] using ih

/-- Every text and every output is kept. -/
theorem TagSet.Brackets.leaves_eq (h : tags.Brackets segments blocks) {kept : List Block}
    (hsublist : kept.Sublist blocks.deep)
    (hperm : blocks.deep.Perm (kept ++ blocks.spliced tags)) :
    (kept.map Block.first).filter Segment.isLeaf = segments.filter Segment.isLeaf := by
  have hspliced : ((blocks.spliced tags).map Block.first).filter Segment.isLeaf = [] := by
    simp only [List.filter_eq_nil_iff, List.forall_mem_map]
    intro block hmem
    obtain ⟨names, hslot⟩ := Blocks.mem_spliced hmem
    simp [(Block.rule?_of_isSlotOf hslot).1]
  have hdeep : (blocks.deep.map Block.first).filter Segment.isLeaf =
      segments.filter Segment.isLeaf := by
    rw [h.firsts, List.filter_filter]
    refine List.filter_congr fun segment _ => ?_
    cases segment <;> simp [Segment.isLeaf, Segment.isClosing]
  rw [← hdeep]
  refine ((hsublist.map _).filter _).eq_of_length ?_
  have hlength := ((hperm.map Block.first).filter Segment.isLeaf).length_eq
  rw [List.map_append, List.filter_append, hspliced, List.append_nil] at hlength
  exact hlength.symm

/-- An invocation's body has the nodes in a slot that is spliced where the slot stood. -/
theorem Block.Makes.spliced (hown : tags.IsOwn) (h : block.Makes tags node) {lo hi : Nat}
    (hspread : block.inside.Spread lo hi) {slot : Block} (hslot : slot ∈ block.spliced tags) :
    ∃ name attrs before inner after slots,
      node = .component block.span name attrs (before ++ inner ++ after) slots ∧
        tags.Makes slot.inside inner ∧
        (∀ other ∈ before, other.span.stop ≤ slot.span.start) ∧
        ∀ other ∈ after, slot.span.stop ≤ other.span.start := by
  obtain ⟨hmem, hslot⟩ := List.mem_filter.1 hslot
  obtain ⟨nodes, hnodes, hnode⟩ := h
  obtain ⟨front, found, back, hnodes_eq, ⟨inner, hinner, hfound⟩, hfront, hback⟩ :=
    hnodes.split hown (block.contentNames tags) hspread slot hmem
  cases hnode with
  | text | output => simp at hnodes_eq
  | slot hfirst hrule =>
    rw [contentNames_slot hfirst hrule, isSlotOf_nil] at hslot
    cases hslot
  | @invocation _ _ _ names name attrs _ hfirst hrule =>
    rw [contentNames_component hfirst hrule] at hslot hfront hback
    rw [hfound.isSlotOf_eq] at hslot
    cases hfound with
    | text | output | invocation => cases hslot
    | @slot _ _ _ own =>
      have hown : names.contains own = true := hslot
      refine ⟨name, attrs, _, inner, _, Opening.slotsOf names nodes, ?_, hinner, hfront, hback⟩
      simp only [hnodes_eq, Opening.contentOf, List.flatMap_append, List.flatMap_cons, hown,
        if_true, List.append_assoc]

/-- Nodes conserve the segments that they are made of. -/
theorem TagSet.Makes.conserved (hown : tags.IsOwn) (hbrackets : tags.Brackets segments blocks)
    (h : tags.Makes blocks nodes) {stop : Nat}
    (hwithin : Within 0 stop (segments.map Segment.span))
    (hnonempty : ∀ segment ∈ segments, segment.span.start < segment.span.stop) :
    Conserved tags segments blocks nodes := by
  obtain ⟨kept, listed, hlisting⟩ := h.exists_listing hown []
  have hcollected : listed.Perm (Node.allList nodes) :=
    hlisting.collected.trans (Node.allUnder_nil nodes)
  have hperm : blocks.deep.Perm (kept ++ blocks.spliced tags) := by
    have hperm := hlisting.perm
    rwa [List.filter_eq_nil_iff.2 fun block _ => by simp [Block.isSlotOf_nil],
      List.nil_append] at hperm
  have hspread : blocks.Spread 0 stop :=
    hbrackets.spread hwithin (fun segment hmem => (hnonempty segment hmem).le) (Nat.zero_le _)
  have hsegments : segments.Pairwise fun a b => a.span.start < b.span.start :=
    (List.pairwise_map.1 hwithin.ordered).imp_of_mem fun ha _ hab =>
      (hnonempty _ ha).trans_le hab
  have hstarts : listed.Pairwise fun a b => a.span.start < b.span.start := by
    have hkept := (hbrackets.deep_pairwise hsegments).sublist hlisting.sublist
    have hmap : (kept.map fun block => block.first.span.start).Pairwise (· < ·) :=
      List.pairwise_map.2 hkept
    rw [← starts_eq hlisting.made] at hmap
    exact List.pairwise_map.1 hmap
  obtain ⟨hnodeOf, hblockOf⟩ := exists_of_mem_made hlisting.made
  refine ⟨hbrackets.firsts, ?_, ⟨kept, hlisting.sublist, hperm, ?_⟩, ?_, ?_⟩
  · rw [Node.sorted_eq (hcollected.filter _) (hstarts.filter _),
      ← hbrackets.leaves_eq hlisting.sublist hperm]
    exact shows_of_made hlisting.made
  · rw [Node.sorted_eq hcollected hstarts]
    exact hlisting.made
  · intro block hmem slot hslot
    obtain ⟨first, last, -, -, hinside⟩ := hspread.deep block hmem
    -- A slot that is spliced has no default content, so it is not the block around another one.
    have hkept : block ∈ kept := by
      refine (List.mem_append.1 (hperm.mem_iff.1 hmem)).resolve_right fun hspliced => ?_
      obtain ⟨names, hown⟩ := Blocks.mem_spliced hspliced
      rw [Block.spliced_eq_nil hown] at hslot
      cases hslot
    obtain ⟨node, hnode, hmakes⟩ := hnodeOf block hkept
    obtain ⟨name, attrs, before, inner, after, slots, rfl, hinner, hbefore, hafter⟩ :=
      hmakes.spliced hown hinside hslot
    exact ⟨name, attrs, before, inner, after, slots, hcollected.mem_iff.1 hnode, hinner, hbefore,
      hafter⟩
  · intro span name attrs body slots hmem
    obtain ⟨block, hkept, inner, hinner, hnode⟩ := hblockOf _ (hcollected.mem_iff.2 hmem)
    obtain ⟨first, last, -, -, hinside⟩ := hspread.deep block (hlisting.sublist.subset hkept)
    cases hnode with
    | @invocation _ _ _ names =>
      obtain ⟨hcontent, hslots⟩ := (hinner.within hown hinside).2 names
      exact ⟨List.pairwise_map.1 hcontent.ordered, List.pairwise_map.1 hslots.ordered⟩

theorem TagSet.IsOwn.takeBodies (hown : tags.IsOwn) : tags.TakeBodies := by
  intro rule hmem
  have hrule := hown rule hmem
  cases rule with
  | component | slot => rfl
  | host => cases hrule

/-- A template that compiles with the tags of components and slots alone has all of its source: its
nodes, at every depth, are its texts, its outputs and its opening tags in their order, but for the
slots that are spliced. -/
theorem Template.compile_conserves (hown : tags.IsOwn) {name source : String} {template : Template}
    (h : compile tags name source = .ok template) :
    ∃ segments blocks, scan tags.claims source.toList = .ok segments ∧
      tags.Brackets segments blocks ∧ tags.Makes blocks template.nodes ∧
      Conserved tags segments blocks template.nodes := by
  obtain ⟨segments, hscan, h⟩ := bind_eq_ok_iff.1 h
  obtain ⟨nodes, hnodes, h⟩ := bind_eq_ok_iff.1 h
  cases h
  obtain ⟨blocks, hbrackets, hmakes⟩ := parseNodes_sound hown.takeBodies hnodes
  obtain ⟨pieces, htiles, rfl, -⟩ := exists_tiles hscan
  have hwithin : Within 0 _ ((pieces.filterMap Piece.segment).map Segment.span) :=
    ⟨fun _ _ => Nat.zero_le _, List.forall_mem_map.2 htiles.stop_le,
      List.pairwise_map.2 htiles.ordered⟩
  exact ⟨_, blocks, hscan, hbrackets, hmakes,
    hmakes.conserved hown hbrackets hwithin htiles.nonempty⟩

end

/-- A slot is spliced, and the one in it is not. -/
theorem Template.compile_conserves_nested :
    let tags : TagSet := [.component "x" ["main"], .slot "slot"]
    let source := "{x:a}{slot s /}t{slot main}{{ v }}{slot main /}{/slot}w{/x}"
    tags.IsOwn ∧ ∃ template, Template.compile tags "page" source = .ok template ∧
      ∃ segments blocks, scan tags.claims source.toList = .ok segments ∧
        tags.Brackets segments blocks ∧ tags.Makes blocks template.nodes ∧
        Conserved tags segments blocks template.nodes := by
  intro tags source
  have hown : tags.IsOwn := by simp [tags, TagSet.IsOwn, TagRule.isOwn]
  have hcompile : Template.compile tags "page" source = .ok ⟨"page",
      [.component ⟨0, 59⟩ (.literal "a") []
        [.text ⟨15, 16⟩ "t", .output ⟨27, 34⟩ (.var ⟨30, 31⟩ "v"),
          .slot ⟨⟨34, 47⟩, "main", ⟨40, 44⟩⟩ [], .text ⟨54, 55⟩ "w"]
        [(⟨⟨5, 15⟩, "s", ⟨11, 12⟩⟩, [])]]⟩ := by
    cbv
  exact ⟨hown, _, hcompile, Template.compile_conserves hown hcompile⟩

end SlotTemplates
