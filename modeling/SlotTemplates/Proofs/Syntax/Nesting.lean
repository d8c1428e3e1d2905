import Mathlib
import SlotTemplates.Proofs.Except
import SlotTemplates.Syntax.Compile

/-!
# Well-nested templates

`parseNodes` has no stack of open tags: for every opening tag it looks for the closing tag by
counting the tags of one kind, and passes over all others. Still it accepts the well-nested
templates and no others (`Template.compile_nested`). What well-nested means is said by a grammar of
segments, `TagSet.Brackets`, whose derivations are trees of pairs of tags, `Blocks`; `TagSet.Makes`
says which nodes such a tree makes.

The one fact about counting is that it comes out of a well-nested sequence at the depth at which it
went in, whatever kind it counts (`Brackets.splitBlock_append`). So the tag that it finds after such
a sequence is the one that follows (`Brackets.splitBlock_close`), and a sequence has no more than
one tree (`Brackets.unique`).
-/

namespace SlotTemplates

/-- Segments of a template with the tags in pairs. -/
inductive Blocks where
  | nil
  /-- A text, an output or a self-closing tag. -/
  | single (segment : Segment) (rest : Blocks)
  | pair (opened : Tag) (inside : Blocks) (close : Tag) (rest : Blocks)

/-- The pairs of an opening and a closing tag. -/
def Blocks.pairs : Blocks → List (Tag × Tag)
  | .nil => []
  | .single _ rest => rest.pairs
  | .pair opened inside close rest => (opened, close) :: (inside.pairs ++ rest.pairs)

/-- Whether a segment stands without another one: a text, an output or a self-closing tag. -/
def Segment.isSingle : Segment → Bool
  | .tag t => !t.closing && t.selfClosing
  | _ => true

/-- Whether tags of a rule have a body unless they close themselves. -/
def TagRule.takesBody : TagRule → Bool
  | .host _ _ takesBody _ => takesBody
  | _ => true

namespace TagSet

/-- The kind under which a tag balances, if its head has a rule. -/
def kind? (tags : TagSet) (t : Tag) : Option String := (tags.rule? t.head).map TagRule.kind

/-- An opening tag that does not close itself and a closing tag of the same kind. -/
structure Matches (tags : TagSet) (opened close : Tag) : Prop where
  opens : opened.closing = false
  selfClosing : opened.selfClosing = false
  closes : close.closing = true
  kind : ∃ kind, tags.kind? opened = some kind ∧ tags.kind? close = some kind

/-- Properly nested segments: every closing tag matches the last opening tag before it that is not
closed yet. -/
inductive Brackets (tags : TagSet) : List Segment → Blocks → Prop where
  | nil : Brackets tags [] .nil
  | single {segment rest blocks} (h : segment.isSingle = true) (hrest : Brackets tags rest blocks) :
    Brackets tags (segment :: rest) (.single segment blocks)
  | pair {opened close inside body rest blocks} (h : tags.Matches opened close)
      (hbody : Brackets tags inside body) (hrest : Brackets tags rest blocks) :
    Brackets tags (.tag opened :: (inside ++ .tag close :: rest)) (.pair opened body close blocks)

/-- The nodes that nested segments make: one for each single segment and each pair of tags, with
the nodes that are made of what stands between the two. -/
inductive Makes (tags : TagSet) : Blocks → List Node → Prop where
  | nil : Makes tags .nil []
  | text {span text rest nodes} (hrest : Makes tags rest nodes) :
    Makes tags (.single (.text span text) rest) (.text span (String.ofList text) :: nodes)
  | output {span inner source value rest nodes} (h : parseExpr inner.start source = .ok value)
      (hrest : Makes tags rest nodes) :
    Makes tags (.single (.output span inner source) rest) (.output span value :: nodes)
  | tag {t rule opening rest nodes} (hrule : tags.rule? t.head = some rule)
      (hopening : rule.opening t = .ok opening) (hrest : Makes tags rest nodes) :
    Makes tags (.single (.tag t) rest) (opening.node t.span [] :: nodes)
  | pair {opened close rule opening body inside rest nodes}
      (hrule : tags.rule? opened.head = some rule) (hopening : rule.opening opened = .ok opening)
      (htakes : opening.takesBody = true) (hclose : opening.closedBy close = true)
      (hbody : Makes tags body inside)
      (hrest : Makes tags rest nodes) :
    Makes tags (.pair opened body close rest)
      (opening.node (opened.span.through close.span) inside :: nodes)

end TagSet

section
variable {tags : TagSet} {kind : String} {segment : Segment} {t opened close : Tag}
  {segments inside rest after : List Segment} {body blocks : Blocks} {depth : Nat}

/-! ## Counting the tags of a kind -/

theorem Segment.balance_single (h : segment.isSingle = true) (kind : String) :
    segment.balance tags kind = .none := by
  cases segment with
  | text | output => rfl
  | tag t =>
    have ⟨hopens, hself⟩ : t.closing = false ∧ t.selfClosing = true := by
      simpa [isSingle] using h
    simp only [balance, hopens, hself]
    cases tags.rule? t.head <;> simp

theorem Segment.balance_opened (h : tags.Matches opened close)
    (hkind : tags.kind? opened = some kind) (other : String) :
    (Segment.tag opened).balance tags other = if kind = other then .opens else .none := by
  obtain ⟨rule, hrule, rfl⟩ := Option.map_eq_some_iff.1 hkind
  simp [balance, hrule, h.opens, h.selfClosing]

theorem Segment.balance_close (h : t.closing = true) (hkind : tags.kind? t = some kind)
    (other : String) :
    (Segment.tag t).balance tags other = if kind = other then .closes else .none := by
  obtain ⟨rule, hrule, rfl⟩ := Option.map_eq_some_iff.1 hkind
  simp [balance, hrule, h]

/-- A tag that ends a block of a kind is a closing tag of that kind. -/
theorem Segment.closing_of_balance (h : (Segment.tag t).balance tags kind = .closes) :
    t.closing = true ∧ tags.kind? t = some kind := by
  unfold balance at h
  dsimp only at h
  split at h
  · next rule hrule =>
    split at h
    · cases h
    next hkind =>
    split at h
    · next hcloses => exact ⟨hcloses, by simpa [TagSet.kind?, hrule] using hkind⟩
    · split at h <;> cases h
  · cases h

/-- Segments in front of a body that was found. -/
def inFrontOf (front : List Segment) (found : Option (List Segment × Tag × List Segment)) :
    Option (List Segment × Tag × List Segment) :=
  found.map fun (body, close, after) => (front ++ body, close, after)

theorem inFrontOf_append (front more : List Segment)
    (found : Option (List Segment × Tag × List Segment)) :
    inFrontOf front (inFrontOf more found) = inFrontOf (front ++ more) found := by
  cases found <;> simp [inFrontOf]

theorem splitBlock_none (h : segment.balance tags kind = .none) :
    splitBlock tags kind depth (segment :: rest) =
      inFrontOf [segment] (splitBlock tags kind depth rest) := by
  simp only [splitBlock, h]
  rfl

theorem splitBlock_opens (h : segment.balance tags kind = .opens) :
    splitBlock tags kind depth (segment :: rest) =
      inFrontOf [segment] (splitBlock tags kind (depth + 1) rest) := by
  simp only [splitBlock, h]
  rfl

theorem splitBlock_closes (h : (Segment.tag t).balance tags kind = .closes) :
    splitBlock tags kind 0 (.tag t :: rest) = some ([], t, rest) := by
  simp only [splitBlock, h]

theorem splitBlock_closes_inside (h : segment.balance tags kind = .closes) :
    splitBlock tags kind (depth + 1) (segment :: rest) =
      inFrontOf [segment] (splitBlock tags kind depth rest) := by
  simp only [splitBlock, h]
  rfl

/-- What is found is in the segments, and the tag is a closing tag of the kind. -/
theorem splitBlock_eq_some (h : splitBlock tags kind depth segments = some (inside, close, after)) :
    segments = inside ++ .tag close :: after ∧ close.closing = true ∧
      tags.kind? close = some kind := by
  induction segments generalizing depth inside with
  | nil => cases h
  | cons segment segments ih =>
    have further : ∀ depth, inFrontOf [segment] (splitBlock tags kind depth segments) =
        some (inside, close, after) →
        segment :: segments = inside ++ .tag close :: after ∧ close.closing = true ∧
          tags.kind? close = some kind := by
      intro depth hfound
      obtain ⟨⟨front, c, a⟩, hfound, heq⟩ := Option.map_eq_some_iff.1 hfound
      cases heq
      obtain ⟨rfl, hclose⟩ := ih hfound
      exact ⟨rfl, hclose⟩
    cases hbalance : segment.balance tags kind with
    | none => exact further _ (splitBlock_none hbalance ▸ h)
    | opens => exact further _ (splitBlock_opens hbalance ▸ h)
    | closes =>
      cases depth with
      | succ depth => exact further _ (splitBlock_closes_inside hbalance ▸ h)
      | zero =>
        cases segment with
        | text | output => cases hbalance
        | tag t =>
          rw [splitBlock_closes hbalance] at h
          cases h
          exact ⟨rfl, Segment.closing_of_balance hbalance⟩

namespace TagSet

/-- Counting comes out of nested segments at the depth at which it went in. -/
theorem Brackets.splitBlock_append (h : tags.Brackets inside body) (kind : String) (depth : Nat)
    (rest : List Segment) :
    splitBlock tags kind depth (inside ++ rest) =
      inFrontOf inside (splitBlock tags kind depth rest) := by
  induction h generalizing depth rest with
  | nil => cases hfound : splitBlock tags kind depth rest <;> simp [inFrontOf, hfound]
  | single hsingle _ ih =>
    rw [List.cons_append, splitBlock_none (Segment.balance_single hsingle kind), ih,
      inFrontOf_append]
    rfl
  | @pair opened close inside body more blocks hmatches _ _ ihbody ihrest =>
    obtain ⟨own, hopened, hclose⟩ := hmatches.kind
    have hopens := Segment.balance_opened hmatches hopened kind
    have hcloses := Segment.balance_close hmatches.closes hclose kind
    rw [List.cons_append, List.append_assoc, List.cons_append]
    by_cases hkind : own = kind
    · rw [if_pos hkind] at hopens hcloses
      rw [splitBlock_opens hopens, ihbody, splitBlock_closes_inside hcloses, ihrest]
      simp only [inFrontOf_append, List.singleton_append]
    · rw [if_neg hkind] at hopens hcloses
      rw [splitBlock_none hopens, ihbody, splitBlock_none hcloses, ihrest]
      simp only [inFrontOf_append, List.singleton_append]

/-- The closing tag of the kind after nested segments is the one that is found. -/
theorem Brackets.splitBlock_close (h : tags.Brackets inside body) (hcloses : close.closing = true)
    (hkind : tags.kind? close = some kind) (rest : List Segment) :
    splitBlock tags kind 0 (inside ++ .tag close :: rest) = some (inside, close, rest) := by
  have hbalance := Segment.balance_close hcloses hkind kind
  rw [if_pos rfl] at hbalance
  rw [h.splitBlock_append, splitBlock_closes hbalance]
  simp [inFrontOf]

/-- Segments nest in one way at most. -/
theorem Brackets.unique (h : tags.Brackets segments blocks) {other : Blocks}
    (hother : tags.Brackets segments other) : other = blocks := by
  induction h generalizing other with
  | nil => cases hother; rfl
  | single hsingle _ ih =>
    cases hother with
    | single _ hrest => rw [ih hrest]
    | pair hmatches => simp [Segment.isSingle, hmatches.opens, hmatches.selfClosing] at hsingle
  | @pair opened close inside body more blocks hmatches hbody _ ihbody ihrest =>
    generalize hsegments : inside ++ .tag close :: more = segments at hother
    cases hother with
    | single hsingle => simp [Segment.isSingle, hmatches.opens, hmatches.selfClosing] at hsingle
    | @pair _ close' inside' body' more' blocks' hmatches' hbody' hrest' =>
      obtain ⟨kind, hopened, hclose⟩ := hmatches.kind
      obtain ⟨kind', hopened', hclose'⟩ := hmatches'.kind
      obtain rfl : kind = kind' := Option.some.inj (hopened.symm.trans hopened')
      have hfound := hbody.splitBlock_close hmatches.closes hclose more
      rw [hsegments, hbody'.splitBlock_close hmatches'.closes hclose' more'] at hfound
      obtain ⟨rfl, rfl, rfl⟩ : inside' = inside ∧ close' = close ∧ more' = more := by
        simpa using hfound
      rw [ihbody hbody', ihrest hrest']

end TagSet

/-! ## Parsing -/

theorem TagRule.takesBody_of_opening {rule : TagRule} {opening : Opening}
    (h : rule.opening t = .ok opening) : opening.takesBody = rule.takesBody := by
  cases rule with
  | component keyword contentNames =>
    rw [TagRule.opening, invocation] at h
    split at h
    · split at h
      · cases h
      · obtain ⟨attrs, -, rfl⟩ := map_eq_ok_iff.1 h
        rfl
    · split at h
      · cases h
      · obtain ⟨⟨name, attrs⟩, -, rfl⟩ := map_eq_ok_iff.1 h
        rfl
  | slot keyword =>
    obtain ⟨⟨name, span⟩, -, rfl⟩ := map_eq_ok_iff.1 h
    rfl
  | host heads kind takesBody read =>
    obtain ⟨make, -, rfl⟩ := map_eq_ok_iff.1 h
    rfl

/-- All tags of a set have a body unless they close themselves. -/
def TagSet.TakeBodies (tags : TagSet) : Prop := ∀ rule ∈ tags, rule.takesBody = true

theorem TagSet.TakeBodies.opening (h : tags.TakeBodies) {rule : TagRule} {opening : Opening}
    (hrule : tags.rule? t.head = some rule) (hopening : rule.opening t = .ok opening) :
    opening.takesBody = true := by
  rw [TagRule.takesBody_of_opening hopening]
  exact h rule (List.mem_of_find?_eq_some hrule)

/-- Nodes are made of segments that nest, as they nest. -/
theorem parseNodes_sound (htags : tags.TakeBodies) {nodes : List Node}
    (h : parseNodes tags segments = .ok nodes) :
    ∃ blocks, tags.Brackets segments blocks ∧ tags.Makes blocks nodes := by
  fun_induction parseNodes tags segments generalizing nodes with
  | case1 =>
    cases h
    exact ⟨.nil, .nil, .nil⟩
  | case2 span text rest ih =>
    obtain ⟨more, hmore, rfl⟩ := map_eq_ok_iff.1 h
    obtain ⟨blocks, hbrackets, hmakes⟩ := ih hmore
    exact ⟨_, .single rfl hbrackets, .text hmakes⟩
  | case3 span inner source rest ih =>
    obtain ⟨value, hvalue, h⟩ := bind_eq_ok_iff.1 h
    obtain ⟨more, hmore, rfl⟩ := map_eq_ok_iff.1 h
    obtain ⟨blocks, hbrackets, hmakes⟩ := ih hmore
    exact ⟨_, .single rfl hbrackets, .output hvalue hmakes⟩
  | case4 | case5 => cases h
  | case6 t rest hopens rule hrule ih ihbody ihafter =>
    obtain ⟨opening, hopening, h⟩ := bind_eq_ok_iff.1 h
    have hopens : t.closing = false := by simpa using hopens
    cases hself : t.selfClosing with
    | true =>
      rw [hself] at h
      obtain ⟨more, hmore, rfl⟩ := map_eq_ok_iff.1 h
      obtain ⟨blocks, hbrackets, hmakes⟩ := ih hmore
      exact ⟨_, .single (by simp [Segment.isSingle, hopens, hself]) hbrackets,
        .tag hrule hopening hmakes⟩
    | false =>
      rw [if_neg (by simp [hself, htags.opening hrule hopening])] at h
      split at h
      · cases h
      next inside close after hfound =>
      obtain ⟨nodes, hinside, h⟩ := bind_eq_ok_iff.1 h
      split at h
      · next hclose =>
        obtain ⟨more, hmore, rfl⟩ := map_eq_ok_iff.1 h
        obtain ⟨body, hbody, hmakesBody⟩ := ihbody _ _ _ hfound hinside
        obtain ⟨blocks, hbrackets, hmakes⟩ := ihafter _ _ _ hfound hmore
        obtain ⟨rfl, hcloses, hkind⟩ := splitBlock_eq_some hfound
        have hmatches : tags.Matches t close :=
          ⟨hopens, hself, hcloses, rule.kind, by rw [TagSet.kind?, hrule]; rfl, hkind⟩
        exact ⟨_, .pair hmatches hbody hbrackets,
          .pair hrule hopening (htags.opening hrule hopening) hclose hmakesBody hmakes⟩
      · cases h

/-- Segments that nest have the nodes that they make. -/
theorem TagSet.Brackets.parseNodes_eq (h : tags.Brackets segments blocks) {nodes : List Node}
    (hmakes : tags.Makes blocks nodes) : parseNodes tags segments = .ok nodes := by
  induction h generalizing nodes with
  | nil =>
    cases hmakes
    exact parseNodes.eq_1 tags
  | single hsingle _ ih =>
    cases hmakes with
    | text hrest =>
      rw [parseNodes, ih hrest]
      rfl
    | output hvalue hrest =>
      rw [parseNodes, hvalue, ih hrest]
      rfl
    | @tag t rule opening _ _ hrule hopening hrest =>
      obtain ⟨hopens, hself⟩ : t.closing = false ∧ t.selfClosing = true := by
        simpa [Segment.isSingle] using hsingle
      simp only [parseNodes, hopens, hrule, hopening, hself]
      rw [ih hrest]
      rfl
  | @pair opened close inside body rest blocks hmatches hbody hrest ihbody ihrest =>
    cases hmakes with
    | @pair _ _ rule opening _ _ _ _ hrule hopening htakes hclose hinside hmore =>
      obtain ⟨kind, hopened, hkind⟩ := hmatches.kind
      obtain rfl : rule.kind = kind := by simpa [TagSet.kind?, hrule] using hopened
      have hfound := hbody.splitBlock_close hmatches.closes hkind rest
      have hown := ihbody hinside
      have hafter := ihrest hmore
      have hnone : (opened.selfClosing || !opening.takesBody) = false := by
        simp [hmatches.selfClosing, htakes]
      rw [parseNodes, if_neg (by simp [hmatches.opens])]
      simp only [hrule, hopening]
      refine (if_neg (by simp [hnone])).trans ?_
      split
      · next hlost => rw [hfound] at hlost; cases hlost
      · next hother =>
        rw [hfound] at hother
        cases hother
        rw [hown, hafter]
        exact if_pos hclose

/-! ## When nested segments make nodes -/

/-- The arguments of an opening tag are such as its rule takes: of an invocation by a literal name
the name is valid and attributes follow, one by a computed name has an expression, and a slot has a
name. -/
def TagRule.Reads (t : Tag) : TagRule → Prop
  | .component keyword _ =>
    match literalName? keyword t.head with
    | some written =>
      (∃ name, canonicalName? written = some name) ∧
        ∃ attrs, parseAttrs t.argsSpan.start t.args = .ok attrs
    | none =>
      allBlank t.args = false ∧ ∃ parts, parseDynamic t.argsSpan.start t.args = .ok parts
  | .slot _ => ∃ name, parseSlotName t.argsSpan.start t.args = .ok name
  | .host _ _ _ read => ∃ make, read t = .ok make

/-- The expression of an output and the arguments of an opening tag can be read. -/
def Segment.Reads (tags : TagSet) : Segment → Prop
  | .text .. => True
  | .output _ inner source => ∃ value, parseExpr inner.start source = .ok value
  | .tag t => t.closing = false → ∀ rule, tags.rule? t.head = some rule → rule.Reads t

/-- A closing tag with a literal name closes an invocation only if that has a literal name of the
same canonical form. -/
def TagSet.Fits (tags : TagSet) (opened close : Tag) : Prop :=
  ∀ keyword contentNames, tags.rule? opened.head = some (.component keyword contentNames) →
    ∀ closed, TagRule.literalName? keyword close.head = some closed →
      ∃ written name, TagRule.literalName? keyword opened.head = some written ∧
        canonicalName? written = some name ∧ canonicalName? closed = some name

theorem TagRule.reads_iff {rule : TagRule} :
    rule.Reads t ↔ ∃ opening, rule.opening t = .ok opening := by
  cases rule with
  | component keyword contentNames =>
    rw [Reads, opening, invocation]
    cases literalName? keyword t.head with
    | some written =>
      cases hname : canonicalName? written with
      | none => simp [hname]
      | some name =>
        simp only [hname, Option.some.injEq, exists_eq', true_and]
        exact exists_map_eq_ok_iff.symm
    | none =>
      cases allBlank t.args with
      | true => simp
      | false =>
        simp only [true_and, Bool.false_eq_true, if_false]
        exact exists_map_eq_ok_iff.symm
  | slot keyword => exact exists_map_eq_ok_iff.symm
  | host heads kind takesBody read => exact exists_map_eq_ok_iff.symm

/-- What was opened takes a closing tag if that fits. -/
theorem TagSet.closedBy_iff {rule : TagRule} {opening : Opening}
    (hrule : tags.rule? opened.head = some rule) (hopening : rule.opening opened = .ok opening) :
    opening.closedBy close = true ↔ tags.Fits opened close := by
  have fits_iff (keyword : String) (contentNames : List String)
      (h : rule = .component keyword contentNames) :
      tags.Fits opened close ↔ ∀ closed, TagRule.literalName? keyword close.head = some closed →
        ∃ written name, TagRule.literalName? keyword opened.head = some written ∧
          canonicalName? written = some name ∧ canonicalName? closed = some name := by
    subst h
    simp only [Fits, hrule, Option.some.injEq, TagRule.component.injEq]
    exact ⟨fun h => h keyword contentNames ⟨rfl, rfl⟩, fun h _ _ ⟨hk, _⟩ => hk ▸ h⟩
  cases rule with
  | component keyword contentNames =>
    rw [fits_iff keyword contentNames rfl]
    rw [TagRule.opening, TagRule.invocation] at hopening
    split at hopening
    · next written hwritten =>
      split at hopening
      · cases hopening
      next name hname =>
      obtain ⟨attrs, -, rfl⟩ := map_eq_ok_iff.1 hopening
      simp only [Opening.closedBy]
      cases TagRule.literalName? keyword close.head with
      | none => simp
      | some closed => simp [hwritten, hname]
    · next hdynamic =>
      split at hopening
      · cases hopening
      obtain ⟨⟨name, attrs⟩, -, rfl⟩ := map_eq_ok_iff.1 hopening
      simp only [Opening.closedBy]
      cases TagRule.literalName? keyword close.head with
      | none => simp
      | some closed => simp [hdynamic]
  | slot keyword =>
    obtain ⟨⟨name, span⟩, -, rfl⟩ := map_eq_ok_iff.1 hopening
    simp [Fits, Opening.closedBy, hrule]
  | host heads kind takesBody read =>
    obtain ⟨make, -, rfl⟩ := map_eq_ok_iff.1 hopening
    simp [Fits, Opening.closedBy, hrule]

namespace TagSet

/-- Nested segments that make nodes can be read, and their tags fit. -/
theorem Brackets.of_makes (h : tags.Brackets segments blocks) {nodes : List Node}
    (hmakes : tags.Makes blocks nodes) :
    (∀ segment ∈ segments, segment.Reads tags) ∧
      ∀ pair ∈ blocks.pairs, tags.Fits pair.1 pair.2 := by
  have reads_tag {t : Tag} {rule : TagRule} {opening : Opening}
      (hrule : tags.rule? t.head = some rule) (hopening : rule.opening t = .ok opening) :
      (Segment.tag t).Reads tags := by
    intro _ other hother
    obtain rfl : rule = other := Option.some.inj (hrule.symm.trans hother)
    exact TagRule.reads_iff.2 ⟨opening, hopening⟩
  induction h generalizing nodes with
  | nil => exact ⟨nofun, nofun⟩
  | single _ _ ih =>
    cases hmakes with
    | text hrest =>
      obtain ⟨hreads, hfits⟩ := ih hrest
      exact ⟨List.forall_mem_cons.2 ⟨trivial, hreads⟩, hfits⟩
    | output hvalue hrest =>
      obtain ⟨hreads, hfits⟩ := ih hrest
      exact ⟨List.forall_mem_cons.2 ⟨⟨_, hvalue⟩, hreads⟩, hfits⟩
    | tag hrule hopening hrest =>
      obtain ⟨hreads, hfits⟩ := ih hrest
      exact ⟨List.forall_mem_cons.2 ⟨reads_tag hrule hopening, hreads⟩, hfits⟩
  | @pair opened close inside body rest blocks hmatches _ _ ihbody ihrest =>
    cases hmakes with
    | pair hrule hopening htakes hclose hinside hmore =>
      obtain ⟨hreadsBody, hfitsBody⟩ := ihbody hinside
      obtain ⟨hreads, hfits⟩ := ihrest hmore
      have hreadsClose : (Segment.tag close).Reads tags := fun hopens =>
        absurd (hmatches.closes.symm.trans hopens) (by simp)
      refine ⟨?_, ?_⟩
      · simp only [List.forall_mem_cons, List.forall_mem_append]
        exact ⟨reads_tag hrule hopening, hreadsBody, hreadsClose, hreads⟩
      · simp only [Blocks.pairs, List.forall_mem_cons, List.forall_mem_append]
        exact ⟨(closedBy_iff hrule hopening).1 hclose, hfitsBody, hfits⟩

/-- Nested segments that can be read, and whose tags fit, make nodes. -/
theorem Brackets.exists_makes (htags : tags.TakeBodies) (h : tags.Brackets segments blocks)
    (howned : ∀ t, .tag t ∈ segments → ∃ rule, tags.rule? t.head = some rule)
    (hreads : ∀ segment ∈ segments, segment.Reads tags)
    (hfits : ∀ pair ∈ blocks.pairs, tags.Fits pair.1 pair.2) :
    ∃ nodes, tags.Makes blocks nodes := by
  have opening_of {t : Tag} (hopens : t.closing = false)
      (howned : ∃ rule, tags.rule? t.head = some rule) (hreads : (Segment.tag t).Reads tags) :
      ∃ rule opening, tags.rule? t.head = some rule ∧ rule.opening t = .ok opening := by
    obtain ⟨rule, hrule⟩ := howned
    obtain ⟨opening, hopening⟩ := TagRule.reads_iff.1 (hreads hopens rule hrule)
    exact ⟨rule, opening, hrule, hopening⟩
  induction h with
  | nil => exact ⟨[], .nil⟩
  | @single segment rest blocks hsingle _ ih =>
    obtain ⟨hfirst, hreads⟩ := List.forall_mem_cons.1 hreads
    obtain ⟨nodes, hnodes⟩ := ih (fun t ht => howned t (List.mem_cons_of_mem _ ht)) hreads hfits
    cases segment with
    | text span text => exact ⟨_, .text hnodes⟩
    | output span inner source =>
      obtain ⟨value, hvalue⟩ := hfirst
      exact ⟨_, .output hvalue hnodes⟩
    | tag t =>
      have hopens : t.closing = false := by
        simp only [Segment.isSingle, Bool.and_eq_true, Bool.not_eq_true'] at hsingle
        exact hsingle.1
      obtain ⟨rule, opening, hrule, hopening⟩ :=
        opening_of hopens (howned t List.mem_cons_self) hfirst
      exact ⟨_, .tag hrule hopening hnodes⟩
  | @pair opened close inside body rest blocks hmatches _ _ ihbody ihrest =>
    simp only [List.forall_mem_cons, List.forall_mem_append] at hreads
    simp only [Blocks.pairs, List.forall_mem_cons, List.forall_mem_append] at hfits
    obtain ⟨hfirst, hreadsBody, -, hreads⟩ := hreads
    obtain ⟨hfirstFits, hfitsBody, hfits⟩ := hfits
    obtain ⟨inner, hinner⟩ := ihbody
      (fun t ht => howned t (by simp [ht])) hreadsBody hfitsBody
    obtain ⟨nodes, hnodes⟩ := ihrest (fun t ht => howned t (by simp [ht])) hreads hfits
    obtain ⟨rule, opening, hrule, hopening⟩ :=
      opening_of hmatches.opens (howned opened List.mem_cons_self) hfirst
    have hclose := (closedBy_iff hrule hopening).2 hfirstFits
    exact ⟨_, .pair hrule hopening (htags.opening hrule hopening) hclose hinner hnodes⟩

end TagSet

/-! ## Scanned templates -/

section
variable {claims : String → Bool}

theorem Scan.mem_addText {pos : Nat} {c : Char} (h : .tag t ∈ addText pos c segments) :
    .tag t ∈ segments := by
  unfold addText at h
  split at h
  · split at h
    · simpa using h
    · simpa using h
  · simpa using h

theorem Scan.tag_claims {closing : Bool} {pos stop : Nat} {s more : List Char}
    (h : tag claims pos closing s = .ok (some ⟨some (.tag t), stop, more⟩)) :
    claims t.head = true := by
  unfold tag at h
  dsimp only at h
  split at h
  · cases h
  next hclaimed =>
  split at h
  · cases h
  split at h
  · cases h
  cases h
  simp only [Bool.or_eq_true, Bool.not_eq_true', not_or, Bool.not_eq_false] at hclaimed
  exact hclaimed.1.2

theorem Scan.construct_claims {pos stop : Nat} {s more : List Char}
    (h : construct claims pos s = .ok (some ⟨some (.tag t), stop, more⟩)) :
    claims t.head = true := by
  unfold construct at h
  split at h
  · obtain ⟨found, hfound, heq⟩ := map_eq_ok_iff.1 h
    unfold output at hfound
    split at hfound <;> cases hfound
    cases heq
  · obtain ⟨found, hfound, heq⟩ := map_eq_ok_iff.1 h
    unfold comment at hfound
    split at hfound
    split at hfound <;> cases hfound
    cases heq
  · exact tag_claims h
  · exact tag_claims h
  · cases h

/-- A tag is scanned only if its head is claimed. -/
theorem scanFrom_claims {pos : Nat} {s : List Char} (h : scanFrom claims pos s = .ok segments)
    (ht : .tag t ∈ segments) : claims t.head = true := by
  fun_induction scanFrom claims pos s generalizing segments with
  | case1 => cases h; cases ht
  | case2 => cases h
  | case3 pos c cs hnone ih =>
    obtain ⟨more, hmore, rfl⟩ := map_eq_ok_iff.1 h
    exact ih hmore (Scan.mem_addText ht)
  | case4 pos c cs segment stop rest hfound ih =>
    obtain ⟨more, hmore, rfl⟩ := map_eq_ok_iff.1 h
    rcases List.mem_append.1 ht with ht | ht
    · obtain rfl : segment = some (.tag t) := Option.mem_toList.1 ht
      exact Scan.construct_claims hfound
    · exact ih hmore ht

end

theorem TagSet.exists_rule (tags : TagSet) {head : String} (h : tags.claims head = true) :
    ∃ rule, tags.rule? head = some rule := by
  obtain ⟨rule, hmem, hclaims⟩ := List.any_eq_true.1 h
  exact Option.isSome_iff_exists.1 (List.find?_isSome.2 ⟨rule, hmem, hclaims⟩)

/-- A template whose source is scanned compiles if and only if its tags are properly nested, what
stands in its outputs and opening tags can be read, and every invocation is closed by a tag without
a literal name or with its own. Then its nodes nest as its tags do, for which there is one way
only. -/
theorem Template.compile_nested (htags : tags.TakeBodies) (name source : String)
    (hscan : scan tags.claims source.toList = .ok segments) :
    ((∃ template, Template.compile tags name source = .ok template) ↔
      ∃ blocks, tags.Brackets segments blocks ∧
        (∀ segment ∈ segments, segment.Reads tags) ∧
        ∀ pair ∈ blocks.pairs, tags.Fits pair.1 pair.2) ∧
    ∀ template, Template.compile tags name source = .ok template →
      template.name = name ∧
        ∃ blocks, tags.Brackets segments blocks ∧ tags.Makes blocks template.nodes ∧
          ∀ other, tags.Brackets segments other → other = blocks := by
  have howned : ∀ t, .tag t ∈ segments → ∃ rule, tags.rule? t.head = some rule :=
    fun t ht => tags.exists_rule (scanFrom_claims hscan ht)
  have hcompile : Template.compile tags name source =
      (parseNodes tags segments).map fun nodes => ⟨name, nodes⟩ := by
    rw [compile, hscan]
    rfl
  rw [hcompile]
  refine ⟨⟨?_, ?_⟩, ?_⟩
  · rintro ⟨template, h⟩
    obtain ⟨nodes, hnodes, -⟩ := map_eq_ok_iff.1 h
    obtain ⟨blocks, hbrackets, hmakes⟩ := parseNodes_sound htags hnodes
    exact ⟨blocks, hbrackets, hbrackets.of_makes hmakes⟩
  · rintro ⟨blocks, hbrackets, hreads, hfits⟩
    obtain ⟨nodes, hmakes⟩ := hbrackets.exists_makes htags howned hreads hfits
    exact ⟨_, map_eq_ok_iff.2 ⟨nodes, hbrackets.parseNodes_eq hmakes, rfl⟩⟩
  · rintro template h
    obtain ⟨nodes, hnodes, rfl⟩ := map_eq_ok_iff.1 h
    obtain ⟨blocks, hbrackets, hmakes⟩ := parseNodes_sound htags hnodes
    exact ⟨rfl, blocks, hbrackets, hmakes, fun other hother => hbrackets.unique hother⟩

end

/-- Invocations, slots, and a further tag `wrap` that balances as slots do. -/
def TagSet.withWrap : TagSet := [.component "x" [], .slot "slot", .block "wrap" TagRule.slotKind]

/-- Interleaved tags do not nest, although each of them is closed. -/
example : Template.compile .withWrap "page"
    "{x:a}{slot s}{/x:a}{/slot}" =
      .error { span := ⟨5, 13⟩, fault := .unclosedTag "{slot}" } := by cbv

/-- A further tag that is closed by a tag of slots nests, and so do the nodes. -/
theorem Template.compile_nested_withWrap :
    let source := "{wrap w}{x:a /}{/slot}"
    let opened : Tag := ⟨"wrap", false, false, [' ', 'w'], ⟨5, 7⟩, ⟨0, 8⟩⟩
    let invoked : Tag := ⟨"x:a", false, true, [' '], ⟨12, 13⟩, ⟨8, 15⟩⟩
    let close : Tag := ⟨"slot", true, false, [], ⟨21, 21⟩, ⟨15, 22⟩⟩
    TagSet.withWrap.TakeBodies ∧
      scan TagSet.withWrap.claims source.toList = .ok [.tag opened, .tag invoked, .tag close] ∧
      ∃ template, Template.compile .withWrap "page" source = .ok template ∧
        ∃ blocks, TagSet.withWrap.Brackets [.tag opened, .tag invoked, .tag close] blocks ∧
          TagSet.withWrap.Makes blocks template.nodes := by
  intro source opened invoked close
  have htags : TagSet.withWrap.TakeBodies := by
    simp [TagSet.TakeBodies, TagSet.withWrap, TagRule.takesBody, TagRule.block]
  have hscan : scan TagSet.withWrap.claims source.toList =
      .ok [.tag opened, .tag invoked, .tag close] := by cbv
  have hcompile : Template.compile .withWrap "page" source = .ok ⟨"page",
      [.slot ⟨⟨0, 22⟩, "w", ⟨5, 7⟩⟩ [.component ⟨8, 15⟩ (.literal "a") [] [] []]]⟩ := by cbv
  obtain ⟨-, hnodes⟩ := Template.compile_nested htags "page" source hscan
  obtain ⟨-, blocks, hbrackets, hmakes, -⟩ := hnodes _ hcompile
  exact ⟨htags, hscan, _, hcompile, blocks, hbrackets, hmakes⟩

end SlotTemplates
