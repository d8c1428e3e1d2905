import SlotTemplates.Proofs.Render.Places
import SlotTemplates.Proofs.Syntax.Enclosed
import SlotTemplates.Proofs.Syntax.Quoting
import SlotTemplates.Render.Component

/-!
# Literal and computed names

A component can be invoked by its name in the head of the tag, or by an expression that gives the
name. With the name in quotes the two are the same invocation (`Environment.interchangeable`): one
compiles if the other does, to the same attributes, body and slots, and both render alike.

Both open an invocation, in the sense of `Invokes`. How it closes, and what stands in it, does not
depend on how the component is named (`Invokes.compile_alone`, `Invokes.compile_pair`).
-/

namespace SlotTemplates

/-- A body in front of a closing tag of a keyword: it is scanned to segments, and the tag ends the
block that they are in. -/
structure EndsBlock (tags : TagSet) (keyword : String) (body : List Char) (inside : List Segment) :
    Prop where
  scans : scan tags.claims (body ++ Scan.writtenTag true keyword.toList []) =
    .ok (inside ++ [.tag (Scan.tagOf (byteLength body) true keyword.toList [])])
  found : let close := Scan.tagOf (byteLength body) true keyword.toList []
    splitBlock tags TagRule.componentKind 0 (inside ++ [.tag close]) = some (inside, close, [])

/-! ## The two ways to name a component -/

section
variable {keyword : String} {args : List Char} {attrs : List Attr} (contentNames : List String)
  (more : TagSet)

/-- The rule of a keyword owns the keyword. -/
theorem TagSet.rule?_keyword :
    rule? (.component keyword contentNames :: more) keyword =
      some (.component keyword contentNames) :=
  rule?_first (by simp [TagRule.claims]) more

/-- A name in quotes is followed by attributes. -/
theorem Invokes.quoted (hkeyword : Config.isKeyword keyword = true) {quote : Char}
    (hquote : quote = '"' ∨ quote = '\'') (name : String) (hattrs : parseAttrs 0 args = .ok attrs) :
    let width := byteLength (Token.quoted quote name).toList
    let start := byteLength keyword.toList + 2
    Invokes (.component keyword contentNames :: more) keyword contentNames keyword
      (' ' :: ((Token.quoted quote name).toList ++ ' ' :: args))
      (.dynamic (.literal (Span.sized start width) (.string name)))
      (attrs.map (Attr.shift (start + width + 1))) where
  isHead := Config.isHead_of_isKeyword hkeyword
  rule := TagSet.rule?_keyword contentNames more
  blank := rfl
  lexes := by
    obtain ⟨lexemes, hlexes, hderives⟩ := exists_lexes_attrs hattrs
      (byteLength keyword.toList + 2 + byteLength (Token.quoted quote name).toList)
    let span := Span.sized (byteLength keyword.toList + 2)
      (byteLength (Token.quoted quote name).toList)
    have hname : Grammar.Derives (.expr (.literal span (.string name)))
        (⟨.text name, span⟩ :: lexemes) lexemes := .ofLiteral rfl
    refine ⟨_, .gap rfl (.quoted hquote name hlexes), ?_, fun t hhead hsame => ?_⟩
    · exact (hname.closesBraces 0).trans (hderives.closesBraces 0)
    · have hread := parseDynamic_eq_ok_iff.2 ⟨_, _, hsame.tokenize_eq, hname, hderives⟩
      have hargs : allBlank t.args = false := by
        rw [Bool.eq_false_iff]
        intro hblank
        cases hsame.eq_nil_of_blank (List.all_eq_true.1 hblank)
      simp only [TagRule.invocation, hhead, TagRule.literalName?_keyword, hargs, hread]
      rfl

end

/-! ## Closing an invocation -/

section
variable {tags : TagSet} {keyword : String} {contentNames : List String} {name : ComponentName}
  {attrs : List Attr} {t : Tag}

/-- A closing tag of the keyword ends a block of components. -/
theorem Segment.balance_keyword
    (hrule : tags.rule? keyword = some (.component keyword contentNames))
    (hhead : t.head = keyword) (hcloses : t.closing = true) :
    (Segment.tag t).balance tags TagRule.componentKind = .closes := by
  simp [Segment.balance, hhead, hrule, TagRule.kind, hcloses]

/-- It ends an invocation of whatever component. -/
theorem Opening.closedBy_keyword (hhead : t.head = keyword) :
    (Opening.component keyword contentNames name attrs).closedBy t = true := by
  simp only [Opening.closedBy, hhead, TagRule.literalName?_keyword]

end

namespace Invokes

variable {tags : TagSet} {keyword : String} {contentNames : List String} {head : String}
  {args : List Char} {name : ComponentName} {attrs : List Attr}

/-- The tag of an invocation is scanned in front of a text. -/
theorem scan_pair (h : Invokes tags keyword contentNames head args name attrs) (rest : List Char) :
    let t := Scan.tagOf 0 false head.toList args
    scan tags.claims (Scan.writtenTag false head.toList args ++ rest) =
      (scanFrom tags.claims (byteLength (Scan.writtenTag false head.toList args)) rest).map
        (.tag t :: ·) := by
  intro t
  have hbrace : Scan.close .oneBrace 0 none ('}' :: rest) = some ([], rest) := rfl
  have hclose := h.close_args hbrace
  rw [List.append_nil] at hclose
  have hstop : t.span.stop = byteLength (Scan.writtenTag false head.toList args) := by
    rw [Scan.tagOf_span, Span.sized, Nat.zero_add]
  have hconstruct : Scan.construct tags.claims 0 (Scan.writtenTag false head.toList args ++ rest) =
      .ok (some ⟨some (.tag t), t.span.stop, rest⟩) :=
    Scan.construct_writtenTag h.isHead (TagSet.claims_of_rule h.rule) (by simp [h.blank]) (by simp)
      hclose 0
  rw [← hstop]
  exact scanFrom_of_some hconstruct

/-- The tag of an invocation that does not close itself is read, and takes a body. -/
theorem opens (h : Invokes tags keyword contentNames head args name attrs) :
    let t := Scan.tagOf 0 false head.toList args
    tags.rule? t.head = some (.component keyword contentNames) ∧
      (TagRule.component keyword contentNames).opening t =
        .ok (.component keyword contentNames name attrs) ∧
      (t.selfClosing || !(Opening.component keyword contentNames name attrs).takesBody) = false := by
  intro t
  have hhead : t.head = head := Scan.tagOf_head ..
  obtain ⟨lexemes, hlexes, -⟩ := h.lexes
  obtain ⟨blanks, hargs, hblank⟩ := exists_trimEnd_append args
  rw [hargs] at hlexes
  obtain ⟨hself, htrimmed⟩ :=
    Scan.tagOf_args 0 head.toList (hlexes.of_append_blank hblank).not_slash
  have hargs : args = t.args ++ blanks := by rw [htrimmed, ← hargs]
  refine ⟨hhead ▸ h.rule, h.opening hhead (Nat.add_comm 1 _) (.inr ⟨hblank, hargs⟩), ?_⟩
  rw [hself]
  rfl

variable {inside : List Segment} {inner : List Node} {body : List Char} {source : String}

/-- A tag, a body and a closing tag are one invocation; what stands in it is the same wherever the
tag ends. -/
theorem compile_pair (h : Invokes tags keyword contentNames head args name attrs)
    (htags : ∀ rule ∈ tags, rule.Moves) (hends : EndsBlock tags keyword body inside)
    (hinside : Parses tags inside inner)
    (hsource : source.toList = Scan.writtenTag false head.toList args ++
      (body ++ Scan.writtenTag true keyword.toList [])) (label : String) :
    Template.compile tags label source =
      .ok ⟨label, [(Opening.component keyword contentNames name attrs).node
        ⟨0, byteLength source.toList⟩
        (inner.map (Node.shift (byteLength (Scan.writtenTag false head.toList args))))]⟩ := by
  let offset := byteLength (Scan.writtenTag false head.toList args)
  let t := Scan.tagOf 0 false head.toList args
  let close := Scan.tagOf (byteLength body) true keyword.toList []
  have hclose : (close.shift offset).head = keyword :=
    Scan.tagOf_head (byteLength body) true keyword []
  have hscan : scan tags.claims source.toList =
      .ok (.tag t :: (inside ++ [Segment.tag close]).map (Segment.shift offset)) := by
    have hmoved := scanFrom_shift tags.claims offset 0
      (body ++ Scan.writtenTag true keyword.toList [])
    rw [Nat.zero_add] at hmoved
    rw [hsource, h.scan_pair, hmoved, ← scan, hends.scans]
    rfl
  obtain ⟨hrule, hopening, hbare⟩ := h.opens
  have hfound : splitBlock tags (TagRule.component keyword contentNames).kind 0
      (inside ++ [.tag close]) = some (inside, close, []) := hends.found
  have hparses := hinside.enclosed htags hfound rfl hrule hopening hbare
    (Opening.closedBy_keyword hclose)
  have hspan : t.span.through (close.shift offset).span = ⟨0, byteLength source.toList⟩ := by
    have hstop : (close.shift offset).span.stop = byteLength source.toList := by
      have hclosed : close.span = _ := Scan.tagOf_span (byteLength body) true keyword.toList []
      simp only [Tag.shift, hclosed, Span.shift_stop, Span.sized, hsource, byteLength_append,
        offset]
      omega
    exact congrArg (Span.mk 0) hstop
  rw [hspan] at hparses
  exact Template.compile_eq_ok_iff.2 ⟨_, hscan, hparses, rfl⟩

/-- If a tag with a body and a closing tag compiles, the closing tag ends the body. -/
theorem endsBlock (h : Invokes tags keyword contentNames head args name attrs)
    (hkeyword : Scan.IsHead keyword)
    (hrule : tags.rule? keyword = some (.component keyword contentNames))
    (hsource : source.toList = Scan.writtenTag false head.toList args ++
      (body ++ Scan.writtenTag true keyword.toList []))
    {label : String} {template : Template}
    (hcompile : Template.compile tags label source = .ok template)
    (hscan : scan tags.claims body = .ok inside) (hinside : Parses tags inside inner) :
    EndsBlock tags keyword body inside := by
  let close := Scan.tagOf (byteLength body) true keyword.toList []
  let offset := byteLength (Scan.writtenTag false head.toList args)
  obtain ⟨segments, hall, hparses, -⟩ := Template.compile_eq_ok_iff.1 hcompile
  rw [hsource, h.scan_pair] at hall
  obtain ⟨moved, hmoved, rfl⟩ := map_eq_ok_iff.1 hall
  -- the body and the closing tag are scanned alike at the front of a source
  have hshift := scanFrom_shift tags.claims offset 0
    (body ++ Scan.writtenTag true keyword.toList [])
  rw [Nat.zero_add, hmoved] at hshift
  obtain ⟨all, hscanned, rfl⟩ := map_eq_ok_iff.1 (mapError_eq_ok_iff.1 hshift.symm)
  have hall := scanFrom_before_close hkeyword (TagSet.claims_of_rule hrule) hscan hscanned
  rw [Nat.zero_add] at hall
  subst hall
  obtain ⟨hopened, hopening, hbare⟩ := h.opens
  obtain ⟨block, hblock⟩ := hparses.exists_splitBlock hopened hopening hbare
  rw [splitBlock_shift] at hblock
  obtain ⟨found, hfound, -⟩ := Option.map_eq_some_iff.1 hblock
  have hcloses : (Segment.tag close).balance tags TagRule.componentKind = .closes :=
    Segment.balance_keyword hrule (Scan.tagOf_head (byteLength body) true keyword []) rfl
  obtain rfl := hinside.splitBlock_close hcloses hfound
  exact ⟨hscanned, hfound⟩

end Invokes

/-! ## Rendering an invocation -/

/-- The template that is one invocation, with the nodes inside its tags; its attributes stand
`start` bytes further than they do alone, and the nodes `bodyStart` bytes. -/
def Template.calling (label source : String) (contentNames : List String) (name : ComponentName)
    (attrs : List Attr) (start : Nat) (inner : List Node) (bodyStart : Nat) : Template where
  name := label
  nodes := [.component ⟨0, byteLength source.toList⟩ name (attrs.map (Attr.shift start))
    (Opening.contentOf contentNames (inner.map (Node.shift bodyStart)))
    (Opening.slotsOf contentNames (inner.map (Node.shift bodyStart)))]

/-- An invocation renders alike wherever its parts stand, if the names evaluate alike. -/
theorem Template.renderNodes_calling (env : Environment) {name other : ComponentName}
    (hname : evalName env name = evalName env other) (label source source' : String)
    (contentNames : List String) (attrs : List Attr) (inner : List Node)
    (start start' bodyStart bodyStart' : Nat) :
    renderNodes env (calling label source contentNames name attrs start inner bodyStart).nodes =
      renderNodes env
        (calling label source' contentNames other attrs start' inner bodyStart').nodes := by
  have hattrs (start : Nat) : evalAttrs env (attrs.map (Attr.shift start)) = evalAttrs env attrs :=
    evalAttrs_mapSpans _ attrs
  have hbody (offset : Nat) :
      renderNodes env (Opening.contentOf contentNames (inner.map (Node.shift offset))) =
        renderNodes env (Opening.contentOf contentNames inner) := by
    have hmoved := Opening.contentOf_map (Span.shift offset) contentNames inner
    rw [← mapSpansNodes_eq_map _ (Opening.contentOf contentNames inner)] at hmoved
    exact (congrArg (renderNodes env) hmoved).trans (renderNodes_mapSpans ..)
  have hslots (offset : Nat) :
      renderSlots env [] (Opening.slotsOf contentNames (inner.map (Node.shift offset))) =
        renderSlots env [] (Opening.slotsOf contentNames inner) := by
    have hmoved := Opening.slotsOf_map (Span.shift offset) contentNames inner
    rw [← mapSpansSlots_eq_map] at hmoved
    exact (congrArg (renderSlots env []) hmoved).trans (renderSlots_mapSpans ..)
  simp only [calling, renderNodes, renderNode, hname, hattrs, hbody, hslots]

/-! ## The widths of the two tags -/

namespace Token

variable {name : String}

/-- Nothing is escaped in a text without backslashes and quotes. -/
theorem toList_quoted_plain {quote : Char} (h : ∀ c ∈ name.toList, c ≠ '\\' ∧ c ≠ quote) :
    (quoted quote name).toList = quote :: (name.toList ++ [quote]) := by
  have hsame : escaped quote name.toList = name.toList := by
    rw [escaped, List.flatMap_congr fun c hc => if_neg (not_or.2 (h c hc))]
    exact List.flatMap_singleton' _
  rw [toList_quoted, hsame]

/-- The characters of a head are written in quotes as they are. -/
theorem quoted_of_isHeadChar (h : ∀ c ∈ name.toList, Scan.isHeadChar c = true) :
    (quoted '"' name).toList = '"' :: (name.toList ++ ['"']) := by
  refine toList_quoted_plain fun c hc => ⟨?_, ?_⟩
  · rintro rfl
    cases h _ hc
  · rintro rfl
    cases h _ hc

theorem byteLength_quoted (h : ∀ c ∈ name.toList, Scan.isHeadChar c = true) :
    byteLength (quoted '"' name).toList = byteLength name.toList + 2 := by
  have hquote : '"'.utf8Size = 1 := by decide
  simp only [quoted_of_isHeadChar h, byteLength_cons, byteLength_append, byteLength_nil, hquote]
  omega

end Token

theorem TagRule.byteLength_literalHead (keyword name : String) :
    byteLength (literalHead keyword name).toList =
      byteLength keyword.toList + byteLength name.toList + 1 := by
  have hcolon : ':'.utf8Size = 1 := by decide
  simp only [toList_literalHead, byteLength_append, byteLength_cons, byteLength_nil, hcolon]
  omega

theorem Scan.byteLength_writtenTag (head args : List Char) :
    byteLength (writtenTag false head args) = byteLength head + byteLength args + 2 := by
  obtain ⟨hopen, hclose, -, -⟩ := delimiter_widths
  simp only [writtenTag, byteLength_cons, byteLength_append, byteLength_nil, hopen, hclose,
    Bool.false_eq_true, if_false]
  omega

section
variable {name : String} (keyword : String) (args : List Char)

/-- The width of the tag of an invocation with its name in the head. -/
theorem byteLength_literalTag :
    byteLength (Scan.writtenTag false (TagRule.literalHead keyword name).toList (' ' :: args)) =
      byteLength keyword.toList + byteLength name.toList + byteLength args + 4 := by
  have hblank : ' '.utf8Size = 1 := delimiter_widths.2.2.2
  simp only [Scan.byteLength_writtenTag, TagRule.byteLength_literalHead, byteLength_cons, hblank]
  omega

/-- The width of the tag of an invocation with its name in quotes. -/
theorem byteLength_quotedTag (hchars : ∀ c ∈ name.toList, Scan.isHeadChar c = true) :
    byteLength (Scan.writtenTag false keyword.toList
        (' ' :: ((Token.quoted '"' name).toList ++ ' ' :: args))) =
      byteLength keyword.toList + byteLength name.toList + byteLength args + 6 := by
  have hblank : ' '.utf8Size = 1 := delimiter_widths.2.2.2
  simp only [Scan.byteLength_writtenTag, byteLength_cons, byteLength_append,
    Token.byteLength_quoted hchars, hblank]
  omega

end

/-! ## One invocation in two forms -/

namespace Environment

variable {config : Config} {extensions : List Extension} {files : Tree} {env : Environment}

/-- With its name in the head or in quotes, a tag opens the invocation of a component; its
attributes are those that its arguments are alone, at two places. -/
theorem invokes_both (hmake : make config extensions files = .ok env) {name args : String}
    {attrs : List Attr} (hname : canonicalName? name = some name)
    (hchars : ∀ c ∈ name.toList, Scan.isHeadChar c = true)
    (hattrs : parseAttrs 0 args.toList = .ok attrs) :
    let start := byteLength config.tag.toList + byteLength name.toList + 3
    let span := Span.sized (byteLength config.tag.toList + 2) (byteLength name.toList + 2)
    env.tags.rule? config.tag = some (.component config.tag config.defaultSlotAliases) ∧
      Invokes env.tags config.tag config.defaultSlotAliases (TagRule.literalHead config.tag name)
        (' ' :: args.toList) (.literal name) (attrs.map (Attr.shift start)) ∧
      Invokes env.tags config.tag config.defaultSlotAliases config.tag
        (' ' :: ((Token.quoted '"' name).toList ++ ' ' :: args.toList))
        (.dynamic (.literal span (.string name))) (attrs.map (Attr.shift (start + 2))) := by
  intro start span
  obtain ⟨hvalid, more, htags⟩ := of_make hmake
  have hkeyword := Config.isKeyword_of_validate hvalid
  have hwritable : Writable config.tag name args attrs := ⟨hkeyword, hname, hchars, hattrs⟩
  have hliteral := hwritable.invokes config.defaultSlotAliases more
  have hquoted := Invokes.quoted config.defaultSlotAliases more hkeyword (.inl rfl) name hattrs
  have hquotedStart :
      byteLength config.tag.toList + 2 + (byteLength name.toList + 2) + 1 = start + 2 := by
    simp only [start]
    omega
  simp only [Token.byteLength_quoted hchars, hquotedStart] at hquoted
  rw [TagRule.byteLength_literalHead] at hliteral
  rw [htags]
  exact ⟨TagSet.rule?_keyword config.defaultSlotAliases more, hliteral, hquoted⟩

/-- A component can be invoked by its name in the head of a tag, or by its name in quotes behind the
keyword. If the first one compiles with a body that compiles alone, the other one does, to the same
invocation, with the attributes and the body two bytes further; and a tag that closes itself
compiles in both forms. In every environment and from every state the two render alike, to the same
text or the same error. What a host reads has to move with its tags. -/
theorem interchangeable (hmake : make config extensions files = .ok env)
    (htags : ∀ rule ∈ env.tags, rule.Moves) {name args : String} {attrs : List Attr}
    (hname : canonicalName? name = some name)
    (hchars : ∀ c ∈ name.toList, Scan.isHeadChar c = true)
    (hattrs : parseAttrs 0 args.toList = .ok attrs) (label : String) :
    let literal := "\x7b" ++ config.tag ++ ":" ++ name ++ " " ++ args
    let quoted := "\x7b" ++ config.tag ++ " \"" ++ name ++ "\" " ++ args
    let start := byteLength config.tag.toList + byteLength name.toList + 3
    let bodyStart := start + byteLength args.toList + 1
    let computed : ComponentName := .dynamic (.literal
      (Span.sized (byteLength config.tag.toList + 2) (byteLength name.toList + 2)) (.string name))
    (∀ (body : String) (inner : List Node) (template : Template),
      let pair := literal ++ "\x7d" ++ body ++ "\x7b/" ++ config.tag ++ "\x7d"
      let quotedPair := quoted ++ "\x7d" ++ body ++ "\x7b/" ++ config.tag ++ "\x7d"
      let other := Template.calling label quotedPair config.defaultSlotAliases computed attrs
        (start + 2) inner (bodyStart + 2)
      env.compile label body = .ok ⟨label, inner⟩ → env.compile label pair = .ok template →
        template = Template.calling label pair config.defaultSlotAliases (.literal name) attrs start
          inner bodyStart ∧
        env.compile label quotedPair = .ok other ∧
        ∀ (renderer : Environment) (s : State),
          renderer.run (renderNodes renderer template.nodes) s =
            renderer.run (renderNodes renderer other.nodes) s) ∧
    ∀ gaps : String, (∀ w ∈ gaps.toList, Token.isGap w = true) →
      let alone := literal ++ gaps ++ "/\x7d"
      let quotedAlone := quoted ++ gaps ++ "/\x7d"
      let template := Template.calling label alone config.defaultSlotAliases (.literal name) attrs
        start [] bodyStart
      let other := Template.calling label quotedAlone config.defaultSlotAliases computed attrs
        (start + 2) [] (bodyStart + 2)
      env.compile label alone = .ok template ∧ env.compile label quotedAlone = .ok other ∧
        ∀ (renderer : Environment) (s : State),
          renderer.run (renderNodes renderer template.nodes) s =
            renderer.run (renderNodes renderer other.nodes) s := by
  intro literal quoted start bodyStart computed
  obtain ⟨hrule, hliteral, hquoted⟩ := invokes_both hmake hname hchars hattrs
  have hwritten := Token.quoted_of_isHeadChar hchars
  have hbodyStart : byteLength (Scan.writtenTag false (TagRule.literalHead config.tag name).toList
      (' ' :: args.toList)) = bodyStart := by
    rw [byteLength_literalTag]
    simp only [bodyStart, start]
    omega
  have hquotedBodyStart : byteLength (Scan.writtenTag false config.tag.toList
      (' ' :: ((Token.quoted '"' name).toList ++ ' ' :: args.toList))) = bodyStart + 2 := by
    rw [byteLength_quotedTag _ _ hchars]
    simp only [bodyStart, start]
    omega
  have hsameName (renderer : Environment) :
      evalName renderer (.literal name) = evalName renderer computed := rfl
  constructor
  · intro body inner template pair quotedPair other hbody hpair
    have hpairSource : pair.toList =
        Scan.writtenTag false (TagRule.literalHead config.tag name).toList (' ' :: args.toList) ++
          (body.toList ++ Scan.writtenTag true config.tag.toList []) := by
      simp [pair, literal, Scan.writtenTag, TagRule.toList_literalHead]
    have hquotedSource : quotedPair.toList =
        Scan.writtenTag false config.tag.toList
            (' ' :: ((Token.quoted '"' name).toList ++ ' ' :: args.toList)) ++
          (body.toList ++ Scan.writtenTag true config.tag.toList []) := by
      simp [quotedPair, quoted, Scan.writtenTag, hwritten]
    have hcompile := mapError_eq_ok_iff.1 hpair
    obtain ⟨inside, hscan, hinside, -⟩ :=
      Template.compile_eq_ok_iff.1 (mapError_eq_ok_iff.1 hbody)
    have hends := hliteral.endsBlock hquoted.isHead hrule hpairSource hcompile hscan hinside
    have hsame := hliteral.compile_pair htags hends hinside hpairSource label
    have hother := hquoted.compile_pair htags hends hinside hquotedSource label
    rw [hbodyStart] at hsame
    rw [hquotedBodyStart] at hother
    obtain rfl := Except.ok.inj (hcompile.symm.trans hsame)
    exact ⟨rfl, mapError_eq_ok_iff.2 hother, fun renderer s => congrArg (renderer.run · s)
      (Template.renderNodes_calling renderer (hsameName renderer) ..)⟩
  · intro gaps hgaps alone quotedAlone template other
    have haloneSource : alone.toList =
        Scan.writtenTag false (TagRule.literalHead config.tag name).toList
          (' ' :: args.toList ++ gaps.toList ++ ['/']) := by
      simp [alone, literal, Scan.writtenTag, TagRule.toList_literalHead]
    have hquotedSource : quotedAlone.toList =
        Scan.writtenTag false config.tag.toList
          (' ' :: ((Token.quoted '"' name).toList ++ ' ' :: args.toList) ++ gaps.toList ++
            ['/']) := by
      simp [quotedAlone, quoted, Scan.writtenTag, hwritten]
    exact ⟨mapError_eq_ok_iff.2 (hliteral.compile_alone hgaps label haloneSource),
      mapError_eq_ok_iff.2 (hquoted.compile_alone hgaps label hquotedSource),
      fun renderer s => congrArg (renderer.run · s)
        (Template.renderNodes_calling renderer (hsameName renderer) ..)⟩

/-- A card with a title and a slot, where a host has a tag that stands for its arguments. -/
theorem interchangeable_card :
    let host : Extension := { tags := [.verbatim "mark" "mark"] }
    let body := "\x7bmark a /\x7db\x7bslot icon\x7dc\x7b/slot\x7d"
    let pair := "\x7bx:card title='t'\x7d" ++ body ++ "\x7b/x\x7d"
    let quotedPair := "\x7bx \"card\" title='t'\x7d" ++ body ++ "\x7b/x\x7d"
    ∃ env template other, make {} [host] (.dir []) = .ok env ∧ (∀ rule ∈ env.tags, rule.Moves) ∧
      env.compile "page" pair = .ok template ∧ env.compile "page" quotedPair = .ok other ∧
      ∀ (renderer : Environment) (s : State),
        renderer.run (renderNodes renderer template.nodes) s =
          renderer.run (renderNodes renderer other.nodes) s := by
  intro host body pair quotedPair
  let tags : TagSet := Environment.componentTags {} ++ [.verbatim "mark" "mark"]
  obtain ⟨env, hmake, htags⟩ : ∃ env, make {} [host] (.dir []) = .ok env ∧ env.tags = tags :=
    ⟨_, rfl, rfl⟩
  have hmoves : ∀ rule ∈ env.tags, rule.Moves := by
    rw [htags]
    exact List.forall_mem_cons.2 ⟨trivial, List.forall_mem_cons.2 ⟨trivial,
      List.forall_mem_singleton.2 (TagRule.moves_verbatim "mark" "mark").1⟩⟩
  have hname : canonicalName? "card" = some "card" := by decide
  have hchars : ∀ c ∈ "card".toList, Scan.isHeadChar c = true := List.all_eq_true.1 rfl
  have hattrs : ∃ attrs, parseAttrs 0 "title='t'".toList = .ok attrs := ⟨_, by cbv⟩
  have hbody : ∃ nodes, Template.compile tags "page" body = .ok ⟨"page", nodes⟩ := ⟨_, by cbv⟩
  have hpair : ∃ template, Template.compile tags "page" pair = .ok template := ⟨_, by cbv⟩
  obtain ⟨attrs, hattrs⟩ := hattrs
  obtain ⟨nodes, hbody⟩ := hbody
  obtain ⟨template, hpair⟩ := hpair
  have hcompiles := (interchangeable hmake hmoves hname hchars hattrs "page").1 body nodes template
    (mapError_eq_ok_iff.2 (htags ▸ hbody)) (mapError_eq_ok_iff.2 (htags ▸ hpair))
  exact ⟨env, template, _, hmake, hmoves, mapError_eq_ok_iff.2 (htags ▸ hpair), hcompiles.2⟩

end Environment

end SlotTemplates
