import SlotTemplates.Proofs.Syntax.Constructs

/-!
# Bodies in front of a closing tag

A text that is scanned alone is scanned to the same segments in front of a closing tag
(`scanFrom_before_close`), for what is found in the text does not depend on what follows
(`Scan.construct_append`). A brace that ends the text and that of the tag open an output, but one
that does not end.

The segments of a text that is read as nodes are the body of a block that the closing tag ends, so a
tag that opens a block, the text and the closing tag are one node (`Parses.enclosed`).
-/

namespace SlotTemplates

namespace Scan

/-! ## A closing tag behind a text -/

/-- The characters of a head are plain. -/
theorem IsHead.isPlain {head : String} (h : IsHead head) :
    ∀ c ∈ head.toList, Token.isPlain c = true := by
  intro c hc
  obtain ⟨hchar, hslash⟩ := h.chars c hc
  simp [Token.isPlain, hslash, ne_of_isHeadChar hchar (d := '"') rfl,
    ne_of_isHeadChar hchar (d := '\'') rfl, ne_of_isHeadChar hchar (d := '{') rfl,
    ne_of_isHeadChar hchar (d := '}') rfl]

theorem writtenTag_closing (head : List Char) :
    writtenTag true head [] = '{' :: '/' :: (head ++ ['}']) := by
  simp [writtenTag]

/-- A brace in front of a closing tag opens an output that does not end. -/
theorem construct_brace_close (claims : String → Bool) {head : String} (h : IsHead head)
    (pos : Nat) :
    ∃ e, construct claims pos ('{' :: writtenTag true head.toList []) = .error e := by
  have hclose : close .twoBraces 0 none ('/' :: (head.toList ++ ['}'])) = none := by
    have hslash : close .twoBraces 0 none ('/' :: (head.toList ++ ['}'])) =
        before '/' (close .twoBraces 0 none (head.toList ++ ['}'])) := by simp [close]
    rw [hslash, close_plain_append h.isPlain]
    rfl
  have houtput : output pos ('/' :: (head.toList ++ ['}'])) =
      .error { span := Span.sized pos 2, fault := .unterminatedOutput } := by
    rw [output, hclose]
  rw [writtenTag_closing]
  exact ⟨_, congrArg (Except.map some) houtput⟩

theorem addText_append_tag (pos : Nat) (c : Char) (segments : List Segment) (t : Tag)
    (more : List Segment) :
    addText pos c (segments ++ .tag t :: more) = addText pos c segments ++ .tag t :: more := by
  match segments with
  | [] | .output .. :: _ | .tag _ :: _ => rfl
  | .text span content :: others =>
    simp only [addText, List.cons_append]
    split <;> rfl

end Scan

/-- A text that is scanned alone is scanned to the same segments in front of a closing tag. -/
theorem scanFrom_before_close {claims : String → Bool} {head : String} (hhead : Scan.IsHead head)
    (hclaims : claims head = true) {pos : Nat} {s : List Char} {segments all : List Segment}
    (h : scanFrom claims pos s = .ok segments)
    (hall : scanFrom claims pos (s ++ Scan.writtenTag true head.toList []) = .ok all) :
    all = segments ++ [.tag (Scan.tagOf (pos + byteLength s) true head.toList [])] := by
  fun_induction scanFrom claims pos s generalizing segments all with
  | case1 pos =>
    cases h
    have htag : scanFrom claims pos (Scan.writtenTag true head.toList [] ++ []) =
        .ok [.tag (Scan.tagOf pos true head.toList [])] :=
      scanFrom_tag hhead hclaims (by simp) (fun _ => rfl) rfl (scanFrom_nil claims _)
    rw [List.append_nil] at htag
    exact (Except.ok.inj (htag.symm.trans hall)).symm
  | case2 => cases h
  | case3 pos c cs hnone ih =>
    obtain ⟨rest, hrest, rfl⟩ := map_eq_ok_iff.1 h
    have hbrace : c :: cs ≠ ['{'] := by
      intro heq
      obtain ⟨e, herror⟩ := Scan.construct_brace_close claims hhead pos
      rw [heq, List.singleton_append, scanFrom_of_error herror] at hall
      cases hall
    have hsame := Scan.construct_append hnone (List.cons_ne_nil c cs) hbrace
      ('/' :: (head.toList ++ ['}']))
    rw [← Scan.writtenTag_closing] at hsame
    rw [List.cons_append] at hall hsame
    rw [scanFrom_of_none hsame] at hall
    obtain ⟨more, hmore, rfl⟩ := map_eq_ok_iff.1 hall
    rw [ih hrest hmore, Scan.addText_append_tag, byteLength_cons, Nat.add_assoc]
  | case4 pos c cs segment stop rest hsome ih =>
    obtain ⟨behind, hbehind, rfl⟩ := map_eq_ok_iff.1 h
    obtain ⟨written, hsplit, hstop, -⟩ := Scan.construct_isPiece hsome
    have hbrace : c :: cs ≠ ['{'] := by
      intro heq
      rw [heq] at hsome
      cases hsome
    have hsame := Scan.construct_append hsome (List.cons_ne_nil c cs) hbrace
      ('/' :: (head.toList ++ ['}']))
    rw [← Scan.writtenTag_closing] at hsame
    rw [scanFrom_of_some hsame] at hall
    obtain ⟨more, hmore, rfl⟩ := map_eq_ok_iff.1 hall
    have hpos : pos + byteLength (c :: cs) = stop + byteLength rest := by
      dsimp only at hsplit hstop
      rw [hsplit, byteLength_append, hstop, Nat.add_assoc]
    rw [ih hbehind hmore, hpos]
    exact (List.append_assoc _ _ _).symm

/-! ## Blocks that end a source -/

section
variable {tags : TagSet} {t close : Tag} {rule : TagRule} {opening : Opening}

/-- Segments hold the nodes that they are read as, and no others. -/
theorem Parses.unique {segments : List Segment} {nodes found : List Node}
    (h : Parses tags segments nodes) (hfound : Parses tags segments found) : found = nodes :=
  Except.ok.inj (hfound.parseNodes_eq.symm.trans h.parseNodes_eq)

/-- The segments that nodes are made of can be read. -/
theorem Parses.reads (htags : tags.TakeBodies) {segments : List Segment} {nodes : List Node}
    (h : Parses tags segments nodes) :
    ∀ segment ∈ segments, segment.Reads tags := by
  obtain ⟨blocks, hbrackets, hmakes⟩ := parseNodes_sound htags h.parseNodes_eq
  exact (hbrackets.of_makes hmakes).1

/-- Behind a tag that is read and takes a body the end of the body is found. -/
theorem Parses.exists_splitBlock {rest : List Segment} {found : List Node}
    (h : Parses tags (.tag t :: rest) found) (hrule : tags.rule? t.head = some rule)
    (hopening : rule.opening t = .ok opening)
    (hbare : (t.selfClosing || !opening.takesBody) = false) :
    ∃ block, splitBlock tags rule.kind 0 rest = some block := by
  cases h with
  | alone _ hrule' hopening' hbare' =>
    cases hrule.symm.trans hrule'
    cases hopening.symm.trans hopening'
    cases hbare.symm.trans hbare'
  | block _ hrule' _ _ hfound =>
    cases hrule.symm.trans hrule'
    exact ⟨_, hfound⟩

/-- A body that ends with a closing tag is read as a block behind any tag that takes it, wherever
it stands. -/
theorem Parses.enclosed (htags : ∀ rule ∈ tags, rule.Moves) {inside : List Segment}
    {inner : List Node} (hinside : Parses tags inside inner)
    (hfound : splitBlock tags rule.kind 0 (inside ++ [.tag close]) = some (inside, close, []))
    (hopens : t.closing = false) (hrule : tags.rule? t.head = some rule)
    (hopening : rule.opening t = .ok opening)
    (hbare : (t.selfClosing || !opening.takesBody) = false) {offset : Nat}
    (hclose : opening.closedBy (close.shift offset) = true) :
    Parses tags (.tag t :: (inside ++ [Segment.tag close]).map (Segment.shift offset))
      [opening.node (t.span.through (close.shift offset).span)
        (inner.map (Node.shift offset))] := by
  have hmoved := (splitBlock_shift offset).trans (congrArg (Option.map _) hfound)
  exact .block hopens hrule hopening hbare hmoved (hinside.shift offset htags) hclose .nil

end

/-- A source compiles to a template if it is scanned to segments that are read as its nodes. -/
theorem Template.compile_eq_ok_iff {tags : TagSet} {label source : String} {template : Template} :
    compile tags label source = .ok template ↔
      ∃ segments, scan tags.claims source.toList = .ok segments ∧
        Parses tags segments template.nodes ∧ template.name = label := by
  simp only [compile, bind_eq_ok_iff, parseNodes_eq_ok_iff]
  constructor
  · rintro ⟨segments, hscan, nodes, hnodes, heq⟩
    cases heq
    exact ⟨segments, hscan, hnodes, rfl⟩
  · rintro ⟨segments, hscan, hnodes, rfl⟩
    exact ⟨segments, hscan, _, hnodes, rfl⟩

end SlotTemplates
