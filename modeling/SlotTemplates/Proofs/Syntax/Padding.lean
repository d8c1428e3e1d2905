import SlotTemplates.Proofs.Syntax.Displaced
import SlotTemplates.Proofs.Syntax.Enclosed

/-!
# White space at the end of tags

White space in front of the brace that ends a tag changes the places in a template and nothing else
(`Template.compile_padded`). The tag is read as it was, only longer, and what follows stands further
behind (`scanFrom_padded`), so the segments are displaced and the nodes the same.

It is not so for a tag with a slash right behind its head and right in front of its brace. The slash
is told from the head by the brace behind it. With white space between them it is one more character
of the head, and no name of a component ends in a slash (`TagRule.not_reads_slash`).
-/

namespace SlotTemplates

/-- A slash is all that stands between the head of a tag and its brace. -/
def Tag.IsSlashed (t : Tag) : Prop := t.selfClosing = true ∧ t.args = []

/-- What a tag becomes with `n` bytes of white space in front of its brace: it is longer, or else
the slash joins its head, and then the tag does not close itself any more. -/
inductive Tag.Padded (n : Nat) (t : Tag) : Tag → Prop where
  | widened (hslash : ¬t.IsSlashed) : Padded n t (t.widen n)
  | joined {t' : Tag} (hslash : t.IsSlashed) (hhead : t'.head = t.head ++ "/")
    (hopens : t'.closing = false) (hargs : t'.args = []) : Padded n t t'

section
variable {claims : String → Bool} {pos : Nat} {s rest : List Char} {t : Tag}

/-! ## Scanning -/

namespace Scan

variable {closing : Bool} {head body more pad : List Char}

/-- A tag that is found is cut out of the text where it stands. -/
theorem exists_tagCut {stop : Nat}
    (h : construct claims pos s = .ok (some ⟨some (.tag t), stop, rest⟩)) :
    ∃ closing head body cs, TagCut claims closing cs head body rest ∧
      (closing = false → head.head? ≠ some '/') ∧ s = writtenTag closing head body ++ rest ∧
      t = tagOf pos closing head body ∧ stop = t.span.stop := by
  rcases construct_eq_some h with ⟨_, -, hk⟩ | ⟨_, -, hk⟩ | htag
  · unfold output at hk
    split at hk <;> cases hk
  · unfold comment at hk
    split at hk
    split at hk <;> cases hk
  · obtain ⟨closing, head, body, hs, hhead, ⟨cs, hcut⟩, hsegment, hstop⟩ := htag
    obtain rfl : t = tagOf pos closing head body := by simpa using hsegment
    exact ⟨closing, head, body, cs, hcut, hhead, hs, rfl, hstop⟩

/-- A slash alone between the head and the brace has no blanks behind it, or it would be part of the
head. -/
theorem TagCut.isSlashed_iff (h : TagCut claims closing s head body rest) (pos : Nat) :
    (tagOf pos closing head body).IsSlashed ↔ body = ['/'] := by
  constructor
  · rintro ⟨hself, hargs⟩
    have htrim := tagOf_args_append pos closing head body
    rw [hself, hargs] at htrim
    obtain ⟨ws, hbody, hblank⟩ := exists_trimEnd_append body
    rw [← htrim] at hbody
    have hafter := h.splitHead_body
    rw [hbody] at hafter
    obtain ⟨-, hbrace⟩ := slash_of_splitHead hafter rfl
    cases ws with
    | nil => exact hbody
    | cons c ws =>
      obtain rfl : c = '}' := Option.some.inj hbrace
      cases hblank '}' List.mem_cons_self
  · rintro rfl
    have htrim : trimEnd ['/'] = ['/'] := by decide
    simp [Tag.IsSlashed, tagOf, htrim]

/-- White space behind the slash makes it a part of the head. -/
theorem TagCut.slashed (h : TagCut claims false s head ['/'] rest)
    (hclaims : claims (String.ofList (head ++ ['/'])) = true)
    (hpad : ∀ c ∈ pad, isHeadSpace c = true) (hne : pad ≠ []) (more : List Char) :
    TagCut claims false (head ++ ['/'] ++ (pad ++ '}' :: more)) (head ++ ['/']) pad more := by
  obtain ⟨c, pad, rfl⟩ := List.exists_cons_of_ne_nil hne
  have hc : isHeadSpace c = true := hpad c List.mem_cons_self
  have hchars : ∀ d ∈ head ++ ['/'], isHeadChar d = true := by
    have hhead := splitHead_chars s
    rw [h.split] at hhead
    exact List.forall_mem_append.2 ⟨hhead, by simp [isHeadChar]⟩
  have hbrace : c ≠ '}' := by
    rintro rfl
    cases hc
  refine ⟨?_, by simp, hclaims, by simp [endsHead, hc], ?_, fun hcloses => by cases hcloses⟩
  · exact splitHead_chars_append hchars (isHeadChar_of_isHeadSpace hc) hbrace _
  · have hstop : Scan.close .oneBrace 0 none ('}' :: more) = some ([], more) := close_closer rfl
    rw [close_plain_append fun d hd => isPlain_of_isHeadSpace (hpad d hd), hstop]
    simp [prefixed]

/-- With white space behind its slash another tag is found, and the slash is part of its head. -/
theorem TagCut.construct_slashed (h : TagCut claims false s head ['/'] rest)
    (hslash : (tagOf pos false head ['/']).IsSlashed) (hhead : head.head? ≠ some '/')
    (hclaims : claims (String.ofList head ++ "/") = true) (hpad : ∀ c ∈ pad, isHeadSpace c = true)
    (hne : pad ≠ []) (more : List Char) :
    ∃ t', (tagOf pos false head ['/']).Padded (byteLength pad) t' ∧
      construct claims pos ('{' :: (head ++ ['/'] ++ (pad ++ '}' :: more))) =
        .ok (some ⟨some (.tag t'), (tagOf pos false head ['/']).span.stop + byteLength pad,
          more⟩) := by
  have hjoined : String.ofList (head ++ ['/']) = String.ofList head ++ "/" := by simp
  have hfirst : (head ++ ['/']).head? ≠ some '/' := by
    rwa [List.head?_append_of_ne_nil _ h.ne_nil]
  have htag := (h.slashed (hjoined ▸ hclaims) hpad hne more).construct_eq (fun _ => hfirst) pos
  have htext : writtenTag false (head ++ ['/']) pad ++ more =
      '{' :: (head ++ ['/'] ++ (pad ++ '}' :: more)) := by simp [writtenTag]
  have hstop : (tagOf pos false (head ++ ['/']) pad).span.stop =
      (tagOf pos false head ['/']).span.stop + byteLength pad := by
    simp only [tagOf, byteLength_append]
    omega
  have htrim : trimEnd ([] ++ pad) = [] :=
    trimEnd_append fun c hc => isBlank_of_isHeadSpace (hpad c hc)
  rw [List.nil_append] at htrim
  rw [htext, hstop] at htag
  exact ⟨_, .joined hslash hjoined rfl (by simp [tagOf, htrim]), htag⟩

/-- A tag is found again with white space in front of its brace, and in front of any other text. -/
theorem construct_padded {stop : Nat}
    (h : construct claims pos s = .ok (some ⟨some (.tag t), stop, rest⟩)) :
    ∃ front, s = '{' :: (front ++ '}' :: rest) ∧ stop = t.span.stop ∧
      pos + byteLength ('{' :: front) + 1 = t.span.stop ∧
      ∀ pad more, (∀ c ∈ pad, isHeadSpace c = true) →
        (t.IsSlashed → pad ≠ [] ∧ claims (t.head ++ "/") = true) →
        ∃ t', t.Padded (byteLength pad) t' ∧
          construct claims pos ('{' :: (front ++ (pad ++ '}' :: more))) =
            .ok (some ⟨some (.tag t'), t.span.stop + byteLength pad, more⟩) := by
  obtain ⟨closing, head, body, cs, hcut, hhead, hs, rfl, rfl⟩ := exists_tagCut h
  let front := (if closing then ['/'] else []) ++ head ++ body
  have hwritten : writtenTag closing head body = '{' :: (front ++ ['}']) := rfl
  refine ⟨front, ?_, rfl, ?_, fun pad more hpad hjoins => ?_⟩
  · rw [hs, hwritten]
    simp
  · obtain ⟨-, hclose, -, -⟩ := delimiter_widths
    rw [tagOf_span, hwritten]
    simp only [Span.sized, byteLength_cons, byteLength_append, byteLength_nil, hclose]
    omega
  by_cases hslash : (tagOf pos closing head body).IsSlashed
  · obtain ⟨hne, hclaims⟩ := hjoins hslash
    obtain rfl := (hcut.isSlashed_iff pos).1 hslash
    obtain rfl : closing = false := by
      cases closing with
      | false => rfl
      | true => cases (hcut.bare rfl pos).1.symm.trans hslash.1
    exact hcut.construct_slashed hslash (hhead rfl) hclaims hpad hne more
  · have hbody : body ≠ ['/'] := fun heq => hslash ((hcut.isSlashed_iff pos).2 heq)
    have htag := (hcut.padded hpad (.inr hbody) more).construct_eq hhead pos
    have htext : writtenTag closing head (body ++ pad) ++ more =
        '{' :: (front ++ (pad ++ '}' :: more)) := by simp [writtenTag, front]
    rw [htext, tagOf_padded hpad] at htag
    exact ⟨_, .widened hslash, htag⟩

end Scan

/-- What stands in front of a tag is scanned without regard to what the tag is. -/
theorem scanFrom_in_front {segments : List Segment} (h : scanFrom claims pos s = .ok segments)
    (ht : .tag t ∈ segments) :
    ∃ lead inner stop rest before after, s = lead ++ '{' :: inner ∧
      segments = before ++ .tag t :: after ∧
      Scan.construct claims (pos + byteLength lead) ('{' :: inner) =
        .ok (some ⟨some (.tag t), stop, rest⟩) ∧
      scanFrom claims stop rest = .ok after ∧
      ∀ inner' t' after',
        scanFrom claims (pos + byteLength lead) ('{' :: inner') = .ok (.tag t' :: after') →
        scanFrom claims pos (lead ++ '{' :: inner') = .ok (before ++ .tag t' :: after') := by
  fun_induction scanFrom claims pos s generalizing segments with
  | case1 =>
    cases h
    cases ht
  | case2 => cases h
  | case3 pos c cs hnone ih =>
    obtain ⟨behind, hbehind, rfl⟩ := map_eq_ok_iff.1 h
    obtain ⟨lead, inner, stop, rest, before, after, rfl, rfl, hfound, hafter, hagain⟩ :=
      ih hbehind (Scan.mem_addText ht)
    have hwidth : pos + byteLength (c :: lead) = pos + c.utf8Size + byteLength lead := by
      rw [byteLength_cons, Nat.add_assoc]
    refine ⟨c :: lead, inner, stop, rest, Scan.addText pos c before, after, rfl,
      Scan.addText_append_tag .., hwidth ▸ hfound, hafter, fun inner' t' after' hmore => ?_⟩
    have hfirst : c :: lead ≠ ['{'] := by
      rintro ⟨⟩
      obtain ⟨_, -, hk⟩ := map_eq_ok_iff.1 hnone
      cases hk
    have hnone' : Scan.construct claims pos (c :: (lead ++ '{' :: inner')) = .ok none :=
      Scan.construct_append_none (by simp) hnone (List.cons_ne_nil c lead) hfirst inner'
    rw [List.cons_append, scanFrom_of_none hnone', hagain inner' t' after' (hwidth ▸ hmore),
      ← Scan.addText_append_tag]
    rfl
  | case4 pos c cs segment stop rest hsome ih =>
    obtain ⟨behind, hbehind, rfl⟩ := map_eq_ok_iff.1 h
    rcases List.mem_append.1 ht with hfirst | hmore
    · obtain rfl : segment = some (.tag t) := Option.mem_toList.1 hfirst
      obtain rfl : '{' = c := by
        by_contra hne
        cases (Scan.construct_of_ne hne pos).symm.trans hsome
      exact ⟨[], cs, stop, rest, [], behind, rfl, rfl, hsome, hbehind, fun _ _ _ hmore => hmore⟩
    · obtain ⟨lead, inner, stop', rest', before, after, rfl, rfl, hfound, hafter, hagain⟩ :=
        ih hbehind hmore
      obtain ⟨written, hs, hwritten⟩ := Scan.construct_again hsome
      obtain ⟨written', hs', hstop, -⟩ := Scan.construct_isPiece hsome
      obtain rfl : written = written' := List.append_cancel_right (hs.symm.trans hs')
      have hwidth : pos + byteLength (written ++ lead) = stop + byteLength lead := by
        rw [byteLength_append, ← Nat.add_assoc, ← hstop]
      refine ⟨written ++ lead, inner, stop', rest', segment.toList ++ before, after, ?_,
        (List.append_assoc ..).symm, hwidth ▸ hfound, hafter, fun inner' t' after' hmore => ?_⟩
      · rw [hs, List.append_assoc]
      · rw [List.append_assoc, scanFrom_of_some (hwritten _),
          hagain inner' t' after' (hwidth ▸ hmore)]
        exact congrArg Except.ok (List.append_assoc ..).symm

/-- White space in front of the brace of a tag changes the tag alone, and what follows stands
further behind. -/
theorem scanFrom_padded {segments : List Segment} (h : scanFrom claims pos s = .ok segments)
    (ht : .tag t ∈ segments) :
    ∃ front back before after, s = front ++ '}' :: back ∧
      pos + byteLength front + 1 = t.span.stop ∧ segments = before ++ .tag t :: after ∧
      ∀ pad, (∀ c ∈ pad, Scan.isHeadSpace c = true) →
        (t.IsSlashed → pad ≠ [] ∧ claims (t.head ++ "/") = true) →
        ∃ t', t.Padded (byteLength pad) t' ∧
          scanFrom claims pos (front ++ (pad ++ '}' :: back)) =
            .ok (before ++ .tag t' :: after.map (Segment.shift (byteLength pad))) := by
  obtain ⟨lead, inner, stop, rest, before, after, rfl, rfl, hfound, hafter, hagain⟩ :=
    scanFrom_in_front h ht
  obtain ⟨front, hfront, rfl, hstop, hpadded⟩ := Scan.construct_padded hfound
  refine ⟨lead ++ '{' :: front, rest, before, after, ?_, ?_, rfl, fun pad hpad hjoins => ?_⟩
  · rw [hfront, List.append_assoc]
    rfl
  · rw [byteLength_append, ← Nat.add_assoc pos, hstop]
  · obtain ⟨t', ht', htag⟩ := hpadded pad rest hpad hjoins
    have hbehind := scanFrom_shift claims (byteLength pad) t.span.stop rest
    rw [hafter] at hbehind
    refine ⟨t', ht', ?_⟩
    rw [List.append_assoc]
    exact hagain _ _ _ (scanFrom_construct htag hbehind)

/-- A closing tag does not close itself. -/
theorem Tag.IsSlashed.opens {segments : List Segment} (hslash : t.IsSlashed)
    (h : scanFrom claims pos s = .ok segments) (ht : .tag t ∈ segments) : t.closing = false := by
  obtain ⟨pieces, htiles, hpieces, -⟩ := exists_tiles h
  obtain ⟨_, -, hwritten⟩ := htiles.stands (.tag t) (hpieces ▸ ht)
  cases hclosing : t.closing with
  | false => rfl
  | true => cases (Tag.WrittenAs.closing hwritten hclosing).1.symm.trans hslash.1

end

/-! ## Templates -/

/-- A longer tag displaces what stands behind it. -/
theorem Segment.displaced_widen (before after : List Segment) (t : Tag) (n : Nat) :
    List.Forall₂ Displaced (before ++ .tag t :: after)
      (before ++ .tag (t.widen n) :: after.map (shift n)) := by
  have hbefore : List.Forall₂ Displaced before before :=
    List.forall₂_same.2 fun segment _ => .refl segment
  have hafter : List.Forall₂ Displaced after (after.map (shift n)) :=
    List.forall₂_map_right_iff.2 (List.forall₂_same.2 fun segment _ => .shift n segment)
  exact List.rel_append hbefore (.cons (.tag (.mk 0 (t.widen n).span)) hafter)

section
variable {tags : TagSet} {segments : List Segment} {nodes : List Node} {rule : TagRule} {t : Tag}
  {head : String}

/-- A tag of a component or a slot that has no arguments can be read only if its head holds the name
of a component. -/
theorem TagRule.Reads.exists_literal (hown : rule.isOwn = true) (h : rule.Reads t)
    (hargs : t.args = []) :
    ∃ keyword names written name, rule = .component keyword names ∧
      literalName? keyword t.head = some written ∧ canonicalName? written = some name := by
  cases rule with
  | component keyword names =>
    simp only [Reads, hargs] at h
    cases hliteral : literalName? keyword t.head with
    | some written =>
      rw [hliteral] at h
      obtain ⟨⟨name, hname⟩, -⟩ := h
      exact ⟨keyword, names, written, name, rfl, hliteral, hname⟩
    | none =>
      rw [hliteral] at h
      cases h.1
  | slot =>
    obtain ⟨name, hname⟩ := h
    rw [hargs] at hname
    obtain ⟨lexemes, hlexes, hslot⟩ := Grammar.run_eq_ok_iff.1 hname
    cases tokenize_eq_ok_iff.1 hlexes
    cases hslot
  | host => cases hown

/-- A rule that reads a tag without arguments also claims its head with a slash behind it. -/
theorem TagRule.Reads.claims_slash (hown : rule.isOwn = true) (h : rule.Reads t)
    (hargs : t.args = []) : rule.claims (t.head ++ "/") = true := by
  obtain ⟨keyword, names, written, name, rfl, hliteral, -⟩ := h.exists_literal hown hargs
  obtain ⟨-, hhead⟩ := literalName?_eq_some_iff.1 hliteral
  have hjoined : t.head ++ "/" = literalHead keyword (written ++ "/") := by
    rw [hhead, literalHead, String.append_assoc]
    rfl
  simp [claims, literalName?_eq_some_iff.2 ⟨by simp, hjoined⟩]

/-- No tag without arguments is read whose head ends in a slash. -/
theorem TagRule.not_reads_slash (hown : rule.isOwn = true) (hargs : t.args = [])
    (hhead : t.head = head ++ "/") : ¬rule.Reads t := by
  intro h
  obtain ⟨keyword, names, written, name, rfl, hliteral, hname⟩ := h.exists_literal hown hargs
  obtain ⟨hne, hwritten⟩ := literalName?_eq_some_iff.1 hliteral
  -- what stands behind the colon is not empty, so the slash is at its end
  have hlast : written.toList.getLast? = some '/' := by
    have hwritten' : written.toList ≠ [] := by simpa using hne
    calc written.toList.getLast?
      _ = (keyword.toList ++ [':'] ++ written.toList).getLast? :=
        (List.getLast?_append_of_ne_nil _ hwritten').symm
      _ = (head ++ "/").toList.getLast? := by rw [← toList_literalHead, ← hwritten, hhead]
      _ = some '/' := by simp
  obtain ⟨front, hfront⟩ := List.getLast?_eq_some_iff.1 hlast
  rw [← String.ofList_toList (s := written), hfront, canonicalName?_slash] at hname
  cases hname

/-- Where a tag without arguments is read, its head is also claimed with a slash behind it. -/
theorem Parses.claims_slash (hown : tags.IsOwn) (h : Parses tags segments nodes)
    (ht : .tag t ∈ segments) (hopens : t.closing = false) (hargs : t.args = [])
    (hclaims : tags.claims t.head = true) : tags.claims (t.head ++ "/") = true := by
  obtain ⟨rule, hrule⟩ := tags.exists_rule hclaims
  have hmem := TagSet.rule?_mem hrule
  have hreads := h.reads hown.takeBodies _ ht hopens rule hrule
  exact List.any_eq_true.2 ⟨rule, hmem, hreads.claims_slash (hown rule hmem) hargs⟩

/-- No nodes are made of a tag without arguments whose head ends in a slash. -/
theorem Parses.head_ne_slash (hown : tags.IsOwn) (h : Parses tags segments nodes)
    (ht : .tag t ∈ segments) (hopens : t.closing = false) (hargs : t.args = [])
    (hclaims : tags.claims t.head = true) : t.head ≠ head ++ "/" := by
  intro hhead
  obtain ⟨rule, hrule⟩ := tags.exists_rule hclaims
  have hreads := h.reads hown.takeBodies _ ht hopens rule hrule
  exact TagRule.not_reads_slash (hown rule (TagSet.rule?_mem hrule)) hargs hhead hreads

end

/-- White space in front of the brace that ends a tag changes nothing in a template but places, if
the tags are those of components and slots alone. But where a slash is all that stands between the
head of the tag and its brace, there is no template any more. -/
theorem Template.compile_padded {tags : TagSet} (hown : tags.IsOwn) {label source : String}
    {template : Template} (hcompile : compile tags label source = .ok template)
    {segments : List Segment} (hscan : scan tags.claims source.toList = .ok segments) {t : Tag}
    (ht : .tag t ∈ segments) :
    ∃ front back, source.toList = front ++ '}' :: back ∧ byteLength front + 1 = t.span.stop ∧
      ∀ pad, (∀ c ∈ pad, Scan.isHeadSpace c = true) →
        let padded := compile tags label (String.ofList (front ++ (pad ++ '}' :: back)))
        (¬t.IsSlashed → ∃ found, padded = .ok found ∧ found.name = template.name ∧
          found.nodes.map Node.unplaced = template.nodes.map Node.unplaced) ∧
        (t.IsSlashed → pad ≠ [] → ∃ e, padded = .error e) := by
  obtain ⟨_, hscan', hparses, hname⟩ := compile_eq_ok_iff.1 hcompile
  cases hscan.symm.trans hscan'
  obtain ⟨front, back, before, after, hsource, hstop, rfl, hpadded⟩ := scanFrom_padded hscan ht
  rw [Nat.zero_add] at hstop
  refine ⟨front, back, hsource, hstop, fun pad hpad => ⟨fun hslash => ?_, fun hslash hne => ?_⟩⟩
  · obtain ⟨t', ht', hscanned⟩ := hpadded pad hpad fun hslashed => absurd hslashed hslash
    cases ht' with
    | joined hslashed => exact absurd hslashed hslash
    | widened =>
      obtain ⟨nodes, hnodes, hsame⟩ := hparses.displaced hown (Segment.displaced_widen ..)
      refine ⟨⟨label, nodes⟩, compile_eq_ok_iff.2 ⟨_, ?_, hnodes, rfl⟩, hname.symm, hsame⟩
      rw [String.toList_ofList]
      exact hscanned
  · -- the tag names a component, so another tag does whose head has the slash at its end
    have hclaims := hparses.claims_slash hown ht (hslash.opens hscan ht) hslash.2
      (scanFrom_claims hscan ht)
    obtain ⟨t', ht', hscanned⟩ := hpadded pad hpad fun _ => ⟨hne, hclaims⟩
    cases ht' with
    | widened hbare => exact absurd hslash hbare
    | joined _ hhead hopens hargs =>
      cases hfound : compile tags label (String.ofList (front ++ (pad ++ '}' :: back))) with
      | error e => exact ⟨e, rfl⟩
      | ok found =>
        obtain ⟨segments, hsegments, hparses', -⟩ := compile_eq_ok_iff.1 hfound
        rw [String.toList_ofList] at hsegments
        cases hscanned.symm.trans hsegments
        rw [← hhead] at hclaims
        exact absurd hhead (hparses'.head_ne_slash hown (by simp) hopens hargs hclaims)

/-- The closing tag of an invocation that has a bare name and a slot, and a tag in front of it whose
slash joins its head. -/
theorem Template.compile_padded_closing :
    let tags : TagSet := [.component "x" ["main"], .slot "slot"]
    let source := "\x7bx:b/\x7d{x:a k}{slot s}{/slot}{/x:a}"
    let t : Tag := ⟨"x:a", true, false, [], ⟨33, 33⟩, ⟨28, 34⟩⟩
    tags.IsOwn ∧ ∃ template segments, compile tags "page" source = .ok template ∧
      scan tags.claims source.toList = .ok segments ∧ .tag t ∈ segments ∧
      ∃ front back, source.toList = front ++ '}' :: back ∧ byteLength front + 1 = 34 ∧
        ∀ pad, (∀ c ∈ pad, Scan.isHeadSpace c = true) →
          let padded := compile tags "page" (String.ofList (front ++ (pad ++ '}' :: back)))
          (¬t.IsSlashed → ∃ found, padded = .ok found ∧ found.name = template.name ∧
            found.nodes.map Node.unplaced = template.nodes.map Node.unplaced) ∧
          (t.IsSlashed → pad ≠ [] → ∃ e, padded = .error e) := by
  intro tags source t
  have hown : tags.IsOwn := by simp [tags, TagSet.IsOwn, TagRule.isOwn]
  have hcompile : compile tags "page" source = .ok ⟨"page", [
      .component ⟨0, 6⟩ (.literal "b") [] [] [],
      .component ⟨6, 34⟩ (.literal "a") [.named "k" ⟨11, 12⟩ none] []
        [(⟨⟨13, 28⟩, "s", ⟨19, 20⟩⟩, [])]]⟩ := by cbv
  have hscan : scan tags.claims source.toList = .ok
      [.tag ⟨"x:b", false, true, [], ⟨4, 4⟩, ⟨0, 6⟩⟩,
        .tag ⟨"x:a", false, false, [' ', 'k'], ⟨10, 12⟩, ⟨6, 13⟩⟩,
        .tag ⟨"slot", false, false, [' ', 's'], ⟨18, 20⟩, ⟨13, 21⟩⟩,
        .tag ⟨"slot", true, false, [], ⟨27, 27⟩, ⟨21, 28⟩⟩, .tag t] := by cbv
  exact ⟨hown, _, _, hcompile, hscan, by simp,
    compile_padded (t := t) hown hcompile hscan (by simp)⟩

/-- A slash behind the head of a tag is part of the head if a blank follows it, and no name of a
component ends in one. -/
theorem Template.slash_joins_head :
    let tags : TagSet := [.component "x" ["main"], .slot "slot"]
    let t : Tag := ⟨"x:a", false, true, [], ⟨4, 4⟩, ⟨0, 6⟩⟩
    tags.IsOwn ∧ t.IsSlashed ∧
      scan tags.claims "\x7bx:a/\x7d".toList = .ok [.tag t] ∧
      compile tags "page" "\x7bx:a/\x7d" =
        .ok ⟨"page", [.component ⟨0, 6⟩ (.literal "a") [] [] []]⟩ ∧
      compile tags "page" "\x7bx:a/ \x7d" =
        .error { span := ⟨0, 7⟩, fault := .invalidComponentName "a/" } := by
  refine ⟨?_, ⟨rfl, rfl⟩, ?_, ?_, ?_⟩
  · simp [TagSet.IsOwn, TagRule.isOwn]
  · cbv
  · cbv
  · cbv

end SlotTemplates
