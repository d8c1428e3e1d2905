import SlotTemplates.Proofs.Syntax.LiteralNames
import SlotTemplates.Proofs.Syntax.Tiling

/-!
# The header of a component and its template

A file is read twice: `splitHeader` takes the header at its front for the declaration, and the
scanner drops a comment there. Both cut the same text out of it (`header_agrees`): the scanner reads
the blanks before the header and what follows it as if the header did not stand between them, but
for the places in the rest (`Scan.moved`), and where one of the two does not find the end of the
header the other does not either.

Scanning the rest does not depend on where it stands (`scanFrom_shift`), and characters that are no
braces join the text in front of what is scanned after them (`scanFrom_append`).
-/

namespace SlotTemplates

/-- The same tag in a source that has `offset` more bytes in front. -/
def Tag.shift (offset : Nat) (t : Tag) : Tag :=
  { t with argsSpan := t.argsSpan.shift offset, span := t.span.shift offset }

/-- The same segment in a source that has `offset` more bytes in front. -/
def Segment.shift (offset : Nat) : Segment → Segment
  | .text span content => .text (span.shift offset) content
  | .output span inner source => .output (span.shift offset) (inner.shift offset) source
  | .tag t => .tag (t.shift offset)

theorem Segment.span_shift (offset : Nat) (segment : Segment) :
    (segment.shift offset).span = segment.span.shift offset := by
  cases segment <;> rfl

namespace Scan

/-- What is found in a source, or its error, if `offset` more bytes stand in front. -/
def moved {α : Type} (offset : Nat) (move : α → α) (found : Except SyntaxError α) :
    Except SyntaxError α :=
  (found.map move).mapError (SyntaxError.shift offset)

/-- The same construct in a source that has `offset` more bytes in front. -/
def Construct.shift (offset : Nat) (k : Construct) : Construct :=
  ⟨k.segment.map (Segment.shift offset), k.stop + offset, k.rest⟩

theorem moved_ok {α : Type} (offset : Nat) (move : α → α) (a : α) :
    moved offset move (.ok a) = .ok (move a) := rfl

theorem moved_error {α : Type} (offset : Nat) (move : α → α) (e : SyntaxError) :
    moved offset move (.error e) = .error (e.shift offset) := rfl

/-! ## Moving what is scanned -/

theorem shift_mk (offset start stop : Nat) :
    (Span.mk start stop).shift offset = ⟨start + offset, stop + offset⟩ := rfl

section
variable {claims : String → Bool} (offset pos : Nat) (s : List Char)

theorem output_shift :
    output (pos + offset) s = moved offset (Construct.shift offset) (output pos s) := by
  unfold output
  cases close .twoBraces 0 none s with
  | none => rw [moved_error, SyntaxError.shift, Span.shift_sized]
  | some found =>
    obtain ⟨inner, rest⟩ := found
    have hinner : Span.sized (pos + offset + 2) (byteLength inner) =
        (Span.sized (pos + 2) (byteLength inner)).shift offset := by
      rw [Span.shift_sized, Nat.add_right_comm]
    simp only [moved_ok, Construct.shift, hinner, Span.shift_stop, Option.map_some, Segment.shift,
      shift_mk, Nat.add_right_comm _ 2 offset]

theorem comment_shift :
    comment (pos + offset) s = moved offset (Construct.shift offset) (comment pos s) := by
  unfold comment
  generalize (if headerOpen.isPrefixOf s then (5, headerClose) else (2, commentClose)) = opening
  obtain ⟨opened, mark⟩ := opening
  dsimp only
  cases splitAt? mark (s.drop opened) with
  | none => rw [moved_error, SyntaxError.shift, Span.shift_sized]
  | some found =>
    obtain ⟨body, rest⟩ := found
    simp only [moved_ok, Construct.shift, Option.map_none, Nat.add_right_comm _ offset]

theorem tagOf_shift (closing : Bool) (head body : List Char) :
    tagOf (pos + offset) closing head body = (tagOf pos closing head body).shift offset := by
  simp only [tagOf, Tag.shift, Span.shift_sized, shift_mk, Nat.add_right_comm _ offset]

theorem tag_shift (closing : Bool) :
    tag claims (pos + offset) closing s =
      moved offset (Option.map (Construct.shift offset)) (tag claims pos closing s) := by
  unfold tag
  generalize splitHead s = split
  obtain ⟨head, more⟩ := split
  dsimp only
  split
  · rfl
  cases close .oneBrace 0 none more with
  | none => simp only [moved_error, SyntaxError.shift, Span.shift_sized]
  | some found =>
    obtain ⟨body, rest⟩ := found
    simp only [tagOf_shift]
    generalize tagOf pos closing head body = t
    by_cases hargs : (closing && (t.selfClosing || !allBlank t.args)) = true
    · rw [if_pos hargs]
      exact if_pos hargs
    · rw [if_neg hargs]
      exact if_neg hargs

theorem construct_shift :
    construct claims (pos + offset) s =
      moved offset (Option.map (Construct.shift offset)) (construct claims pos s) := by
  unfold construct
  split
  · next cs =>
    rw [output_shift]
    cases output pos cs <;> rfl
  · next cs =>
    rw [comment_shift]
    cases comment pos ('{' :: '#' :: cs) <;> rfl
  · exact tag_shift ..
  · exact tag_shift ..
  · rfl

theorem addText_shift (c : Char) (segments : List Segment) :
    addText (pos + offset) c (segments.map (Segment.shift offset)) =
      (addText pos c segments).map (Segment.shift offset) := by
  have hone : Span.sized (pos + offset) c.utf8Size =
      (Span.sized pos c.utf8Size).shift offset := by rw [Span.shift_sized]
  match segments with
  | [] | .output .. :: _ | .tag _ :: _ => simp only [addText, List.map, Segment.shift, hone]
  | .text span content :: more =>
    simp only [addText, List.map, Segment.shift, hone, Span.shift_start, Span.shift_stop,
      Nat.add_right_comm _ offset, Nat.add_right_cancel_iff]
    split <;> rfl

end

end Scan

/-! ## Scanning in steps -/

section
variable {claims : String → Bool} {pos : Nat} {s : List Char}

/-- What is scanned does not depend on where it stands, but for its places. -/
theorem scanFrom_shift (claims : String → Bool) (offset pos : Nat) (s : List Char) :
    scanFrom claims (pos + offset) s =
      Scan.moved offset (List.map (Segment.shift offset)) (scanFrom claims pos s) := by
  -- The scan of the text where it was is followed: what it finds is found in the moved text too.
  have hconstruct (pos : Nat) (s : List Char) :
      Scan.construct claims (pos + offset) s = _ := Scan.construct_shift offset pos s
  fun_induction scanFrom claims pos s with
  | case1 => exact scanFrom_nil claims _
  | case2 pos c cs e herror =>
    exact scanFrom_of_error (by rw [hconstruct, herror]; rfl)
  | case3 pos c cs hnone ih =>
    have hmoved := hconstruct pos (c :: cs)
    rw [hnone] at hmoved
    rw [scanFrom_of_none hmoved, Nat.add_right_comm, ih]
    cases scanFrom claims (pos + c.utf8Size) cs with
    | error e => rfl
    | ok segments => exact congrArg Except.ok (Scan.addText_shift offset pos c segments)
  | case4 pos c cs segment stop rest hsome ih =>
    have hmoved := hconstruct pos (c :: cs)
    rw [hsome] at hmoved
    rw [scanFrom_of_some hmoved]
    dsimp only [Scan.Construct.shift]
    rw [ih]
    cases scanFrom claims stop rest with
    | error e => rfl
    | ok segments => cases segment <;> rfl

/-- Characters of text in front of segments that start after them. -/
def Scan.addTexts (pos : Nat) : List Char → List Segment → List Segment
  | [], segments => segments
  | c :: cs, segments => addText pos c (addTexts (pos + c.utf8Size) cs segments)

/-- Where no brace stands, all is text. -/
theorem scanFrom_append {front : List Char} (hfront : '{' ∉ front) (pos : Nat) (s : List Char) :
    scanFrom claims pos (front ++ s) =
      (scanFrom claims (pos + byteLength front) s).map (Scan.addTexts pos front) := by
  induction front generalizing pos with
  | nil =>
    cases hs : scanFrom claims pos s <;> simp [hs, Except.map, Scan.addTexts]
  | cons c front ih =>
    have hne : '{' ≠ c := List.ne_of_not_mem_cons hfront
    have hnone : Scan.construct claims pos (c :: (front ++ s)) = .ok none :=
      Scan.construct_of_ne hne pos
    rw [List.cons_append, scanFrom_of_none hnone, ih (List.not_mem_of_not_mem_cons hfront),
      byteLength_cons, Nat.add_assoc]
    cases scanFrom claims (pos + (c.utf8Size + byteLength front)) s <;> rfl

/-- In front of segments that leave a gap, characters are a text of their own. -/
theorem Scan.addTexts_eq {front : List Char} {segments : List Segment}
    (h : ∀ segment ∈ segments, pos + byteLength front < segment.span.start) :
    addTexts pos front segments = textOf pos front ++ segments := by
  induction front generalizing pos with
  | nil => rfl
  | cons c front ih =>
    rw [byteLength_cons, ← Nat.add_assoc] at h
    rw [addTexts, ih h]
    cases front with
    | nil => exact addText_of_lt fun segment hmem _ => h segment hmem
    | cons d front => simp [textOf, addText, Span.sized, Nat.add_assoc]

theorem scanFrom_start_le {segments : List Segment} (h : scanFrom claims pos s = .ok segments) :
    ∀ segment ∈ segments, pos ≤ segment.span.start := by
  obtain ⟨pieces, htiles, rfl, -⟩ := exists_tiles h
  exact htiles.start_le

end

/-! ## Headers -/

/-- A source that opens with a header, cut where the header begins and ends. -/
structure HeaderCut (source blanks header rest : List Char) : Prop where
  source_eq : source = blanks ++ Scan.headerOpen ++ header ++ Scan.headerClose ++ rest
  blank : ∀ c ∈ blanks, isBlank c = true
  first : Scan.IsFirst Scan.headerClose header

/-- The number of bytes up to the end of a header. -/
def headerStop (blanks header : List Char) : Nat :=
  byteLength (blanks ++ Scan.headerOpen ++ header ++ Scan.headerClose)

section
variable {claims : String → Bool} {source blanks header rest more : List Char}

theorem not_brace_of_blank (h : ∀ c ∈ blanks, isBlank c = true) : '{' ∉ blanks := by
  intro hmem
  have hbrace : isBlank '{' = false := by decide
  rw [h _ hmem] at hbrace
  cases hbrace

/-- A source opens with a header or declares nothing. -/
theorem splitHeader_cases (source : List Char) :
    splitHeader source = .ok none ∨
      ∃ blanks more, source = blanks ++ (Scan.headerOpen ++ more) ∧
        (∀ c ∈ blanks, isBlank c = true) ∧
        splitHeader source = (Scan.splitAt? Scan.headerClose more).elim (.error .unterminated)
          fun found => .ok (some found.1) := by
  unfold splitHeader
  dsimp only
  split
  · next hopen =>
    obtain ⟨more, hmore⟩ := List.isPrefixOf_iff_prefix.1 hopen
    refine .inr ⟨source.takeWhile isBlank, more, ?_, fun c => List.mem_takeWhile_imp, ?_⟩
    · rw [hmore, trimStart, List.takeWhile_append_dropWhile]
    · rw [← hmore, List.drop_left]
      split <;> simp_all
  · exact .inl rfl

/-- The text of a header ends at the first mark that closes it. -/
theorem exists_headerCut (h : splitHeader source = .ok (some header)) :
    ∃ blanks rest, HeaderCut source blanks header rest := by
  rcases splitHeader_cases source with hnone | ⟨blanks, more, rfl, hblank, hsplit⟩
  · rw [hnone] at h
    cases h
  rw [hsplit] at h
  cases hfound : Scan.splitAt? Scan.headerClose more with
  | none => rw [hfound] at h; cases h
  | some found =>
    rw [hfound] at h
    obtain ⟨found, rest⟩ := found
    cases h
    obtain ⟨rfl, hfirst⟩ := Scan.splitAt?_eq_some hfound
    exact ⟨blanks, rest, by simp, hblank, hfirst⟩

theorem exists_unterminated (h : splitHeader source = .error .unterminated) :
    ∃ blanks more, source = blanks ++ (Scan.headerOpen ++ more) ∧
      (∀ c ∈ blanks, isBlank c = true) ∧ Scan.splitAt? Scan.headerClose more = none := by
  rcases splitHeader_cases source with hnone | ⟨blanks, more, rfl, hblank, hsplit⟩
  · rw [hnone] at h
    cases h
  rw [hsplit] at h
  cases hfound : Scan.splitAt? Scan.headerClose more with
  | none => exact ⟨blanks, more, rfl, hblank, hfound⟩
  | some found => rw [hfound] at h; cases h

namespace Scan

theorem IsFirst.tail {mark : List Char} {c : Char} (h : IsFirst mark (c :: more)) :
    IsFirst mark more :=
  fun front back heq => h (c :: front) back (by simp [heq])

theorem IsFirst.not_prefix {mark : List Char} {c : Char} (h : IsFirst mark (c :: more))
    (rest : List Char) : ¬ mark <+: c :: (more ++ mark ++ rest) := by
  intro hprefix
  have hwhole : c :: more ++ mark <+: c :: (more ++ mark ++ rest) := ⟨rest, by simp⟩
  have hlength : mark.length ≤ (c :: more ++ mark).length := by
    simp only [List.length_append]
    omega
  obtain ⟨back, hback⟩ := List.prefix_of_prefix_length_le hprefix hwhole hlength
  obtain rfl : back = [] := h [] back (by simpa using hback.symm)
  have hsame := congrArg List.length hback
  simp only [List.append_nil, List.cons_append, List.length_cons, List.length_append] at hsame
  omega

/-- A text is split at the first mark. -/
theorem splitAt?_append {mark body : List Char} (h : IsFirst mark body) (hne : mark ≠ [])
    (rest : List Char) : splitAt? mark (body ++ mark ++ rest) = some (body, rest) := by
  induction body with
  | nil =>
    obtain ⟨c, cs, rfl⟩ := List.exists_cons_of_ne_nil hne
    have hprefix : (c :: cs).isPrefixOf (c :: (cs ++ rest)) = true :=
      List.isPrefixOf_iff_prefix.2 ⟨rest, rfl⟩
    simp [splitAt?, hprefix]
  | cons c body ih =>
    have hnot : ¬ mark.isPrefixOf (c :: (body ++ mark ++ rest)) = true :=
      mt List.isPrefixOf_iff_prefix.1 (h.not_prefix rest)
    rw [List.cons_append, List.cons_append, splitAt?, if_neg hnot, ih h.tail]
    rfl

/-- Behind its opening mark a header is read as a comment. -/
theorem comment_headerOpen (pos : Nat) (s : List Char) :
    comment pos (headerOpen ++ s) =
      (splitAt? headerClose s).elim
        (.error ⟨Span.sized pos 5, .unterminatedComment (String.ofList headerClose), []⟩)
        fun found => .ok
          ⟨none, pos + 5 + byteLength found.1 + byteLength headerClose, found.2⟩ := by
  have hopen : headerOpen.isPrefixOf (headerOpen ++ s) = true :=
    List.isPrefixOf_iff_prefix.2 ⟨s, rfl⟩
  have hdrop : (headerOpen ++ s).drop 5 = s := rfl
  simp only [comment, hopen, if_true, hdrop]
  cases splitAt? headerClose s <;> rfl

theorem construct_headerOpen (pos : Nat) (s : List Char) :
    construct claims pos (headerOpen ++ s) = (comment pos (headerOpen ++ s)).map some := rfl

end Scan

/-- The scanner passes over a header: it reads the blanks before it, and what follows it. -/
theorem HeaderCut.scan_eq (h : HeaderCut source blanks header rest) :
    scan claims source =
      (Scan.moved (headerStop blanks header) (List.map (Segment.shift (headerStop blanks header)))
        (scan claims rest)).map (textOf 0 blanks ++ ·) := by
  have hopen : byteLength Scan.headerOpen = 5 := by decide
  have hclose : byteLength Scan.headerClose = 5 := by decide
  have hstop : byteLength blanks + 5 + byteLength header + byteLength Scan.headerClose =
      headerStop blanks header := by
    simp only [headerStop, byteLength_append, hopen]
  have hconstruct : Scan.construct claims (byteLength blanks)
      (Scan.headerOpen ++ (header ++ Scan.headerClose ++ rest)) =
        .ok (some ⟨none, headerStop blanks header, rest⟩) := by
    rw [Scan.construct_headerOpen, Scan.comment_headerOpen,
      Scan.splitAt?_append h.first (by decide), ← hstop]
    rfl
  have hsource : source = blanks ++ (Scan.headerOpen ++ (header ++ Scan.headerClose ++ rest)) := by
    simp [h.source_eq]
  rw [scan, hsource, scanFrom_append (not_brace_of_blank h.blank), Nat.zero_add,
    scanFrom_of_some hconstruct, scan, ← scanFrom_shift, Nat.zero_add]
  cases hrest : scanFrom claims (headerStop blanks header) rest with
  | error e => rfl
  | ok segments =>
    refine congrArg Except.ok (Scan.addTexts_eq fun segment hmem => ?_)
    have hstart := scanFrom_start_le hrest segment hmem
    omega

/-- No segment has a part of the header. -/
theorem HeaderCut.apart (h : HeaderCut source blanks header rest) {segments : List Segment}
    (hscan : scan claims source = .ok segments) :
    ∀ segment ∈ segments, segment.span.stop ≤ byteLength blanks ∨
      headerStop blanks header ≤ segment.span.start := by
  rw [h.scan_eq] at hscan
  obtain ⟨moved, hmoved, rfl⟩ := map_eq_ok_iff.1 hscan
  cases hrest : scan claims rest with
  | error e =>
    rw [hrest] at hmoved
    cases hmoved
  | ok more =>
    rw [hrest, Scan.moved_ok] at hmoved
    cases hmoved
    intro segment hmem
    rcases List.mem_append.1 hmem with htext | hmore
    · left
      unfold textOf at htext
      split at htext
      · cases htext
      · rw [List.mem_singleton.1 htext]
        simp [Segment.span, Span.sized]
    · right
      obtain ⟨segment, -, rfl⟩ := List.mem_map.1 hmore
      rw [Segment.span_shift]
      exact Nat.le_add_left _ _

/-- Where the end of a header is not found, the comment has none. -/
theorem scan_unterminated (h : splitHeader source = .error .unterminated) :
    ∃ blanks more, source = blanks ++ Scan.headerOpen ++ more ∧ (∀ c ∈ blanks, isBlank c = true) ∧
      scan claims source = .error ⟨Span.sized (byteLength blanks) 5,
        .unterminatedComment (String.ofList Scan.headerClose), []⟩ := by
  obtain ⟨blanks, more, rfl, hblank, hsplit⟩ := exists_unterminated h
  refine ⟨blanks, more, by simp, hblank, ?_⟩
  have hconstruct : Scan.construct claims (byteLength blanks) (Scan.headerOpen ++ more) =
      .error ⟨Span.sized (byteLength blanks) 5,
        .unterminatedComment (String.ofList Scan.headerClose), []⟩ := by
    rw [Scan.construct_headerOpen, Scan.comment_headerOpen, hsplit]
    rfl
  rw [scan, scanFrom_append (not_brace_of_blank hblank), Nat.zero_add,
    scanFrom_of_error hconstruct]
  rfl

end

theorem Declaration.ofSource_eq {source : List Char} {found : Option (List Char)}
    (h : splitHeader source = .ok found) :
    ofSource source = found.elim (.ok {}) ofToml := by
  rw [ofSource, h]
  cases found <;> rfl

/-- What a component is made of comes from its file: the declaration from the header, and the nodes
from what the scanner finds. -/
theorem Catalog.load_eq_ok {cat : Catalog} {name : String} {path : Path} {definition : Definition}
    (h : cat.load name path = .ok definition) :
    ∃ source, cat.files.read path = .ok source ∧
      Declaration.ofSource source.toList = .ok definition.declaration ∧
      ∃ segments, scan cat.tags.claims source.toList = .ok segments ∧
        parseNodes cat.tags segments = .ok definition.template.nodes := by
  obtain ⟨source, hread, h⟩ := bind_eq_ok_iff.1 h
  obtain ⟨declaration, hdeclaration, h⟩ := bind_eq_ok_iff.1 h
  obtain ⟨template, htemplate, h⟩ := bind_eq_ok_iff.1 h
  obtain ⟨segments, hscan, hcompile⟩ := bind_eq_ok_iff.1 (mapError_eq_ok_iff.1 htemplate)
  obtain ⟨nodes, hnodes, hcompile⟩ := bind_eq_ok_iff.1 hcompile
  cases hcompile
  cases h
  exact ⟨source, mapError_eq_ok_iff.1 hread, mapError_eq_ok_iff.1 hdeclaration, segments, hscan,
    hnodes⟩

/-- The header of a file and its template are cut at the same places. -/
theorem header_agrees (claims : String → Bool) (source : List Char) :
    (∀ header, splitHeader source = .ok (some header) →
      Declaration.ofSource source = Declaration.ofToml header ∧
      ∃ blanks rest, HeaderCut source blanks header rest ∧
        scan claims source = (Scan.moved (headerStop blanks header)
          (List.map (Segment.shift (headerStop blanks header)))
          (scan claims rest)).map (textOf 0 blanks ++ ·)) ∧
    (splitHeader source = .error .unterminated →
      ∃ blanks more, source = blanks ++ Scan.headerOpen ++ more ∧
        (∀ c ∈ blanks, isBlank c = true) ∧
        scan claims source = .error ⟨Span.sized (byteLength blanks) 5,
          .unterminatedComment (String.ofList Scan.headerClose), []⟩) ∧
    ∀ (cat : Catalog) (name : String) (path : Path) (definition : Definition),
      cat.load name path = .ok definition →
      ∃ file segments, cat.files.read path = .ok file ∧
        scan cat.tags.claims file.toList = .ok segments ∧
        parseNodes cat.tags segments = .ok definition.template.nodes ∧
        (splitHeader file.toList = .ok none ∧ definition.declaration = {} ∨
          ∃ blanks header rest, splitHeader file.toList = .ok (some header) ∧
            HeaderCut file.toList blanks header rest ∧
            Declaration.ofToml header = .ok definition.declaration ∧
            ∀ segment ∈ segments, segment.span.stop ≤ byteLength blanks ∨
              headerStop blanks header ≤ segment.span.start) := by
  refine ⟨fun header h => ?_, scan_unterminated, fun cat name path definition h => ?_⟩
  · obtain ⟨blanks, rest, hcut⟩ := exists_headerCut h
    exact ⟨Declaration.ofSource_eq h, blanks, rest, hcut, hcut.scan_eq⟩
  · obtain ⟨file, hread, hdeclaration, segments, hscan, hnodes⟩ := Catalog.load_eq_ok h
    refine ⟨file, segments, hread, hscan, hnodes, ?_⟩
    cases hsplit : splitHeader file.toList with
    | error e => rw [Declaration.ofSource, hsplit] at hdeclaration; cases hdeclaration
    | ok found =>
      rw [Declaration.ofSource_eq hsplit] at hdeclaration
      cases found with
      | none => exact .inl ⟨rfl, (Except.ok.inj hdeclaration).symm⟩
      | some header =>
        obtain ⟨blanks, rest, hcut⟩ := exists_headerCut hsplit
        exact .inr ⟨blanks, header, rest, rfl, hcut, hdeclaration, hcut.apart hscan⟩

/-- A header with a mark of another comment and an open output in it, behind a wide blank, and one
that does not end. -/
theorem header_agrees_card :
    let header := "\nstrict = true # #\x7d \x7b\x7b\n"
    let source := "\u3000\x7b#---\nstrict = true # #\x7d \x7b\x7b\n---#\x7d<p>\x7bx:a /\x7d"
    let endless := "\n\x7b#--- #\x7d"
    let cat : Catalog := ⟨.dir [("card.tpl", .file (.text source))], [""], ["tpl"],
      [.component "x" []]⟩
    (splitHeader source.toList = .ok (some header.toList) ∧
      ∃ blanks rest, HeaderCut source.toList blanks header.toList rest) ∧
    (splitHeader endless.toList = .error .unterminated ∧
      ∃ pos, scan cat.tags.claims endless.toList = .error ⟨Span.sized pos 5,
        .unterminatedComment (String.ofList Scan.headerClose), []⟩) ∧
    ∃ definition, cat.load "card" "card.tpl" = .ok definition ∧
      ∃ file segments, cat.files.read "card.tpl" = .ok file ∧
        scan cat.tags.claims file.toList = .ok segments ∧
        parseNodes cat.tags segments = .ok definition.template.nodes := by
  intro header source endless cat
  have hheader : splitHeader source.toList = .ok (some header.toList) := by cbv
  have hendless : splitHeader endless.toList = .error .unterminated := by cbv
  have hload : cat.load "card" "card.tpl" = .ok ⟨"card", "card.tpl", { strict := true },
      ⟨"card.tpl", [.text ⟨0, 3⟩ "\u3000", .text ⟨36, 39⟩ "<p>",
        .component ⟨39, 46⟩ (.literal "a") [] [] []]⟩⟩ :=
    Catalog.load_eq rfl (by cbv) (by cbv)
  obtain ⟨hcut, -, -⟩ := header_agrees cat.tags.claims source.toList
  obtain ⟨-, hunterminated, hloaded⟩ := header_agrees cat.tags.claims endless.toList
  obtain ⟨-, blanks, rest, hcut, -⟩ := hcut _ hheader
  obtain ⟨before, -, -, -, hscan⟩ := hunterminated hendless
  obtain ⟨file, segments, hread, hfile, hnodes, -⟩ := hloaded cat _ _ _ hload
  exact ⟨⟨hheader, blanks, rest, hcut⟩, ⟨hendless, _, hscan⟩, _, hload, file, segments, hread,
    hfile, hnodes⟩

end SlotTemplates
