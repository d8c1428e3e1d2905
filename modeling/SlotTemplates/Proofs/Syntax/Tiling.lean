import SlotTemplates.Proofs.Syntax.Delimiters

/-!
# Segments tile their source

A source that is scanned is a row of pieces (`Tiles`): comments, which are dropped, and segments,
each written as its kind is (`Segment.WrittenAs`). The pieces in their order are the source
(`exists_tiles`), so the places of the segments are in bounds, in order, and apart from each other,
and nothing but comments stands between them (`scan_tiling`).

A character of text is put in front of the segments of what follows it, so two texts touch only if
the scanner has not joined them: `Tiles` says of each text that none stands right behind it, and it
is `Tiles.addText` that keeps this.
-/

namespace SlotTemplates

/-- A text stands at a place in a source that starts at byte `pos`. -/
def Stands (pos : Nat) (source : List Char) (span : Span) (text : List Char) : Prop :=
  ∃ before after, source = before ++ text ++ after ∧
    span = Span.sized (pos + byteLength before) (byteLength text)

namespace Scan

/-- A mark that is put behind a text stands there for the first time. -/
def IsFirst (mark body : List Char) : Prop :=
  ∀ front back, body ++ mark = front ++ mark ++ back → back = []

/-- A comment with its delimiters. It ends at the first mark that closes it. -/
inductive IsComment : List Char → Prop where
  | header {body} (h : IsFirst headerClose body) : IsComment (headerOpen ++ body ++ headerClose)
  | plain {body} (h : IsFirst commentClose body)
      (hopen : ¬ headerOpen <+: ['{', '#'] ++ body ++ commentClose) :
    IsComment (['{', '#'] ++ body ++ commentClose)

end Scan

/-- How a tag is written. -/
structure Tag.WrittenAs (claims : String → Bool) (written : List Char) (t : Tag) : Prop where
  text : ∃ blanks, allBlank blanks = true ∧
    written = Scan.writtenTag t.closing t.head.toList
      (t.args ++ (if t.selfClosing then ['/'] else []) ++ blanks)
  /-- A slash before the head is that of a closing tag. -/
  head : t.closing = false → t.head.toList.head? ≠ some '/'
  /-- A slash at the end is that of a self-closing tag. -/
  args : t.selfClosing = false → t.args.getLast? ≠ some '/'
  argsSpan : t.argsSpan =
    Span.sized (t.span.start + 1 + (if t.closing then 1 else 0) + byteLength t.head.toList)
      (byteLength t.args)
  closing : t.closing = true → t.selfClosing = false ∧ allBlank t.args = true
  claimed : claims t.head = true

namespace Segment

/-- How a segment is written. -/
def WrittenAs (claims : String → Bool) (written : List Char) : Segment → Prop
  | .text _ content => content = written ∧ content ≠ []
  | .output span inner source =>
    written = ['{', '{'] ++ source ++ ['}', '}'] ∧
      inner = Span.sized (span.start + 2) (byteLength source)
  | .tag t => t.WrittenAs claims written

/-- Whether a segment is text. -/
def isText : Segment → Bool
  | .text .. => true
  | _ => false

/-- The byte at which segments end that start at byte `pos`. -/
def stopOf (pos : Nat) (segments : List Segment) : Nat :=
  (segments.getLast?.map fun segment => segment.span.stop).getD pos

/-- The byte at which the first of some segments starts, or else `stop`. -/
def startOf (stop : Nat) (segments : List Segment) : Nat :=
  (segments.head?.map fun segment => segment.span.start).getD stop

end Segment

/-- A part of a source as the scanner cuts it: a segment, or a comment that is dropped. -/
structure Piece where
  segment : Option Segment
  written : List Char

namespace Piece

/-- A piece is a comment, or a segment with its place and as it is written. -/
def IsAt (claims : String → Bool) (pos : Nat) (piece : Piece) : Prop :=
  match piece.segment with
  | none => Scan.IsComment piece.written
  | some segment =>
    segment.span = Span.sized pos (byteLength piece.written) ∧
      segment.WrittenAs claims piece.written

/-- The first of the pieces behind a text is no text. -/
def IsApart (piece : Piece) (behind : List Piece) : Prop :=
  ∀ next ∈ behind.head?, ∀ a ∈ piece.segment, ∀ b ∈ next.segment,
    a.isText = true → b.isText = false

end Piece

/-- Pieces that stand one behind the other from byte `pos` on. -/
inductive Tiles (claims : String → Bool) : Nat → List Piece → Prop where
  | nil {pos} : Tiles claims pos []
  | cons {pos piece pieces} (h : piece.IsAt claims pos) (hapart : piece.IsApart pieces)
      (hrest : Tiles claims (pos + byteLength piece.written) pieces) :
    Tiles claims pos (piece :: pieces)

/-- What the segments of a source cover of it, and how. -/
structure Tiling (claims : String → Bool) (source : List Char) (segments : List Segment) :
    Prop where
  nonempty : ∀ segment ∈ segments, segment.span.start < segment.span.stop
  inBounds : ∀ segment ∈ segments, segment.span.stop ≤ byteLength source
  ordered : segments.Pairwise fun a b => a.span.stop ≤ b.span.start
  /-- Places are given in bytes, and are those of whole characters. -/
  boundaries : ∀ segment ∈ segments,
    String.Pos.Raw.IsValid (String.ofList source) ⟨segment.span.start⟩ ∧
      String.Pos.Raw.IsValid (String.ofList source) ⟨segment.span.stop⟩
  written : ∀ segment ∈ segments,
    ∃ text, Stands 0 source segment.span text ∧ segment.WrittenAs claims text
  textsApart : segments.Pairwise fun a b =>
    a.isText = true → b.isText = true → a.span.stop < b.span.start
  /-- Between two segments, before the first and behind the last one there are comments only. -/
  gaps : ∀ front back, segments = front ++ back →
    ∃ comments : List (List Char), (∀ written ∈ comments, Scan.IsComment written) ∧
      Stands 0 source ⟨Segment.stopOf 0 front, Segment.startOf (byteLength source) back⟩
        comments.flatten
  rebuilt : ∃ pieces, Tiles claims 0 pieces ∧ pieces.filterMap Piece.segment = segments ∧
    pieces.flatMap Piece.written = source

/-! ## Constructs -/

namespace Scan

/-- What a closer is written as. -/
def Closer.mark : Closer → List Char
  | .oneBrace => ['}']
  | .twoBraces => ['}', '}']

/-- A construct is a piece at the front of a text, and no text. -/
def Construct.IsPiece (claims : String → Bool) (pos : Nat) (s : List Char) (k : Construct) :
    Prop :=
  ∃ written, s = written ++ k.rest ∧ k.stop = pos + byteLength written ∧
    Piece.IsAt claims pos ⟨k.segment, written⟩ ∧ ∀ segment ∈ k.segment, segment.isText = false

section
variable {s body rest : List Char}

/-- What is split off ends before the first mark. -/
theorem splitAt?_eq_some {mark : List Char} (h : splitAt? mark s = some (body, rest)) :
    s = body ++ mark ++ rest ∧ IsFirst mark body := by
  induction s generalizing body rest with
  | nil =>
    rw [splitAt?] at h
    split at h
    · next hmark =>
      cases h
      subst hmark
      exact ⟨rfl, fun front back heq => by simp_all⟩
    · cases h
  | cons c cs ih =>
    rw [splitAt?] at h
    split at h
    · next hopen =>
      cases h
      obtain ⟨rest, hrest⟩ := List.isPrefixOf_iff_prefix.1 hopen
      refine ⟨by rw [← hrest]; simp, fun front back heq => ?_⟩
      have hlength := congrArg List.length heq
      simp only [List.length_append, List.length_nil] at hlength
      exact List.eq_nil_of_length_eq_zero (by omega)
    · next hopen =>
      obtain ⟨⟨inner, rest'⟩, hinner, heq⟩ := Option.map_eq_some_iff.1 h
      cases heq
      obtain ⟨rfl, hfirst⟩ := ih hinner
      refine ⟨rfl, fun front back heq => ?_⟩
      cases front with
      | nil =>
        refine absurd (List.isPrefixOf_iff_prefix.2 ⟨back ++ rest, ?_⟩) hopen
        simpa using (congrArg (· ++ rest) heq).symm
      | cons d front => exact hfirst front back (by simpa using (List.cons.inj heq).2)

theorem Closer.strip?_eq_some {closer : Closer} (h : closer.strip? s = some rest) :
    s = closer.mark ++ rest := by
  unfold strip? at h
  split at h <;> cases h <;> rfl

/-- A closer follows on what stands before it. -/
theorem close_eq_some {closer : Closer} {depth : Nat} {quote : Option Char}
    (h : close closer depth quote s = some (body, rest)) : s = body ++ closer.mark ++ rest := by
  fun_induction close closer depth quote s generalizing body rest with
  | case1 | case2 => cases h
  | case3 _ _ _ _ ih =>
    obtain ⟨_, hfirst, rfl⟩ := before_eq_some h
    obtain ⟨_, hmore, rfl⟩ := before_eq_some hfirst
    rw [ih hmore]
    rfl
  | case8 =>
    cases h
    exact Closer.strip?_eq_some (by assumption)
  | _ =>
    rename_i ih
    obtain ⟨_, hmore, rfl⟩ := before_eq_some h
    rw [ih hmore]
    rfl

theorem splitHead_eq (s : List Char) : (splitHead s).1 ++ (splitHead s).2 = s := by
  fun_induction splitHead s with
  | case1 | case2 | case4 => rfl
  | case3 c cs _ _ head rest hr ih =>
    rw [hr] at ih
    exact congrArg (c :: ·) ih

end

section
variable {claims : String → Bool} {pos : Nat} {s : List Char} {k : Construct}

theorem output_isPiece (h : output pos s = .ok k) :
    k.IsPiece claims pos ('{' :: '{' :: s) := by
  unfold output at h
  split at h
  · cases h
  next inner rest hclose =>
  cases h
  let written := ['{', '{'] ++ inner ++ ['}', '}']
  have hstop : pos + 2 + byteLength inner + 2 = pos + byteLength written := by
    have hbraces : byteLength ['{', '{'] = 2 ∧ byteLength ['}', '}'] = 2 := by decide
    simp only [written, byteLength_append, hbraces]
    omega
  refine ⟨written, ?_, hstop, ⟨?_, rfl, rfl⟩, by simp [Segment.isText]⟩
  · rw [close_eq_some hclose]
    simp [written, Closer.mark]
  · exact congrArg (Span.mk pos) hstop

theorem comment_isPiece (h : comment pos s = .ok k) (hs : ['{', '#'] <+: s) :
    k.IsPiece claims pos s := by
  unfold comment at h
  split at h
  next opened mark hmark =>
  split at h
  · cases h
  next body rest hsplit =>
  cases h
  obtain ⟨hrest, hfirst⟩ := splitAt?_eq_some hsplit
  split at hmark
  · next hopen =>
    cases hmark
    obtain ⟨more, rfl⟩ := List.isPrefixOf_iff_prefix.1 hopen
    have hlength : byteLength headerOpen = 5 := by decide
    refine ⟨headerOpen ++ body ++ headerClose, ?_, ?_, .header hfirst, by simp⟩
    · simpa [headerOpen] using hrest
    · simp only [byteLength_append, hlength, Nat.add_assoc]
  · next hopen =>
    cases hmark
    obtain ⟨more, rfl⟩ := hs
    have hmore : more = body ++ commentClose ++ rest := hrest
    have hlength : byteLength ['{', '#'] = 2 := by decide
    refine ⟨['{', '#'] ++ body ++ commentClose, ?_, ?_, .plain hfirst ?_, by simp⟩
    · simp [hmore]
    · simp only [byteLength_append, hlength, Nat.add_assoc]
    · refine fun hplain => hopen (List.isPrefixOf_iff_prefix.2 (hplain.trans ⟨rest, ?_⟩))
      simp [hmore]

/-- Arguments that end in a slash are those of a self-closing tag, without it. -/
theorem tagOf_args_append (pos : Nat) (closing : Bool) (head body : List Char) :
    (tagOf pos closing head body).args ++
        (if (tagOf pos closing head body).selfClosing then ['/'] else []) = trimEnd body := by
  by_cases hslash : (trimEnd body).getLast? = some '/'
  · simpa [tagOf, hslash] using List.dropLast_append_getLast? _ hslash
  · simp [tagOf, hslash]

theorem tagOf_writtenAs {head : List Char} {closing : Bool} (body : List Char)
    (hclaims : claims (String.ofList head) = true)
    (hhead : closing = false → head.head? ≠ some '/')
    (hargs : closing = true → (tagOf pos closing head body).selfClosing = false ∧
      allBlank (tagOf pos closing head body).args = true) :
    (tagOf pos closing head body).WrittenAs claims (writtenTag closing head body) where
  text := by
    obtain ⟨blanks, hbody, hblanks⟩ := exists_trimEnd_append body
    refine ⟨blanks, List.all_eq_true.2 hblanks, ?_⟩
    rw [tagOf_args_append, ← hbody]
    simp [tagOf]
  head := by simpa [tagOf] using hhead
  args := by
    intro hself
    have hargs := tagOf_args_append pos closing head body
    rw [hself] at hargs
    simp only [Bool.false_eq_true, if_false, List.append_nil] at hargs
    rw [hargs]
    simpa [tagOf] using hself
  argsSpan := by
    have hhead : (tagOf pos closing head body).head.toList = head := String.toList_ofList
    rw [hhead]
    rfl
  closing := hargs
  claimed := hclaims

theorem tag_isPiece {closing : Bool} (h : tag claims pos closing s = .ok (some k))
    (hs : closing = false → s.head? ≠ some '/') :
    k.IsPiece claims pos ('{' :: ((if closing then ['/'] else []) ++ s)) := by
  have hsplit := splitHead_eq s
  unfold tag at h
  split at h
  next head more hhead =>
  rw [hhead] at hsplit
  split at h
  · cases h
  next hclaimed =>
  simp only [Bool.or_eq_true, Bool.not_eq_true', not_or, Bool.not_eq_false] at hclaimed
  obtain ⟨⟨hne, hclaims⟩, -⟩ := hclaimed
  split at h
  · cases h
  next body rest hclose =>
  dsimp only at h
  split at h
  · cases h
  next hargs =>
  cases h
  have hspan := tagOf_span pos closing head body
  refine ⟨writtenTag closing head body, ?_, congrArg Span.stop hspan,
    ⟨hspan, tagOf_writtenAs body hclaims ?_ ?_⟩, by simp [Segment.isText]⟩
  · rw [← hsplit, close_eq_some hclose]
    simp [writtenTag, Closer.mark]
  · intro hopens hslash
    obtain ⟨head, rfl⟩ := List.head?_eq_some_iff.1 hslash
    exact hs hopens (by rw [← hsplit]; rfl)
  · intro hcloses
    simpa [hcloses] using hargs

theorem construct_isPiece (h : construct claims pos s = .ok (some k)) :
    k.IsPiece claims pos s := by
  unfold construct at h
  split at h
  · obtain ⟨found, hfound, heq⟩ := map_eq_ok_iff.1 h
    cases heq
    exact output_isPiece hfound
  · obtain ⟨found, hfound, heq⟩ := map_eq_ok_iff.1 h
    cases heq
    exact comment_isPiece hfound (by simp)
  · exact tag_isPiece h nofun
  · next cs _ _ hslash =>
    refine tag_isPiece h fun _ hhead => ?_
    obtain ⟨more, rfl⟩ := List.head?_eq_some_iff.1 hhead
    exact hslash _ rfl
  · cases h

end

end Scan

/-! ## Rows of pieces -/

theorem byteLength_eq_zero_iff {s : List Char} : byteLength s = 0 ↔ s = [] := by
  cases s with
  | nil => simp
  | cons c s =>
    have hpos := c.utf8Size_pos
    simp only [byteLength_cons, List.cons_ne_nil, iff_false]
    omega

section
variable {claims : String → Bool} {pos : Nat} {piece : Piece} {pieces : List Piece}

theorem Scan.IsComment.ne_nil {written : List Char} (h : IsComment written) : written ≠ [] := by
  cases h <;> simp [headerOpen]

theorem Segment.WrittenAs.ne_nil {written : List Char} {segment : Segment}
    (h : segment.WrittenAs claims written) : written ≠ [] := by
  cases segment with
  | text =>
    obtain ⟨rfl, hne⟩ := h
    exact hne
  | output => simp [h.1]
  | tag t =>
    obtain ⟨blanks, -, rfl⟩ := h.text
    simp [Scan.writtenTag]

theorem Piece.IsAt.byteLength_pos (h : piece.IsAt claims pos) : 0 < byteLength piece.written := by
  have hne : piece.written ≠ [] := by
    unfold IsAt at h
    split at h
    · exact h.ne_nil
    · exact h.2.ne_nil
  exact Nat.pos_of_ne_zero (mt byteLength_eq_zero_iff.1 hne)

/-- The place of the segment of a piece. -/
theorem Piece.IsAt.span_eq (h : piece.IsAt claims pos) {segment : Segment}
    (hsegment : piece.segment = some segment) :
    segment.span = Span.sized pos (byteLength piece.written) := by
  rw [IsAt, hsegment] at h
  exact h.1

/-- A character is a text of its own in front of segments that leave a gap behind it. -/
theorem Scan.addText_of_lt {c : Char} {segments : List Segment}
    (h : ∀ segment ∈ segments, segment.isText = true → pos + c.utf8Size < segment.span.start) :
    addText pos c segments = .text (Span.sized pos c.utf8Size) [c] :: segments := by
  unfold addText
  split
  · next span content more =>
    have hlt : pos + c.utf8Size < span.start := h (.text span content) List.mem_cons_self rfl
    exact if_neg (Nat.ne_of_gt hlt)
  · rfl

namespace Tiles

/-- Segments start where the pieces do, or behind. -/
theorem start_le (h : Tiles claims pos pieces) :
    ∀ segment ∈ pieces.filterMap Piece.segment, pos ≤ segment.span.start := by
  induction h with
  | nil => simp
  | @cons pos piece pieces hpiece _ _ ih =>
    intro segment hmem
    obtain ⟨next, hnext, hsegment⟩ := List.mem_filterMap.1 hmem
    rcases List.mem_cons.1 hnext with rfl | hnext
    · rw [hpiece.span_eq hsegment]
      exact Nat.le_refl _
    · have hle := ih segment (List.mem_filterMap.2 ⟨next, hnext, hsegment⟩)
      omega

/-- If no text stands at the front of pieces, texts start further behind. -/
theorem lt_start (h : Tiles claims pos pieces)
    (hfront : ∀ next ∈ pieces.head?, ∀ segment ∈ next.segment, segment.isText = false) :
    ∀ segment ∈ pieces.filterMap Piece.segment, segment.isText = true →
      pos < segment.span.start := by
  intro segment hmem htext
  cases h with
  | nil => simp at hmem
  | @cons _ piece pieces hpiece _ hrest =>
    obtain ⟨next, hnext, hsegment⟩ := List.mem_filterMap.1 hmem
    rcases List.mem_cons.1 hnext with rfl | hnext
    · rw [hfront next rfl segment hsegment] at htext
      cases htext
    · have hle := hrest.start_le segment (List.mem_filterMap.2 ⟨next, hnext, hsegment⟩)
      have hpos := hpiece.byteLength_pos
      omega

/-- A character is a text of its own in front of pieces at whose front no text stands. -/
theorem text_cons (c : Char) (h : Tiles claims (pos + c.utf8Size) pieces)
    (hfront : ∀ next ∈ pieces.head?, ∀ segment ∈ next.segment, segment.isText = false) :
    let text := Segment.text (Span.sized pos c.utf8Size) [c]
    Tiles claims pos (⟨some text, [c]⟩ :: pieces) ∧
      Scan.addText pos c (pieces.filterMap Piece.segment) =
        text :: pieces.filterMap Piece.segment := by
  intro text
  refine ⟨.cons ⟨rfl, rfl, by simp⟩ (fun next hnext _ _ segment hsegment _ =>
    hfront next hnext segment hsegment) h, ?_⟩
  exact Scan.addText_of_lt (h.lt_start hfront)

/-- A character of text in front of pieces is one more piece, or part of the text in front. -/
theorem addText (c : Char) (h : Tiles claims (pos + c.utf8Size) pieces) :
    ∃ more, Tiles claims pos more ∧
      more.filterMap Piece.segment = Scan.addText pos c (pieces.filterMap Piece.segment) ∧
      more.flatMap Piece.written = c :: pieces.flatMap Piece.written := by
  by_cases hfront : ∀ next ∈ pieces.head?, ∀ segment ∈ next.segment, segment.isText = false
  · obtain ⟨htiles, hadd⟩ := h.text_cons c hfront
    exact ⟨_, htiles, hadd.symm, rfl⟩
  · -- A text stands right behind the character, and the two are one.
    push Not at hfront
    obtain ⟨⟨_, written⟩, hnext, segment, rfl, htext⟩ := hfront
    obtain ⟨pieces, rfl⟩ := List.head?_eq_some_iff.1 hnext
    cases segment with
    | output | tag => exact absurd rfl htext
    | text span content =>
      cases h with
      | cons hpiece hapart hrest =>
      obtain rfl : span = Span.sized (pos + c.utf8Size) (byteLength written) := hpiece.1
      obtain rfl : content = written := hpiece.2.1
      refine ⟨⟨some (.text ⟨pos, pos + byteLength (c :: content)⟩ (c :: content)), c :: content⟩ ::
        pieces, .cons ⟨rfl, rfl, by simp⟩ ?_ ?_, ?_, rfl⟩
      · exact fun next hnext _ _ b hb _ => hapart next hnext _ rfl b hb rfl
      · simpa [Nat.add_assoc] using hrest
      · simp [Scan.addText, Span.sized, Nat.add_assoc]

end Tiles

/-- What is scanned is a row of pieces. -/
theorem exists_tiles {s : List Char} {segments : List Segment}
    (h : scanFrom claims pos s = .ok segments) :
    ∃ pieces, Tiles claims pos pieces ∧ pieces.filterMap Piece.segment = segments ∧
      pieces.flatMap Piece.written = s := by
  fun_induction scanFrom claims pos s generalizing segments with
  | case1 =>
    cases h
    exact ⟨[], .nil, rfl, rfl⟩
  | case2 => cases h
  | case3 pos c cs hnone ih =>
    obtain ⟨more, hmore, rfl⟩ := map_eq_ok_iff.1 h
    obtain ⟨pieces, htiles, rfl, rfl⟩ := ih hmore
    exact htiles.addText c
  | case4 pos c cs segment stop rest hfound ih =>
    obtain ⟨more, hmore, rfl⟩ := map_eq_ok_iff.1 h
    obtain ⟨pieces, htiles, rfl, rfl⟩ := ih hmore
    obtain ⟨written, hwritten, hstop, hpiece, hnot⟩ := Scan.construct_isPiece hfound
    dsimp only at hwritten hstop hpiece hnot
    subst hstop
    refine ⟨⟨segment, written⟩ :: pieces, .cons hpiece ?_ htiles, ?_, hwritten.symm⟩
    · intro next _ a ha b _ htext
      rw [hnot a ha] at htext
      cases htext
    · cases segment <;> rfl

end

/-! ## Places -/

section
variable {pos : Nat} {source text : List Char} {span : Span}

namespace Stands

theorem behind (front : List Char) (h : Stands (pos + byteLength front) source span text) :
    Stands pos (front ++ source) span text := by
  obtain ⟨before, after, rfl, rfl⟩ := h
  exact ⟨front ++ before, after, by simp, by simp [Nat.add_assoc]⟩

/-- What stands at the start of a source has nothing before it. -/
theorem of_start {stop : Nat} (h : Stands pos source ⟨pos, stop⟩ text) :
    ∃ after, source = text ++ after ∧ stop = pos + byteLength text := by
  obtain ⟨before, after, rfl, hspan⟩ := h
  obtain ⟨hstart, hstop⟩ := Span.mk.inj hspan
  obtain rfl : before = [] := byteLength_eq_zero_iff.1 (by omega)
  exact ⟨after, rfl, hstop⟩

theorem nonempty (h : Stands pos source span text) (hne : text ≠ []) : span.start < span.stop := by
  obtain ⟨before, after, rfl, rfl⟩ := h
  have hpos := Nat.pos_of_ne_zero (mt byteLength_eq_zero_iff.1 hne)
  simp only [Span.sized]
  omega

theorem stop_le (h : Stands pos source span text) : span.stop ≤ pos + byteLength source := by
  obtain ⟨before, after, rfl, rfl⟩ := h
  simp only [Span.sized, byteLength_append]
  omega

end Stands

theorem byteLength_eq_utf8ByteSize (s : List Char) :
    byteLength s = (String.ofList s).utf8ByteSize := by
  induction s with
  | nil => rfl
  | cons c s ih =>
    rw [byteLength_cons, ih, String.utf8ByteSize_ofList, String.utf8ByteSize_ofList]
    exact Nat.add_comm _ _

theorem isValid_byteLength (before after : List Char) :
    String.Pos.Raw.IsValid (String.ofList (before ++ after)) ⟨byteLength before⟩ := by
  rw [String.Pos.Raw.isValid_iff_exists_append]
  exact ⟨_, _, String.ofList_append, by
    rw [byteLength_eq_utf8ByteSize]; rfl⟩

/-- A place of some text starts and stops between two characters. -/
theorem Stands.isValid (h : Stands 0 source span text) :
    String.Pos.Raw.IsValid (String.ofList source) ⟨span.start⟩ ∧
      String.Pos.Raw.IsValid (String.ofList source) ⟨span.stop⟩ := by
  obtain ⟨before, after, rfl, rfl⟩ := h
  have hstart := isValid_byteLength before (text ++ after)
  have hstop := isValid_byteLength (before ++ text) after
  simpa [Span.sized] using And.intro hstart hstop

end

theorem Segment.stopOf_cons (pos : Nat) (first : Segment) (segments : List Segment) :
    stopOf pos (first :: segments) = stopOf first.span.stop segments := by
  rw [stopOf, List.getLast?_cons]
  cases hlast : segments.getLast? <;> simp [stopOf, hlast]

section
variable {claims : String → Bool} {pos : Nat} {pieces : List Piece}

namespace Tiles

/-- Segments stand in the source as they are written. -/
theorem stands (h : Tiles claims pos pieces) :
    ∀ segment ∈ pieces.filterMap Piece.segment,
      ∃ text, Stands pos (pieces.flatMap Piece.written) segment.span text ∧
        segment.WrittenAs claims text := by
  induction h with
  | nil => simp
  | @cons pos piece pieces hpiece _ _ ih =>
    intro segment hmem
    obtain ⟨next, hnext, hsegment⟩ := List.mem_filterMap.1 hmem
    rcases List.mem_cons.1 hnext with rfl | hnext
    · rw [Piece.IsAt, hsegment] at hpiece
      obtain ⟨hspan, hwritten⟩ := hpiece
      exact ⟨next.written, ⟨[], _, rfl, hspan⟩, hwritten⟩
    · obtain ⟨text, hstands, hwritten⟩ := ih segment (List.mem_filterMap.2 ⟨next, hnext, hsegment⟩)
      exact ⟨text, hstands.behind piece.written, hwritten⟩

theorem nonempty (h : Tiles claims pos pieces) :
    ∀ segment ∈ pieces.filterMap Piece.segment, segment.span.start < segment.span.stop := by
  intro segment hmem
  obtain ⟨text, hstands, hwritten⟩ := h.stands segment hmem
  exact hstands.nonempty hwritten.ne_nil

theorem stop_le (h : Tiles claims pos pieces) :
    ∀ segment ∈ pieces.filterMap Piece.segment,
      segment.span.stop ≤ pos + byteLength (pieces.flatMap Piece.written) := by
  intro segment hmem
  obtain ⟨text, hstands, -⟩ := h.stands segment hmem
  exact hstands.stop_le

theorem ordered (h : Tiles claims pos pieces) :
    (pieces.filterMap Piece.segment).Pairwise fun a b => a.span.stop ≤ b.span.start := by
  induction h with
  | nil => exact .nil
  | @cons pos piece pieces hpiece _ hrest ih =>
    cases hsegment : piece.segment with
    | none => rwa [List.filterMap_cons_none hsegment]
    | some segment =>
      rw [List.filterMap_cons_some hsegment]
      refine .cons ?_ ih
      rw [hpiece.span_eq hsegment]
      exact hrest.start_le

theorem textsApart (h : Tiles claims pos pieces) :
    (pieces.filterMap Piece.segment).Pairwise fun a b =>
      a.isText = true → b.isText = true → a.span.stop < b.span.start := by
  induction h with
  | nil => exact .nil
  | @cons pos piece pieces hpiece hapart hrest ih =>
    cases hsegment : piece.segment with
    | none => rwa [List.filterMap_cons_none hsegment]
    | some segment =>
      rw [List.filterMap_cons_some hsegment]
      refine .cons (fun b hb htext => ?_) ih
      rw [hpiece.span_eq hsegment]
      exact hrest.lt_start (fun next hnext c hc => hapart next hnext segment hsegment c hc htext) b hb

/-- Between any segments and those that follow them there are comments only. -/
theorem gaps (h : Tiles claims pos pieces) {front back : List Segment}
    (hsplit : pieces.filterMap Piece.segment = front ++ back) :
    ∃ comments : List (List Char), (∀ written ∈ comments, Scan.IsComment written) ∧
      Stands pos (pieces.flatMap Piece.written)
        ⟨Segment.stopOf pos front,
          Segment.startOf (pos + byteLength (pieces.flatMap Piece.written)) back⟩
        comments.flatten := by
  induction h generalizing front with
  | nil =>
    obtain ⟨rfl, rfl⟩ := List.append_eq_nil_iff.1 hsplit.symm
    exact ⟨[], nofun, [], [], rfl, rfl⟩
  | @cons pos piece pieces hpiece _ _ ih =>
    rw [List.flatMap_cons, byteLength_append, ← Nat.add_assoc]
    cases hsegment : piece.segment with
    | none =>
      rw [List.filterMap_cons_none hsegment] at hsplit
      obtain ⟨comments, hcomments, hstands⟩ := ih hsplit
      cases front with
      | cons segment front =>
        rw [Segment.stopOf_cons] at hstands ⊢
        exact ⟨comments, hcomments, hstands.behind piece.written⟩
      | nil =>
        rw [Piece.IsAt, hsegment] at hpiece
        obtain ⟨after, hrest, hstop⟩ := hstands.of_start
        refine ⟨piece.written :: comments, List.forall_mem_cons.2 ⟨hpiece, hcomments⟩, [], after,
          by simp [hrest], ?_⟩
        rw [hstop]
        simp [Segment.stopOf, Span.sized, Nat.add_assoc]
    | some segment =>
      rw [List.filterMap_cons_some hsegment] at hsplit
      have hspan := hpiece.span_eq hsegment
      cases front with
      | nil =>
        obtain rfl : segment :: _ = back := hsplit
        exact ⟨[], nofun, [], _, rfl, by simp [Segment.stopOf, Segment.startOf, hspan, Span.sized]⟩
      | cons first front =>
        obtain ⟨rfl, hmore⟩ := List.cons.inj hsplit
        obtain ⟨comments, hcomments, hstands⟩ := ih hmore
        refine ⟨comments, hcomments, ?_⟩
        rw [Segment.stopOf_cons, hspan]
        exact hstands.behind piece.written

end Tiles

/-- The segments of a source that is scanned tile it. -/
theorem scan_tiling {source : List Char} {segments : List Segment}
    (h : scan claims source = .ok segments) : Tiling claims source segments := by
  obtain ⟨pieces, htiles, rfl, rfl⟩ := exists_tiles h
  refine ⟨htiles.nonempty, by simpa using htiles.stop_le, htiles.ordered, ?_, htiles.stands,
    htiles.textsApart, ?_, pieces, htiles, rfl, rfl⟩
  · intro segment hmem
    obtain ⟨text, hstands, -⟩ := htiles.stands segment hmem
    exact hstands.isValid
  · intro front back hsplit
    simpa using htiles.gaps hsplit

end

/-- Every kind of segment, and two comments with a mark of the other kind in each. -/
theorem scan_tiling_mixed :
    let source :=
      "é\x7b# - #\x7d\x7b\x7b a \x7d\x7d\x7bx b=\x7bc: d\x7d /\x7d\x7b#--- #\x7d ---#\x7de\x7b/x\x7d"
    ∃ segments, scan (· == "x") source.toList = .ok segments ∧
      segments.map Segment.span = [⟨0, 2⟩, ⟨9, 16⟩, ⟨16, 30⟩, ⟨44, 45⟩, ⟨45, 49⟩] ∧
      Tiling (· == "x") source.toList segments := by
  intro source
  have hscan : scan (· == "x") source.toList = .ok
      [.text ⟨0, 2⟩ ['é'], .output ⟨9, 16⟩ ⟨11, 14⟩ [' ', 'a', ' '],
        .tag ⟨"x", false, true, " b=\x7bc: d\x7d ".toList, ⟨18, 28⟩, ⟨16, 30⟩⟩, .text ⟨44, 45⟩ ['e'],
        .tag ⟨"x", true, false, [], ⟨48, 48⟩, ⟨45, 49⟩⟩] := by cbv
  exact ⟨_, hscan, rfl, scan_tiling hscan⟩

end SlotTemplates
