import SlotTemplates.Proofs.Component.Name
import SlotTemplates.Proofs.Syntax.Nesting
import SlotTemplates.Proofs.Syntax.Sources
import SlotTemplates.Proofs.Syntax.Tokens
import SlotTemplates.Proofs.Text.Trim
import SlotTemplates.Render.Environment

/-!
# Delimiters

The scanner looks for the end of an output or a tag by counting braces and quotes, without reading
tokens. It finds the same end as the grammar: what an expression or attributes are written with is
passed over whole (`Scan.close_source`), since tokens hold no brace outside of a quoted text but
those that are tokens of their own (`Scan.close_written`), and those are balanced.
-/

namespace SlotTemplates

namespace Scan

/-! ## Passing over tokens -/

/-- A text put in front of what stands before a closer. -/
def prefixed (w : List Char) (found : Option (List Char × List Char)) :
    Option (List Char × List Char) :=
  found.map fun (body, rest) => (w ++ body, rest)

theorem prefixed_nil (found : Option (List Char × List Char)) : prefixed [] found = found := by
  cases found <;> rfl

theorem before_prefixed (c : Char) (w : List Char) (found : Option (List Char × List Char)) :
    before c (prefixed w found) = prefixed (c :: w) found := by
  cases found <;> rfl

theorem prefixed_prefixed (v w : List Char) (found : Option (List Char × List Char)) :
    prefixed v (prefixed w found) = prefixed (v ++ w) found := by
  cases found <;> simp [prefixed]

section
variable {closer : Closer} {depth depth' : Nat}

theorem close_plain {c : Char} (hc : Token.isPlain c = true) (cs : List Char) :
    close closer depth none (c :: cs) = before c (close closer depth none cs) := by
  simp only [Token.isPlain, Bool.and_eq_true, decide_eq_true_eq] at hc
  obtain ⟨⟨⟨⟨hdouble, hsingle⟩, hopen⟩, hclose⟩, -⟩ := hc
  simp [close, hdouble, hsingle, hopen, hclose]

theorem close_plain_append {written : List Char} (h : ∀ c ∈ written, Token.isPlain c = true)
    (more : List Char) :
    close closer depth none (written ++ more) =
      prefixed written (close closer depth none more) := by
  induction written with
  | nil => exact (prefixed_nil _).symm
  | cons c written ih =>
    rw [List.cons_append, close_plain (h c List.mem_cons_self),
      ih fun d hd => h d (List.mem_cons_of_mem _ hd), before_prefixed]

/-- A quoted text is passed over up to its closing quote. -/
theorem close_quoted {quote : Char} (hquote : quote ≠ '\\') {cs value inner rest : List Char}
    (h : Token.readQuoted quote cs = .closed value inner rest) (more : List Char) :
    close closer depth (some quote) (inner ++ more) =
      prefixed inner (close closer depth none more) := by
  fun_induction Token.readQuoted quote cs generalizing value inner rest with
  | case1 | case2 | case3 | case5 | case8 => cases h
  | case4 c cs hbreak value' inner' rest' hread ih =>
    cases h
    rw [List.cons_append, List.cons_append, close, if_pos rfl, ih hread, before_prefixed,
      before_prefixed]
  | case6 cs hend hpair =>
    cases h
    rw [List.cons_append, List.nil_append, close.eq_def]
    simp only [hquote, if_true, if_false]
    cases close closer depth none more <;> rfl
  | case7 c cs hend hpair hc value' inner' rest' hread ih =>
    cases h
    -- the lexer has read an escape before, so the scanner does not see one here
    have hescape := Token.not_escape hend hpair
    rw [List.cons_append, close.eq_def]
    simp only [hescape, hc, if_false, ih hread, before_prefixed]

/-- A token is passed over whole, and leaves as many braces open as there are after it. -/
theorem close_written {t : Token} {written : List Char} (h : t.Writes written)
    (hdepth : Grammar.bracesAfter t depth = some depth') (more : List Char) :
    close closer depth none (written ++ more) =
      prefixed written (close closer depth' none more) := by
  cases h with
  | plain hopen hclose hwritten =>
    obtain rfl : depth' = depth := Grammar.bracesAfter_other hopen hclose hdepth
    exact close_plain_append hwritten more
  | braceOpen =>
    obtain rfl : depth' = depth + 1 := (Option.some.inj hdepth).symm
    rfl
  | braceClose =>
    cases depth with
    | zero => cases hdepth
    | succ depth =>
      obtain rfl : depth = depth' := Option.some.inj hdepth
      rfl
  | @text quote cs value inner rest hquote hread =>
    obtain rfl : depth = depth' := Option.some.inj hdepth
    have hbare : quote ≠ '\\' := by rcases hquote with rfl | rfl <;> decide
    rw [List.cons_append, close.eq_def]
    simp only [hquote, if_true, close_quoted hbare hread, before_prefixed]

/-- Tokens and the gaps between them are passed over. -/
theorem close_lexes {pos : Nat} {s : List Char} {lexemes : List Lexeme} (h : Lexes pos s lexemes)
    (hdepth : Grammar.braces lexemes depth = some depth') (more : List Char) :
    close closer depth none (s ++ more) = prefixed s (close closer depth' none more) := by
  induction h generalizing depth with
  | nil =>
    cases hdepth
    exact (prefixed_nil _).symm
  | @gap pos c cs lexemes hc hrest ih =>
    have hplain : Token.isPlain c = true := Token.isPlain_of_isGap hc
    rw [List.cons_append, close_plain hplain, ih hdepth, before_prefixed]
  | @token pos c cs t written rest lexemes hc hscan hrest ih =>
    -- `between` is the depth that the scanner counts and the grammar has after the token
    obtain ⟨between, hbetween, hmore⟩ := Option.bind_eq_some_iff.1 hdepth
    rw [← Token.scanToken_split hscan, List.append_assoc,
      close_written (Token.scanToken_writes hscan) hbetween, ih hmore, prefixed_prefixed]

theorem close_closer {s rest : List Char} (h : closer.strip? s = some rest) :
    close closer 0 none s = some ([], rest) := by
  have hbrace : ∃ cs, s = '}' :: cs := by
    unfold Closer.strip? at h
    split at h
    · exact ⟨_, rfl⟩
    · exact ⟨_, rfl⟩
    · cases h
  obtain ⟨cs, rfl⟩ := hbrace
  simp [close, h]

/-- What is made of tokens that close all their braces ends at the closer behind it. -/
theorem close_source {pos : Nat} {s more rest : List Char} {lexemes : List Lexeme}
    (h : Lexes pos s lexemes) (hbraces : Grammar.braces lexemes 0 = some 0)
    (hmore : closer.strip? more = some rest) :
    close closer 0 none (s ++ more) = some (s, rest) := by
  rw [close_lexes h hbraces, close_closer hmore]
  simp [prefixed]

end

end Scan

section
variable {claims : String → Bool} {pos : Nat} {s : List Char}

theorem scanFrom_nil (claims : String → Bool) (pos : Nat) : scanFrom claims pos [] = .ok [] := by
  rw [scanFrom]

/-- What begins at a character decides how it is scanned. -/
theorem scanFrom_cons (claims : String → Bool) (pos : Nat) (c : Char) (s : List Char) :
    scanFrom claims pos (c :: s) = (Scan.construct claims pos (c :: s)).bind fun found =>
      found.elim ((scanFrom claims (pos + c.utf8Size) s).map (Scan.addText pos c))
        fun k => (scanFrom claims k.stop k.rest).map (k.segment.toList ++ ·) := by
  rw [scanFrom]
  split <;> next h => rw [h]; rfl

/-- Where no construct begins, a character is text. -/
theorem scanFrom_of_none {c : Char} (h : Scan.construct claims pos (c :: s) = .ok none) :
    scanFrom claims pos (c :: s) =
      (scanFrom claims (pos + c.utf8Size) s).map (Scan.addText pos c) := by
  rw [scanFrom_cons, h]
  rfl

/-- A construct is followed by what is scanned behind it. -/
theorem scanFrom_of_some {k : Scan.Construct} (h : Scan.construct claims pos s = .ok (some k)) :
    scanFrom claims pos s =
      (scanFrom claims k.stop k.rest).map (k.segment.toList ++ ·) := by
  cases s with
  | nil => cases h
  | cons c s =>
    rw [scanFrom_cons, h]
    rfl

theorem scanFrom_of_error {e : SyntaxError} (h : Scan.construct claims pos s = .error e) :
    scanFrom claims pos s = .error e := by
  cases s with
  | nil => cases h
  | cons c s =>
    rw [scanFrom_cons, h]
    rfl

/-- A construct is scanned, and then what follows it. -/
theorem scanFrom_construct {stop : Nat} {rest : List Char} {segment : Segment}
    {segments : List Segment}
    (h : Scan.construct claims pos s = .ok (some ⟨some segment, stop, rest⟩))
    (hrest : scanFrom claims stop rest = .ok segments) :
    scanFrom claims pos s = .ok (segment :: segments) := by
  rw [scanFrom_of_some h, hrest]
  rfl

end

/-- The characters of delimiters take one byte. -/
theorem delimiter_widths :
    '{'.utf8Size = 1 ∧ '}'.utf8Size = 1 ∧ '/'.utf8Size = 1 ∧ ' '.utf8Size = 1 := by decide

/-! ## Outputs -/

/-- The scanner gives an output what stands between its braces. -/
theorem scan_output (claims : String → Bool) {pos : Nat} {s : List Char} {lexemes : List Lexeme}
    (h : Lexes pos s lexemes) (hbraces : Grammar.braces lexemes 0 = some 0) :
    scan claims ('{' :: '{' :: (s ++ ['}', '}'])) =
      .ok [.output ⟨0, 2 + byteLength s + 2⟩ ⟨2, 2 + byteLength s⟩ s] := by
  have hclose : Scan.close .twoBraces 0 none (s ++ ['}', '}']) = some (s, []) :=
    Scan.close_source h hbraces rfl
  have hconstruct : Scan.construct claims 0 ('{' :: '{' :: (s ++ ['}', '}'])) =
      .ok (some ⟨some (.output ⟨0, 2 + byteLength s + 2⟩ ⟨2, 2 + byteLength s⟩ s),
        2 + byteLength s + 2, []⟩) := by
    rw [Scan.construct, Scan.output, hclose]
    simp [Except.map, Span.sized]
  exact scanFrom_construct hconstruct (scanFrom_nil claims _)

/-! ## Tags -/

namespace Scan

/-- A text that can be the head of a tag, without a slash. -/
structure IsHead (head : String) : Prop where
  ne_empty : head ≠ ""
  chars : ∀ c ∈ head.toList, isHeadChar c = true ∧ c ≠ '/'

section
variable {claims : String → Bool} {head : String} {body rest cs : List Char} {c : Char} {pos : Nat}

theorem splitHead_char (hslash : c ≠ '/') (cs : List Char) :
    splitHead (c :: cs) =
      if isHeadChar c then (c :: (splitHead cs).1, (splitHead cs).2) else ([], c :: cs) :=
  splitHead.eq_3 c cs fun _ h => absurd h hslash

/-- A head is read up to the first character that cannot stand in it. -/
theorem splitHead_append {chars : List Char}
    (hchars : ∀ c ∈ chars, isHeadChar c = true ∧ c ≠ '/') (hc : isHeadChar c = false)
    (cs : List Char) : splitHead (chars ++ c :: cs) = (chars, c :: cs) := by
  induction chars with
  | nil =>
    have hslash : c ≠ '/' := by
      rintro rfl
      cases hc
    rw [List.nil_append, splitHead_char hslash, if_neg (by simp [hc])]
  | cons d chars ih =>
    obtain ⟨hd, hslash⟩ := hchars d List.mem_cons_self
    have htail := ih fun e he => hchars e (List.mem_cons_of_mem _ he)
    rw [List.cons_append, splitHead_char hslash, if_pos hd, htail]

/-- A tag of a claimed head is scanned up to its closer; a closing tag has to be empty. -/
theorem tag_eq (hhead : IsHead head) (hclaims : claims head = true) (hc : c = ' ' ∨ c = '}')
    (hclose : close .oneBrace 0 none (c :: cs) = some (body, rest)) {closing : Bool}
    (hclosing : closing = true → body = []) :
    tag claims pos closing (head.toList ++ c :: cs) =
      .ok (some ⟨some (.tag (tagOf pos closing head.toList body)),
        (tagOf pos closing head.toList body).span.stop, rest⟩) := by
  have ⟨hstop, hends⟩ : isHeadChar c = false ∧ endsHead (c :: cs) = true := by
    rcases hc with rfl | rfl <;> exact ⟨rfl, rfl⟩
  -- a closing tag is refused for what it holds, and this one holds nothing
  have hempty : (closing && ((tagOf pos closing head.toList body).selfClosing ||
      !allBlank (tagOf pos closing head.toList body).args)) = false := by
    cases closing with
    | false => rfl
    | true =>
      rw [hclosing rfl]
      simp [tagOf, trimEnd, allBlank]
  simp [tag, splitHead_append hhead.chars hstop, hhead.ne_empty, hclaims, hends, hclose, hempty]

theorem ne_of_isHeadChar {d : Char} (hc : isHeadChar c = true) (hd : isHeadChar d = false) :
    c ≠ d := by
  rintro rfl
  cases hc.symm.trans hd

/-- A brace opens a tag if no other mark that begins with a brace stands there. -/
theorem construct_brace (hc : c ≠ '{' ∧ c ≠ '#' ∧ c ≠ '/') (cs : List Char) :
    construct claims pos ('{' :: c :: cs) = tag claims pos false (c :: cs) := by
  refine construct.eq_4 claims pos _ ?_ ?_ ?_
  · exact fun ds heq => hc.1 (List.cons.inj heq).1
  · exact fun ds heq => hc.2.1 (List.cons.inj heq).1
  · exact fun ds heq => hc.2.2 (List.cons.inj heq).1

/-- A brace before a head opens a tag. -/
theorem construct_head (hhead : IsHead head) (s : List Char) :
    construct claims pos ('{' :: (head.toList ++ s)) =
      tag claims pos false (head.toList ++ s) := by
  obtain ⟨hne, hchars⟩ := hhead
  cases hhead : head.toList with
  | nil => exact (hne (String.toList_eq_nil_iff.1 hhead)).elim
  | cons d chars =>
    obtain ⟨hd, hslash⟩ := hchars d (hhead ▸ List.mem_cons_self)
    exact construct_brace ⟨ne_of_isHeadChar hd rfl, ne_of_isHeadChar hd rfl, hslash⟩ _

/-- A slash at the end of a tag is not part of its arguments. -/
theorem tagOf_slash (pos : Nat) (head args : List Char) :
    (tagOf pos false head (args ++ ['/'])).selfClosing = true ∧
      (tagOf pos false head (args ++ ['/'])).args = args := by
  have hraw : trimEnd (args ++ ['/']) = args ++ ['/'] :=
    trimEnd_eq_self (by simp; decide)
  simp [tagOf, hraw]

theorem tagOf_args (pos : Nat) (head : List Char) (h : (trimEnd body).getLast? ≠ some '/') :
    (tagOf pos false head body).selfClosing = false ∧
      (tagOf pos false head body).args = trimEnd body := by
  simp [tagOf, h]

theorem tagOf_head (pos : Nat) (closing : Bool) (head : String) (body : List Char) :
    (tagOf pos closing head.toList body).head = head :=
  String.ofList_toList

/-- A tag as it is written: `body` stands between the head and the brace. -/
def writtenTag (closing : Bool) (head body : List Char) : List Char :=
  '{' :: ((if closing then ['/'] else []) ++ head ++ body ++ ['}'])

/-- A tag covers what it is written with. -/
theorem tagOf_span (pos : Nat) (closing : Bool) (head body : List Char) :
    (tagOf pos closing head body).span =
      Span.sized pos (byteLength (writtenTag closing head body)) := by
  obtain ⟨hopen, hclose, hslash, -⟩ := delimiter_widths
  cases closing <;>
    simp only [tagOf, writtenTag, Span.sized, byteLength_cons, byteLength_append, byteLength_nil,
      hopen, hclose, hslash, if_true, Bool.false_eq_true, if_false, Span.mk.injEq, true_and] <;>
    omega

end

end Scan

/-- A tag of a claimed head is a construct. -/
theorem Scan.construct_writtenTag {claims : String → Bool} {head : String} {body rest : List Char}
    {closing : Bool} (hhead : IsHead head) (hclaims : claims head = true)
    (hblank : ∀ c ∈ body.head?, c = ' ') (hclosing : closing = true → body = [])
    (hclose : close .oneBrace 0 none (body ++ '}' :: rest) = some (body, rest)) (pos : Nat) :
    let t := tagOf pos closing head.toList body
    construct claims pos (writtenTag closing head.toList body ++ rest) =
      .ok (some ⟨some (.tag t), t.span.stop, rest⟩) := by
  obtain ⟨c, cs, hafter, hc⟩ : ∃ c cs, body ++ '}' :: rest = c :: cs ∧ (c = ' ' ∨ c = '}') := by
    cases body with
    | nil => exact ⟨_, _, rfl, .inr rfl⟩
    | cons c body => exact ⟨_, _, rfl, .inl (hblank c rfl)⟩
  have htag : tag claims pos closing (head.toList ++ c :: cs) = _ :=
    tag_eq hhead hclaims hc (hafter ▸ hclose) hclosing
  cases closing with
  | false =>
    have hwritten : writtenTag false head.toList body ++ rest = '{' :: (head.toList ++ c :: cs) := by
      simp [writtenTag, ← hafter]
    rw [hwritten, construct_head hhead]
    exact htag
  | true =>
    have hwritten : writtenTag true head.toList body ++ rest =
        '{' :: '/' :: (head.toList ++ c :: cs) := by
      simp [writtenTag, ← hafter]
    rw [hwritten]
    exact htag

/-- A tag of a claimed head is scanned, and then what follows it. -/
theorem scanFrom_tag {claims : String → Bool} {head : String} {body rest : List Char} {pos : Nat}
    {closing : Bool} {segments : List Segment} (hhead : Scan.IsHead head)
    (hclaims : claims head = true) (hblank : ∀ c ∈ body.head?, c = ' ')
    (hclosing : closing = true → body = [])
    (hclose : Scan.close .oneBrace 0 none (body ++ '}' :: rest) = some (body, rest))
    (hrest : scanFrom claims (Scan.tagOf pos closing head.toList body).span.stop rest =
      .ok segments) :
    scanFrom claims pos (Scan.writtenTag closing head.toList body ++ rest) =
      .ok (.tag (Scan.tagOf pos closing head.toList body) :: segments) :=
  scanFrom_construct (Scan.construct_writtenTag hhead hclaims hblank hclosing hclose pos) hrest

/-! ## Attributes in a tag -/

section
variable {pos : Nat} {args : List Char} {attrs : List Attr}

/-- Attributes after a blank, and with gaps behind them, are the same ones one byte further. -/
theorem parseAttrs_padded {gaps : List Char} (h : parseAttrs 0 args = .ok attrs)
    (hgaps : ∀ w ∈ gaps, Token.isGap w = true) (pos : Nat) :
    parseAttrs pos (' ' :: (args ++ gaps)) = .ok (attrs.map (Attr.shift (pos + 1))) := by
  obtain ⟨lexemes, hlexes, hattrs⟩ := parseAttrs_eq_ok_iff.1 h
  have hmoved := (tokenize_eq_ok_iff.1 hlexes).shift (pos + 1)
  rw [Nat.zero_add] at hmoved
  refine parseAttrs_eq_ok_iff.2 ⟨_, ?_, hattrs.mapSpans (Span.shift_through (pos + 1))⟩
  exact (Lexes.gap (by decide) (hmoved.append_gaps hgaps)).tokenize_eq

/-- Blanks behind attributes do not count, and before them there is no slash. -/
theorem parseAttrs_trimEnd (h : parseAttrs pos args = .ok attrs) :
    parseAttrs pos (trimEnd args) = .ok attrs ∧ (trimEnd args).getLast? ≠ some '/' := by
  obtain ⟨lexemes, hlexes, hattrs⟩ := parseAttrs_eq_ok_iff.1 h
  obtain ⟨ws, hargs, hblank⟩ := exists_trimEnd_append args
  rw [tokenize_eq_ok_iff, hargs] at hlexes
  have hkept := hlexes.of_append_blank hblank
  exact ⟨parseAttrs_eq_ok_iff.2 ⟨lexemes, hkept.tokenize_eq, hattrs⟩, hkept.not_slash⟩

/-- The scanner passes over attributes and the gaps around them. -/
theorem close_attrs {more rest body : List Char} (h : parseAttrs pos args = .ok attrs)
    (hmore : Scan.close .oneBrace 0 none more = some (body, rest)) :
    Scan.close .oneBrace 0 none (args ++ more) = some (args ++ body, rest) := by
  obtain ⟨lexemes, hlexes, hattrs⟩ := parseAttrs_eq_ok_iff.1 h
  rw [Scan.close_lexes (tokenize_eq_ok_iff.1 hlexes) (hattrs.closesBraces 0), hmore]
  rfl

end

/-! ## Heads of invocations -/

theorem Config.isHead_of_isKeyword {keyword : String} (h : isKeyword keyword = true) :
    Scan.IsHead keyword := by
  simp only [isKeyword, Bool.and_eq_true, List.all_eq_true] at h
  obtain ⟨hne, hchars⟩ := h
  refine ⟨?_, fun c hc => ⟨?_, ?_⟩⟩
  · rintro rfl
    cases hne
  · have hkeyword := hchars c hc
    simp only [Bool.or_eq_true, decide_eq_true_eq] at hkeyword
    rcases hkeyword with (hc | hc) | hc <;> simp [Scan.isHeadChar, hc]
  · rintro rfl
    cases hchars _ hc

/-- The tag of invocations in valid settings is a keyword. -/
theorem Config.isKeyword_of_validate {config : Config} (h : config.validate = .ok ()) :
    isKeyword config.tag = true := by
  unfold validate at h
  split at h
  · cases h
  · next hkeyword => simpa using hkeyword

namespace TagRule

variable {keyword name : String} {contentNames : List String}

/-- The head of an invocation with a literal name. -/
def literalHead (keyword name : String) : String := keyword ++ ":" ++ name

theorem toList_literalHead (keyword name : String) :
    (literalHead keyword name).toList = keyword.toList ++ [':'] ++ name.toList := by
  rw [literalHead, String.toList_append, String.toList_append]
  rfl

theorem literalName?_literalHead (hname : name ≠ "") :
    literalName? keyword (literalHead keyword name) = some name := by
  simp [literalName?, toList_literalHead, hname]

theorem literalName?_eq_some_iff {head : String} :
    literalName? keyword head = some name ↔ name ≠ "" ∧ head = literalHead keyword name := by
  constructor
  · intro h
    unfold literalName? at h
    dsimp only at h
    split at h
    · next hname =>
      cases h
      rw [Bool.and_eq_true, Bool.not_eq_true', List.isPrefixOf_iff_prefix] at hname
      obtain ⟨⟨written, hhead⟩, hne⟩ := hname
      rw [← hhead, List.drop_left] at hne ⊢
      refine ⟨by simpa using hne, String.toList_inj.1 ?_⟩
      rw [toList_literalHead, String.toList_ofList, hhead]
    · cases h
  · rintro ⟨hne, rfl⟩
    exact literalName?_literalHead hne

theorem literalName?_keyword (keyword : String) : literalName? keyword keyword = none := by
  have hlead : (keyword.toList ++ [':']).isPrefixOf keyword.toList = false := by
    rw [Bool.eq_false_iff]
    intro h
    have hlength := (List.isPrefixOf_iff_prefix.1 h).length_le
    simp only [List.length_append, List.length_singleton] at hlength
    omega
  simp [literalName?, hlead]

theorem isHead_literalHead (hkeyword : Config.isKeyword keyword = true)
    (hname : canonicalName? name = some name)
    (hchars : ∀ c ∈ name.toList, Scan.isHeadChar c = true) :
    Scan.IsHead (literalHead keyword name) := by
  obtain ⟨hne, hslash⟩ := not_slash_of_canonical hname
  constructor
  · simp [literalHead, hne]
  · intro c hc
    rw [toList_literalHead, List.append_assoc] at hc
    rcases List.mem_append.1 hc with hc | hc
    · exact (Config.isHead_of_isKeyword hkeyword).chars c hc
    rcases List.mem_cons.1 hc with rfl | hc
    · decide
    · exact ⟨hchars c hc, hslash c hc⟩

theorem claims_literalHead (hname : canonicalName? name = some name) :
    claims (literalHead keyword name) (.component keyword contentNames) = true := by
  obtain ⟨hne, -⟩ := not_slash_of_canonical hname
  simp [claims, literalName?_literalHead hne]

end TagRule

/-- A rule that claims a head owns it if it is the first one. -/
theorem TagSet.rule?_first {rule : TagRule} {head : String} (h : TagRule.claims head rule = true)
    (more : TagSet) : rule? (rule :: more) head = some rule := by
  rw [rule?, List.find?_cons, h]

theorem TagSet.claims_first {rule : TagRule} {head : String} (h : TagRule.claims head rule = true)
    (more : TagSet) : claims (rule :: more) head = true := by
  rw [claims, List.any_cons, h]
  rfl

theorem TagSet.claims_of_rule {tags : TagSet} {rule : TagRule} {head : String}
    (h : tags.rule? head = some rule) : tags.claims head = true :=
  List.any_eq_true.2 ⟨rule, List.mem_of_find?_eq_some h, List.find?_some h⟩

/-! ## Compiled sources -/

/-- A source compiles to the nodes of its segments. -/
theorem Template.compile_eq {tags : TagSet} {segments : List Segment} {nodes : List Node}
    {source : String} (label : String) (hscan : scan tags.claims source.toList = .ok segments)
    (hnodes : parseNodes tags segments = .ok nodes) :
    compile tags label source = .ok ⟨label, nodes⟩ := by
  rw [compile, hscan]
  simp only [bind, Except.bind, hnodes]
  rfl

section
variable {tags : TagSet} {rule : TagRule} {opening : Opening} {t close : Tag}

theorem parseNodes_alone (hopens : t.closing = false) (hself : t.selfClosing = true)
    (hrule : tags.rule? t.head = some rule) (hopening : rule.opening t = .ok opening) :
    parseNodes tags [.tag t] = .ok [opening.node t.span []] := by
  have hsingle : (Segment.tag t).isSingle = true := by simp [Segment.isSingle, hopens, hself]
  exact (TagSet.Brackets.single hsingle .nil).parseNodes_eq (.tag hrule hopening .nil)

theorem parseNodes_pair (hmatches : tags.Matches t close) (hrule : tags.rule? t.head = some rule)
    (hopening : rule.opening t = .ok opening) (htakes : opening.takesBody = true)
    (hclose : opening.closedBy close = true) :
    parseNodes tags [.tag t, .tag close] = .ok [opening.node (t.span.through close.span) []] :=
  (TagSet.Brackets.pair hmatches .nil .nil).parseNodes_eq
    (.pair hrule hopening htakes hclose .nil .nil)

end

theorem byteLength_lead (head : String) :
    byteLength ("\x7b" ++ head ++ " ").toList = byteLength head.toList + 2 := by
  have hchars : ("\x7b" ++ head ++ " ").toList = '{' :: (head.toList ++ [' ']) := by simp
  obtain ⟨hopen, -, -, hblank⟩ := delimiter_widths
  rw [hchars]
  simp only [byteLength_cons, byteLength_append, byteLength_nil, hopen, hblank]
  omega

/-- Further in its source an expression is the same one as much further. -/
theorem parseExpr_shift {pos : Nat} {s : List Char} {value : Expr}
    (h : parseExpr pos s = .ok value) (offset : Nat) :
    parseExpr (pos + offset) s = .ok (value.shift offset) := by
  obtain ⟨lexemes, hlexes, hderives⟩ := parseExpr_eq_ok_iff.1 h
  have hmoved := ((tokenize_eq_ok_iff.1 hlexes).shift offset).tokenize_eq
  exact parseExpr_eq_ok_iff.2 ⟨_, hmoved, hderives.mapSpans (Span.shift_through offset)⟩

/-- The scanner gives an output the expression that stands between its braces. -/
theorem scan_written {written : String} {value : Expr}
    (h : parseExpr 0 written.toList = .ok value) (claims : String → Bool) :
    let source := "\x7b\x7b" ++ written ++ "\x7d\x7d"
    scan claims source.toList =
      .ok [.output ⟨0, byteLength source.toList⟩ ⟨2, 2 + byteLength written.toList⟩
        written.toList] := by
  intro source
  obtain ⟨lexemes, hlexes, hderives⟩ := parseExpr_eq_ok_iff.1 h
  have hsource : source.toList = '{' :: '{' :: (written.toList ++ ['}', '}']) := by
    simp [source]
  have hwidth : byteLength source.toList = 2 + byteLength written.toList + 2 := by
    obtain ⟨hopen, hclose, -, -⟩ := delimiter_widths
    rw [hsource]
    simp only [byteLength_cons, byteLength_append, byteLength_nil, hopen, hclose]
    omega
  rw [hwidth, hsource]
  exact scan_output claims (tokenize_eq_ok_iff.1 hlexes) (hderives.closesBraces 0)

/-- The template that is one invocation, with attributes that stand `offset` bytes further in its
source than they were read. -/
def Template.invoking (label source name : String) (attrs : List Attr) (offset : Nat) :
    Template where
  name := label
  nodes := [.component ⟨0, byteLength source.toList⟩ (.literal name)
    (attrs.map (Attr.shift offset)) [] []]

/-! ## Invocations -/

/-- A tag with a head and arguments opens the invocation of a component. -/
structure Invokes (tags : TagSet) (keyword : String) (contentNames : List String) (head : String)
    (args : List Char) (name : ComponentName) (attrs : List Attr) : Prop where
  isHead : Scan.IsHead head
  rule : tags.rule? head = some (.component keyword contentNames)
  blank : args.head? = some ' '
  /-- The arguments are made of tokens, and what is made of the same ones is read alike. -/
  lexes : ∃ lexemes, Lexes (byteLength head.toList + 1) args lexemes ∧
    Grammar.braces lexemes 0 = some 0 ∧
    ∀ t : Tag, t.head = head → Lexes t.argsSpan.start t.args lexemes →
      TagRule.invocation keyword contentNames t = .ok (.component keyword contentNames name attrs)

/-- Behind a blank attributes are made of the same tokens. -/
theorem exists_lexes_attrs {args : List Char} {attrs : List Attr}
    (h : parseAttrs 0 args = .ok attrs) (pos : Nat) :
    ∃ lexemes, Lexes pos (' ' :: args) lexemes ∧
      Grammar.DerivesAttrs (attrs.map (Attr.shift (pos + 1))) lexemes := by
  obtain ⟨lexemes, hlexes, hattrs⟩ := parseAttrs_eq_ok_iff.1 h
  have hmoved := (tokenize_eq_ok_iff.1 hlexes).shift (pos + 1)
  rw [Nat.zero_add] at hmoved
  exact ⟨_, .gap rfl hmoved, hattrs.mapSpans (Span.shift_through (pos + 1))⟩

namespace Invokes

variable {tags : TagSet} {keyword : String} {contentNames : List String} {head : String}
  {args : List Char} {name : ComponentName} {attrs : List Attr}

/-- The scanner passes over the arguments. -/
theorem close_args (h : Invokes tags keyword contentNames head args name attrs)
    {text body rest : List Char} (hmore : Scan.close .oneBrace 0 none text = some (body, rest)) :
    Scan.close .oneBrace 0 none (args ++ text) = some (args ++ body, rest) := by
  obtain ⟨lexemes, hlexes, hbraces, -⟩ := h.lexes
  rw [Scan.close_lexes hlexes hbraces, hmore]
  rfl

/-- The arguments are read where they stand behind the head, with gaps behind them or without
blanks. -/
theorem opening (h : Invokes tags keyword contentNames head args name attrs) {t : Tag}
    (hhead : t.head = head) (hstart : t.argsSpan.start = byteLength head.toList + 1)
    {blanks : List Char}
    (hargs : (∀ w ∈ blanks, Token.isGap w = true) ∧ t.args = args ++ blanks ∨
      (∀ w ∈ blanks, isBlank w = true) ∧ args = t.args ++ blanks) :
    (TagRule.component keyword contentNames).opening t =
      .ok (.component keyword contentNames name attrs) := by
  obtain ⟨lexemes, hlexes, -, hread⟩ := h.lexes
  refine hread t hhead ?_
  rw [hstart]
  rcases hargs with ⟨hgaps, hargs⟩ | ⟨hblank, hargs⟩
  · rw [hargs]
    exact hlexes.append_gaps hgaps
  · rw [hargs] at hlexes
    exact hlexes.of_append_blank hblank

/-- A tag that closes itself is one invocation, with gaps before its slash or without. -/
theorem compile_alone (h : Invokes tags keyword contentNames head args name attrs)
    {gaps : List Char} (hgaps : ∀ w ∈ gaps, Token.isGap w = true) (label : String) {source : String}
    (hsource : source.toList = Scan.writtenTag false head.toList (args ++ gaps ++ ['/'])) :
    Template.compile tags label source =
      .ok ⟨label, [.component ⟨0, byteLength source.toList⟩ name attrs [] []]⟩ := by
  let t := Scan.tagOf 0 false head.toList (args ++ gaps ++ ['/'])
  obtain ⟨hself, hargs⟩ := Scan.tagOf_slash 0 head.toList (args ++ gaps)
  have hgapsClose :
      Scan.close .oneBrace 0 none (gaps ++ ['/'] ++ ['}']) = some (gaps ++ ['/'], []) := by
    rw [List.append_assoc, Scan.close_plain_append fun w hw => Token.isPlain_of_isGap (hgaps w hw)]
    rfl
  have hclose : Scan.close .oneBrace 0 none (args ++ gaps ++ ['/'] ++ ['}']) =
      some (args ++ gaps ++ ['/'], []) := by
    simpa using h.close_args hgapsClose
  have hscan : scanFrom tags.claims 0
      (Scan.writtenTag false head.toList (args ++ gaps ++ ['/']) ++ []) = .ok [.tag t] :=
    scanFrom_tag h.isHead (TagSet.claims_of_rule h.rule) (by simp [h.blank]) (by simp) hclose
      (scanFrom_nil _ _)
  rw [List.append_nil, ← hsource] at hscan
  have hhead : t.head = head := Scan.tagOf_head ..
  have hopening := h.opening hhead (Nat.add_comm 1 _) (.inl ⟨hgaps, hargs⟩)
  have hnodes := parseNodes_alone rfl hself (hhead ▸ h.rule) hopening
  have hspan : t.span = ⟨0, byteLength source.toList⟩ := by
    rw [Scan.tagOf_span, hsource, Span.sized, Nat.zero_add]
  rw [Template.compile_eq label hscan hnodes, hspan]
  rfl

end Invokes

/-- An invocation that can be written with a literal name: the keyword is one, the name is canonical
and can stand in a head, and the arguments are attributes. -/
structure Writable (keyword name args : String) (attrs : List Attr) : Prop where
  keyword : Config.isKeyword keyword = true
  canonical : canonicalName? name = some name
  chars : ∀ c ∈ name.toList, Scan.isHeadChar c = true
  attrs : parseAttrs 0 args.toList = .ok attrs

namespace Writable

variable {keyword name args : String} {attrs : List Attr}

theorem isHead (h : Writable keyword name args attrs) :
    Scan.IsHead (TagRule.literalHead keyword name) :=
  TagRule.isHead_literalHead h.keyword h.canonical h.chars

/-- Its tag opens the invocation, with the attributes that the arguments are alone. -/
theorem invokes (h : Writable keyword name args attrs) (contentNames : List String)
    (more : TagSet) :
    Invokes (.component keyword contentNames :: more) keyword contentNames
      (TagRule.literalHead keyword name) (' ' :: args.toList) (.literal name)
      (attrs.map (Attr.shift (byteLength (TagRule.literalHead keyword name).toList + 2))) where
  isHead := h.isHead
  rule := TagSet.rule?_first (TagRule.claims_literalHead h.canonical) more
  blank := rfl
  lexes := by
    obtain ⟨hne, -⟩ := not_slash_of_canonical h.canonical
    obtain ⟨lexemes, hlexes, hderives⟩ :=
      exists_lexes_attrs h.attrs (byteLength (TagRule.literalHead keyword name).toList + 1)
    refine ⟨lexemes, hlexes, hderives.closesBraces 0, fun t hhead hsame => ?_⟩
    have hread := parseAttrs_eq_ok_iff.2 ⟨lexemes, hsame.tokenize_eq, hderives⟩
    simp only [TagRule.invocation, hhead, TagRule.literalName?_literalHead hne, h.canonical, hread]
    rfl

/-- The rule of the keyword owns the tag, and reads the attributes in it. -/
theorem opening (h : Writable keyword name args attrs) {body read : List Char}
    (hargs : (Scan.tagOf 0 false (TagRule.literalHead keyword name).toList body).args = read)
    (hattrs : ∀ pos, parseAttrs pos read = .ok (attrs.map (Attr.shift (pos + 1))))
    (contentNames : List String) (more : TagSet) :
    let t := Scan.tagOf 0 false (TagRule.literalHead keyword name).toList body
    TagSet.rule? (.component keyword contentNames :: more) t.head =
        some (.component keyword contentNames) ∧
      (TagRule.component keyword contentNames).opening t =
        .ok (.component keyword contentNames (.literal name) (attrs.map
          (Attr.shift (byteLength (TagRule.literalHead keyword name).toList + 2)))) := by
  intro t
  obtain ⟨hne, -⟩ := not_slash_of_canonical h.canonical
  have hhead : t.head = TagRule.literalHead keyword name := Scan.tagOf_head 0 false _ body
  have hstart : t.argsSpan.start = byteLength (TagRule.literalHead keyword name).toList + 1 :=
    Nat.add_comm 1 _
  constructor
  · rw [hhead]
    exact TagSet.rule?_first (TagRule.claims_literalHead h.canonical) more
  · rw [TagRule.opening, TagRule.invocation, hhead, TagRule.literalName?_literalHead hne]
    simp only [h.canonical, t, hargs, hattrs, hstart]
    rfl

/-- An invocation with a closing tag right behind it is scanned as two tags. -/
theorem scan_pair (h : Writable keyword name args attrs) {claims : String → Bool} {last : String}
    {body : List Char} {read : List Attr}
    (hclaims : claims (TagRule.literalHead keyword name) = true) (hlast : Scan.IsHead last)
    (hclaimsLast : claims last = true) (hblank : ∀ c ∈ body.head?, c = ' ')
    (hbody : parseAttrs 0 body = .ok read) :
    let t := Scan.tagOf 0 false (TagRule.literalHead keyword name).toList body
    scan claims (Scan.writtenTag false (TagRule.literalHead keyword name).toList body ++
        Scan.writtenTag true last.toList []) =
      .ok [.tag t, .tag (Scan.tagOf t.span.stop true last.toList [])] := by
  intro t
  have hclose : ∀ rest, Scan.close .oneBrace 0 none (body ++ '}' :: rest) = some (body, rest) := by
    intro rest
    have hbrace : Scan.close .oneBrace 0 none ('}' :: rest) = some ([], rest) := rfl
    simpa using close_attrs hbody hbrace
  have hend : scanFrom claims t.span.stop (Scan.writtenTag true last.toList [] ++ []) =
      .ok [.tag (Scan.tagOf t.span.stop true last.toList [])] :=
    scanFrom_tag hlast hclaimsLast (by simp) (fun _ => rfl) rfl (scanFrom_nil claims _)
  rw [List.append_nil] at hend
  exact scanFrom_tag h.isHead hclaims hblank (by simp) (hclose _) hend

/-- An invocation that closes itself compiles to one node, with the attributes that its arguments
are alone. -/
theorem compile_alone (h : Writable keyword name args attrs) {gaps : String}
    (hgaps : ∀ w ∈ gaps.toList, Token.isGap w = true) (contentNames : List String)
    (more : TagSet) (label : String) :
    let lead := "\x7b" ++ TagRule.literalHead keyword name ++ " "
    let source := lead ++ args ++ gaps ++ "/\x7d"
    Template.compile (.component keyword contentNames :: more) label source =
      .ok (.invoking label source name attrs (byteLength lead.toList)) := by
  intro lead source
  have hsource : source.toList = Scan.writtenTag false (TagRule.literalHead keyword name).toList
      (' ' :: args.toList ++ gaps.toList ++ ['/']) := by
    simp [source, lead, Scan.writtenTag]
  rw [(h.invokes contentNames more).compile_alone hgaps label hsource, Template.invoking,
    byteLength_lead]

/-- An invocation compiles to the same node if a closing tag stands right behind it, one of the
keyword alone or of the same name. -/
theorem compile_pair (h : Writable keyword name args attrs) {last : String} {body : List Char}
    (hlast : Scan.IsHead last) (contentNames : List String)
    (hclaims : TagRule.claims last (.component keyword contentNames) = true)
    (hsame : ∀ written ∈ TagRule.literalName? keyword last, canonicalName? written = some name)
    (hblank : ∀ c ∈ body.head?, c = ' ')
    (hbody : ∀ pos, parseAttrs pos body = .ok (attrs.map (Attr.shift (pos + 1))))
    (more : TagSet) (label : String) {source : String}
    (hsource : source.toList =
      Scan.writtenTag false (TagRule.literalHead keyword name).toList body ++
        Scan.writtenTag true last.toList []) :
    Template.compile (.component keyword contentNames :: more) label source =
      .ok (.invoking label source name attrs
        (byteLength (TagRule.literalHead keyword name).toList + 2)) := by
  let head := TagRule.literalHead keyword name
  let t := Scan.tagOf 0 false head.toList body
  let close := Scan.tagOf t.span.stop true last.toList []
  have hscan : scan (TagSet.claims (.component keyword contentNames :: more)) source.toList =
      .ok [.tag t, .tag close] := by
    rw [hsource]
    exact h.scan_pair (TagSet.claims_first (TagRule.claims_literalHead h.canonical) more) hlast
      (TagSet.claims_first hclaims more) hblank (hbody 0)
  -- blanks behind the attributes are trimmed, and leave no slash that would close the tag itself
  have htrim := fun pos => parseAttrs_trimEnd (hbody pos)
  obtain ⟨hself, hargs⟩ := Scan.tagOf_args 0 head.toList (htrim 0).2
  obtain ⟨hrule, hopening⟩ := h.opening hargs (fun pos => (htrim pos).1) contentNames more
  have hclose : close.head = last := Scan.tagOf_head _ _ _ _
  have hmatches : TagSet.Matches (.component keyword contentNames :: more) t close := by
    refine ⟨rfl, hself, rfl, TagRule.componentKind, ?_, ?_⟩
    · rw [TagSet.kind?, hrule]
      rfl
    · rw [TagSet.kind?, hclose, TagSet.rule?_first hclaims]
      rfl
  have hcloses : ∀ attrs, Opening.closedBy close
      (.component keyword contentNames (.literal name) attrs) = true := by
    intro attrs
    simp only [Opening.closedBy, hclose]
    cases hwritten : TagRule.literalName? keyword last with
    | none => rfl
    | some written => simpa using hsame written hwritten
  have hnodes := parseNodes_pair hmatches hrule hopening rfl (hcloses _)
  have hspan : t.span.through close.span = ⟨0, byteLength source.toList⟩ := by
    simp only [close, t, Scan.tagOf_span, hsource, byteLength_append, Span.through, Span.sized,
      Nat.zero_add]
    rfl
  rw [Template.compile_eq label hscan hnodes, Template.invoking, ← hspan]
  rfl

end Writable

/-- The scanner ends outputs and tags where the grammar does. An expression between the braces of an
output is what the scanner gives the output, and compiles to itself, two bytes further. Attributes
in the tag of an invocation, which closes itself or is followed by its closing tag, compile to
themselves, as much further as they stand. -/
theorem Template.compile_delimiters (label : String) :
    (∀ (written : String) (value : Expr), parseExpr 0 written.toList = .ok value →
      let source := "\x7b\x7b" ++ written ++ "\x7d\x7d"
      (∀ claims, scan claims source.toList =
        .ok [.output ⟨0, byteLength source.toList⟩ ⟨2, 2 + byteLength written.toList⟩
          written.toList]) ∧
      ∀ tags, compile tags label source =
        .ok ⟨label, [.output ⟨0, byteLength source.toList⟩ (value.shift 2)]⟩) ∧
    ∀ (config : Config) (more : TagSet) (name args : String) (attrs : List Attr),
      config.validate = .ok () → canonicalName? name = some name →
      (∀ c ∈ name.toList, Scan.isHeadChar c = true) → parseAttrs 0 args.toList = .ok attrs →
      let tags := Environment.componentTags config ++ more
      let lead := "\x7b" ++ config.tag ++ ":" ++ name ++ " "
      let alone := lead ++ args ++ " /\x7d"
      let paired := lead ++ args ++ "\x7d\x7b/" ++ config.tag ++ "\x7d"
      compile tags label alone =
        .ok (invoking label alone name attrs (byteLength lead.toList)) ∧
      compile tags label paired =
        .ok (invoking label paired name attrs (byteLength lead.toList)) := by
  refine ⟨fun written value hvalue => ⟨scan_written hvalue, fun tags => ?_⟩, ?_⟩
  · refine compile_eq label (scan_written hvalue tags.claims) ?_
    have hshifted := parseExpr_shift hvalue 2
    exact (TagSet.Brackets.single rfl .nil).parseNodes_eq (.output hshifted .nil)
  · intro config more name args attrs hconfig hname hchars hattrs tags lead alone paired
    have hwritable : Writable config.tag name args attrs :=
      ⟨Config.isKeyword_of_validate hconfig, hname, hchars, hattrs⟩
    have hlead : lead = "\x7b" ++ TagRule.literalHead config.tag name ++ " " := by
      simp [lead, TagRule.literalHead, String.append_assoc]
    have hgaps : ∀ w ∈ " ".toList, Token.isGap w = true := by simp [Token.isGap]
    have halone := hwritable.compile_alone hgaps config.defaultSlotAliases
      (.slot config.slotTag :: more) label
    have hcloser : lead ++ args ++ " " ++ "/\x7d" = alone := by
      rw [String.append_assoc]
      rfl
    simp only [← hlead, hcloser] at halone
    have hpadded : ∀ pos, parseAttrs pos (' ' :: args.toList) =
        .ok (attrs.map (Attr.shift (pos + 1))) := by
      simpa using parseAttrs_padded hattrs (List.forall_mem_nil _)
    have hkeyword : TagRule.claims config.tag
        (.component config.tag config.defaultSlotAliases) = true := by
      simp [TagRule.claims]
    have hsource : paired.toList =
        Scan.writtenTag false (TagRule.literalHead config.tag name).toList (' ' :: args.toList) ++
          Scan.writtenTag true config.tag.toList [] := by
      simp [paired, hlead, Scan.writtenTag]
    have hpaired := hwritable.compile_pair (Config.isHead_of_isKeyword hwritable.keyword)
      config.defaultSlotAliases hkeyword (by simp [TagRule.literalName?_keyword]) (by simp) hpadded
      (.slot config.slotTag :: more) label hsource
    rw [← byteLength_lead, ← hlead] at hpaired
    exact ⟨halone, hpaired⟩

/-- Braces and quotes in a quoted text, and the end of nested maps, do not end an output; the end of
a tag in a quoted text does not end the tag. -/
theorem Template.compile_delimiters_quoted :
    let written := "\x7ba: \x7bb: '\x7d\x7d\"'\x7d\x7d"
    let value := Expr.map ⟨0, 15⟩ [("a", .map ⟨4, 14⟩
      [("b", .literal ⟨8, 13⟩ (.string "\x7d\x7d\""))])]
    let args := "title='/\x7d'"
    let attrs := [Attr.named "title" ⟨0, 5⟩ (some (.literal ⟨6, 10⟩ (.string "/\x7d")))]
    let tags := Environment.componentTags {}
    let lead := "\x7b" ++ "x" ++ ":" ++ "ui.card" ++ " "
    let alone := lead ++ args ++ " /\x7d"
    parseExpr 0 written.toList = .ok value ∧ parseAttrs 0 args.toList = .ok attrs ∧
      Template.compile tags "page" ("\x7b\x7b" ++ written ++ "\x7d\x7d") =
        .ok ⟨"page", [.output ⟨0, 19⟩ (value.shift 2)]⟩ ∧
      Template.compile tags "page" alone =
        .ok (Template.invoking "page" alone "ui.card" attrs (byteLength lead.toList)) := by
  intro written value args attrs tags lead alone
  have hvalue : parseExpr 0 written.toList = .ok value := by cbv
  have hattrs : parseAttrs 0 args.toList = .ok attrs := by cbv
  have hname : canonicalName? "ui.card" = some "ui.card" := by decide
  have hchars : ∀ c ∈ "ui.card".toList, Scan.isHeadChar c = true := List.all_eq_true.1 rfl
  obtain ⟨houtput, hinvoke⟩ := Template.compile_delimiters "page"
  obtain ⟨-, houtput⟩ := houtput written value hvalue
  obtain ⟨halone, -⟩ := hinvoke {} [] "ui.card" args attrs rfl hname hchars hattrs
  have hwidth : byteLength ("\x7b\x7b" ++ written ++ "\x7d\x7d").toList = 19 := by cbv
  rw [← hwidth]
  exact ⟨hvalue, hattrs, houtput tags, halone⟩

end SlotTemplates
