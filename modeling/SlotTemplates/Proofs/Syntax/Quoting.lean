import SlotTemplates.Proofs.Syntax.LiteralNames
import SlotTemplates.Render.Component

/-!
# Texts in quotes

Every text can be written between quotes: `Token.quoted` puts a backslash before each backslash and
each quote, and leaves all other characters as they are, line breaks, braces and the ends of tags
among them. What is written so is one token, and the token has the text again
(`Token.readQuoted_escaped`). So it is a literal wherever an expression can stand: in an output it
renders as the text, and as an attribute it passes the text on (`Environment.takes_quoted`).
-/

namespace SlotTemplates

namespace Token

/-- A text between quotes: a backslash stands before each backslash and each quote. -/
def escaped (quote : Char) (cs : List Char) : List Char :=
  cs.flatMap fun c => if c = '\\' ∨ c = quote then ['\\', c] else [c]

/-- A text written in quotes. -/
def quoted (quote : Char) (s : String) : String :=
  String.ofList (quote :: (escaped quote s.toList ++ [quote]))

/-- Whether a text is a name: it starts as one and goes on as one to its end, and is no keyword. -/
def isName (s : String) : Bool :=
  match s.toList with
  | [] => false
  | c :: cs => isNameStart c && nameTail cs = (cs, []) && ofWord (c :: cs) = .ident s

section
variable {quote : Char}

theorem unescape_escaped {c : Char} (hquote : quote = '"' ∨ quote = '\'')
    (hc : c = '\\' ∨ c = quote) : unescape c = c ∧ c ≠ '\n' := by
  rcases hc with rfl | rfl
  · decide
  · rcases hquote with rfl | rfl <;> decide

/-- What is written between quotes is read again, up to the closing quote. -/
theorem readQuoted_escaped (hquote : quote = '"' ∨ quote = '\'') (cs rest : List Char) :
    readQuoted quote (escaped quote cs ++ quote :: rest) =
      .closed cs (escaped quote cs ++ [quote]) rest := by
  have hbare : quote ≠ '\\' := by rcases hquote with rfl | rfl <;> decide
  induction cs with
  | nil => rw [escaped, List.flatMap_nil, List.nil_append, readQuoted_char hbare, if_pos rfl]; rfl
  | cons c cs ih =>
    by_cases hc : c = '\\' ∨ c = quote
    · obtain ⟨hsame, hbreak⟩ := unescape_escaped hquote hc
      have hescaped : escaped quote (c :: cs) = '\\' :: c :: escaped quote cs := by
        rw [escaped, List.flatMap_cons, if_pos hc]
        rfl
      rw [hescaped, List.cons_append, List.cons_append, readQuoted, if_neg hbreak, ih]
      simp [hsame]
    · have hescaped : escaped quote (c :: cs) = c :: escaped quote cs := by
        rw [escaped, List.flatMap_cons, if_neg hc]
        rfl
      obtain ⟨hslash, hother⟩ := not_or.1 hc
      rw [hescaped, List.cons_append, readQuoted_char hslash, if_neg hother, ih]
      rfl

theorem toList_quoted (quote : Char) (s : String) :
    (quoted quote s).toList = quote :: (escaped quote s.toList ++ [quote]) :=
  String.toList_ofList

theorem scanToken_quoted (hquote : quote = '"' ∨ quote = '\'') (s : String) (rest : List Char) :
    scanToken quote (escaped quote s.toList ++ quote :: rest) =
      .token (.text s) (quoted quote s).toList rest := by
  have hname : isNameStart quote = false := by rcases hquote with rfl | rfl <;> rfl
  have hdigit : quote.isDigit = false := by rcases hquote with rfl | rfl <;> rfl
  simp only [scanToken, hname, hdigit, hquote, Bool.false_eq_true, if_true, if_false,
    readQuoted_escaped hquote, String.ofList_toList, toList_quoted]

/-- A name is read up to where the text does not go on with it. -/
theorem scanToken_name {c : Char} {cs rest : List Char}
    (h : isName (String.ofList (c :: cs)) = true)
    (hstops : ∀ d ∈ rest.head?, isNameChar d = false ∧ d ≠ '-') :
    scanToken c (cs ++ rest) = .token (.ident (String.ofList (c :: cs))) (c :: cs) rest := by
  simp only [isName, String.toList_ofList, Bool.and_eq_true, decide_eq_true_eq] at h
  obtain ⟨⟨hstart, htail⟩, hword⟩ := h
  simp only [scanToken, hstart, if_true, nameTail_append_stop hstops, htail, hword,
    List.nil_append]

end

end Token

namespace Lexes

variable {pos : Nat} {quote : Char} {rest : List Char} {lexemes : List Lexeme}

/-- A text in quotes is one token. -/
theorem quoted (hquote : quote = '"' ∨ quote = '\'') (s : String)
    (h : Lexes (pos + byteLength (Token.quoted quote s).toList) rest lexemes) :
    Lexes pos ((Token.quoted quote s).toList ++ rest)
      (⟨.text s, Span.sized pos (byteLength (Token.quoted quote s).toList)⟩ :: lexemes) := by
  have hgap : Token.isGap quote = false := by rcases hquote with rfl | rfl <;> rfl
  have hwritten : (Token.quoted quote s).toList ++ rest =
      quote :: (Token.escaped quote s.toList ++ quote :: rest) := by
    simp [Token.toList_quoted]
  rw [hwritten]
  exact .token hgap (Token.scanToken_quoted hquote s rest) h

/-- A name is one token where the text behind it does not go on with it. -/
theorem name {name : String} (hname : Token.isName name = true)
    (hstops : ∀ d ∈ rest.head?, Token.isNameChar d = false ∧ d ≠ '-')
    (h : Lexes (pos + byteLength name.toList) rest lexemes) :
    Lexes pos (name.toList ++ rest)
      (⟨.ident name, Span.sized pos (byteLength name.toList)⟩ :: lexemes) := by
  obtain ⟨c, cs, hchars⟩ : ∃ c cs, name.toList = c :: cs := by
    cases hchars : name.toList with
    | nil => simp [Token.isName, hchars] at hname
    | cons c cs => exact ⟨c, cs, rfl⟩
  obtain rfl : name = String.ofList (c :: cs) := by rw [← hchars, String.ofList_toList]
  have hgap : Token.isGap c = false := by
    rw [Bool.eq_false_iff]
    intro hgap
    have hpart := (Token.not_part_of_isBlank (isBlank_of_isGap hgap)).1
    simp only [Token.isName, hchars, Bool.and_eq_true] at hname
    simp_all [Token.isNameStart, Token.isNameChar, Char.isAlphanum]
  rw [hchars] at h ⊢
  exact .token hgap (Token.scanToken_name hname hstops) h

/-- A name and an equals sign are two tokens. -/
theorem name_equals {name : String} (hname : Token.isName name = true)
    (h : Lexes (pos + byteLength name.toList + 1) rest lexemes) :
    Lexes pos (name.toList ++ '=' :: rest)
      (⟨.ident name, Span.sized pos (byteLength name.toList)⟩ ::
        ⟨.equals, Span.sized (pos + byteLength name.toList) 1⟩ :: lexemes) := by
  have hscan : Token.scanToken '=' rest = .token .equals ['='] rest := rfl
  refine .name hname ?_ (.token rfl hscan h)
  rintro d hd
  cases hd
  exact ⟨rfl, by decide⟩

end Lexes

namespace Grammar

variable {t : Token} {span : Span} {value : Value} {rest : List Lexeme}

/-- A literal is an expression. -/
theorem Derives.ofLiteral (h : literal? t = some value) :
    Derives (.expr (.literal span value)) (⟨t, span⟩ :: rest) rest :=
  .expr (.concat (.access (.literal h) .accessEnd) .tildeEnd) .coalesceEnd

end Grammar

theorem tokenize_quoted {quote : Char} (hquote : quote = '"' ∨ quote = '\'') (s : String)
    (pos : Nat) :
    tokenize pos (Token.quoted quote s).toList =
      .ok [⟨.text s, Span.sized pos (byteLength (Token.quoted quote s).toList)⟩] := by
  have hlexes : Lexes pos ((Token.quoted quote s).toList ++ []) _ := .quoted hquote s .nil
  rw [List.append_nil] at hlexes
  exact hlexes.tokenize_eq

/-- A text is one token of a literal, wherever it stands. -/
def IsLiteral (written : String) (value : Value) : Prop :=
  ∃ t, Grammar.literal? t = some value ∧ ∀ pos,
    tokenize pos written.toList = .ok [⟨t, Span.sized pos (byteLength written.toList)⟩]

theorem isLiteral_quoted {quote : Char} (hquote : quote = '"' ∨ quote = '\'') (s : String) :
    IsLiteral (Token.quoted quote s) (.string s) :=
  ⟨.text s, rfl, tokenize_quoted hquote s⟩

/-- With a blank before and behind it an expression is the same one. -/
theorem parseExpr_blanks {pos : Nat} {s : List Char} {e : Expr}
    (h : parseExpr (pos + 1) s = .ok e) : parseExpr pos (' ' :: (s ++ [' '])) = .ok e := by
  obtain ⟨lexemes, htokens, hexpr⟩ := parseExpr_eq_ok_iff.1 h
  have hgaps : ∀ w ∈ [' '], Token.isGap w = true := by simp [Token.isGap]
  have hlexes : Lexes pos (' ' :: (s ++ [' '])) lexemes :=
    .gap rfl ((tokenize_eq_ok_iff.1 htokens).append_gaps hgaps)
  exact parseExpr_eq_ok_iff.2 ⟨lexemes, hlexes.tokenize_eq, hexpr⟩

theorem IsLiteral.parseExpr {written : String} {value : Value} (h : IsLiteral written value)
    (pos : Nat) :
    ∃ span, SlotTemplates.parseExpr pos written.toList = .ok (.literal span value) := by
  obtain ⟨t, hvalue, htoken⟩ := h
  exact ⟨_, parseExpr_eq_ok_iff.2 ⟨_, htoken pos, .ofLiteral hvalue⟩⟩

/-- A name, an equals sign and a literal are an attribute. -/
theorem IsLiteral.parseAttrs {attr written : String} {value : Value} (h : IsLiteral written value)
    (hattr : Token.isName attr = true) (pos : Nat) :
    SlotTemplates.parseAttrs pos (attr ++ "=" ++ written).toList =
      .ok [.named attr (Span.sized pos (byteLength attr.toList))
        (some (.literal (Span.sized (pos + byteLength attr.toList + 1)
          (byteLength written.toList)) value))] := by
  obtain ⟨t, hvalue, htoken⟩ := h
  have hlexes : Lexes pos (attr.toList ++ '=' :: written.toList) _ :=
    .name_equals hattr (tokenize_eq_ok_iff.1 (htoken _))
  have hsource : (attr ++ "=" ++ written).toList = attr.toList ++ '=' :: written.toList := by
    simp
  rw [hsource]
  exact parseAttrs_eq_ok_iff.2
    ⟨_, hlexes.tokenize_eq, .cons (.named (.ofLiteral hvalue)) .nothing .nil⟩

/-- An invocation with one attribute that is a literal. -/
theorem Environment.compile_literal {config : Config} {extensions : List Extension} {files : Tree}
    {env : Environment} (hmake : make config extensions files = .ok env)
    {name attr written : String} {value : Value} (hname : canonicalName? name = some name)
    (hchars : ∀ c ∈ name.toList, Scan.isHeadChar c = true) (hattr : Token.isName attr = true)
    (hwritten : IsLiteral written value) (label : String) :
    let lead := "\x7b" ++ config.tag ++ ":" ++ name ++ " "
    let source := lead ++ attr ++ "=" ++ written ++ " /\x7d"
    let start := byteLength lead.toList
    let valueStart := start + byteLength attr.toList + 1
    env.compile label source = .ok ⟨label, [.component ⟨0, byteLength source.toList⟩
      (.literal name) [.named attr (Span.sized start (byteLength attr.toList))
        (some (.literal (Span.sized valueStart (byteLength written.toList)) value))] [] []]⟩ := by
  intro lead source start valueStart
  obtain ⟨hvalid, more, htags⟩ := of_make hmake
  have hwritable : Writable config.tag name (attr ++ "=" ++ written) _ :=
    ⟨Config.isKeyword_of_validate hvalid, hname, hchars, hwritten.parseAttrs hattr 0⟩
  have hgaps : ∀ w ∈ " ".toList, Token.isGap w = true := by simp [Token.isGap]
  have hlead : lead = "\x7b" ++ TagRule.literalHead config.tag name ++ " " := by
    simp [lead, TagRule.literalHead, String.append_assoc]
  have hsource : lead ++ (attr ++ "=" ++ written) ++ " " ++ "/\x7d" = source := by
    apply String.toList_injective
    simp [source]
  have halone := hwritable.compile_alone hgaps config.defaultSlotAliases more label
  simp only [← hlead, hsource] at halone
  have hvalue : byteLength attr.toList + 1 + byteLength lead.toList = valueStart := by
    simp only [valueStart, start]
    omega
  rw [compile, htags, halone]
  simp only [Template.invoking, List.map_cons, List.map_nil, Attr.shift, Attr.mapSpans,
    Option.map_some, Expr.mapSpans, Span.shift_sized, Nat.zero_add, hvalue]
  rfl

/-- The template that is one output. -/
theorem Template.compile_output {written : String} {value : Expr}
    (h : parseExpr 1 written.toList = .ok value) (tags : TagSet) (label : String) :
    let source := "\x7b\x7b " ++ written ++ " \x7d\x7d"
    compile tags label source =
      .ok ⟨label, [.output ⟨0, byteLength source.toList⟩ (value.shift 2)]⟩ := by
  intro source
  have hblanks : (" " ++ written ++ " ").toList = ' ' :: (written.toList ++ [' ']) := by simp
  have hparse := parseExpr_blanks h
  rw [← hblanks] at hparse
  have hsource : "\x7b\x7b" ++ (" " ++ written ++ " ") ++ "\x7d\x7d" = source := by
    apply String.toList_injective
    simp [source]
  refine compile_eq label (hsource ▸ scan_written hparse tags.claims) ?_
  exact (TagSet.Brackets.single rfl .nil).parseNodes_eq (.output (parseExpr_shift hparse 2) .nil)

/-- An output of a literal renders as what an output shows of its value. -/
theorem Environment.renderText_literal {written : String} {value : Value}
    (h : IsLiteral written value) (env : Environment) (vars : Entries Value) (cache : Cache) :
    env.renderText ("\x7b\x7b " ++ written ++ " \x7d\x7d") vars cache =
      (.ok value.display, cache) := by
  obtain ⟨span, hparse⟩ := h.parseExpr 1
  rw [renderText, renderSource, compile, Template.compile_output hparse env.tags textName]
  change (Except.ok (value.display ++ ""), cache) = _
  rw [String.append_empty]

/-- Every text can be written in quotes of either kind, with a backslash before each backslash and
each quote of the kind: what is written so is one token that has the text; an output of it renders
as the text, in every environment; and as an attribute of an invocation it compiles to the literal
of the text, whatever the component and the attribute are called. -/
theorem Environment.takes_quoted (s : String) {quote : Char} (hquote : quote = '"' ∨ quote = '\'') :
    (∀ pos, tokenize pos (Token.quoted quote s).toList =
      .ok [⟨.text s, Span.sized pos (byteLength (Token.quoted quote s).toList)⟩]) ∧
    (∀ (env : Environment) vars cache,
      env.renderText ("\x7b\x7b " ++ Token.quoted quote s ++ " \x7d\x7d") vars cache =
        (.ok s, cache)) ∧
    ∀ (config : Config) (extensions : List Extension) (files : Tree) (env : Environment)
      (name attr label : String), make config extensions files = .ok env →
      canonicalName? name = some name → (∀ c ∈ name.toList, Scan.isHeadChar c = true) →
      Token.isName attr = true →
      let written := Token.quoted quote s
      let lead := "\x7b" ++ config.tag ++ ":" ++ name ++ " "
      let source := lead ++ attr ++ "=" ++ written ++ " /\x7d"
      let start := byteLength lead.toList
      let value := start + byteLength attr.toList + 1
      env.compile label source = .ok ⟨label, [.component ⟨0, byteLength source.toList⟩
        (.literal name) [.named attr (Span.sized start (byteLength attr.toList))
          (some (.literal (Span.sized value (byteLength written.toList)) (.string s)))] [] []]⟩ := by
  refine ⟨fun pos => tokenize_quoted hquote s pos, fun env vars cache => ?_, ?_⟩
  · exact renderText_literal (isLiteral_quoted hquote s) env vars cache
  · intro config extensions files env name attr label hmake hname hchars hattr
    exact compile_literal hmake hname hchars hattr (isLiteral_quoted hquote s) label

/-- The ends of outputs and tags with a quote and a backslash among them, in double quotes. -/
theorem Environment.takes_quoted_delimiters :
    let s := "\x7d\x7d\"\\ /\x7d"
    let written := "\"\x7d\x7d\\\"\\\\ /\x7d\""
    let lead := "\x7b" ++ "x" ++ ":" ++ "card" ++ " "
    ∃ env, make {} [] (.dir []) = .ok env ∧
      env.renderText ("\x7b\x7b " ++ written ++ " \x7d\x7d") [] [] = (.ok s, []) ∧
      ∃ span nameSpan valueSpan,
        env.compile "page" (lead ++ "title" ++ "=" ++ written ++ " /\x7d") =
          .ok ⟨"page", [.component span (.literal "card")
            [.named "title" nameSpan (some (.literal valueSpan (.string s)))] [] []]⟩ := by
  intro s written lead
  obtain ⟨env, hmake⟩ : ∃ env, make {} [] (.dir []) = .ok env := ⟨_, rfl⟩
  have hname : canonicalName? "card" = some "card" := by decide
  have hchars : ∀ c ∈ "card".toList, Scan.isHeadChar c = true := List.all_eq_true.1 rfl
  have hattr : Token.isName "title" = true := by cbv
  have hwritten : Token.quoted '"' s = written := by cbv
  have hquote : '"' = '"' ∨ '"' = '\'' := .inl rfl
  obtain ⟨-, hrender, hinvoke⟩ := takes_quoted s hquote
  have hcompile := hinvoke {} [] (.dir []) env "card" "title" "page" hmake hname hchars hattr
  rw [hwritten] at hrender hcompile
  exact ⟨env, hmake, hrender env [] [], _, _, _, hcompile⟩

end SlotTemplates
