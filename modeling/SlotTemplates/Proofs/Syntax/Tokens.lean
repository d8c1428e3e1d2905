import Mathlib
import SlotTemplates.Syntax.Lexer
import SlotTemplates.Text.Blank

/-!
# Tokens and the text around them

The tokens of a source are the pieces that it is made of, in their order (`tokenize_eq_ok_iff`).
Where the source starts moves them and changes nothing else (`Lexes.shift`). Texts one after the
other have the tokens of both if the second one begins with a character that no token goes on with
(`Lexes.append`). Blanks at the end are no part of the tokens: gaps can be added there
(`Lexes.append_gaps`), and blank characters taken away (`Lexes.of_append_blank`). What a token is
written with is plain text, a brace or a quoted text (`Token.scanToken_writes`).
-/

namespace SlotTemplates

/-- A blank character differs from every character that is not blank. -/
theorem ne_of_isBlank {c d : Char} (hc : isBlank c = true) (hd : isBlank d = false) : c ≠ d := by
  rintro rfl
  cases hc.symm.trans hd

namespace Token

section
variable {c : Char} {cs ws : List Char}

/-! ## Blanks after a token -/

/-- Blank characters are no part of names and numbers. -/
theorem not_part_of_isBlank (h : isBlank c = true) : isNameChar c = false ∧ c.isDigit = false := by
  have hunderscore : c ≠ '_' := ne_of_isBlank h (by decide)
  simp only [isBlank, CharRanges.contains, blankRanges, List.any_cons, List.any_nil,
    Bool.or_eq_true, Bool.and_eq_true, decide_eq_true_eq, Bool.or_false] at h
  simp [isNameChar, Char.isAlphanum, Char.isAlpha, Char.isUpper, Char.isLower, Char.isDigit,
    UInt32.le_iff_toNat_le, hunderscore]
  omega

theorem nameTail_part (h : isNameChar c = true) (cs : List Char) :
    nameTail (c :: cs) = (c :: (nameTail cs).1, (nameTail cs).2) := by
  rw [nameTail.eq_def]
  split
  · next heq => cases heq
  · next d ds heq =>
    cases heq
    cases h
  · next heq =>
    cases heq
    rw [if_pos h]

theorem nameTail_dash {d : Char} (h : isNameChar d = true) (cs : List Char) :
    nameTail ('-' :: d :: cs) = ('-' :: (nameTail (d :: cs)).1, (nameTail (d :: cs)).2) := by
  rw [nameTail, if_pos h]

theorem nameTail_stop (h : isNameChar c = false)
    (hdash : c = '-' → ∀ d ∈ cs.head?, isNameChar d = false) :
    nameTail (c :: cs) = ([], c :: cs) := by
  rw [nameTail.eq_def]
  split
  · next heq => cases heq
  · next d ds heq =>
    cases heq
    simp [hdash rfl d rfl]
  · next heq =>
    cases heq
    simp [h]

/-- A name ends where the text behind it does not go on with one. -/
theorem nameTail_append_stop (hstops : ∀ d ∈ ws.head?, isNameChar d = false ∧ d ≠ '-')
    (cs : List Char) : nameTail (cs ++ ws) = ((nameTail cs).1, (nameTail cs).2 ++ ws) := by
  fun_induction nameTail cs with
  | case1 =>
    cases ws with
    | nil => rfl
    | cons w ws =>
      obtain ⟨hpart, hdash⟩ := hstops w rfl
      exact nameTail_stop hpart fun h => absurd h hdash
  | case2 d cs h name rest hr ih =>
    rw [hr] at ih
    rw [List.cons_append, List.cons_append, nameTail_dash h, ← List.cons_append, ih]
  | case3 d cs h =>
    exact nameTail_stop rfl fun _ e he => by simpa [← Option.some.inj he] using h
  | case4 c cs hne h name rest hr ih =>
    rw [hr] at ih
    rw [List.cons_append, nameTail_part h, ih]
  | case5 c cs hne h =>
    refine nameTail_stop (by simpa using h) fun hdash => ?_
    cases cs with
    | nil => exact fun d hd => (hstops d hd).1
    | cons d ds => exact (hne d ds hdash rfl).elim

/-- A text that begins with a character that no name, number or symbol goes on with. -/
def Breaks (ws : List Char) : Prop :=
  ∀ d ∈ ws.head?, isNameChar d = false ∧ d ≠ '-' ∧ d ≠ '.' ∧ d ≠ '?'

theorem breaks_of_blank (hw : ∀ w ∈ ws, isBlank w = true) : Breaks ws := by
  intro d hd
  have hblank := hw d (List.mem_of_mem_head? hd)
  exact ⟨(not_part_of_isBlank hblank).1, ne_of_isBlank hblank (by decide),
    ne_of_isBlank hblank (by decide), ne_of_isBlank hblank (by decide)⟩

theorem Breaks.not_digit {d : Char} {ds : List Char} (h : Breaks (d :: ds)) :
    d.isDigit = false := by
  have hpart := (h d rfl).1
  simp only [isNameChar, Char.isAlphanum, Bool.or_eq_false_iff] at hpart
  exact hpart.1.2

theorem takeWhile_isDigit_append (hw : Breaks ws) (cs : List Char) :
    (cs ++ ws).takeWhile Char.isDigit = cs.takeWhile Char.isDigit ∧
      (cs ++ ws).dropWhile Char.isDigit = cs.dropWhile Char.isDigit ++ ws := by
  induction cs with
  | nil =>
    cases ws with
    | nil => exact ⟨rfl, rfl⟩
    | cons w ws => simp [hw.not_digit]
  | cons c cs ih =>
    cases hc : c.isDigit with
    | true => simp [hc, ih]
    | false => simp [hc]

theorem fractionTail_stop (h : ∀ d ds, cs = '.' :: d :: ds → d.isDigit = false) :
    fractionTail cs = ([], cs) := by
  unfold fractionTail
  split
  · next d ds => rw [if_neg (by simp [h d ds rfl])]
  · rfl

theorem fractionTail_append_breaks (hw : Breaks ws) (cs : List Char) :
    fractionTail (cs ++ ws) = ((fractionTail cs).1, (fractionTail cs).2 ++ ws) := by
  by_cases hdigit : ∃ d ds, cs = '.' :: d :: ds ∧ d.isDigit = true
  · obtain ⟨d, ds, rfl, hd⟩ := hdigit
    obtain ⟨htake, hdrop⟩ := takeWhile_isDigit_append hw (d :: ds)
    rw [List.cons_append, List.cons_append, fractionTail, fractionTail, if_pos hd, if_pos hd,
      ← List.cons_append, htake, hdrop]
  · have hstop : ∀ d ds, cs = '.' :: d :: ds → d.isDigit = false := fun d ds hcs =>
      Bool.eq_false_iff.2 fun hd => hdigit ⟨d, ds, hcs, hd⟩
    rw [fractionTail_stop hstop]
    refine fractionTail_stop fun d ds hcs => ?_
    match cs, hcs with
    | [], hcs =>
      obtain rfl : ws = '.' :: d :: ds := hcs
      exact absurd rfl (hw '.' rfl).2.2.1
    | [c], hcs =>
      obtain rfl : ws = d :: ds := (List.cons.inj hcs).2
      exact hw.not_digit
    | c :: e :: cs, hcs =>
      obtain ⟨rfl, hrest⟩ := List.cons.inj hcs
      exact hstop d cs (by rw [(List.cons.inj hrest).1])

/-- What is scanned when more text is there: the same token, with the text left after it, or again
none. -/
inductive Scan.Extends (ws : List Char) : Scan → Scan → Prop where
  | token {t written rest} : Extends ws (.token t written rest) (.token t written (rest ++ ws))
  | stray {read read'} : Extends ws (.stray read) (.stray read')

/-- What is read of a quoted text when more text is there: the same text, or again none. -/
inductive Quoted.Extends (ws : List Char) : Quoted → Quoted → Prop where
  | closed {value written rest} :
    Extends ws (.closed value written rest) (.closed value written (rest ++ ws))
  | unterminated {read read'} : Extends ws (.unterminated read) (.unterminated read')

theorem scanNumber_append (hw : Breaks ws) (sign cs : List Char) :
    (scanNumber sign cs).Extends ws (scanNumber sign (cs ++ ws)) := by
  obtain ⟨htake, hdrop⟩ := takeWhile_isDigit_append hw cs
  simp only [scanNumber, htake, hdrop, fractionTail_append_breaks hw]
  generalize fractionTail (cs.dropWhile Char.isDigit) = fraction
  obtain ⟨fraction, rest⟩ := fraction
  cases fraction with
  | nil => exact .token
  | cons d ds => exact .token

/-- The first two patterns of a backslash leave none to the last pattern. -/
theorem not_escape (hend : c = '\\' → cs = [] → False)
    (hpair : ∀ d ds, c = '\\' → cs = d :: ds → False) : c ≠ '\\' := by
  intro h
  cases cs with
  | nil => exact hend h rfl
  | cons d ds => exact hpair d ds h rfl

theorem readQuoted_char {quote : Char} (hc : c ≠ '\\') (cs : List Char) :
    readQuoted quote (c :: cs) =
      if c = quote then .closed [] [c] cs
      else
        match readQuoted quote cs with
        | .closed value written rest => .closed (c :: value) (c :: written) rest
        | .unterminated read => .unterminated (c :: read) :=
  readQuoted.eq_4 quote c cs (fun h => absurd h hc) fun _ _ h => absurd h hc

theorem readQuoted_blank {quote : Char} (hquote : isBlank quote = false)
    (hw : ∀ w ∈ ws, isBlank w = true) : ∃ read, readQuoted quote ws = .unterminated read := by
  induction ws with
  | nil => exact ⟨[], by rw [readQuoted]⟩
  | cons w ws ih =>
    obtain ⟨read, hread⟩ := ih fun w hmem => hw w (List.mem_cons_of_mem _ hmem)
    have hblank := hw w List.mem_cons_self
    refine ⟨w :: read, ?_⟩
    rw [readQuoted_char (ne_of_isBlank hblank (by decide)), if_neg (ne_of_isBlank hblank hquote),
      hread]

theorem readQuoted_append_blank {quote : Char} (hquote : isBlank quote = false)
    (hw : ∀ w ∈ ws, isBlank w = true) (cs : List Char) :
    (readQuoted quote cs).Extends ws (readQuoted quote (cs ++ ws)) := by
  fun_induction readQuoted quote cs with
  | case1 =>
    obtain ⟨read, hread⟩ := readQuoted_blank hquote hw
    rw [List.nil_append, hread]
    exact .unterminated
  | case2 =>
    cases ws with
    | nil => exact .unterminated
    | cons w ws =>
      have hrest : ∀ d ∈ ws, isBlank d = true := fun d hd => hw d (List.mem_cons_of_mem _ hd)
      obtain ⟨read, hread⟩ := readQuoted_blank hquote hrest
      simp only [List.cons_append, List.nil_append, readQuoted, hread]
      split <;> exact .unterminated
  | case3 cs =>
    rw [List.cons_append, List.cons_append, readQuoted, if_pos rfl]
    exact .unterminated
  | case4 c cs hbreak value written rest hread ih | case5 c cs hbreak read hread ih =>
    rw [hread] at ih
    rw [List.cons_append, List.cons_append, readQuoted, if_neg hbreak]
    generalize readQuoted quote (cs ++ ws) = more at ih
    cases ih
    constructor
  | case6 cs hend hpair =>
    rw [List.cons_append, readQuoted_char (not_escape hend hpair), if_pos rfl]
    exact .closed
  | case7 c cs hend hpair hquote value written rest hread ih
  | case8 c cs hend hpair hquote read hread ih =>
    rw [hread] at ih
    rw [List.cons_append, readQuoted_char (not_escape hend hpair), if_neg hquote]
    generalize readQuoted quote (cs ++ ws) = more at ih
    cases ih
    constructor

/-- The token that `scanToken` reads where no word, no digit and no quote stands: a symbol, or a
number with a sign. -/
def scanSymbol (c : Char) (cs : List Char) : Scan :=
  match c, cs with
  | '-', d :: cs => if d.isDigit then scanNumber ['-'] (d :: cs) else .stray ['-']
  | '.', '.' :: '.' :: cs => .token .spread ['.', '.', '.'] cs
  | '?', '?' :: cs => .token .coalesce ['?', '?'] cs
  | c, cs =>
    match single? c with
    | some t => .token t [c] cs
    | none => .stray [c]

theorem scanToken_eq_scanSymbol (hname : isNameStart c = false) (hdigit : c.isDigit = false)
    (hquote : ¬(c = '"' ∨ c = '\'')) (cs : List Char) : scanToken c cs = scanSymbol c cs := by
  unfold scanToken
  rw [if_neg (by simp [hname]), if_neg (by simp [hdigit]), if_neg hquote]
  rfl

/-- The characters that a symbol of more than one character, or a number, goes on with. -/
def GoesOn (c : Char) (cs : List Char) : Prop :=
  (c = '-' ∧ ∃ d ds, cs = d :: ds ∧ d.isDigit = true) ∨
    (c = '.' ∧ ∃ ds, cs = '.' :: '.' :: ds) ∨ (c = '?' ∧ ∃ ds, cs = '?' :: ds)

theorem scanSymbol_alone (h : ¬GoesOn c cs) :
    scanSymbol c cs =
      match single? c with
      | some t => .token t [c] cs
      | none => .stray [c] := by
  unfold scanSymbol
  split
  · next d ds =>
    rw [if_neg fun hd => h (.inl ⟨rfl, d, ds, rfl, hd⟩)]
    rfl
  · exact (h (.inr (.inl ⟨rfl, _, rfl⟩))).elim
  · exact (h (.inr (.inr ⟨rfl, _, rfl⟩))).elim
  · rfl

/-- With more behind it that breaks tokens, a text goes on with a symbol if it does without. -/
theorem GoesOn.of_append (hw : Breaks ws) (h : GoesOn c (cs ++ ws)) : GoesOn c cs := by
  rcases h with ⟨rfl, d, ds, hcs, hd⟩ | ⟨rfl, ds, hcs⟩ | ⟨rfl, ds, hcs⟩
  · cases cs with
    | nil =>
      obtain rfl : ws = d :: ds := hcs
      cases hw.not_digit.symm.trans hd
    | cons e es =>
      obtain rfl : e = d := (List.cons.inj hcs).1
      exact .inl ⟨rfl, e, es, rfl, hd⟩
  · match cs, hcs with
    | [], hcs =>
      obtain rfl : ws = '.' :: '.' :: ds := hcs
      exact absurd rfl (hw '.' rfl).2.2.1
    | [_], hcs =>
      obtain rfl : ws = '.' :: ds := (List.cons.inj hcs).2
      exact absurd rfl (hw '.' rfl).2.2.1
    | d :: e :: es, hcs =>
      simp only [List.cons_append, List.cons.injEq] at hcs
      obtain ⟨rfl, rfl, -⟩ := hcs
      exact .inr (.inl ⟨rfl, es, rfl⟩)
  · cases cs with
    | nil =>
      obtain rfl : ws = '?' :: ds := hcs
      exact absurd rfl (hw '?' rfl).2.2.2
    | cons d es =>
      obtain ⟨rfl, -⟩ := List.cons.inj hcs
      exact .inr (.inr ⟨rfl, es, rfl⟩)

theorem scanSymbol_append (hw : Breaks ws) (c : Char) (cs : List Char) :
    (scanSymbol c cs).Extends ws (scanSymbol c (cs ++ ws)) := by
  by_cases h : GoesOn c cs
  · rcases h with ⟨rfl, d, ds, rfl, hd⟩ | ⟨rfl, ds, rfl⟩ | ⟨rfl, ds, rfl⟩
    · simp only [List.cons_append, scanSymbol, hd, if_true]
      exact scanNumber_append hw ['-'] (d :: ds)
    · exact .token
    · exact .token
  · rw [scanSymbol_alone h, scanSymbol_alone fun hmore => h (hmore.of_append hw)]
    cases single? c with
    | none => exact .stray
    | some t => exact .token

/-- A quoted text that is closed stays as it is whatever follows. -/
theorem readQuoted_append_closed {quote : Char} {value written rest : List Char}
    (h : readQuoted quote cs = .closed value written rest) (ws : List Char) :
    readQuoted quote (cs ++ ws) = .closed value written (rest ++ ws) := by
  fun_induction readQuoted quote cs generalizing value written rest with
  | case1 | case2 | case3 | case5 | case8 => cases h
  | case4 c cs hbreak value' written' rest' hread ih =>
    cases h
    rw [List.cons_append, List.cons_append, readQuoted, if_neg hbreak, ih hread]
  | case6 cs hend hpair =>
    cases h
    rw [List.cons_append, readQuoted_char (not_escape hend hpair), if_pos rfl]
  | case7 c cs hend hpair hquote value' written' rest' hread ih =>
    cases h
    rw [List.cons_append, readQuoted_char (not_escape hend hpair), if_neg hquote, ih hread]

/-- What the scan of a first token comes to with more text behind it, given what it comes to for a
text that opens with a quote. -/
theorem scanToken_append_of (hw : Breaks ws)
    (hquoted : c = '"' ∨ c = '\'' → (readQuoted c cs).Extends ws (readQuoted c (cs ++ ws))) :
    (scanToken c cs).Extends ws (scanToken c (cs ++ ws)) := by
  cases hname : isNameStart c with
  | true =>
    simp only [scanToken, hname, if_true,
      nameTail_append_stop fun d hd => ⟨(hw d hd).1, (hw d hd).2.1⟩]
    exact .token
  | false =>
  cases hdigit : c.isDigit with
  | true =>
    simp only [scanToken, hname, hdigit, Bool.false_eq_true, if_true, if_false]
    exact scanNumber_append hw [] (c :: cs)
  | false =>
  by_cases hquote : c = '"' ∨ c = '\''
  · have hread := hquoted hquote
    simp only [scanToken, hname, hdigit, hquote, Bool.false_eq_true, if_true, if_false]
    generalize readQuoted c cs = read at hread
    generalize readQuoted c (cs ++ ws) = more at hread
    cases hread with
    | closed => exact .token
    | unterminated => exact .stray
  · rw [scanToken_eq_scanSymbol hname hdigit hquote, scanToken_eq_scanSymbol hname hdigit hquote]
    exact scanSymbol_append hw c cs

/-- Blank characters after a text do not change the first token of it. -/
theorem scanToken_append_blank (hw : ∀ w ∈ ws, isBlank w = true) (c : Char) (cs : List Char) :
    (scanToken c cs).Extends ws (scanToken c (cs ++ ws)) := by
  refine scanToken_append_of (breaks_of_blank hw) fun hquote => readQuoted_append_blank ?_ hw cs
  rcases hquote with rfl | rfl <;> decide

/-- The first token of a text stays as it is if what follows on the text breaks tokens. -/
theorem scanToken_append {t : Token} {written rest : List Char} (hw : Breaks ws)
    (h : scanToken c cs = .token t written rest) :
    scanToken c (cs ++ ws) = .token t written (rest ++ ws) := by
  have hquoted : c = '"' ∨ c = '\'' →
      (readQuoted c cs).Extends ws (readQuoted c (cs ++ ws)) := by
    intro hquote
    have hstart : isNameStart c = false := by rcases hquote with rfl | rfl <;> rfl
    have hdigit : c.isDigit = false := by rcases hquote with rfl | rfl <;> rfl
    simp only [scanToken, hstart, hdigit, hquote, Bool.false_eq_true, if_true, if_false] at h
    cases hread : readQuoted c cs with
    | closed =>
      rw [readQuoted_append_closed hread]
      exact .closed
    | unterminated =>
      rw [hread] at h
      cases h
  have hextends := scanToken_append_of hw hquoted
  rw [h] at hextends
  generalize scanToken c (cs ++ ws) = more at hextends
  cases hextends
  rfl

theorem single?_blank (h : isBlank c = true) : single? c = none := by
  unfold single?
  split
  all_goals first | rfl | cases h

/-- No token starts with a blank character. -/
theorem scanToken_blank (h : isBlank c = true) (cs : List Char) : scanToken c cs = .stray [c] := by
  obtain ⟨hpart, hdigit⟩ := not_part_of_isBlank h
  have hname : isNameStart c = false := by
    simp only [isNameChar, Char.isAlphanum, Bool.or_eq_false_iff] at hpart
    simp [isNameStart, hpart]
  have halone : ¬GoesOn c cs := by
    rintro (⟨rfl, -⟩ | ⟨rfl, -⟩ | ⟨rfl, -⟩) <;> cases h
  rw [scanToken_eq_scanSymbol hname hdigit (by rintro (rfl | rfl) <;> cases h),
    scanSymbol_alone halone, single?_blank h]

/-! ## What tokens are written with -/

/-- A character that neither opens nor closes anything. -/
def isPlain (c : Char) : Bool := c ≠ '"' && c ≠ '\'' && c ≠ '{' && c ≠ '}' && c ≠ '/'

/-- The characters that a token can be written with. -/
inductive Writes : Token → List Char → Prop where
  | plain {t written} (hopen : t ≠ .braceOpen) (hclose : t ≠ .braceClose)
    (hwritten : ∀ c ∈ written, isPlain c = true) : Writes t written
  | braceOpen : Writes .braceOpen ['{']
  | braceClose : Writes .braceClose ['}']
  | text {quote cs value inner rest} (hquote : quote = '"' ∨ quote = '\'')
    (hread : readQuoted quote cs = .closed value inner rest) :
    Writes (.text (String.ofList value)) (quote :: inner)

theorem isPlain_of_isNameChar (h : isNameChar c = true) : isPlain c = true := by
  simp only [isPlain, Bool.and_eq_true, decide_eq_true_eq]
  refine ⟨⟨⟨⟨?_, ?_⟩, ?_⟩, ?_⟩, ?_⟩
  all_goals
    rintro rfl
    cases h

theorem isPlain_of_isDigit (h : c.isDigit = true) : isPlain c = true :=
  isPlain_of_isNameChar (by simp [isNameChar, Char.isAlphanum, h])

theorem isPlain_of_isGap (h : isGap c = true) : isPlain c = true := by
  simp only [isGap, Bool.or_eq_true, decide_eq_true_eq] at h
  rcases h with ((rfl | rfl) | rfl) | rfl <;> decide

theorem isPlain_of_mem_nameTail {cs : List Char} (h : c ∈ (nameTail cs).1) : isPlain c = true := by
  fun_induction nameTail cs with
  | case1 => cases h
  | case2 d cs hd name rest hr ih =>
    rw [hr] at ih
    rcases List.mem_cons.1 h with rfl | h
    · rfl
    · exact ih h
  | case3 => cases h
  | case4 d cs hne hd name rest hr ih =>
    rw [hr] at ih
    rcases List.mem_cons.1 h with rfl | h
    · exact isPlain_of_isNameChar hd
    · exact ih h
  | case5 => cases h

theorem ofWord_not_brace (word : List Char) :
    ofWord word ≠ .braceOpen ∧ ofWord word ≠ .braceClose := by
  unfold ofWord
  split_ifs <;> exact ⟨nofun, nofun⟩

theorem isDigit_of_mem_fractionTail {cs : List Char} (h : c ∈ (fractionTail cs).1) :
    c.isDigit = true := by
  unfold fractionTail at h
  split at h
  · split at h
    · exact List.mem_takeWhile_imp h
    · cases h
  · cases h

/-- A number is written with its sign, digits and a point. -/
theorem mem_of_scanNumber {sign cs written rest : List Char} {t : Token}
    (h : scanNumber sign cs = .token t written rest) (hc : c ∈ written) :
    c ∈ sign ∨ c.isDigit = true ∨ c = '.' := by
  unfold scanNumber at h
  dsimp only at h
  split at h
  · cases h
    rcases List.mem_append.1 hc with hc | hc
    · exact .inl hc
    · exact .inr (.inl (List.mem_takeWhile_imp hc))
  · next fraction left hne hfraction =>
    cases h
    rcases List.mem_append.1 hc with hc | hc
    · rcases List.mem_append.1 hc with hc | hc
      · exact .inl hc
      · exact .inr (.inl (List.mem_takeWhile_imp hc))
    rcases List.mem_cons.1 hc with rfl | hc
    · exact .inr (.inr rfl)
    · exact .inr (.inl (isDigit_of_mem_fractionTail (by rwa [hfraction])))

theorem scanNumber_number {sign cs written rest : List Char} {t : Token}
    (h : scanNumber sign cs = .token t written rest) : ∃ v, t = .number v := by
  unfold scanNumber at h
  dsimp only at h
  split at h <;> cases h <;> exact ⟨_, rfl⟩

theorem scanNumber_writes {sign cs written rest : List Char} {t : Token}
    (hsign : ∀ c ∈ sign, isPlain c = true) (h : scanNumber sign cs = .token t written rest) :
    Writes t written := by
  obtain ⟨v, rfl⟩ := scanNumber_number h
  refine .plain nofun nofun fun c hc => ?_
  rcases mem_of_scanNumber h hc with hc | hc | rfl
  · exact hsign c hc
  · exact isPlain_of_isDigit hc
  · rfl

theorem single?_writes {t : Token} (h : single? c = some t) : Writes t [c] := by
  unfold single? at h
  split at h <;> cases h
  case h_4 => exact .braceOpen
  case h_5 => exact .braceClose
  all_goals exact .plain nofun nofun (by simp [isPlain])

theorem scanSymbol_writes {written rest : List Char} {t : Token}
    (h : scanSymbol c cs = .token t written rest) : Writes t written := by
  unfold scanSymbol at h
  split at h
  · split at h
    · exact scanNumber_writes (by simp [isPlain]) h
    · cases h
  · cases h
    exact .plain nofun nofun (by simp [isPlain])
  · cases h
    exact .plain nofun nofun (by simp [isPlain])
  · split at h
    · next ht =>
      cases h
      exact single?_writes ht
    · cases h

/-- A token is written with plain characters, as a brace, or as a quoted text. -/
theorem scanToken_writes {written rest : List Char} {t : Token}
    (h : scanToken c cs = .token t written rest) : Writes t written := by
  cases hname : isNameStart c with
  | true =>
    simp only [scanToken, hname, if_true] at h
    cases h
    obtain ⟨hopen, hclose⟩ := ofWord_not_brace (c :: (nameTail cs).1)
    refine .plain hopen hclose fun d hd => ?_
    rcases List.mem_cons.1 hd with rfl | hd
    · refine isPlain_of_isNameChar ?_
      simp only [isNameStart, Bool.or_eq_true] at hname
      rcases hname with hname | hname <;> simp [isNameChar, Char.isAlphanum, hname]
    · exact isPlain_of_mem_nameTail hd
  | false =>
  cases hdigit : c.isDigit with
  | true =>
    simp only [scanToken, hname, hdigit, Bool.false_eq_true, if_true, if_false] at h
    exact scanNumber_writes (by simp) h
  | false =>
  by_cases hquote : c = '"' ∨ c = '\''
  · simp only [scanToken, hname, hdigit, hquote, Bool.false_eq_true, if_true, if_false] at h
    split at h
    · next hread =>
      cases h
      exact .text hquote hread
    · cases h
  · rw [scanToken_eq_scanSymbol hname hdigit hquote] at h
    exact scanSymbol_writes h

theorem readQuoted_last {quote : Char} {cs value inner rest : List Char}
    (h : readQuoted quote cs = .closed value inner rest) : inner.getLast? = some quote := by
  fun_induction readQuoted quote cs generalizing value inner rest with
  | case1 | case2 | case3 => cases h
  | case4 c cs hbreak value' inner' rest' hread ih =>
    cases h
    rw [List.getLast?_cons, List.getLast?_cons, ih hread]
    rfl
  | case5 => cases h
  | case6 => cases h; rfl
  | case7 c cs hend hpair hquote value' inner' rest' hread ih =>
    cases h
    rw [List.getLast?_cons, ih hread]
    rfl
  | case8 => cases h

/-- No token ends in a slash. -/
theorem Writes.not_slash {t : Token} {written : List Char} (h : Writes t written) :
    written.getLast? ≠ some '/' := by
  cases h with
  | plain _ _ hwritten =>
    intro hlast
    cases hwritten _ (List.mem_of_getLast? hlast)
  | braceOpen | braceClose => simp
  | text hquote hread =>
    rw [List.getLast?_cons, readQuoted_last hread]
    rcases hquote with rfl | rfl <;> simp

end

end Token

/-! ## The tokens of a text -/

/-- A text that starts at a place is made of tokens, with gaps between them. -/
inductive Lexes : Nat → List Char → List Lexeme → Prop where
  | nil {pos} : Lexes pos [] []
  | gap {pos c cs lexemes} (hc : Token.isGap c = true)
    (hrest : Lexes (pos + c.utf8Size) cs lexemes) : Lexes pos (c :: cs) lexemes
  | token {pos c cs t written rest lexemes} (hc : Token.isGap c = false)
    (hscan : Token.scanToken c cs = .token t written rest)
    (hrest : Lexes (pos + byteLength written) rest lexemes) :
    Lexes pos (c :: cs) (⟨t, Span.sized pos (byteLength written)⟩ :: lexemes)

theorem lexes_of_tokenize {pos : Nat} {s : List Char} {lexemes : List Lexeme}
    (h : tokenize pos s = .ok lexemes) : Lexes pos s lexemes := by
  rw [tokenize.eq_def] at h
  split at h
  · cases h
    exact .nil
  next c cs =>
  split at h
  · next hc => exact .gap hc (lexes_of_tokenize h)
  next hc =>
  split at h
  · next t written rest hscan =>
    have hshort := Token.scanToken_rest_length hscan
    dsimp only at h
    split at h
    · next lexemes hrest =>
      cases h
      exact .token (by simpa using hc) hscan (lexes_of_tokenize hrest)
    · cases h
  · cases h
termination_by s.length

theorem Lexes.tokenize_eq {pos : Nat} {s : List Char} {lexemes : List Lexeme}
    (h : Lexes pos s lexemes) : tokenize pos s = .ok lexemes := by
  induction h with
  | nil => rw [tokenize]
  | gap hc hrest ih => rw [tokenize, if_pos hc, ih]
  | @token pos c cs t written rest lexemes hc hscan hrest ih =>
    rw [tokenize, if_neg (by simp [hc])]
    split
    · next hother =>
      cases hscan.symm.trans hother
      simp only [Span.sized, ih]
    · next hother => cases hscan.symm.trans hother

theorem tokenize_eq_ok_iff {pos : Nat} {s : List Char} {lexemes : List Lexeme} :
    tokenize pos s = .ok lexemes ↔ Lexes pos s lexemes :=
  ⟨lexes_of_tokenize, Lexes.tokenize_eq⟩

namespace Lexes

variable {pos : Nat} {s ws : List Char} {lexemes : List Lexeme}

/-- Further in its source a text has the same tokens at places as much further. -/
theorem shift (h : Lexes pos s lexemes) (offset : Nat) :
    Lexes (pos + offset) s (lexemes.map fun l => ⟨l.token, l.span.shift offset⟩) := by
  induction h with
  | nil => exact .nil
  | gap hc hrest ih =>
    rw [Nat.add_right_comm] at ih
    exact .gap hc ih
  | @token pos c cs t written rest lexemes hc hscan hrest ih =>
    rw [Nat.add_right_comm] at ih
    rw [List.map_cons, Span.shift_sized]
    exact .token hc hscan ih

theorem isBlank_of_isGap {c : Char} (h : Token.isGap c = true) : isBlank c = true := by
  simp only [Token.isGap, Bool.or_eq_true, decide_eq_true_eq] at h
  rcases h with ((rfl | rfl) | rfl) | rfl <;> decide

/-- Two texts one after the other have the tokens of both, if the second one breaks tokens. -/
theorem append {more : List Lexeme} (h : Lexes pos s lexemes) (hbreaks : Token.Breaks ws)
    (hws : Lexes (pos + byteLength s) ws more) : Lexes pos (s ++ ws) (lexemes ++ more) := by
  induction h with
  | nil => exact hws
  | gap hc hrest ih =>
    rw [byteLength_cons, ← Nat.add_assoc] at hws
    exact .gap hc (ih hws)
  | token hc hscan hrest ih =>
    rw [← Token.scanToken_split hscan, byteLength_append, ← Nat.add_assoc] at hws
    exact .token hc (Token.scanToken_append hbreaks hscan) (ih hws)

theorem gaps (hws : ∀ w ∈ ws, Token.isGap w = true) : Lexes pos ws [] := by
  induction ws generalizing pos with
  | nil => exact .nil
  | cons w ws ih =>
    exact .gap (hws w List.mem_cons_self) (ih fun w hmem => hws w (List.mem_cons_of_mem _ hmem))

/-- Gaps can be added at the end of a text. -/
theorem append_gaps (h : Lexes pos s lexemes) (hws : ∀ w ∈ ws, Token.isGap w = true) :
    Lexes pos (s ++ ws) lexemes := by
  have hblank : ∀ w ∈ ws, isBlank w = true := fun w hw => isBlank_of_isGap (hws w hw)
  have happend := h.append (Token.breaks_of_blank hblank) (gaps hws)
  rwa [List.append_nil] at happend

/-- A text of blanks has no tokens. -/
theorem eq_nil_of_blank (h : Lexes pos ws lexemes) (hws : ∀ w ∈ ws, isBlank w = true) :
    lexemes = [] := by
  induction h with
  | nil => rfl
  | gap hc hrest ih => exact ih fun w hmem => hws w (List.mem_cons_of_mem _ hmem)
  | token hc hscan hrest ih =>
    rw [Token.scanToken_blank (hws _ List.mem_cons_self)] at hscan
    cases hscan

/-- Blanks can be taken away from the end of a text. -/
theorem of_append_blank (h : Lexes pos (s ++ ws) lexemes) (hws : ∀ w ∈ ws, isBlank w = true) :
    Lexes pos s lexemes := by
  generalize htext : s ++ ws = text at h
  induction h generalizing s with
  | nil =>
    obtain ⟨rfl, -⟩ := List.append_eq_nil_iff.1 htext
    exact .nil
  | gap hc hrest ih =>
    cases s with
    | nil =>
      rw [List.nil_append] at htext
      rw [(Lexes.gap hc hrest).eq_nil_of_blank (htext ▸ hws)]
      exact .nil
    | cons d ds =>
      obtain ⟨rfl, hds⟩ := List.cons.inj htext
      exact .gap hc (ih hds)
  | token hc hscan hrest ih =>
    cases s with
    | nil =>
      rw [List.nil_append] at htext
      rw [(Lexes.token hc hscan hrest).eq_nil_of_blank (htext ▸ hws)]
      exact .nil
    | cons d ds =>
      rw [List.cons_append] at htext
      obtain ⟨rfl, rfl⟩ := List.cons.inj htext
      have hextends := Token.scanToken_append_blank hws d ds
      rw [hscan] at hextends
      generalize hfewer : Token.scanToken d ds = fewer at hextends
      cases hextends
      exact .token hc hfewer (ih rfl)

/-- A text made of tokens does not end in a slash. -/
theorem not_slash (h : Lexes pos s lexemes) : s.getLast? ≠ some '/' := by
  induction h with
  | nil => simp
  | @gap _ c cs _ hc hrest ih =>
    cases cs with
    | nil =>
      rintro hlast
      obtain rfl : c = '/' := by simpa using hlast
      cases hc
    | cons d ds => rwa [List.getLast?_cons_cons]
  | @token _ c cs t written rest _ hc hscan hrest ih =>
    rw [← Token.scanToken_split hscan, List.getLast?_append]
    cases hlast : rest.getLast? with
    | none => simpa using (Token.scanToken_writes hscan).not_slash
    | some d => simpa [hlast] using ih

end Lexes

end SlotTemplates
