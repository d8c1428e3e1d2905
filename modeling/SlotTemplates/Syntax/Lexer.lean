import SlotTemplates.Syntax.Error

/-!
# Reading tokens

`tokenize` splits the source of an expression into tokens, each the longest that starts where
it starts; white space between them is skipped. `scanToken` reads one token: it says which
characters the token took and what is left. A word that is a keyword is never a name, dashes
may stand between the parts of a name, and a quoted text may hold anything but an escaped
line break.

The lemma `scanToken_split` says that a token and the rest make up the text again, and
`scanToken_written` that a token is never empty.
-/

namespace SlotTemplates

namespace Token

/-- The characters that may stand between tokens. -/
def isGap (c : Char) : Bool := c = ' ' || c = '\t' || c = '\n' || c = '\r'

/-- The characters that a name may start with. -/
def isNameStart (c : Char) : Bool := c.isAlpha || c = '_'

/-- The characters of the parts of a name. -/
def isNameChar (c : Char) : Bool := c.isAlphanum || c = '_'

/-- The rest of a name, a dash only before another part, and what is left. -/
def nameTail : List Char → List Char × List Char
  | [] => ([], [])
  | '-' :: d :: cs =>
    if isNameChar d then
      let (name, rest) := nameTail (d :: cs)
      ('-' :: name, rest)
    else ([], '-' :: d :: cs)
  | c :: cs =>
    if isNameChar c then
      let (name, rest) := nameTail cs
      (c :: name, rest)
    else ([], c :: cs)

/-- The token of a whole word. -/
def ofWord (word : List Char) : Token :=
  if word = ['t', 'r', 'u', 'e'] then .trueWord
  else if word = ['f', 'a', 'l', 's', 'e'] then .falseWord
  else if word = ['n', 'u', 'l', 'l'] then .nullWord
  else .ident (String.ofList word)

/-- The number that decimal digits write. -/
def decimalValue (digits : List Char) : Nat :=
  digits.foldl (fun n c => n * 10 + (c.toNat - '0'.toNat)) 0

/-- The fraction of a number, a point only before a digit, and what is left. -/
def fractionTail : List Char → List Char × List Char
  | '.' :: d :: cs =>
    if d.isDigit then
      ((d :: cs).takeWhile Char.isDigit, (d :: cs).dropWhile Char.isDigit)
    else ([], '.' :: d :: cs)
  | cs => ([], cs)

/-- The number of a sign, the digits before the point and those after it. -/
def ofDigits (negative : Bool) (whole fraction : List Char) : Token :=
  let exponent : Int := -fraction.length
  .number (Binary64.ofDecimal negative (decimalValue (whole ++ fraction)) exponent)

/-- What an escaped character stands for. -/
def unescape : Char → Char
  | 'n' => '\n'
  | 't' => '\t'
  | 'r' => '\r'
  | c => c

/-- A quoted text after its opening quote. -/
inductive Quoted where
  /-- The text, the characters it was written with up to the closing quote, and the rest. -/
  | closed (value written rest : List Char)
  /-- The characters up to where no text could go on. -/
  | unterminated (read : List Char)

/-- Reads a quoted text up to its closing quote. -/
def readQuoted (quote : Char) : List Char → Quoted
  | [] => .unterminated []
  | '\\' :: [] => .unterminated []
  | '\\' :: c :: cs =>
    if c = '\n' then .unterminated []
    else
      match readQuoted quote cs with
      | .closed value written rest => .closed (unescape c :: value) ('\\' :: c :: written) rest
      | .unterminated read => .unterminated ('\\' :: c :: read)
  | c :: cs =>
    if c = quote then .closed [] [c] cs
    else
      match readQuoted quote cs with
      | .closed value written rest => .closed (c :: value) (c :: written) rest
      | .unterminated read => .unterminated (c :: read)

/-- A token that is one fixed character. -/
def single? : Char → Option Token
  | '~' => some .tilde
  | '=' => some .equals
  | '.' => some .dot
  | '{' => some .braceOpen
  | '}' => some .braceClose
  | '[' => some .bracketOpen
  | ']' => some .bracketClose
  | '(' => some .parenOpen
  | ')' => some .parenClose
  | ',' => some .comma
  | ':' => some .colon
  | _ => none

/-- The outcome of reading one token. -/
inductive Scan where
  /-- A token, the characters it took, and the rest. -/
  | token (t : Token) (written rest : List Char)
  /-- The characters that were read before it was clear that no token starts here. -/
  | stray (read : List Char)

/-- A number after its sign, if a digit comes first. -/
def scanNumber (sign : List Char) (cs : List Char) : Scan :=
  let whole := cs.takeWhile Char.isDigit
  let rest := cs.dropWhile Char.isDigit
  match fractionTail rest with
  | ([], _) => .token (ofDigits (sign ≠ []) whole []) (sign ++ whole) rest
  | (fraction, rest) =>
    .token (ofDigits (sign ≠ []) whole fraction) (sign ++ whole ++ '.' :: fraction) rest

/-- The longest token at the front of a text that starts with `c`. -/
def scanToken (c : Char) (cs : List Char) : Scan :=
  if isNameStart c then
    let (name, rest) := nameTail cs
    .token (ofWord (c :: name)) (c :: name) rest
  else if c.isDigit then scanNumber [] (c :: cs)
  else if c = '"' ∨ c = '\'' then
    match readQuoted c cs with
    | .closed value written rest => .token (.text (String.ofList value)) (c :: written) rest
    | .unterminated read => .stray (c :: read)
  else
    match c, cs with
    | '-', d :: cs => if d.isDigit then scanNumber ['-'] (d :: cs) else .stray ['-']
    | '.', '.' :: '.' :: cs => .token .spread ['.', '.', '.'] cs
    | '?', '?' :: cs => .token .coalesce ['?', '?'] cs
    | c, cs =>
      match single? c with
      | some t => .token t [c] cs
      | none => .stray [c]

/-! ### A token and the rest make up the text -/

theorem nameTail_append (cs : List Char) : (nameTail cs).1 ++ (nameTail cs).2 = cs := by
  fun_induction nameTail cs with
  | case1 => rfl
  | case2 d cs h name rest hr ih => simpa [hr] using ih
  | case3 => rfl
  | case4 c cs hne h name rest hr ih => simpa [hr] using ih
  | case5 => rfl

theorem fractionTail_append (cs : List Char) :
    (fractionTail cs = ([], cs)) ∨ '.' :: (fractionTail cs).1 ++ (fractionTail cs).2 = cs := by
  unfold fractionTail
  split
  · split
    · exact Or.inr (by simp [List.takeWhile_append_dropWhile])
    · exact Or.inl rfl
  · exact Or.inl rfl

theorem readQuoted_append {quote : Char} {cs value written rest : List Char}
    (h : readQuoted quote cs = .closed value written rest) : written ++ rest = cs := by
  fun_induction readQuoted quote cs generalizing value written rest with
  | case1 => cases h
  | case2 => cases h
  | case3 => cases h
  | case4 c cs hc v w r hr ih => cases h; simp [ih hr]
  | case5 => cases h
  | case6 => cases h; rfl
  | case7 c cs hne hq hc v w r hr ih => cases h; simp [ih hr]
  | case8 => cases h

theorem scanNumber_split {sign cs written rest : List Char} {t : Token}
    (h : scanNumber sign cs = .token t written rest) : written ++ rest = sign ++ cs := by
  have hw : cs.takeWhile Char.isDigit ++ cs.dropWhile Char.isDigit = cs :=
    List.takeWhile_append_dropWhile
  unfold scanNumber at h
  dsimp only at h
  split at h
  · cases h
    simp [hw]
  · rename_i fraction rest' hne hf
    cases h
    rcases fractionTail_append (cs.dropWhile Char.isDigit) with he | he
    · rw [he] at hf
      cases hf
      exact (hne rfl).elim
    · rw [hf] at he
      simp only [List.append_assoc, List.cons_append] at he ⊢
      rw [he, hw]

theorem scanToken_split {c : Char} {cs written rest : List Char} {t : Token}
    (h : scanToken c cs = .token t written rest) : written ++ rest = c :: cs := by
  unfold scanToken at h
  split at h
  · cases h
    simp [nameTail_append]
  · split at h
    · exact scanNumber_split h
    · split at h
      · split at h
        · cases h
          rename_i hq
          simp [readQuoted_append hq]
        · cases h
      · split at h
        · split at h
          · exact scanNumber_split h
          · cases h
        · cases h; rfl
        · cases h; rfl
        · split at h
          · cases h; rfl
          · cases h

theorem scanNumber_written {sign cs written rest : List Char} {t : Token}
    (h : scanNumber sign cs = .token t written rest)
    (hd : ∃ d ds, cs = d :: ds ∧ d.isDigit = true) : written ≠ [] := by
  obtain ⟨d, ds, rfl, hd⟩ := hd
  unfold scanNumber at h
  dsimp only at h
  split at h <;> cases h <;> simp [hd]

theorem scanToken_written {c : Char} {cs written rest : List Char} {t : Token}
    (h : scanToken c cs = .token t written rest) : written ≠ [] := by
  unfold scanToken at h
  split at h
  · cases h; simp
  · split at h
    · rename_i hd
      exact scanNumber_written h ⟨c, cs, rfl, hd⟩
    · split at h
      · split at h
        · cases h; simp
        · cases h
      · split at h
        · split at h
          · rename_i hd
            exact scanNumber_written h ⟨_, _, rfl, hd⟩
          · cases h
        · cases h; simp
        · cases h; simp
        · split at h
          · cases h; simp
          · cases h

theorem scanToken_rest_length {c : Char} {cs written rest : List Char} {t : Token}
    (h : scanToken c cs = .token t written rest) : rest.length < cs.length + 1 := by
  have hs := congrArg List.length (scanToken_split h)
  have hw := List.length_pos_iff.2 (scanToken_written h)
  simp only [List.length_append, List.length_cons] at hs
  omega

end Token

/-- The tokens of a text that starts at byte `offset` of its source, or the error at the
first place where no token starts. -/
def tokenize (offset : Nat) (source : List Char) : Except SyntaxError (List Lexeme) :=
  match source with
  | [] => .ok []
  | c :: cs =>
    if Token.isGap c then tokenize (offset + c.utf8Size) cs
    else
      match _h : Token.scanToken c cs with
      | .token t written rest =>
        let span := Span.sized offset (byteLength written)
        match tokenize span.stop rest with
        | .ok lexemes => .ok (⟨t, span⟩ :: lexemes)
        | .error e => .error e
      | .stray read =>
        .error { span := Span.sized offset (byteLength read),
                 fault := .strayText (String.ofList read) }
termination_by source.length
decreasing_by
  · simp
  · exact Token.scanToken_rest_length (by assumption)

end SlotTemplates
