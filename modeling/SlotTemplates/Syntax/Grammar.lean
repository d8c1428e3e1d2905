import SlotTemplates.Syntax.Expr
import SlotTemplates.Syntax.Lexer

/-!
# The grammar of expressions and tag arguments

```
expr   = concat ('??' concat)*
concat = access ('~' access)*
access = atom ('.' name | '[' expr ']')*
atom   = text | number | true | false | null | name | name '(' items ')'
       | '[' items ']' | '{' entries '}' | '(' expr ')'
attrs  = (('...' expr | name ['=' expr]) [','])*
```

Items and entries are separated by commas, and one comma may follow the last. Both chains
associate to the left. The next token always decides how to go on, so the parser below never
goes back; what it could also have taken at a place is the list of *pending* expectations,
which an error at that place reports together with its own.

`parseExpr`, `parseAttrs`, `parseDynamic` and `parseSlotName` read whole sources.
-/

namespace SlotTemplates

namespace Grammar

/-- A failure before the tokens that are left, and what could have stood there. -/
structure Failure where
  rest : List Lexeme
  expected : List Expectation

/-- What was read, the tokens that are left, fewer than `bound`, and what could have gone on
from there. -/
structure Parsed (α : Type) (bound : Nat) where
  value : α
  rest : List Lexeme
  pending : List Expectation
  shorter : rest.length < bound

/-- The same result under a larger bound. -/
def Parsed.relax {α : Type} {m n : Nat} (p : Parsed α m) (h : m ≤ n) : Parsed α n :=
  ⟨p.value, p.rest, p.pending, Nat.lt_of_lt_of_le p.shorter h⟩

/-- The expectation of a fixed token. -/
abbrev fixed (t : Token) : Expectation := .token t

/-- The fixed tokens that an atom can start with. -/
def atomStarts : List Expectation := [fixed .parenOpen, fixed .bracketOpen, fixed .braceOpen]

/-- The literal that a token writes, if it is one. -/
def literal? : Token → Option Value
  | .text s => some (.string s)
  | .number x => some ((Number.ofLiteral x).elim .null .number)
  | .trueWord => some (.bool true)
  | .falseWord => some (.bool false)
  | .nullWord => some .null
  | _ => none

/-- The key that a token writes in a map, if it can. -/
def key? : Token → Option String
  | .ident name => some name
  | .text s => some s
  | _ => none

mutual

/-- An expression; `pending` is what could also stand in its place. -/
def expr (pending : List Expectation) (s : List Lexeme) :
    Except Failure (Parsed Expr s.length) :=
  match concat pending s with
  | .error f => .error f
  | .ok ⟨left, r, p, h⟩ =>
    match coalesceTail left p r with
    | .error f => .error f
    | .ok q => .ok (q.relax h)
termination_by 8 * s.length + 4

/-- What may follow the first operand of a chain of `??`. -/
def coalesceTail (left : Expr) (pending : List Expectation) (s : List Lexeme) :
    Except Failure (Parsed Expr (s.length + 1)) :=
  match s with
  | ⟨.coalesce, _⟩ :: r =>
    match concat [] r with
    | .error f => .error f
    | .ok ⟨right, r', p, h⟩ =>
      match coalesceTail (.coalesce (left.span.through right.span) left right) p r' with
      | .error f => .error f
      | .ok q => .ok (q.relax (by simp only [List.length_cons]; omega))
  | s => .ok ⟨left, s, fixed .coalesce :: pending, Nat.lt_succ_self _⟩
termination_by 8 * s.length + 4

/-- An operand of `??`. -/
def concat (pending : List Expectation) (s : List Lexeme) :
    Except Failure (Parsed Expr s.length) :=
  match access pending s with
  | .error f => .error f
  | .ok ⟨left, r, p, h⟩ =>
    match concatTail left p r with
    | .error f => .error f
    | .ok q => .ok (q.relax h)
termination_by 8 * s.length + 3

/-- What may follow the first operand of a chain of `~`. -/
def concatTail (left : Expr) (pending : List Expectation) (s : List Lexeme) :
    Except Failure (Parsed Expr (s.length + 1)) :=
  match s with
  | ⟨.tilde, _⟩ :: r =>
    match access [] r with
    | .error f => .error f
    | .ok ⟨right, r', p, h⟩ =>
      match concatTail (.concat (left.span.through right.span) left right) p r' with
      | .error f => .error f
      | .ok q => .ok (q.relax (by simp only [List.length_cons]; omega))
  | s => .ok ⟨left, s, fixed .tilde :: pending, Nat.lt_succ_self _⟩
termination_by 8 * s.length + 3

/-- An operand of `~`. -/
def access (pending : List Expectation) (s : List Lexeme) :
    Except Failure (Parsed Expr s.length) :=
  match atom pending s with
  | .error f => .error f
  | .ok ⟨base, r, p, h⟩ =>
    match accessTail base p r with
    | .error f => .error f
    | .ok q => .ok (q.relax h)
termination_by 8 * s.length + 2

/-- The accessors after an atom. -/
def accessTail (base : Expr) (pending : List Expectation) (s : List Lexeme) :
    Except Failure (Parsed Expr (s.length + 1)) :=
  match s with
  | ⟨.dot, _⟩ :: ⟨.ident name, span⟩ :: r =>
    match accessTail (.attr (base.span.through span) base name) [] r with
    | .error f => .error f
    | .ok q => .ok (q.relax (by simp only [List.length_cons]; omega))
  | ⟨.dot, _⟩ :: r => .error ⟨r, []⟩
  | ⟨.bracketOpen, _⟩ :: r =>
    match expr [] r with
    | .error f => .error f
    | .ok ⟨position, r', p, h⟩ =>
      match r', h with
      | ⟨.bracketClose, span⟩ :: r'', h =>
        match accessTail (.index (base.span.through span) base position) [] r'' with
        | .error f => .error f
        | .ok q =>
          .ok (q.relax (by simp only [List.length_cons] at h ⊢; omega))
      | r', _ => .error ⟨r', fixed .bracketClose :: p⟩
  | s => .ok ⟨base, s, fixed .dot :: fixed .bracketOpen :: pending, Nat.lt_succ_self _⟩
termination_by 8 * s.length + 2
decreasing_by
  all_goals try simp only [List.length_cons] at *
  all_goals omega

/-- An atom. -/
def atom (pending : List Expectation) (s : List Lexeme) :
    Except Failure (Parsed Expr s.length) :=
  match s with
  | [] => .error ⟨[], atomStarts ++ pending⟩
  | ⟨.ident name, span⟩ :: ⟨.parenOpen, _⟩ :: r =>
    match items .parenClose r with
    | .error f => .error f
    | .ok ⟨(args, close), r', _, h⟩ =>
      .ok ⟨.call (span.through close) name span args, r', [],
        by simp only [List.length_cons]; omega⟩
  | ⟨.ident name, span⟩ :: r => .ok ⟨.var span name, r, [fixed .parenOpen], by simp⟩
  | ⟨.bracketOpen, span⟩ :: r =>
    match items .bracketClose r with
    | .error f => .error f
    | .ok ⟨(es, close), r', _, h⟩ =>
      .ok ⟨.list (span.through close) es, r', [], by simp only [List.length_cons]; omega⟩
  | ⟨.braceOpen, span⟩ :: r =>
    match entries r with
    | .error f => .error f
    | .ok ⟨(es, close), r', _, h⟩ =>
      .ok ⟨.map (span.through close) es, r', [], by simp only [List.length_cons]; omega⟩
  | ⟨.parenOpen, _⟩ :: r =>
    match expr [] r with
    | .error f => .error f
    | .ok ⟨inner, r', p, h⟩ =>
      match r', h with
      | ⟨.parenClose, _⟩ :: r'', h =>
        .ok ⟨inner, r'', [], by simp only [List.length_cons] at h ⊢; omega⟩
      | r', _ => .error ⟨r', fixed .parenClose :: p⟩
  | ⟨t, span⟩ :: r =>
    match literal? t with
    | some v => .ok ⟨.literal span v, r, [], by simp⟩
    | none => .error ⟨⟨t, span⟩ :: r, atomStarts ++ pending⟩
termination_by 8 * s.length + 1

/-- Expressions separated by commas up to the token `close`, and the place of that token. -/
def items (close : Token) (s : List Lexeme) :
    Except Failure (Parsed (List Expr × Span) s.length) :=
  match s with
  | ⟨t, span⟩ :: r =>
    if t = close then .ok ⟨([], span), r, [], by simp⟩
    else itemsFrom close (⟨t, span⟩ :: r)
  | [] => itemsFrom close []
termination_by 8 * s.length + 6

/-- At least one expression, and the rest of `items`. -/
def itemsFrom (close : Token) (s : List Lexeme) :
    Except Failure (Parsed (List Expr × Span) s.length) :=
  match expr [fixed close] s with
  | .error f => .error f
  | .ok ⟨e, r, p, h⟩ =>
    match r, h with
    | ⟨.comma, _⟩ :: r', h =>
      match items close r' with
      | .error f => .error f
      | .ok ⟨(es, span), r'', _, h'⟩ =>
        .ok ⟨(e :: es, span), r'', [], by simp only [List.length_cons] at h; omega⟩
    | ⟨t, span⟩ :: r', h =>
      if t = close then .ok ⟨([e], span), r', [], by simp only [List.length_cons] at h; omega⟩
      else .error ⟨⟨t, span⟩ :: r', fixed .comma :: fixed close :: p⟩
    | [], _ => .error ⟨[], fixed .comma :: fixed close :: p⟩
termination_by 8 * s.length + 5
decreasing_by
  all_goals try simp only [List.length_cons] at *
  all_goals omega

/-- The entries of a map up to its brace, and the place of that brace. -/
def entries (s : List Lexeme) :
    Except Failure (Parsed (List (String × Expr) × Span) s.length) :=
  match s with
  | ⟨.braceClose, span⟩ :: r => .ok ⟨([], span), r, [], by simp⟩
  | ⟨t, span⟩ :: ⟨.colon, _⟩ :: r =>
    match key? t with
    | none => .error ⟨s, [fixed .braceClose]⟩
    | some key =>
      match expr [] r with
      | .error f => .error f
      | .ok ⟨e, r', p, h⟩ =>
        match r', h with
        | ⟨.comma, _⟩ :: r'', h =>
          match entries r'' with
          | .error f => .error f
          | .ok ⟨(es, close), r''', _, h'⟩ =>
            .ok ⟨((key, e) :: es, close), r''', [],
              by simp only [List.length_cons] at h ⊢; omega⟩
        | ⟨.braceClose, close⟩ :: r'', h =>
          .ok ⟨([(key, e)], close), r'', [], by simp only [List.length_cons] at h ⊢; omega⟩
        | r', _ => .error ⟨r', fixed .comma :: fixed .braceClose :: p⟩
  | ⟨t, span⟩ :: r =>
    match key? t with
    | none => .error ⟨s, [fixed .braceClose]⟩
    | some _ => .error ⟨r, [fixed .colon]⟩
  | [] => .error ⟨[], [fixed .braceClose]⟩
termination_by 8 * s.length + 5
decreasing_by
  all_goals try simp only [List.length_cons] at *
  all_goals omega

end

/-- Attributes up to the end; `pending` is what could also stand in their place. -/
def attrs (pending : List Expectation) (s : List Lexeme) : Except Failure (List Attr) :=
  match s with
  | [] => .ok []
  | ⟨.spread, _⟩ :: r =>
    match expr [] r with
    | .error f => .error f
    | .ok ⟨e, r', p, _⟩ => (attrsAfter p r').map (.spread e :: ·)
  | ⟨.ident name, span⟩ :: ⟨.equals, _⟩ :: r =>
    match expr [] r with
    | .error f => .error f
    | .ok ⟨e, r', p, _⟩ => (attrsAfter p r').map (.named name span (some e) :: ·)
  | ⟨.ident name, span⟩ :: r =>
    (attrsAfter [fixed .equals] r).map (.named name span none :: ·)
  | s => .error ⟨s, fixed .spread :: .endOfTag :: pending⟩
termination_by 8 * s.length + 0
decreasing_by
  all_goals try simp only [List.length_cons] at *
  all_goals omega
where
  /-- The attributes after one attribute and the comma that may follow it. -/
  attrsAfter (pending : List Expectation) (s : List Lexeme) : Except Failure (List Attr) :=
    match s with
    | ⟨.comma, _⟩ :: r => attrs [] r
    | s => attrs (fixed .comma :: pending) s
  termination_by 8 * s.length + 1

/-- The end of the tokens after something complete. -/
def finish {α : Type} (value : α) (rest : List Lexeme) (pending : List Expectation) :
    Except Failure α :=
  match rest with
  | [] => .ok value
  | rest => .error ⟨rest, .endOfTag :: pending⟩

/-- The error that a failure is. At the end of the tokens it points from the end of the
source back to the end of the last token. -/
def Failure.toError (f : Failure) (finish : Nat) (lexemes : List Lexeme) : SyntaxError :=
  let expected := Expectation.ordered f.expected
  match f.rest with
  | ⟨t, span⟩ :: _ => ⟨span, .unexpectedToken t, expected⟩
  | [] =>
    let last := (lexemes.getLast?.map fun l => l.span.stop).getD finish
    ⟨⟨finish, last⟩, .unexpectedEnd, expected⟩

/-- Reads the tokens of a source and applies a parser to all of them. -/
def run {α : Type} (parser : List Lexeme → Except Failure α) (offset : Nat)
    (source : List Char) : Except SyntaxError α :=
  match tokenize offset source with
  | .error e => .error e
  | .ok lexemes =>
    match parser lexemes with
    | .ok v => .ok v
    | .error f => .error (f.toError (offset + byteLength source) lexemes)

/-- An expression and nothing else. -/
def wholeExpr (s : List Lexeme) : Except Failure Expr :=
  match expr [] s with
  | .error f => .error f
  | .ok p => finish p.value p.rest p.pending

/-- The expression of a component's name, and attributes after it. -/
def dynamic (s : List Lexeme) : Except Failure (Expr × List Attr) :=
  match expr [] s with
  | .error f => .error f
  | .ok p => (attrs p.pending p.rest).map (p.value, ·)

/-- The name of a slot and nothing else. -/
def slotName (s : List Lexeme) : Except Failure (String × Span) :=
  match s with
  | ⟨.ident name, span⟩ :: r => finish (name, span) r []
  | ⟨.text name, span⟩ :: r => finish (name, span) r []
  | s => .error ⟨s, []⟩

end Grammar

/-- The expression that a source at byte `offset` of its template holds. -/
def parseExpr (offset : Nat) (source : List Char) : Except SyntaxError Expr :=
  Grammar.run Grammar.wholeExpr offset source

/-- The attributes that a source at byte `offset` of its template holds. -/
def parseAttrs (offset : Nat) (source : List Char) : Except SyntaxError (List Attr) :=
  Grammar.run (Grammar.attrs []) offset source

/-- The name expression and the attributes of an invocation whose name is computed. -/
def parseDynamic (offset : Nat) (source : List Char) : Except SyntaxError (Expr × List Attr) :=
  Grammar.run Grammar.dynamic offset source

/-- The name of a slot, a word or a quoted text, and its place. -/
def parseSlotName (offset : Nat) (source : List Char) : Except SyntaxError (String × Span) :=
  Grammar.run Grammar.slotName offset source

end SlotTemplates
