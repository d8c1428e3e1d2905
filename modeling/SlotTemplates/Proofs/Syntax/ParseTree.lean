import Mathlib
import SlotTemplates.Proofs.Syntax.Sources

/-!
# Parse trees

`Grammar.Tree` is the grammar of expressions as a type. A tree says how its tokens
(`Grammar.Tree.tokens`) are derived, parentheses and trailing commas included, and which expression
they stand for (`Grammar.Tree.value`):

```
expr   = concat ('??' concat)*
concat = access ('~' access)*
access = atom ('.' name | '[' expr ']')*
atom   = text | number | true | false | null | '[' items ']' | '{' entries '}'
       | name '(' items ')' | name | '(' expr ')'
items  = [expr (',' expr)* [',']]           entries = [entry (',' entry)* [',']]
entry  = (name | text) ':' expr
```

What is read from the tokens of a source is what a tree with these tokens stands for, and no tokens
have two trees (`parseExpr_iff_tree`). A tree can be told from its tokens because what follows on a
phrase never goes on with it (`Grammar.Symbol.Ends`): so one induction over all trees shows that two
of them with the same tokens in front of what ends them are the same (`Grammar.Tree.unique`).
-/

namespace SlotTemplates

namespace Grammar

/-! ## The grammar -/

/-- What is separated by commas: expressions, or entries of a map. -/
inductive Element where
  | value
  | entry

/-- The symbols of the grammar. A symbol in the plural is what may follow on a first operand. -/
inductive Symbol where
  | expr
  | coalesces
  | concat
  | tildes
  | access
  | accessors
  | atom
  | element (kind : Element)
  /-- Elements before a closing token. -/
  | items (kind : Element)
  /-- What may follow on the first element before a closing token. -/
  | more (kind : Element)

/-- The trees of a symbol, with one constructor for every production. -/
inductive Tree : Symbol → Type where
  | expr (first : Tree .concat) (more : Tree .coalesces) : Tree .expr
  | coalesceEnd : Tree .coalesces
  | coalesce (next : Tree .concat) (more : Tree .coalesces) : Tree .coalesces
  | concat (first : Tree .access) (more : Tree .tildes) : Tree .concat
  | tildeEnd : Tree .tildes
  | tilde (next : Tree .access) (more : Tree .tildes) : Tree .tildes
  | access (base : Tree .atom) (more : Tree .accessors) : Tree .access
  | accessEnd : Tree .accessors
  | attr (name : String) (more : Tree .accessors) : Tree .accessors
  | index (position : Tree .expr) (more : Tree .accessors) : Tree .accessors
  | text (value : String) : Tree .atom
  | number (value : Binary64) : Tree .atom
  | trueWord : Tree .atom
  | falseWord : Tree .atom
  | nullWord : Tree .atom
  | list (values : Tree (.items .value)) : Tree .atom
  | map (entries : Tree (.items .entry)) : Tree .atom
  | call (name : String) (args : Tree (.items .value)) : Tree .atom
  | var (name : String) : Tree .atom
  | paren (inner : Tree .expr) : Tree .atom
  | noItems {kind : Element} : Tree (.items kind)
  | items {kind : Element} (first : Tree (.element kind)) (more : Tree (.more kind)) :
    Tree (.items kind)
  | itemsEnd {kind : Element} : Tree (.more kind)
  /-- A comma behind the last element. -/
  | itemsComma {kind : Element} : Tree (.more kind)
  | item {kind : Element} (next : Tree (.element kind)) (more : Tree (.more kind)) :
    Tree (.more kind)
  | plain (value : Tree .expr) : Tree (.element .value)
  | named (key : String) (value : Tree .expr) : Tree (.element .entry)
  | quoted (key : String) (value : Tree .expr) : Tree (.element .entry)

/-- The tokens of a tree in their order. -/
def Tree.tokens : {symbol : Symbol} → Tree symbol → List Token
  | _, .expr first more | _, .concat first more => first.tokens ++ more.tokens
  | _, .access base more => base.tokens ++ more.tokens
  | _, .coalesceEnd | _, .tildeEnd | _, .accessEnd => []
  | _, .coalesce next more => .coalesce :: (next.tokens ++ more.tokens)
  | _, .tilde next more => .tilde :: (next.tokens ++ more.tokens)
  | _, .attr name more => .dot :: .ident name :: more.tokens
  | _, .index position more => .bracketOpen :: (position.tokens ++ .bracketClose :: more.tokens)
  | _, .text value => [.text value]
  | _, .number value => [.number value]
  | _, .trueWord => [.trueWord]
  | _, .falseWord => [.falseWord]
  | _, .nullWord => [.nullWord]
  | _, .list values => .bracketOpen :: (values.tokens ++ [.bracketClose])
  | _, .map entries => .braceOpen :: (entries.tokens ++ [.braceClose])
  | _, .call name args => .ident name :: .parenOpen :: (args.tokens ++ [.parenClose])
  | _, .var name => [.ident name]
  | _, .paren inner => .parenOpen :: (inner.tokens ++ [.parenClose])
  | _, .noItems | _, .itemsEnd => []
  | _, .items first more => first.tokens ++ more.tokens
  | _, .itemsComma => [.comma]
  | _, .item next more => .comma :: (next.tokens ++ more.tokens)
  | _, .plain value => value.tokens
  | _, .named key value => .ident key :: .colon :: value.tokens
  | _, .quoted key value => .text key :: .colon :: value.tokens

/-- What an element stands for. -/
abbrev Element.Value : Element → Type
  | .value => Expr
  | .entry => String × Expr

/-- What a tree stands for. What follows on a first operand makes an expression of it. -/
abbrev Symbol.Value : Symbol → Type
  | .expr | .concat | .access | .atom => Expr
  | .coalesces | .tildes | .accessors => Expr → Expr
  | .element kind => kind.Value
  | .items kind | .more kind => List kind.Value

/-- The place of expressions that have none. -/
def nowhere : Span := ⟨0, 0⟩

/-- The expression that a tree stands for, without places. Chains of operators associate to the
left. -/
def Tree.value : {symbol : Symbol} → Tree symbol → symbol.Value
  | _, .expr first more => more.value first.value
  | _, .concat first more => more.value first.value
  | _, .access base more => more.value base.value
  | _, .coalesceEnd | _, .tildeEnd | _, .accessEnd => id
  | _, .coalesce next more => fun left => more.value (.coalesce nowhere left next.value)
  | _, .tilde next more => fun left => more.value (.concat nowhere left next.value)
  | _, .attr name more => fun base => more.value (.attr nowhere base name)
  | _, .index position more => fun base => more.value (.index nowhere base position.value)
  | _, .text value => .literal nowhere (.string value)
  | _, .number value => .literal nowhere ((Number.ofLiteral value).elim .null .number)
  | _, .trueWord => .literal nowhere (.bool true)
  | _, .falseWord => .literal nowhere (.bool false)
  | _, .nullWord => .literal nowhere .null
  | _, .list values => .list nowhere values.value
  | _, .map entries => .map nowhere entries.value
  | _, .call name args => .call nowhere name nowhere args.value
  | _, .var name => .var nowhere name
  | _, .paren inner => inner.value
  | _, .noItems | _, .itemsEnd | _, .itemsComma => []
  | _, .items first more => first.value :: more.value
  | _, .item next more => next.value :: more.value
  | _, .plain value => value.value
  | _, .named key value | _, .quoted key value => (key, value.value)

/-! ## Tokens have one tree -/

/-- Closing tokens are no part of what they close. -/
def isClosing : Token → Bool
  | .parenClose | .bracketClose | .braceClose => true
  | _ => false

theorem looseness_of_isClosing {t : Token} (h : isClosing t = true) : looseness t = 4 := by
  cases t <;> first | rfl | cases h

/-- What may follow on a symbol: nothing that goes on with it. -/
def Symbol.Ends (rest : List Token) : Symbol → Prop
  | .expr | .coalesces | .element _ => ∀ t ∈ rest.head?, 3 < looseness t
  | .concat | .tildes => ∀ t ∈ rest.head?, 2 < looseness t
  | .access | .accessors => ∀ t ∈ rest.head?, 1 < looseness t
  | .atom => ∀ t ∈ rest.head?, 0 < looseness t
  | .items _ | .more _ => ∀ t ∈ rest.head?, isClosing t = true

/-- Whether trees of a symbol are operands, or made of one. -/
def Symbol.isOperand : Symbol → Bool
  | .expr | .concat | .access | .atom | .element _ => true
  | _ => false

namespace Tree

variable {symbol : Symbol} {rest rest' : List Token}

/-- What ends an operator's operand: the next operator of its chain, or what ends the chain. -/
theorem ends_coalesces (d : Tree .coalesces) (h : Symbol.coalesces.Ends rest) :
    Symbol.concat.Ends (d.tokens ++ rest) := by
  cases d with
  | coalesceEnd => exact fun t ht => Nat.lt_of_succ_lt (h t ht)
  | coalesce => simp [tokens, Symbol.Ends, looseness]

theorem ends_tildes (d : Tree .tildes) (h : Symbol.tildes.Ends rest) :
    Symbol.access.Ends (d.tokens ++ rest) := by
  cases d with
  | tildeEnd => exact fun t ht => Nat.lt_of_succ_lt (h t ht)
  | tilde => simp [tokens, Symbol.Ends, looseness]

theorem ends_accessors (d : Tree .accessors) (h : Symbol.accessors.Ends rest) :
    Symbol.atom.Ends (d.tokens ++ rest) := by
  cases d with
  | accessEnd => exact fun t ht => Nat.lt_of_succ_lt (h t ht)
  | attr | index => simp [tokens, Symbol.Ends, looseness]

/-- An element ends before a comma and before a closing token. -/
theorem ends_more {kind : Element} (d : Tree (.more kind)) (h : (Symbol.more kind).Ends rest) :
    (Symbol.element kind).Ends (d.tokens ++ rest) := by
  cases d with
  | itemsEnd =>
    intro t ht
    rw [looseness_of_isClosing (h t ht)]
    decide
  | itemsComma | item => simp [tokens, Symbol.Ends, looseness]

/-- Operands are not empty, and do not begin with a closing token. -/
theorem starts (d : Tree symbol) (h : symbol.isOperand = true) :
    ∃ t more, d.tokens = t :: more ∧ isClosing t = false := by
  induction d with
  | expr first more ih | concat first more ih | access first more ih =>
    obtain ⟨t, tail, htokens, ht⟩ := ih rfl
    exact ⟨t, tail ++ more.tokens, by rw [tokens, htokens]; rfl, ht⟩
  | plain value ih => exact ih rfl
  | text | number | trueWord | falseWord | nullWord | list | map | call | var | paren | named
  | quoted => exact ⟨_, _, rfl, rfl⟩
  | _ => cases h

/-- Elements are there unless a closing token follows. -/
theorem items_ne_nil {kind : Element} (first : Tree (.element kind)) (more : Tree (.more kind))
    (hrest : (Symbol.items kind).Ends rest) : first.tokens ++ more.tokens ++ rest' ≠ rest := by
  rintro rfl
  obtain ⟨t, tail, htokens, ht⟩ := first.starts rfl
  have hclosing : isClosing t = true := hrest t (by simp [htokens])
  rw [ht] at hclosing
  cases hclosing

/-- A tree is the only one of its symbol with its tokens in front of what ends it. -/
def IsUnique (d : Tree symbol) : Prop :=
  ∀ (d' : Tree symbol) (rest rest' : List Token), d.tokens ++ rest = d'.tokens ++ rest' →
    symbol.Ends rest → symbol.Ends rest' → d = d' ∧ rest = rest'

/-- A part and what may follow on it are told apart if the latter ends the former. -/
theorem IsUnique.append {a b : Symbol} {first first' : Tree a} {more more' : Tree b}
    (hfirst : first.IsUnique) (hmore : more.IsUnique)
    (hends : ∀ (d : Tree b) rest, b.Ends rest → a.Ends (d.tokens ++ rest))
    (h : first.tokens ++ more.tokens ++ rest = first'.tokens ++ more'.tokens ++ rest')
    (hrest : b.Ends rest) (hrest' : b.Ends rest') :
    first = first' ∧ more = more' ∧ rest = rest' := by
  rw [List.append_assoc, List.append_assoc] at h
  obtain ⟨hsame, htail⟩ := hfirst _ _ _ h (hends more _ hrest) (hends more' _ hrest')
  exact ⟨hsame, hmore _ _ _ htail hrest hrest'⟩

/-- A closing token ends what stands before it. -/
theorem ends_closing {close : Token} (hclose : isClosing close = true)
    (hsymbol : symbol = .expr ∨ ∃ kind, symbol = .items kind) (rest : List Token) :
    symbol.Ends (close :: rest) := by
  obtain rfl | ⟨kind, rfl⟩ := hsymbol
  · simp [Symbol.Ends, looseness_of_isClosing hclose]
  · simpa [Symbol.Ends] using hclose

/-- What stands before a closing token is told apart from what follows on it. -/
theorem IsUnique.closed {inner inner' : Tree symbol} (hinner : inner.IsUnique) {close : Token}
    (hclose : isClosing close = true) (hsymbol : symbol = .expr ∨ ∃ kind, symbol = .items kind)
    (h : inner.tokens ++ close :: rest = inner'.tokens ++ close :: rest') :
    inner = inner' ∧ rest = rest' := by
  obtain ⟨hsame, htail⟩ := hinner _ _ _ h (ends_closing hclose hsymbol rest)
    (ends_closing hclose hsymbol rest')
  exact ⟨hsame, (List.cons.inj htail).2⟩

/-- All trees can be told from their tokens. -/
theorem isUnique (d : Tree symbol) : d.IsUnique := by
  induction d with
  | expr first more ihfirst ihmore =>
    intro d' rest rest' h hrest hrest'
    cases d' with
    | expr first' more' =>
      obtain ⟨rfl, rfl, rfl⟩ := ihfirst.append ihmore (fun d _ => d.ends_coalesces) h hrest hrest'
      exact ⟨rfl, rfl⟩
  | concat first more ihfirst ihmore =>
    intro d' rest rest' h hrest hrest'
    cases d' with
    | concat first' more' =>
      obtain ⟨rfl, rfl, rfl⟩ := ihfirst.append ihmore (fun d _ => d.ends_tildes) h hrest hrest'
      exact ⟨rfl, rfl⟩
  | access base more ihbase ihmore =>
    intro d' rest rest' h hrest hrest'
    cases d' with
    | access base' more' =>
      obtain ⟨rfl, rfl, rfl⟩ := ihbase.append ihmore (fun d _ => d.ends_accessors) h hrest hrest'
      exact ⟨rfl, rfl⟩
  | coalesceEnd =>
    intro d' rest rest' h hrest hrest'
    cases d' with
    | coalesceEnd => exact ⟨rfl, h⟩
    | coalesce =>
      subst h
      simp [tokens, Symbol.Ends, looseness] at hrest
  | coalesce next more ihnext ihmore =>
    intro d' rest rest' h hrest hrest'
    cases d' with
    | coalesceEnd =>
      subst h
      simp [tokens, Symbol.Ends, looseness] at hrest'
    | coalesce next' more' =>
      obtain ⟨rfl, rfl, rfl⟩ :=
        ihnext.append ihmore (fun d _ => d.ends_coalesces) (List.cons.inj h).2 hrest hrest'
      exact ⟨rfl, rfl⟩
  | tildeEnd =>
    intro d' rest rest' h hrest hrest'
    cases d' with
    | tildeEnd => exact ⟨rfl, h⟩
    | tilde =>
      subst h
      simp [tokens, Symbol.Ends, looseness] at hrest
  | tilde next more ihnext ihmore =>
    intro d' rest rest' h hrest hrest'
    cases d' with
    | tildeEnd =>
      subst h
      simp [tokens, Symbol.Ends, looseness] at hrest'
    | tilde next' more' =>
      obtain ⟨rfl, rfl, rfl⟩ :=
        ihnext.append ihmore (fun d _ => d.ends_tildes) (List.cons.inj h).2 hrest hrest'
      exact ⟨rfl, rfl⟩
  | accessEnd =>
    intro d' rest rest' h hrest hrest'
    cases d' with
    | accessEnd => exact ⟨rfl, h⟩
    | attr | index =>
      subst h
      simp [tokens, Symbol.Ends, looseness] at hrest
  | attr name more ihmore =>
    intro d' rest rest' h hrest hrest'
    cases d' with
    | accessEnd =>
      subst h
      simp [tokens, Symbol.Ends, looseness] at hrest'
    | attr name' more' =>
      simp only [tokens, List.cons_append, List.cons.injEq, Token.ident.injEq, true_and] at h
      obtain ⟨rfl, htail⟩ := h
      obtain ⟨rfl, rfl⟩ := ihmore _ _ _ htail hrest hrest'
      exact ⟨rfl, rfl⟩
    | index => simp [tokens] at h
  | index position more ihposition ihmore =>
    intro d' rest rest' h hrest hrest'
    cases d' with
    | accessEnd =>
      subst h
      simp [tokens, Symbol.Ends, looseness] at hrest'
    | attr => simp [tokens] at h
    | index position' more' =>
      simp only [tokens, List.cons_append, List.append_assoc, List.cons.injEq, true_and] at h
      obtain ⟨rfl, htail⟩ := ihposition.closed rfl (.inl rfl) h
      obtain ⟨rfl, rfl⟩ := ihmore _ _ _ htail hrest hrest'
      exact ⟨rfl, rfl⟩
  | text value =>
    intro d' rest rest' h hrest hrest'
    cases d' with
    | text => simpa [tokens] using h
    | _ => simp [tokens] at h
  | number value =>
    intro d' rest rest' h hrest hrest'
    cases d' with
    | number => simpa [tokens] using h
    | _ => simp [tokens] at h
  | trueWord | falseWord | nullWord =>
    intro d' rest rest' h hrest hrest'
    cases d' <;> simp [tokens] at h ⊢
    exact h
  | list values ih =>
    intro d' rest rest' h hrest hrest'
    cases d' with
    | list values' =>
      simp only [tokens, List.cons_append, List.append_assoc, List.cons.injEq, true_and] at h
      obtain ⟨rfl, rfl⟩ := ih.closed rfl (.inr ⟨_, rfl⟩) h
      exact ⟨rfl, rfl⟩
    | _ => simp [tokens] at h
  | map entries ih =>
    intro d' rest rest' h hrest hrest'
    cases d' with
    | map entries' =>
      simp only [tokens, List.cons_append, List.append_assoc, List.cons.injEq, true_and] at h
      obtain ⟨rfl, rfl⟩ := ih.closed rfl (.inr ⟨_, rfl⟩) h
      exact ⟨rfl, rfl⟩
    | _ => simp [tokens] at h
  | call name args ih =>
    intro d' rest rest' h hrest hrest'
    cases d' with
    | call name' args' =>
      simp only [tokens, List.cons_append, List.append_assoc, List.cons.injEq,
        Token.ident.injEq, true_and] at h
      obtain ⟨rfl, htail⟩ := h
      obtain ⟨rfl, rfl⟩ := ih.closed rfl (.inr ⟨_, rfl⟩) htail
      exact ⟨rfl, rfl⟩
    | var name' =>
      -- a parenthesis after a name would make a call of it
      obtain rfl : rest' = _ := (List.cons.inj h).2.symm
      simp [Symbol.Ends, looseness] at hrest'
    | _ => simp [tokens] at h
  | var name =>
    intro d' rest rest' h hrest hrest'
    cases d' with
    | call name' args' =>
      obtain rfl : rest = _ := (List.cons.inj h).2
      simp [Symbol.Ends, looseness] at hrest
    | var name' => simpa [tokens] using h
    | _ => simp [tokens] at h
  | paren inner ih =>
    intro d' rest rest' h hrest hrest'
    cases d' with
    | paren inner' =>
      simp only [tokens, List.cons_append, List.append_assoc, List.cons.injEq, true_and] at h
      obtain ⟨rfl, rfl⟩ := ih.closed rfl (.inl rfl) h
      exact ⟨rfl, rfl⟩
    | _ => simp [tokens] at h
  | noItems =>
    intro d' rest rest' h hrest hrest'
    cases d' with
    | noItems => exact ⟨rfl, h⟩
    | items first more => exact absurd h.symm (items_ne_nil first more hrest)
  | items first more ihfirst ihmore =>
    intro d' rest rest' h hrest hrest'
    cases d' with
    | noItems => exact absurd h (items_ne_nil first more hrest')
    | items first' more' =>
      obtain ⟨rfl, rfl, rfl⟩ := ihfirst.append ihmore (fun d _ => d.ends_more) h hrest hrest'
      exact ⟨rfl, rfl⟩
  | itemsEnd =>
    intro d' rest rest' h hrest hrest'
    cases d' with
    | itemsEnd => exact ⟨rfl, h⟩
    | itemsComma | item =>
      subst h
      simp [tokens, Symbol.Ends, isClosing] at hrest
  | itemsComma =>
    intro d' rest rest' h hrest hrest'
    cases d' with
    | itemsEnd =>
      subst h
      simp [tokens, Symbol.Ends, isClosing] at hrest'
    | itemsComma => exact ⟨rfl, (List.cons.inj h).2⟩
    | item next more =>
      -- the elements behind a comma that is not the last one are not empty
      exact absurd (List.cons.inj h).2.symm (items_ne_nil next more hrest)
  | item next more ihnext ihmore =>
    intro d' rest rest' h hrest hrest'
    cases d' with
    | itemsEnd =>
      subst h
      simp [tokens, Symbol.Ends, isClosing] at hrest'
    | itemsComma =>
      exact absurd (List.cons.inj h).2 (items_ne_nil next more hrest')
    | item next' more' =>
      obtain ⟨rfl, rfl, rfl⟩ :=
        ihnext.append ihmore (fun d _ => d.ends_more) (List.cons.inj h).2 hrest hrest'
      exact ⟨rfl, rfl⟩
  | plain value ih =>
    intro d' rest rest' h hrest hrest'
    cases d' with
    | plain value' =>
      obtain ⟨rfl, rfl⟩ := ih _ _ _ h hrest hrest'
      exact ⟨rfl, rfl⟩
  | named key value ih =>
    intro d' rest rest' h hrest hrest'
    cases d' with
    | named key' value' =>
      simp only [tokens, List.cons_append, List.cons.injEq, Token.ident.injEq, true_and] at h
      obtain ⟨rfl, htail⟩ := h
      obtain ⟨rfl, rfl⟩ := ih _ _ _ htail hrest hrest'
      exact ⟨rfl, rfl⟩
    | quoted => simp [tokens] at h
  | quoted key value ih =>
    intro d' rest rest' h hrest hrest'
    cases d' with
    | quoted key' value' =>
      simp only [tokens, List.cons_append, List.cons.injEq, Token.text.injEq, true_and] at h
      obtain ⟨rfl, htail⟩ := h
      obtain ⟨rfl, rfl⟩ := ih _ _ _ htail hrest hrest'
      exact ⟨rfl, rfl⟩
    | named => simp [tokens] at h

/-- No tokens have two trees. -/
theorem unique {d d' : Tree .expr} (h : d.tokens = d'.tokens) : d = d' :=
  (d.isUnique d' [] [] (by simpa using h) nofun nofun).1

end Tree

/-! ## What is derived has a tree -/

theorem mapSpansList_eq_map (f : Span → Span) (values : List Expr) :
    Expr.mapSpansList f values = values.map (Expr.mapSpans f) := by
  induction values with
  | nil => rfl
  | cons e values ih => rw [Expr.mapSpansList, ih, List.map_cons]

theorem mapSpansEntries_eq_map (f : Span → Span) (values : List (String × Expr)) :
    Expr.mapSpansEntries f values = values.map fun entry => (entry.1, entry.2.mapSpans f) := by
  induction values with
  | nil => rfl
  | cons entry values ih => rw [Expr.mapSpansEntries, ih, List.map_cons]

/-- An element without its places. -/
def Element.unplaced : {kind : Element} → kind.Value → kind.Value
  | .value, e => Expr.unplaced e
  | .entry, (key, e) => (key, e.unplaced)

/-- Tokens without their places. -/
def tokensOf (s : List Lexeme) : List Token := s.map Lexeme.token

@[simp] theorem tokensOf_nil : tokensOf [] = [] := rfl

@[simp] theorem tokensOf_cons (l : Lexeme) (s : List Lexeme) :
    tokensOf (l :: s) = l.token :: tokensOf s := rfl

/-- A phrase has a tree: its tokens are those that the phrase is read from, and the closing token
with them where one belongs to it, and it stands for the value of the phrase. -/
def Phrase.HasTree (s rest : List Lexeme) : Phrase → Prop
  | .expr e => ∃ d : Tree .expr, tokensOf s = d.tokens ++ tokensOf rest ∧ d.value = e.unplaced
  | .coalesceTail left e => ∃ d : Tree .coalesces,
    tokensOf s = d.tokens ++ tokensOf rest ∧ d.value left.unplaced = e.unplaced
  | .concat e => ∃ d : Tree .concat, tokensOf s = d.tokens ++ tokensOf rest ∧ d.value = e.unplaced
  | .concatTail left e => ∃ d : Tree .tildes,
    tokensOf s = d.tokens ++ tokensOf rest ∧ d.value left.unplaced = e.unplaced
  | .access e => ∃ d : Tree .access, tokensOf s = d.tokens ++ tokensOf rest ∧ d.value = e.unplaced
  | .accessTail base e => ∃ d : Tree .accessors,
    tokensOf s = d.tokens ++ tokensOf rest ∧ d.value base.unplaced = e.unplaced
  | .atom e => ∃ d : Tree .atom, tokensOf s = d.tokens ++ tokensOf rest ∧ d.value = e.unplaced
  | .items close values _ => ∃ d : Tree (.items .value),
    tokensOf s = d.tokens ++ close :: tokensOf rest ∧ d.value = values.map Element.unplaced
  | .entries values _ => ∃ d : Tree (.items .entry),
    tokensOf s = d.tokens ++ .braceClose :: tokensOf rest ∧ d.value = values.map Element.unplaced

/-- Elements behind a comma: none if the comma is the last one. -/
def Tree.afterComma {kind : Element} : Tree (.items kind) → Tree (.more kind)
  | .noItems => .itemsComma
  | .items first more => .item first more

theorem Tree.tokens_afterComma {kind : Element} (d : Tree (.items kind)) :
    d.afterComma.tokens = .comma :: d.tokens := by
  cases d <;> rfl

theorem Tree.value_afterComma {kind : Element} (d : Tree (.items kind)) :
    d.afterComma.value = d.value := by
  cases d <;> rfl

/-- A literal is a token of its own. -/
theorem hasTree_literal {t : Token} {span : Span} {value : Value} {rest : List Lexeme}
    (h : literal? t = some value) :
    Phrase.HasTree (⟨t, span⟩ :: rest) rest (.atom (.literal span value)) := by
  cases t with
  | text s => cases h; exact ⟨.text s, rfl, rfl⟩
  | number x => cases h; exact ⟨.number x, rfl, rfl⟩
  | trueWord => cases h; exact ⟨.trueWord, rfl, rfl⟩
  | falseWord => cases h; exact ⟨.falseWord, rfl, rfl⟩
  | nullWord => cases h; exact ⟨.nullWord, rfl, rfl⟩
  | _ => cases h

/-- A key and an expression make an entry. -/
theorem exists_entry {t : Token} {key : String} (h : key? t = some key) (value : Tree .expr) :
    ∃ entry : Tree (.element .entry),
      entry.tokens = t :: .colon :: value.tokens ∧ entry.value = (key, value.value) := by
  cases t with
  | ident name => cases h; exact ⟨.named key value, rfl, rfl⟩
  | text s => cases h; exact ⟨.quoted key value, rfl, rfl⟩
  | _ => cases h

theorem Derives.hasTree {phrase : Phrase} {s rest : List Lexeme} (h : Derives phrase s rest) :
    phrase.HasTree s rest := by
  induction h with
  | expr _ _ ihleft ihtail =>
    obtain ⟨first, hfirst, hvalue⟩ := ihleft
    obtain ⟨more, hmore, hwhole⟩ := ihtail
    exact ⟨.expr first more, by simp [Tree.tokens, hfirst, hmore], by
      rw [← hwhole, Tree.value, hvalue]⟩
  | concat _ _ ihleft ihtail =>
    obtain ⟨first, hfirst, hvalue⟩ := ihleft
    obtain ⟨more, hmore, hwhole⟩ := ihtail
    exact ⟨.concat first more, by simp [Tree.tokens, hfirst, hmore], by
      rw [← hwhole, Tree.value, hvalue]⟩
  | access _ _ ihbase ihtail =>
    obtain ⟨base, hbase, hvalue⟩ := ihbase
    obtain ⟨more, hmore, hwhole⟩ := ihtail
    exact ⟨.access base more, by simp [Tree.tokens, hbase, hmore], by
      rw [← hwhole, Tree.value, hvalue]⟩
  | coalesceEnd => exact ⟨.coalesceEnd, rfl, rfl⟩
  | coalesce _ _ ihright ihtail =>
    obtain ⟨next, hnext, hvalue⟩ := ihright
    obtain ⟨more, hmore, hwhole⟩ := ihtail
    exact ⟨.coalesce next more, by simp [Tree.tokens, hnext, hmore], by
      rw [← hwhole, Tree.value, hvalue]; rfl⟩
  | tildeEnd => exact ⟨.tildeEnd, rfl, rfl⟩
  | tilde _ _ ihright ihtail =>
    obtain ⟨next, hnext, hvalue⟩ := ihright
    obtain ⟨more, hmore, hwhole⟩ := ihtail
    exact ⟨.tilde next more, by simp [Tree.tokens, hnext, hmore], by
      rw [← hwhole, Tree.value, hvalue]; rfl⟩
  | accessEnd => exact ⟨.accessEnd, rfl, rfl⟩
  | @attr dot span name s rest base e _ ihtail =>
    obtain ⟨more, hmore, hwhole⟩ := ihtail
    exact ⟨.attr name more, by simp [Tree.tokens, hmore], by rw [← hwhole, Tree.value]; rfl⟩
  | index _ _ ihposition ihtail =>
    obtain ⟨position, hposition, hvalue⟩ := ihposition
    obtain ⟨more, hmore, hwhole⟩ := ihtail
    exact ⟨.index position more, by simp [Tree.tokens, hposition, hmore], by
      rw [← hwhole, Tree.value, hvalue]; rfl⟩
  | @call span opened close name s rest values _ ihargs =>
    obtain ⟨args, hargs, hvalue⟩ := ihargs
    exact ⟨.call name args, by simp [Tree.tokens, hargs], by
      rw [Tree.value, hvalue, Expr.unplaced, Expr.mapSpans, mapSpansList_eq_map]; rfl⟩
  | @var span name rest => exact ⟨.var name, rfl, rfl⟩
  | list _ ihvalues =>
    obtain ⟨values, hvalues, hvalue⟩ := ihvalues
    exact ⟨.list values, by simp [Tree.tokens, hvalues], by
      rw [Tree.value, hvalue, Expr.unplaced, Expr.mapSpans, mapSpansList_eq_map]; rfl⟩
  | map _ ihvalues =>
    obtain ⟨entries, hentries, hvalue⟩ := ihvalues
    exact ⟨.map entries, by simp [Tree.tokens, hentries], by
      rw [Tree.value, hvalue, Expr.unplaced, Expr.mapSpans, mapSpansEntries_eq_map]; rfl⟩
  | paren _ ihe =>
    obtain ⟨inner, hinner, hvalue⟩ := ihe
    exact ⟨.paren inner, by simp [Tree.tokens, hinner], hvalue⟩
  | literal h => exact hasTree_literal h
  | noItems => exact ⟨.noItems, rfl, rfl⟩
  | lastItem _ ihe =>
    obtain ⟨e, he, hvalue⟩ := ihe
    exact ⟨.items (.plain e) .itemsEnd, by simp [Tree.tokens, he], by
      simp [Tree.value, hvalue, Element.unplaced]⟩
  | item _ _ ihe ihvalues =>
    obtain ⟨e, he, hvalue⟩ := ihe
    obtain ⟨values, hvalues, hmore⟩ := ihvalues
    exact ⟨.items (.plain e) values.afterComma, by
      simp [Tree.tokens, Tree.tokens_afterComma, he, hvalues], by
      rw [Tree.value, Tree.value_afterComma, Tree.value, hvalue, hmore]; rfl⟩
  | noEntries => exact ⟨.noItems, rfl, rfl⟩
  | lastEntry hkey _ ihe =>
    obtain ⟨e, he, hvalue⟩ := ihe
    obtain ⟨entry, hentry, hwhole⟩ := exists_entry hkey e
    exact ⟨.items entry .itemsEnd, by simp [Tree.tokens, hentry, he], by
      rw [Tree.value, hwhole, hvalue]; rfl⟩
  | entry hkey _ _ ihe ihvalues =>
    obtain ⟨e, he, hvalue⟩ := ihe
    obtain ⟨values, hvalues, hmore⟩ := ihvalues
    obtain ⟨entry, hentry, hwhole⟩ := exists_entry hkey e
    exact ⟨.items entry values.afterComma, by
      simp [Tree.tokens, Tree.tokens_afterComma, hentry, he, hvalues], by
      rw [Tree.value, Tree.value_afterComma, hwhole, hvalue, hmore]; rfl⟩

/-! ## What has a tree is derived -/

/-- The closing tokens of elements: entries stand in braces only. -/
def Element.Closes (close : Token) : Element → Prop
  | .value => True
  | .entry => close = .braceClose

/-- An element is derived from the first tokens of a list, and the others are left. -/
def Element.Reads (s rest : List Lexeme) : (kind : Element) → kind.Value → Prop
  | .value, e => Derives (.expr e) s rest
  | .entry, (key, e) => ∃ t span colon after,
    s = ⟨t, span⟩ :: ⟨.colon, colon⟩ :: after ∧ key? t = some key ∧ Derives (.expr e) after rest

/-- Elements up to a closing token at a place are derived. -/
def Element.Lists (close : Token) (place : Span) (s rest : List Lexeme) :
    (kind : Element) → List kind.Value → Prop
  | .value, values => Derives (.items close values place) s rest
  | .entry, values => Derives (.entries values place) s rest

namespace Element

variable {kind : Element} {close : Token} {place : Span} {s mid rest : List Lexeme}
  {value : kind.Value} {values : List kind.Value}

theorem lists_nil (hclose : kind.Closes close) :
    kind.Lists close place (⟨close, place⟩ :: rest) rest [] := by
  cases kind with
  | value => exact .noItems
  | entry =>
    obtain rfl := hclose
    exact .noEntries

theorem lists_last (hclose : kind.Closes close)
    (h : kind.Reads s (⟨close, place⟩ :: rest) value) : kind.Lists close place s rest [value] := by
  cases kind with
  | value => exact .lastItem h
  | entry =>
    obtain rfl := hclose
    obtain ⟨t, span, colon, after, rfl, hkey, he⟩ := h
    exact .lastEntry hkey he

theorem lists_cons {comma : Span} (h : kind.Reads s (⟨.comma, comma⟩ :: mid) value)
    (hvalues : kind.Lists close place mid rest values) :
    kind.Lists close place s rest (value :: values) := by
  cases kind with
  | value => exact .item h hvalues
  | entry =>
    obtain ⟨t, span, colon, after, rfl, hkey, he⟩ := h
    exact .entry hkey he hvalues

end Element

theorem tokensOf_eq_cons_iff {s : List Lexeme} {t : Token} {ts : List Token} :
    tokensOf s = t :: ts ↔ ∃ span more, s = ⟨t, span⟩ :: more ∧ tokensOf more = ts := by
  constructor
  · intro h
    obtain ⟨⟨t, span⟩, more, rfl, rfl, hmore⟩ := List.map_eq_cons_iff.1 h
    exact ⟨span, more, rfl, hmore⟩
  · rintro ⟨span, more, rfl, rfl⟩
    rfl

theorem tokensOf_eq_append_iff {s : List Lexeme} {ts us : List Token} :
    tokensOf s = ts ++ us ↔ ∃ a b, s = a ++ b ∧ tokensOf a = ts ∧ tokensOf b = us :=
  List.map_eq_append_iff

theorem tokensOf_eq_nil_iff {s : List Lexeme} : tokensOf s = [] ↔ s = [] := List.map_eq_nil_iff

theorem tokensOf_eq_singleton_iff {s : List Lexeme} {t : Token} :
    tokensOf s = [t] ↔ ∃ span, s = [⟨t, span⟩] := by
  simp [tokensOf_eq_cons_iff, tokensOf_eq_nil_iff]

theorem tokensOf_eq_concat_iff {s : List Lexeme} {ts : List Token} {t : Token} :
    tokensOf s = ts ++ [t] ↔ ∃ a span, s = a ++ [⟨t, span⟩] ∧ tokensOf a = ts := by
  rw [tokensOf_eq_append_iff]
  constructor
  · rintro ⟨a, b, rfl, ha, hb⟩
    obtain ⟨span, rfl⟩ := tokensOf_eq_singleton_iff.1 hb
    exact ⟨a, span, rfl, ha⟩
  · rintro ⟨a, span, rfl, ha⟩
    exact ⟨a, _, rfl, ha, rfl⟩

/-- The tokens of a symbol are read as a value, whatever follows: an operand by itself, what may
follow on one together with it, and elements together with the token that closes them. -/
def Symbol.IsRead (s : List Lexeme) : (symbol : Symbol) → symbol.Value → Prop
  | .expr, v => ∀ rest, ∃ e, Derives (.expr e) (s ++ rest) rest ∧ e.unplaced = v
  | .coalesces, f => ∀ left rest, ∃ e,
    Derives (.coalesceTail left e) (s ++ rest) rest ∧ e.unplaced = f left.unplaced
  | .concat, v => ∀ rest, ∃ e, Derives (.concat e) (s ++ rest) rest ∧ e.unplaced = v
  | .tildes, f => ∀ left rest, ∃ e,
    Derives (.concatTail left e) (s ++ rest) rest ∧ e.unplaced = f left.unplaced
  | .access, v => ∀ rest, ∃ e, Derives (.access e) (s ++ rest) rest ∧ e.unplaced = v
  | .accessors, f => ∀ base rest, ∃ e,
    Derives (.accessTail base e) (s ++ rest) rest ∧ e.unplaced = f base.unplaced
  | .atom, v => ∀ rest, ∃ e, Derives (.atom e) (s ++ rest) rest ∧ e.unplaced = v
  | .element kind, v => ∀ rest, ∃ w, kind.Reads (s ++ rest) rest w ∧ Element.unplaced w = v
  | .items kind, vs => ∀ close place rest, kind.Closes close → ∃ ws,
    kind.Lists close place (s ++ ⟨close, place⟩ :: rest) rest ws ∧ ws.map Element.unplaced = vs
  | .more kind, vs => ∀ close place rest, kind.Closes close →
    ∀ front first, kind.Reads front (s ++ ⟨close, place⟩ :: rest) first → ∃ ws,
      kind.Lists close place front rest (first :: ws) ∧ ws.map Element.unplaced = vs

/-- A first operand is read, and then what follows on it together with it. -/
theorem exists_chain {P : Expr → List Lexeme → List Lexeme → Prop}
    {Q : Expr → Expr → List Lexeme → List Lexeme → Prop} {a b : List Lexeme} {value : Expr}
    {f : Expr → Expr} (hfirst : ∀ rest, ∃ left, P left (a ++ rest) rest ∧ left.unplaced = value)
    (hmore : ∀ left rest, ∃ e, Q left e (b ++ rest) rest ∧ e.unplaced = f left.unplaced)
    (rest : List Lexeme) :
    ∃ left e, P left (a ++ b ++ rest) (b ++ rest) ∧ Q left e (b ++ rest) rest ∧
      e.unplaced = f value := by
  obtain ⟨left, hleft, rfl⟩ := hfirst (b ++ rest)
  obtain ⟨e, he, hvalue⟩ := hmore left rest
  exact ⟨left, e, by rwa [List.append_assoc], he, hvalue⟩

theorem Tree.isRead {symbol : Symbol} (d : Tree symbol) {s : List Lexeme}
    (h : tokensOf s = d.tokens) : symbol.IsRead s d.value := by
  induction d generalizing s with
  | expr first more ihfirst ihmore =>
    obtain ⟨a, b, rfl, hfirst, hmore⟩ := tokensOf_eq_append_iff.1 h
    intro rest
    obtain ⟨left, e, hleft, he, hvalue⟩ := exists_chain (ihfirst hfirst) (ihmore hmore) rest
    exact ⟨e, .expr hleft he, hvalue⟩
  | concat first more ihfirst ihmore =>
    obtain ⟨a, b, rfl, hfirst, hmore⟩ := tokensOf_eq_append_iff.1 h
    intro rest
    obtain ⟨left, e, hleft, he, hvalue⟩ := exists_chain (ihfirst hfirst) (ihmore hmore) rest
    exact ⟨e, .concat hleft he, hvalue⟩
  | access base more ihbase ihmore =>
    obtain ⟨a, b, rfl, hbase, hmore⟩ := tokensOf_eq_append_iff.1 h
    intro rest
    obtain ⟨left, e, hleft, he, hvalue⟩ := exists_chain (ihbase hbase) (ihmore hmore) rest
    exact ⟨e, .access hleft he, hvalue⟩
  | coalesceEnd =>
    obtain rfl := tokensOf_eq_nil_iff.1 h
    exact fun left rest => ⟨left, .coalesceEnd, rfl⟩
  | coalesce next more ihnext ihmore =>
    obtain ⟨span, s, rfl, hs⟩ := tokensOf_eq_cons_iff.1 h
    obtain ⟨a, b, rfl, hnext, hmore⟩ := tokensOf_eq_append_iff.1 hs
    intro left rest
    obtain ⟨right, hright, hvalue⟩ := ihnext hnext (b ++ rest)
    obtain ⟨e, he, hwhole⟩ := ihmore hmore (.coalesce (left.span.through right.span) left right) rest
    rw [← List.append_assoc] at hright
    refine ⟨e, .coalesce hright he, hwhole.trans ?_⟩
    rw [Tree.value, ← hvalue]
    rfl
  | tildeEnd =>
    obtain rfl := tokensOf_eq_nil_iff.1 h
    exact fun left rest => ⟨left, .tildeEnd, rfl⟩
  | tilde next more ihnext ihmore =>
    obtain ⟨span, s, rfl, hs⟩ := tokensOf_eq_cons_iff.1 h
    obtain ⟨a, b, rfl, hnext, hmore⟩ := tokensOf_eq_append_iff.1 hs
    intro left rest
    obtain ⟨right, hright, hvalue⟩ := ihnext hnext (b ++ rest)
    obtain ⟨e, he, hwhole⟩ := ihmore hmore (.concat (left.span.through right.span) left right) rest
    rw [← List.append_assoc] at hright
    refine ⟨e, .tilde hright he, hwhole.trans ?_⟩
    rw [Tree.value, ← hvalue]
    rfl
  | accessEnd =>
    obtain rfl := tokensOf_eq_nil_iff.1 h
    exact fun base rest => ⟨base, .accessEnd, rfl⟩
  | attr name more ihmore =>
    obtain ⟨dot, s, rfl, hs⟩ := tokensOf_eq_cons_iff.1 h
    obtain ⟨span, s, rfl, htail⟩ := tokensOf_eq_cons_iff.1 hs
    intro base rest
    obtain ⟨e, he, hwhole⟩ := ihmore htail (.attr (base.span.through span) base name) rest
    exact ⟨e, .attr he, hwhole⟩
  | index position more ihposition ihmore =>
    obtain ⟨opened, s, rfl, hs⟩ := tokensOf_eq_cons_iff.1 h
    obtain ⟨a, b, rfl, hposition, htail⟩ := tokensOf_eq_append_iff.1 hs
    obtain ⟨span, b, rfl, hmore⟩ := tokensOf_eq_cons_iff.1 htail
    intro base rest
    obtain ⟨place, hplace, hvalue⟩ := ihposition hposition (⟨.bracketClose, span⟩ :: (b ++ rest))
    obtain ⟨e, he, hwhole⟩ := ihmore hmore (.index (base.span.through span) base place) rest
    refine ⟨e, .index (by simpa using hplace) he, hwhole.trans ?_⟩
    rw [Tree.value, ← hvalue]
    rfl
  | text | number | trueWord | falseWord | nullWord =>
    obtain ⟨span, rfl⟩ := tokensOf_eq_singleton_iff.1 h
    exact fun rest => ⟨_, .literal rfl, rfl⟩
  | list values ih =>
    obtain ⟨span, s, rfl, hs⟩ := tokensOf_eq_cons_iff.1 h
    obtain ⟨a, close, rfl, hvalues⟩ := tokensOf_eq_concat_iff.1 hs
    intro rest
    obtain ⟨es, hes, hvalue⟩ := ih hvalues .bracketClose close rest trivial
    refine ⟨.list (span.through close) es, .list (by simpa [Element.Lists] using hes), ?_⟩
    rw [Tree.value, ← hvalue, Expr.unplaced, Expr.mapSpans, mapSpansList_eq_map]
    rfl
  | map entries ih =>
    obtain ⟨span, s, rfl, hs⟩ := tokensOf_eq_cons_iff.1 h
    obtain ⟨a, close, rfl, hentries⟩ := tokensOf_eq_concat_iff.1 hs
    intro rest
    obtain ⟨es, hes, hvalue⟩ := ih hentries .braceClose close rest rfl
    refine ⟨.map (span.through close) es, .map (by simpa [Element.Lists] using hes), ?_⟩
    rw [Tree.value, ← hvalue, Expr.unplaced, Expr.mapSpans, mapSpansEntries_eq_map]
    rfl
  | call name args ih =>
    obtain ⟨span, s, rfl, hs⟩ := tokensOf_eq_cons_iff.1 h
    obtain ⟨opened, s, rfl, htail⟩ := tokensOf_eq_cons_iff.1 hs
    obtain ⟨a, close, rfl, hargs⟩ := tokensOf_eq_concat_iff.1 htail
    intro rest
    obtain ⟨es, hes, hvalue⟩ := ih hargs .parenClose close rest trivial
    refine ⟨.call (span.through close) name span es, .call (by simpa [Element.Lists] using hes), ?_⟩
    rw [Tree.value, ← hvalue, Expr.unplaced, Expr.mapSpans, mapSpansList_eq_map]
    rfl
  | var name =>
    obtain ⟨span, rfl⟩ := tokensOf_eq_singleton_iff.1 h
    exact fun rest => ⟨_, .var, rfl⟩
  | paren inner ih =>
    obtain ⟨opened, s, rfl, hs⟩ := tokensOf_eq_cons_iff.1 h
    obtain ⟨a, close, rfl, hinner⟩ := tokensOf_eq_concat_iff.1 hs
    intro rest
    obtain ⟨e, he, hvalue⟩ := ih hinner (⟨.parenClose, close⟩ :: rest)
    exact ⟨e, .paren (by simpa using he), hvalue⟩
  | noItems =>
    obtain rfl := tokensOf_eq_nil_iff.1 h
    exact fun close place rest hclose => ⟨[], Element.lists_nil hclose, rfl⟩
  | items first more ihfirst ihmore =>
    obtain ⟨a, b, rfl, hfirst, hmore⟩ := tokensOf_eq_append_iff.1 h
    intro close place rest hclose
    obtain ⟨w, hw, hvalue⟩ := ihfirst hfirst (b ++ ⟨close, place⟩ :: rest)
    obtain ⟨ws, hws, hvalues⟩ := ihmore hmore close place rest hclose _ w hw
    exact ⟨w :: ws, by rwa [List.append_assoc], by rw [List.map_cons, hvalue, hvalues]; rfl⟩
  | itemsEnd =>
    obtain rfl := tokensOf_eq_nil_iff.1 h
    exact fun close place rest hclose front first hfirst =>
      ⟨[], Element.lists_last hclose hfirst, rfl⟩
  | itemsComma =>
    obtain ⟨comma, rfl⟩ := tokensOf_eq_singleton_iff.1 h
    exact fun close place rest hclose front first hfirst =>
      ⟨[], Element.lists_cons hfirst (Element.lists_nil hclose), rfl⟩
  | item next more ihnext ihmore =>
    obtain ⟨comma, s, rfl, hs⟩ := tokensOf_eq_cons_iff.1 h
    obtain ⟨a, b, rfl, hnext, hmore⟩ := tokensOf_eq_append_iff.1 hs
    intro close place rest hclose front first hfirst
    obtain ⟨w, hw, hvalue⟩ := ihnext hnext (b ++ ⟨close, place⟩ :: rest)
    obtain ⟨ws, hws, hvalues⟩ := ihmore hmore close place rest hclose _ w hw
    rw [← List.append_assoc] at hws
    refine ⟨w :: ws, Element.lists_cons hfirst hws, ?_⟩
    rw [List.map_cons, hvalue, hvalues]
    rfl
  | plain value ih =>
    intro rest
    obtain ⟨e, he, hvalue⟩ := ih h rest
    exact ⟨e, he, hvalue⟩
  | named key value ih | quoted key value ih =>
    obtain ⟨span, s, rfl, hs⟩ := tokensOf_eq_cons_iff.1 h
    obtain ⟨colon, s, rfl, htail⟩ := tokensOf_eq_cons_iff.1 hs
    intro rest
    obtain ⟨e, he, hvalue⟩ := ih htail rest
    exact ⟨(key, e), ⟨_, span, colon, s ++ rest, rfl, rfl, he⟩, by
      rw [Element.unplaced, hvalue]; rfl⟩

theorem derives_iff_tree {s : List Lexeme} {value : Expr} :
    (∃ e, Derives (.expr e) s [] ∧ e.unplaced = value) ↔
      ∃ d : Tree .expr, d.tokens = tokensOf s ∧ d.value = value := by
  constructor
  · rintro ⟨e, he, rfl⟩
    obtain ⟨d, htokens, hvalue⟩ := he.hasTree
    exact ⟨d, by simpa using htokens.symm, hvalue⟩
  · rintro ⟨d, htokens, rfl⟩
    obtain ⟨e, he, hvalue⟩ := d.isRead htokens.symm []
    exact ⟨e, by simpa using he, hvalue⟩

end Grammar

/-- From the tokens of a source an expression is read if and only if all of them have a tree that
stands for it, and they have one tree at most. -/
theorem parseExpr_iff_tree {offset : Nat} {source : List Char} {lexemes : List Lexeme}
    (h : tokenize offset source = .ok lexemes) :
    (∀ value : Expr, (∃ e, parseExpr offset source = .ok e ∧ e.unplaced = value) ↔
      ∃ d : Grammar.Tree .expr, d.tokens = lexemes.map Lexeme.token ∧ d.value = value) ∧
    ∀ d d' : Grammar.Tree .expr, d.tokens = lexemes.map Lexeme.token →
      d'.tokens = lexemes.map Lexeme.token → d = d' := by
  refine ⟨fun value => ?_, fun d d' hd hd' => Grammar.Tree.unique (hd.trans hd'.symm)⟩
  rw [← Grammar.tokensOf, ← Grammar.derives_iff_tree]
  simp [parseExpr_eq_ok_iff, h]

/-- A chain of operators is read from the left, and a comma may stand behind the last argument. -/
theorem parseExpr_iff_tree_chain :
    let source := "f(a,) ~ b ~ (c ?? d).e"
    let call := Expr.call ⟨0, 0⟩ "f" ⟨0, 0⟩ [.var ⟨0, 0⟩ "a"]
    let part := Expr.attr ⟨0, 0⟩ (.coalesce ⟨0, 0⟩ (.var ⟨0, 0⟩ "c") (.var ⟨0, 0⟩ "d")) "e"
    let value := Expr.concat ⟨0, 0⟩ (.concat ⟨0, 0⟩ call (.var ⟨0, 0⟩ "b")) part
    ∃ lexemes, tokenize 0 source.toList = .ok lexemes ∧
      ∃ e, parseExpr 0 source.toList = .ok e ∧ e.unplaced = value := by
  intro source call part value
  have hlexemes : tokenize 0 source.toList = .ok
      [⟨.ident "f", ⟨0, 1⟩⟩, ⟨.parenOpen, ⟨1, 2⟩⟩, ⟨.ident "a", ⟨2, 3⟩⟩, ⟨.comma, ⟨3, 4⟩⟩,
        ⟨.parenClose, ⟨4, 5⟩⟩, ⟨.tilde, ⟨6, 7⟩⟩, ⟨.ident "b", ⟨8, 9⟩⟩, ⟨.tilde, ⟨10, 11⟩⟩,
        ⟨.parenOpen, ⟨12, 13⟩⟩, ⟨.ident "c", ⟨13, 14⟩⟩, ⟨.coalesce, ⟨15, 17⟩⟩,
        ⟨.ident "d", ⟨18, 19⟩⟩, ⟨.parenClose, ⟨19, 20⟩⟩, ⟨.dot, ⟨20, 21⟩⟩,
        ⟨.ident "e", ⟨21, 22⟩⟩] := by cbv
  let name (s : String) : Grammar.Tree .access := .access (.var s) .accessEnd
  let argument : Grammar.Tree .expr := .expr (.concat (name "a") .tildeEnd) .coalesceEnd
  let called : Grammar.Tree .access :=
    .access (.call "f" (.items (.plain argument) .itemsComma)) .accessEnd
  let inner : Grammar.Tree .expr :=
    .expr (.concat (name "c") .tildeEnd) (.coalesce (.concat (name "d") .tildeEnd) .coalesceEnd)
  let taken : Grammar.Tree .access := .access (.paren inner) (.attr "e" .accessEnd)
  let tree : Grammar.Tree .expr :=
    .expr (.concat called (.tilde (name "b") (.tilde taken .tildeEnd))) .coalesceEnd
  obtain ⟨hread, -⟩ := parseExpr_iff_tree hlexemes
  exact ⟨_, hlexemes, (hread value).2 ⟨tree, rfl, rfl⟩⟩

end SlotTemplates
