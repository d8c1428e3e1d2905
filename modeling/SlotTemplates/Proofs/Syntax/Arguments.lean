import SlotTemplates.Proofs.Syntax.ParseTree

/-!
# Parse trees of tag arguments

```
attrs   = (attr [','])*                     dynamic = expr attrs
attr    = '...' expr | name '=' expr | name
```

Nothing needs to stand between two attributes, and nothing does between the name of a dynamic
invocation and its attributes. They can be told apart all the same: what follows on an expression
there is a comma, `...`, a name or nothing, and none of these goes on with an expression
(`FollowsAttr.ends`). So the tokens of a tag have one tree at most, and what it stands for is what
is read (`parseAttrs_iff_tree`).
-/

namespace SlotTemplates

namespace Grammar

/-! ## The grammar -/

/-- The trees of an attribute. -/
inductive AttrTree where
  | spread (value : Tree .expr)
  | named (name : String) (value : Tree .expr)
  | bare (name : String)

/-- The trees of attributes, each with a comma behind it or without one. -/
inductive AttrsTree where
  | nil
  | cons (first : AttrTree) (comma : Bool) (more : AttrsTree)

/-- The tokens of an attribute in their order. -/
def AttrTree.tokens : AttrTree → List Token
  | .spread value => .spread :: value.tokens
  | .named name value => .ident name :: .equals :: value.tokens
  | .bare name => [.ident name]

/-- The attribute that a tree stands for, without places. -/
def AttrTree.value : AttrTree → Attr
  | .spread value => .spread value.value
  | .named name value => .named name nowhere (some value.value)
  | .bare name => .named name nowhere none

/-- A comma, if there is one. -/
def commaTokens (comma : Bool) : List Token := if comma then [.comma] else []

/-- The tokens of attributes in their order. -/
def AttrsTree.tokens : AttrsTree → List Token
  | .nil => []
  | .cons first comma more => first.tokens ++ (commaTokens comma ++ more.tokens)

/-- The attributes that a tree stands for, without places. -/
def AttrsTree.value : AttrsTree → List Attr
  | .nil => []
  | .cons first _ more => first.value :: more.value

/-! ## Tokens have one tree -/

/-- What may follow on an attribute: a comma, `...`, a name or nothing. -/
def FollowsAttr (rest : List Token) : Prop :=
  ∀ t ∈ rest.head?, t = .comma ∨ t = .spread ∨ ∃ name, t = .ident name

section
variable {rest rest' : List Token}

theorem FollowsAttr.ends (h : FollowsAttr rest) : Symbol.expr.Ends rest := by
  intro t ht
  obtain rfl | rfl | ⟨name, rfl⟩ := h t ht <;> simp [looseness]

/-- A name that is followed by what may follow on an attribute has no value. -/
theorem FollowsAttr.ne_equals (h : FollowsAttr rest) {ts : List Token} : rest ≠ .equals :: ts := by
  rintro rfl
  simpa using h .equals rfl

/-- Attributes begin with `...` or a name. -/
theorem AttrsTree.starts (d : AttrsTree) :
    ∀ t ∈ d.tokens.head?, t = .spread ∨ ∃ name, t = .ident name := by
  cases d with
  | nil => exact nofun
  | cons first comma more => cases first <;> simp [tokens, AttrTree.tokens]

/-- The next attribute may follow, with a comma before it or without one. -/
theorem AttrsTree.follows (d : AttrsTree) (comma : Bool) :
    FollowsAttr (commaTokens comma ++ d.tokens) := by
  cases comma with
  | false => exact fun t ht => .inr (d.starts t ht)
  | true => simp [FollowsAttr, commaTokens]

/-- The comma behind an attribute belongs to no other one. -/
theorem commaTokens_append_inj {comma comma' : Bool} {d d' : AttrsTree}
    (h : commaTokens comma ++ d.tokens = commaTokens comma' ++ d'.tokens) :
    comma = comma' ∧ d.tokens = d'.tokens := by
  -- attributes do not begin with a comma
  have hne (d : AttrsTree) (ts : List Token) : d.tokens ≠ .comma :: ts := by
    intro htokens
    have hstarts := d.starts .comma (by rw [htokens]; rfl)
    simp at hstarts
  cases comma <;> cases comma'
  · exact ⟨rfl, h⟩
  · exact absurd h (hne d _)
  · exact absurd h.symm (hne d' _)
  · exact ⟨rfl, (List.cons.inj h).2⟩

/-- An attribute can be told from what may follow on it. -/
theorem AttrTree.unique {d d' : AttrTree} (h : d.tokens ++ rest = d'.tokens ++ rest')
    (hrest : FollowsAttr rest) (hrest' : FollowsAttr rest') : d = d' ∧ rest = rest' := by
  cases d with
  | spread value =>
    cases d' with
    | spread value' =>
      have htail := (List.cons.inj h).2
      obtain ⟨rfl, rfl⟩ := value.isUnique value' _ _ htail hrest.ends hrest'.ends
      exact ⟨rfl, rfl⟩
    | named | bare => simp [tokens] at h
  | named name value =>
    cases d' with
    | spread => simp [tokens] at h
    | named name' value' =>
      simp only [tokens, List.cons_append, List.cons.injEq, Token.ident.injEq, true_and] at h
      obtain ⟨rfl, htail⟩ := h
      obtain ⟨rfl, rfl⟩ := value.isUnique value' _ _ htail hrest.ends hrest'.ends
      exact ⟨rfl, rfl⟩
    | bare name' => exact absurd (List.cons.inj h).2.symm hrest'.ne_equals
  | bare name =>
    cases d' with
    | spread => simp [tokens] at h
    | named name' value' => exact absurd (List.cons.inj h).2 hrest.ne_equals
    | bare name' =>
      simp only [tokens, List.cons_append, List.cons.injEq, Token.ident.injEq] at h
      obtain ⟨rfl, rfl⟩ := h
      exact ⟨rfl, rfl⟩

/-- No tokens have two trees of attributes. -/
theorem AttrsTree.unique {d d' : AttrsTree} (h : d.tokens = d'.tokens) : d = d' := by
  -- an attribute has tokens
  have hne (first : AttrTree) (ts : List Token) : first.tokens ++ ts ≠ [] := by
    cases first <;> simp [AttrTree.tokens]
  induction d generalizing d' with
  | nil =>
    cases d' with
    | nil => rfl
    | cons first comma more => exact absurd h.symm (hne first _)
  | cons first comma more ih =>
    cases d' with
    | nil => exact absurd h (hne first _)
    | cons first' comma' more' =>
      obtain ⟨rfl, htail⟩ := AttrTree.unique h (more.follows comma) (more'.follows comma')
      obtain ⟨rfl, htokens⟩ := commaTokens_append_inj htail
      rw [ih htokens]

/-- No tokens have two trees of a name with two trees of attributes behind them. -/
theorem AttrsTree.unique_behind {name name' : Tree .expr} {d d' : AttrsTree}
    (h : name.tokens ++ d.tokens = name'.tokens ++ d'.tokens) : name = name' ∧ d = d' := by
  have hends (d : AttrsTree) : Symbol.expr.Ends d.tokens := (d.follows false).ends
  obtain ⟨rfl, htokens⟩ := name.isUnique name' _ _ h (hends d) (hends d')
  exact ⟨rfl, unique htokens⟩

end

/-! ## What is derived has a tree -/

section
variable {s mid next rest : List Lexeme} {attr : Attr} {found : List Attr}

theorem Separates.hasTree (h : Separates mid next) :
    ∃ comma, tokensOf mid = commaTokens comma ++ tokensOf next := by
  cases h with
  | nothing => exact ⟨false, rfl⟩
  | comma => exact ⟨true, rfl⟩

theorem DerivesAttr.hasTree (h : DerivesAttr attr s rest) :
    ∃ d : AttrTree, tokensOf s = d.tokens ++ tokensOf rest ∧ d.value = attr.unplaced := by
  cases h with
  | spread he =>
    obtain ⟨value, htokens, hvalue⟩ := he.hasTree
    exact ⟨.spread value, by simp [AttrTree.tokens, htokens], congrArg Attr.spread hvalue⟩
  | named he =>
    obtain ⟨value, htokens, hvalue⟩ := he.hasTree
    exact ⟨.named _ value, by simp [AttrTree.tokens, htokens],
      congrArg (fun e => Attr.named _ nowhere (some e)) hvalue⟩
  | bare => exact ⟨.bare _, rfl, rfl⟩

theorem DerivesAttrs.hasTree (h : DerivesAttrs found s) :
    ∃ d : AttrsTree, tokensOf s = d.tokens ∧ d.value = found.map Attr.unplaced := by
  induction h with
  | nil => exact ⟨.nil, rfl, rfl⟩
  | cons hattr hmid _ ih =>
    obtain ⟨first, hfirst, hvalue⟩ := hattr.hasTree
    obtain ⟨comma, hcomma⟩ := hmid.hasTree
    obtain ⟨more, hmore, hvalues⟩ := ih
    refine ⟨.cons first comma more, ?_, ?_⟩
    · rw [hfirst, hcomma, hmore, AttrsTree.tokens]
    · rw [AttrsTree.value, hvalue, hvalues, List.map_cons]

/-! ## What has a tree is derived -/

theorem AttrTree.isRead (d : AttrTree) (h : tokensOf s = d.tokens) (rest : List Lexeme) :
    ∃ attr, DerivesAttr attr (s ++ rest) rest ∧ attr.unplaced = d.value := by
  cases d with
  | spread value =>
    obtain ⟨span, s, rfl, hs⟩ := tokensOf_eq_cons_iff.1 h
    obtain ⟨e, he, hvalue⟩ := value.isRead hs rest
    exact ⟨.spread e, .spread he, congrArg Attr.spread hvalue⟩
  | named name value =>
    obtain ⟨span, s, rfl, hs⟩ := tokensOf_eq_cons_iff.1 h
    obtain ⟨equals, s, rfl, hvalueTokens⟩ := tokensOf_eq_cons_iff.1 hs
    obtain ⟨e, he, hvalue⟩ := value.isRead hvalueTokens rest
    exact ⟨.named name span (some e), .named he,
      congrArg (fun e => Attr.named name nowhere (some e)) hvalue⟩
  | bare name =>
    obtain ⟨span, rfl⟩ := tokensOf_eq_singleton_iff.1 h
    exact ⟨.named name span none, .bare, rfl⟩

theorem separates_of_tokens {comma : Bool} {ts : List Token}
    (h : tokensOf mid = commaTokens comma ++ ts) :
    ∃ next, Separates mid next ∧ tokensOf next = ts := by
  cases comma with
  | false => exact ⟨mid, .nothing, h⟩
  | true =>
    obtain ⟨span, next, rfl, hnext⟩ := tokensOf_eq_cons_iff.1 h
    exact ⟨next, .comma, hnext⟩

theorem AttrsTree.isRead (d : AttrsTree) (h : tokensOf s = d.tokens) :
    ∃ found, DerivesAttrs found s ∧ found.map Attr.unplaced = d.value := by
  induction d generalizing s with
  | nil =>
    obtain rfl := tokensOf_eq_nil_iff.1 h
    exact ⟨[], .nil, rfl⟩
  | cons first comma more ih =>
    obtain ⟨a, mid, rfl, hfirst, hmid⟩ := tokensOf_eq_append_iff.1 h
    obtain ⟨next, hseparates, hmore⟩ := separates_of_tokens hmid
    obtain ⟨attr, hattr, hvalue⟩ := first.isRead hfirst mid
    obtain ⟨found, hfound, hvalues⟩ := ih hmore
    refine ⟨attr :: found, .cons hattr hseparates hfound, ?_⟩
    rw [List.map_cons, hvalue, hvalues, value]

theorem derivesAttrs_iff_tree {values : List Attr} :
    (∃ found, DerivesAttrs found s ∧ found.map Attr.unplaced = values) ↔
      ∃ d : AttrsTree, d.tokens = tokensOf s ∧ d.value = values := by
  constructor
  · rintro ⟨found, hfound, rfl⟩
    obtain ⟨d, htokens, hvalue⟩ := hfound.hasTree
    exact ⟨d, htokens.symm, hvalue⟩
  · rintro ⟨d, htokens, rfl⟩
    exact d.isRead htokens.symm

theorem derives_behind_iff_tree {value : Expr} {values : List Attr} :
    (∃ e found, (∃ rest, Derives (.expr e) s rest ∧ DerivesAttrs found rest) ∧
        e.unplaced = value ∧ found.map Attr.unplaced = values) ↔
      ∃ (name : Tree .expr) (d : AttrsTree), name.tokens ++ d.tokens = tokensOf s ∧
        name.value = value ∧ d.value = values := by
  constructor
  · rintro ⟨e, found, ⟨rest, he, hfound⟩, rfl, rfl⟩
    obtain ⟨name, hname, hvalue⟩ := he.hasTree
    obtain ⟨d, htokens, hvalues⟩ := hfound.hasTree
    exact ⟨name, d, by rw [hname, htokens], hvalue, hvalues⟩
  · rintro ⟨name, d, htokens, rfl, rfl⟩
    obtain ⟨a, rest, rfl, hname, hd⟩ := tokensOf_eq_append_iff.1 htokens.symm
    obtain ⟨e, he, hvalue⟩ := name.isRead hname rest
    obtain ⟨found, hfound, hvalues⟩ := d.isRead hd
    exact ⟨e, found, ⟨rest, he, hfound⟩, hvalue, hvalues⟩

/-- An expression with attributes behind it is read to its end, and no further. -/
theorem Tree.gives_before {d : Tree .expr} (h : tokensOf s = d.tokens)
    (hrest : FollowsAttr (tokensOf rest)) :
    ∃ e, e.unplaced = d.value ∧ ∀ pending, Gives (Grammar.expr pending (s ++ rest)) e rest := by
  obtain ⟨e, he, hvalue⟩ := d.isRead h rest
  refine ⟨e, hvalue, he.isRead fun l hl => hrest.ends l.token ?_⟩
  rw [tokensOf, List.head?_map]
  exact Option.mem_map_of_mem _ hl

end

end Grammar

/-- From the tokens of a source attributes are read if and only if all of them have a tree of
attributes that stands for them, and a name with attributes if and only if they are the tokens of a
tree of an expression and of a tree of attributes behind it. There is one such tree, or one such
pair, at most. And wherever an expression stands before attributes, with a comma between them or
without one, the parser of expressions reads just that expression and leaves the attributes. -/
theorem parseAttrs_iff_tree {offset : Nat} {source : List Char} {lexemes : List Lexeme}
    (h : tokenize offset source = .ok lexemes) :
    (∀ values : List Attr,
      (∃ found, parseAttrs offset source = .ok found ∧ found.map Attr.unplaced = values) ↔
        ∃ d : Grammar.AttrsTree, d.tokens = lexemes.map Lexeme.token ∧ d.value = values) ∧
    (∀ d d' : Grammar.AttrsTree, d.tokens = lexemes.map Lexeme.token →
      d'.tokens = lexemes.map Lexeme.token → d = d') ∧
    (∀ (value : Expr) (values : List Attr),
      (∃ e found, parseDynamic offset source = .ok (e, found) ∧ e.unplaced = value ∧
        found.map Attr.unplaced = values) ↔
        ∃ (name : Grammar.Tree .expr) (d : Grammar.AttrsTree),
          name.tokens ++ d.tokens = lexemes.map Lexeme.token ∧ name.value = value ∧
            d.value = values) ∧
    (∀ (name name' : Grammar.Tree .expr) (d d' : Grammar.AttrsTree),
      name.tokens ++ d.tokens = lexemes.map Lexeme.token →
      name'.tokens ++ d'.tokens = lexemes.map Lexeme.token → name = name' ∧ d = d') ∧
    ∀ (s rest : List Lexeme) (e : Grammar.Tree .expr) (comma : Bool) (d : Grammar.AttrsTree),
      s.map Lexeme.token = e.tokens →
      rest.map Lexeme.token = Grammar.commaTokens comma ++ d.tokens →
      ∃ read, read.unplaced = e.value ∧
        ∀ pending, Grammar.Gives (Grammar.expr pending (s ++ rest)) read rest := by
  rw [← Grammar.tokensOf]
  refine ⟨fun values => ?_, fun d d' hd hd' => ?_, fun value values => ?_,
    fun name name' d d' hd hd' => ?_, ?_⟩
  · rw [← Grammar.derivesAttrs_iff_tree]
    simp [parseAttrs_eq_ok_iff, h]
  · exact Grammar.AttrsTree.unique (hd.trans hd'.symm)
  · rw [← Grammar.derives_behind_iff_tree]
    simp only [parseDynamic_eq_ok_iff, h, Except.ok.injEq, exists_and_left, exists_eq_left']
  · exact Grammar.AttrsTree.unique_behind (hd.trans hd'.symm)
  · rintro s rest e comma d hs hrest
    refine Grammar.Tree.gives_before hs ?_
    rw [Grammar.tokensOf, hrest]
    exact d.follows comma

/-- Attributes with a comma, without one and without a value, and a name with an attribute right
behind it. -/
theorem parseAttrs_iff_tree_title :
    let source := "title=\"Hi\", kind=level disabled ...extra"
    let values := [Attr.named "title" ⟨0, 0⟩ (some (.literal ⟨0, 0⟩ (.string "Hi"))),
      .named "kind" ⟨0, 0⟩ (some (.var ⟨0, 0⟩ "level")), .named "disabled" ⟨0, 0⟩ none,
      .spread (.var ⟨0, 0⟩ "extra")]
    let dynamic := "widget ~ \"-card\" title=\"Hi\""
    let value := Expr.concat ⟨0, 0⟩ (.var ⟨0, 0⟩ "widget") (.literal ⟨0, 0⟩ (.string "-card"))
    (∃ lexemes, tokenize 0 source.toList = .ok lexemes ∧
      ∃ found, parseAttrs 0 source.toList = .ok found ∧ found.map Attr.unplaced = values) ∧
    ∃ lexemes, tokenize 0 dynamic.toList = .ok lexemes ∧
      ∃ e found, parseDynamic 0 dynamic.toList = .ok (e, found) ∧ e.unplaced = value ∧
        found.map Attr.unplaced = values.take 1 := by
  intro source values dynamic value
  have hsource : tokenize 0 source.toList = .ok
      [⟨.ident "title", ⟨0, 5⟩⟩, ⟨.equals, ⟨5, 6⟩⟩, ⟨.text "Hi", ⟨6, 10⟩⟩, ⟨.comma, ⟨10, 11⟩⟩,
        ⟨.ident "kind", ⟨12, 16⟩⟩, ⟨.equals, ⟨16, 17⟩⟩, ⟨.ident "level", ⟨17, 22⟩⟩,
        ⟨.ident "disabled", ⟨23, 31⟩⟩, ⟨.spread, ⟨32, 35⟩⟩, ⟨.ident "extra", ⟨35, 40⟩⟩] := by cbv
  have hdynamic : tokenize 0 dynamic.toList = .ok
      [⟨.ident "widget", ⟨0, 6⟩⟩, ⟨.tilde, ⟨7, 8⟩⟩, ⟨.text "-card", ⟨9, 16⟩⟩,
        ⟨.ident "title", ⟨17, 22⟩⟩, ⟨.equals, ⟨22, 23⟩⟩, ⟨.text "Hi", ⟨23, 27⟩⟩] := by cbv
  let operand (atom : Grammar.Tree .atom) : Grammar.Tree .access := .access atom .accessEnd
  let alone (atom : Grammar.Tree .atom) : Grammar.Tree .expr :=
    .expr (.concat (operand atom) .tildeEnd) .coalesceEnd
  let title : Grammar.AttrTree := .named "title" (alone (.text "Hi"))
  let behind : Grammar.AttrsTree := .cons (.named "kind" (alone (.var "level"))) false
    (.cons (.bare "disabled") false (.cons (.spread (alone (.var "extra"))) false .nil))
  let name : Grammar.Tree .expr :=
    .expr (.concat (operand (.var "widget")) (.tilde (operand (.text "-card")) .tildeEnd))
      .coalesceEnd
  obtain ⟨hattrs, -, -, -, -⟩ := parseAttrs_iff_tree hsource
  obtain ⟨-, -, hdynamicRead, -, -⟩ := parseAttrs_iff_tree hdynamic
  exact ⟨⟨_, hsource, (hattrs values).2 ⟨.cons title true behind, rfl, rfl⟩⟩, _, hdynamic,
    (hdynamicRead value (values.take 1)).2 ⟨name, .cons title false .nil, rfl, rfl, rfl⟩⟩

end SlotTemplates
