import SlotTemplates.Proofs.Syntax.Derivation

/-!
# Sources of expressions and attributes

What `parseExpr`, `parseAttrs` and `parseDynamic` make of the tokens of a source is what the grammar
derives from all of them (`Grammar.wholeExpr_eq_ok_iff`, `Grammar.attrs_eq_ok_iff`,
`Grammar.dynamic_eq_ok_iff`). It does not depend on where the tokens stand, but for the places in the
result (`mapSpans`), and every brace that is open among the tokens is closed again (`closesBraces`).
-/

namespace SlotTemplates

theorem Expr.span_mapSpans (f : Span → Span) (e : Expr) : (e.mapSpans f).span = f e.span := by
  cases e <;> rfl

namespace Grammar

/-! ## Whole expressions -/

theorem wholeExpr_eq_ok_iff {s : List Lexeme} {e : Expr} :
    wholeExpr s = .ok e ↔ Derives (.expr e) s [] := by
  constructor
  · intro h
    unfold wholeExpr at h
    split at h
    · cases h
    next p hp =>
    unfold finish at h
    split at h
    · next hrest =>
      cases h
      have hsound := expr_sound hp
      rwa [hrest] at hsound
    · cases h
  · intro h
    obtain ⟨pending, hshort, he⟩ := h.isRead nofun []
    rw [wholeExpr, he]
    rfl

/-! ## Attributes -/

/-- One attribute is derived from the first tokens of a list, and the others are left. -/
inductive DerivesAttr : Attr → List Lexeme → List Lexeme → Prop where
  | spread {span s rest e} (he : Derives (.expr e) s rest) :
    DerivesAttr (.spread e) (⟨.spread, span⟩ :: s) rest
  | named {name span equals s rest e} (he : Derives (.expr e) s rest) :
    DerivesAttr (.named name span (some e)) (⟨.ident name, span⟩ :: ⟨.equals, equals⟩ :: s) rest
  | bare {name span rest} : DerivesAttr (.named name span none) (⟨.ident name, span⟩ :: rest) rest

/-- After an attribute a comma may follow before the next one. -/
inductive Separates : List Lexeme → List Lexeme → Prop where
  | nothing {s} : Separates s s
  | comma {span s} : Separates (⟨.comma, span⟩ :: s) s

/-- Attributes are derived from all tokens. -/
inductive DerivesAttrs : List Attr → List Lexeme → Prop where
  | nil : DerivesAttrs [] []
  | cons {attr attrs s mid next} (hattr : DerivesAttr attr s mid) (hmid : Separates mid next)
      (hrest : DerivesAttrs attrs next) : DerivesAttrs (attr :: attrs) s

/-- What follows on an attribute are the next ones, perhaps after a comma. -/
theorem attrsAfter_eq (pending : List Expectation) (s : List Lexeme) :
    ∃ more next, Separates s next ∧ attrs.attrsAfter pending s = attrs more next := by
  rw [attrs.attrsAfter.eq_def]
  split
  · exact ⟨_, _, .comma, rfl⟩
  · exact ⟨_, _, .nothing, rfl⟩

theorem Separates.length_le {s next : List Lexeme} (h : Separates s next) :
    next.length ≤ s.length := by
  cases h <;> simp

theorem attrs_sound {pending : List Expectation} {s : List Lexeme} {found : List Attr}
    (h : attrs pending s = .ok found) : DerivesAttrs found s := by
  rw [attrs.eq_def] at h
  split at h
  · cases h
    exact .nil
  · next span r =>
    split at h
    · cases h
    next e mid more hshort he =>
    obtain ⟨rest, hrest, rfl⟩ := map_eq_ok_iff.1 h
    obtain ⟨pending, next, hmid, hnext⟩ := attrsAfter_eq _ mid
    rw [hnext] at hrest
    have hlength := hmid.length_le
    exact .cons (.spread (expr_sound he)) hmid (attrs_sound hrest)
  · next name span equals r =>
    split at h
    · cases h
    next e mid more hshort he =>
    obtain ⟨rest, hrest, rfl⟩ := map_eq_ok_iff.1 h
    obtain ⟨pending, next, hmid, hnext⟩ := attrsAfter_eq _ mid
    rw [hnext] at hrest
    have hlength := hmid.length_le
    exact .cons (.named (expr_sound he)) hmid (attrs_sound hrest)
  · next name span mid hequals =>
    obtain ⟨rest, hrest, rfl⟩ := map_eq_ok_iff.1 h
    obtain ⟨pending, next, hmid, hnext⟩ := attrsAfter_eq _ mid
    rw [hnext] at hrest
    have hlength := hmid.length_le
    exact .cons .bare hmid (attrs_sound hrest)
  · cases h
termination_by s.length
decreasing_by all_goals (subst_vars; simp only [List.length_cons]; omega)

/-- Attributes start with `...` or a name. -/
theorem DerivesAttrs.starts {found : List Attr} {s : List Lexeme} (h : DerivesAttrs found s) :
    ∀ l ∈ s.head?, l.token = .spread ∨ ∃ name, l.token = .ident name := by
  cases h with
  | nil => exact nofun
  | cons hattr => cases hattr <;> simp

/-- What follows on an attribute does not go on with it. -/
theorem DerivesAttrs.follows {found : List Attr} {mid next : List Lexeme}
    (h : DerivesAttrs found next) (hmid : Separates mid next) :
    Stops 3 mid ∧ ∀ l ∈ mid.head?, l.token ≠ .equals := by
  cases hmid with
  | comma => simp [stops_cons, looseness]
  | nothing =>
    constructor
    · intro l hl
      rcases h.starts l hl with htoken | ⟨name, htoken⟩ <;> simp [htoken, looseness]
    · intro l hl
      rcases h.starts l hl with htoken | ⟨name, htoken⟩ <;> simp [htoken]

/-- After an attribute the next ones are read, perhaps after a comma. -/
theorem DerivesAttrs.attrsAfter_eq {found : List Attr} {mid next : List Lexeme}
    (h : DerivesAttrs found next) (hmid : Separates mid next)
    (hnext : ∀ pending, attrs pending next = .ok found) (pending : List Expectation) :
    attrs.attrsAfter pending mid = .ok found := by
  cases hmid with
  | comma =>
    rw [attrs.attrsAfter]
    exact hnext []
  | nothing =>
    rw [attrs.attrsAfter.eq_def]
    split
    · have hstarts := h.starts _ rfl
      simp at hstarts
    · exact hnext _

theorem DerivesAttrs.attrs_eq {found : List Attr} {s : List Lexeme} (h : DerivesAttrs found s)
    (pending : List Expectation) : attrs pending s = .ok found := by
  induction h generalizing pending with
  | nil => rw [attrs]
  | @cons attr rest s mid next hattr hmid hrest ih =>
    obtain ⟨hstops, hequals⟩ := hrest.follows hmid
    have hafter := hrest.attrsAfter_eq hmid ih
    cases hattr with
    | spread he =>
      obtain ⟨more, hshort, he⟩ := he.isRead hstops []
      rw [attrs, he]
      simp only [hafter]
      rfl
    | named he =>
      obtain ⟨more, hshort, he⟩ := he.isRead hstops []
      rw [attrs, he]
      simp only [hafter]
      rfl
    | bare =>
      -- the pattern before that of a name alone is that of a name and an equals sign
      rw [attrs.eq_def]
      split
      · next heq => cases heq
      · next heq => cases heq
      · next heq =>
        cases heq
        exact absurd rfl (hequals _ rfl)
      · next heq =>
        cases heq
        rw [hafter]
        rfl
      · next hnot => exact absurd rfl (hnot _ _ _)

theorem attrs_eq_ok_iff {s : List Lexeme} {found : List Attr} :
    attrs [] s = .ok found ↔ DerivesAttrs found s :=
  ⟨attrs_sound, fun h => h.attrs_eq []⟩

/-- The expression of a name ends where attributes can start. -/
theorem dynamic_eq_ok_iff {s : List Lexeme} {name : Expr} {found : List Attr} :
    dynamic s = .ok (name, found) ↔
      ∃ rest, Derives (.expr name) s rest ∧ DerivesAttrs found rest := by
  constructor
  · intro h
    unfold dynamic at h
    split at h
    · cases h
    next p hp =>
    obtain ⟨attrs, hattrs, heq⟩ := map_eq_ok_iff.1 h
    cases heq
    exact ⟨p.rest, expr_sound hp, attrs_sound hattrs⟩
  · rintro ⟨rest, hname, hattrs⟩
    obtain ⟨hstops, -⟩ := hattrs.follows .nothing
    obtain ⟨pending, hshort, hread⟩ := hname.isRead hstops []
    simp only [dynamic, hread, hattrs.attrs_eq pending]
    rfl

end Grammar

/-! ## Sources -/

theorem Grammar.run_eq_ok_iff {α : Type} {parser : List Lexeme → Except Grammar.Failure α}
    {offset : Nat} {source : List Char} {value : α} :
    Grammar.run parser offset source = .ok value ↔
      ∃ lexemes, tokenize offset source = .ok lexemes ∧ parser lexemes = .ok value := by
  unfold Grammar.run
  cases tokenize offset source with
  | error e => simp
  | ok lexemes =>
    cases hparser : parser lexemes <;> simp [hparser]

theorem parseExpr_eq_ok_iff {offset : Nat} {source : List Char} {e : Expr} :
    parseExpr offset source = .ok e ↔
      ∃ lexemes, tokenize offset source = .ok lexemes ∧
        Grammar.Derives (.expr e) lexemes [] := by
  simp only [parseExpr, Grammar.run_eq_ok_iff, Grammar.wholeExpr_eq_ok_iff]

theorem parseAttrs_eq_ok_iff {offset : Nat} {source : List Char} {found : List Attr} :
    parseAttrs offset source = .ok found ↔
      ∃ lexemes, tokenize offset source = .ok lexemes ∧ Grammar.DerivesAttrs found lexemes := by
  simp only [parseAttrs, Grammar.run_eq_ok_iff, Grammar.attrs_eq_ok_iff]

theorem parseDynamic_eq_ok_iff {offset : Nat} {source : List Char} {name : Expr}
    {found : List Attr} :
    parseDynamic offset source = .ok (name, found) ↔
      ∃ lexemes rest, tokenize offset source = .ok lexemes ∧
        Grammar.Derives (.expr name) lexemes rest ∧ Grammar.DerivesAttrs found rest := by
  simp only [parseDynamic, Grammar.run_eq_ok_iff, Grammar.dynamic_eq_ok_iff, exists_and_left]

namespace Grammar

/-! ## Places and braces -/

/-- The phrase with `f` applied to every range in it. -/
def Phrase.mapSpans (f : Span → Span) : Phrase → Phrase
  | .expr e => .expr (e.mapSpans f)
  | .coalesceTail left e => .coalesceTail (left.mapSpans f) (e.mapSpans f)
  | .concat e => .concat (e.mapSpans f)
  | .concatTail left e => .concatTail (left.mapSpans f) (e.mapSpans f)
  | .access e => .access (e.mapSpans f)
  | .accessTail base e => .accessTail (base.mapSpans f) (e.mapSpans f)
  | .atom e => .atom (e.mapSpans f)
  | .items close values place => .items close (Expr.mapSpansList f values) (f place)
  | .entries values place => .entries (Expr.mapSpansEntries f values) (f place)

/-- A derivation does not depend on the places of the tokens; those of the phrases follow them. -/
theorem Derives.mapSpans {f : Span → Span}
    (hf : ∀ a b : Span, f (a.through b) = (f a).through (f b)) {phrase : Phrase}
    {s rest : List Lexeme} (h : Derives phrase s rest) :
    Derives (phrase.mapSpans f) (s.map fun l => ⟨l.token, f l.span⟩)
      (rest.map fun l => ⟨l.token, f l.span⟩) := by
  induction h with
  | expr _ _ ihleft ihtail => exact .expr ihleft ihtail
  | coalesceEnd => exact .coalesceEnd
  | coalesce _ _ ihright ihtail =>
    simp only [Phrase.mapSpans, Expr.mapSpans, hf, ← Expr.span_mapSpans f] at ihtail
    exact .coalesce ihright ihtail
  | concat _ _ ihleft ihtail => exact .concat ihleft ihtail
  | tildeEnd => exact .tildeEnd
  | tilde _ _ ihright ihtail =>
    simp only [Phrase.mapSpans, Expr.mapSpans, hf, ← Expr.span_mapSpans f] at ihtail
    exact .tilde ihright ihtail
  | access _ _ ihbase ihtail => exact .access ihbase ihtail
  | accessEnd => exact .accessEnd
  | attr _ ihtail =>
    simp only [Phrase.mapSpans, Expr.mapSpans, hf, ← Expr.span_mapSpans f] at ihtail
    exact .attr ihtail
  | index _ _ ihposition ihtail =>
    simp only [Phrase.mapSpans, Expr.mapSpans, hf, ← Expr.span_mapSpans f] at ihtail
    exact .index ihposition ihtail
  | call _ ihargs =>
    simp only [Phrase.mapSpans, Expr.mapSpans, hf]
    exact .call ihargs
  | var => exact .var
  | list _ ihvalues =>
    simp only [Phrase.mapSpans, Expr.mapSpans, hf]
    exact .list ihvalues
  | map _ ihvalues =>
    simp only [Phrase.mapSpans, Expr.mapSpans, hf]
    exact .map ihvalues
  | paren _ ihe => exact .paren ihe
  | literal h => exact .literal h
  | noItems => exact .noItems
  | lastItem _ ihe => exact .lastItem ihe
  | item _ _ ihe ihvalues => exact .item ihe ihvalues
  | noEntries => exact .noEntries
  | lastEntry hkey _ ihe => exact .lastEntry hkey ihe
  | entry hkey _ _ ihe ihvalues => exact .entry hkey ihe ihvalues

/-- The number of open braces after a token, if no brace is closed that is not open. -/
def bracesAfter : Token → Nat → Option Nat
  | .braceOpen, depth => some (depth + 1)
  | .braceClose, 0 => none
  | .braceClose, depth + 1 => some depth
  | _, depth => some depth

/-- The number of open braces after tokens. -/
def braces : List Lexeme → Nat → Option Nat
  | [], depth => some depth
  | l :: s, depth => (bracesAfter l.token depth).bind (braces s)

theorem bracesAfter_literal {t : Token} {value : Value} (h : literal? t = some value)
    (depth : Nat) : bracesAfter t depth = some depth := by
  cases t <;> first | rfl | cases h

theorem bracesAfter_key {t : Token} {key : String} (h : key? t = some key) (depth : Nat) :
    bracesAfter t depth = some depth := by
  cases t <;> first | rfl | cases h

theorem bracesAfter_other {t : Token} {depth depth' : Nat} (hopen : t ≠ .braceOpen)
    (hclose : t ≠ .braceClose) (h : bracesAfter t depth = some depth') : depth' = depth := by
  unfold bracesAfter at h
  split at h
  · exact (hopen rfl).elim
  · exact (hclose rfl).elim
  · exact (hclose rfl).elim
  · exact (Option.some.inj h).symm

/-- What the braces of a phrase come to: those that a phrase opens it closes, except that the one
before the entries of a map is closed by them. -/
def Phrase.ClosesBraces (s rest : List Lexeme) : Phrase → Prop
  | .items close _ _ =>
    close = .parenClose ∨ close = .bracketClose → ∀ depth, braces s depth = braces rest depth
  | .entries _ _ => ∀ depth, braces s (depth + 1) = braces rest depth
  | _ => ∀ depth, braces s depth = braces rest depth

theorem Derives.closesBraces {phrase : Phrase} {s rest : List Lexeme}
    (h : Derives phrase s rest) : phrase.ClosesBraces s rest := by
  induction h with
  | expr _ _ ihleft ihtail => exact fun depth => (ihleft depth).trans (ihtail depth)
  | concat _ _ ihleft ihtail => exact fun depth => (ihleft depth).trans (ihtail depth)
  | access _ _ ihbase ihtail => exact fun depth => (ihbase depth).trans (ihtail depth)
  | coalesceEnd | tildeEnd | accessEnd | var => exact fun _ => rfl
  | coalesce _ _ ihright ihtail => exact fun depth => (ihright depth).trans (ihtail depth)
  | tilde _ _ ihright ihtail => exact fun depth => (ihright depth).trans (ihtail depth)
  | attr _ ihtail => exact ihtail
  | index _ _ ihposition ihtail => exact fun depth => (ihposition depth).trans (ihtail depth)
  | call _ ihargs => exact ihargs (.inl rfl)
  | list _ ihvalues => exact ihvalues (.inr rfl)
  | map _ ihvalues => exact ihvalues
  | paren _ ihe => exact ihe
  | literal h => exact fun depth => by rw [braces, bracesAfter_literal h]; rfl
  | noItems =>
    intro hclosing depth
    rcases hclosing with rfl | rfl <;> rfl
  | lastItem _ ihe =>
    intro hclosing depth
    rw [ihe depth]
    rcases hclosing with rfl | rfl <;> rfl
  | item _ _ ihe ihvalues => exact fun hclosing depth => (ihe depth).trans (ihvalues hclosing depth)
  | noEntries => exact fun _ => rfl
  | lastEntry hkey _ ihe =>
    intro depth
    rw [braces, bracesAfter_key hkey]
    exact ihe (depth + 1)
  | entry hkey _ _ ihe ihvalues =>
    intro depth
    rw [braces, bracesAfter_key hkey]
    exact (ihe (depth + 1)).trans (ihvalues depth)

theorem DerivesAttrs.mapSpans {f : Span → Span}
    (hf : ∀ a b : Span, f (a.through b) = (f a).through (f b)) {found : List Attr}
    {s : List Lexeme} (h : DerivesAttrs found s) :
    DerivesAttrs (found.map (Attr.mapSpans f)) (s.map fun l => ⟨l.token, f l.span⟩) := by
  induction h with
  | nil => exact .nil
  | @cons attr rest s mid next hattr hmid hrest ih =>
    have hsame : Separates (mid.map fun l => ⟨l.token, f l.span⟩)
        (next.map fun l => ⟨l.token, f l.span⟩) := by
      cases hmid with
      | nothing => exact .nothing
      | comma => exact .comma
    refine .cons ?_ hsame ih
    cases hattr with
    | spread he => exact .spread (he.mapSpans hf)
    | named he => exact .named (he.mapSpans hf)
    | bare => exact .bare

theorem DerivesAttrs.closesBraces {found : List Attr} {s : List Lexeme}
    (h : DerivesAttrs found s) (depth : Nat) : braces s depth = some depth := by
  induction h with
  | nil => rfl
  | @cons attr rest s mid next hattr hmid hrest ih =>
    have hnext : braces mid depth = braces next depth := by cases hmid <;> rfl
    cases hattr with
    | spread he => exact (he.closesBraces depth).trans (hnext.trans ih)
    | named he => exact (he.closesBraces depth).trans (hnext.trans ih)
    | bare => exact hnext.trans ih

end Grammar

end SlotTemplates
