import SlotTemplates.Proofs.Syntax.Conservation

/-!
# Where expressions stand

An expression is *placed* in a source (`Expr.Placed`) if what stands directly in it, a function's
name among it, stands in its range, none of it empty and one behind the other, and if the source has
the name of a variable or of a function where its place says. `Attr.Placed` is the same for
attributes.

The tokens of a text that stands in a source stand in it as they are written, one behind the other
(`Lexes.row`). A phrase that is derived from tokens like that is placed between the start of the
first and the end of the last one it takes (`Grammar.Derives.placed`); so is what `parseExpr`,
`parseAttrs`, `parseDynamic` and `parseSlotName` make of a text.
-/

namespace SlotTemplates

/-- Places between two bytes, none of them empty, one behind the other. -/
structure Arranged (lo hi : Nat) (spans : List Span) : Prop extends Within lo hi spans where
  nonempty : ∀ span ∈ spans, span.start < span.stop

namespace Arranged

variable {lo mid hi : Nat} {spans more : List Span} {span : Span}

theorem nil (lo hi : Nat) : Arranged lo hi [] := ⟨.nil lo hi, nofun⟩

theorem single (hlo : lo ≤ span.start) (hspan : span.start < span.stop) (hhi : span.stop ≤ hi) :
    Arranged lo hi [span] :=
  ⟨(Within.single span).mono hlo hhi, by simpa using hspan⟩

theorem mono {lo' hi' : Nat} (h : Arranged lo hi spans) (hlo : lo' ≤ lo) (hhi : hi ≤ hi') :
    Arranged lo' hi' spans :=
  ⟨h.toWithin.mono hlo hhi, h.nonempty⟩

theorem append (h : Arranged lo mid spans) (hmore : Arranged mid hi more) (hlo : lo ≤ mid)
    (hhi : mid ≤ hi) : Arranged lo hi (spans ++ more) :=
  ⟨h.toWithin.append hmore.toWithin hlo hhi,
    List.forall_mem_append.2 ⟨h.nonempty, hmore.nonempty⟩⟩

theorem cons (hlo : lo ≤ span.start) (hspan : span.start < span.stop)
    (hmore : Arranged span.stop hi more) (hhi : span.stop ≤ hi) : Arranged lo hi (span :: more) :=
  append (single hlo hspan (Nat.le_refl _)) hmore (by omega) hhi

end Arranged

/-! ## Placed expressions -/

namespace Expr

/-- The expressions that stand directly in an expression. -/
def parts : Expr → List Expr
  | .literal .. | .var .. => []
  | .list _ items => items
  | .map _ entries => entries.map Prod.snd
  | .attr _ base _ => [base]
  | .index _ base position => [base, position]
  | .call _ _ _ args => args
  | .concat _ left right | .coalesce _ left right => [left, right]

/-- The places of what stands directly in an expression. A function's name comes before its
arguments. -/
def places : Expr → List Span
  | .call _ _ nameSpan args => nameSpan :: args.map span
  | e => e.parts.map span

/-- The name of a variable or of a function, with its place. -/
def named? : Expr → Option (Span × String)
  | .var span name => some (span, name)
  | .call _ name nameSpan _ => some (nameSpan, name)
  | _ => none

/-- An expression in a source with all that stands in it where its places say. -/
inductive Placed (source : List Char) : Expr → Prop where
  | mk {e : Expr} (nonempty : e.span.start < e.span.stop)
    (arranged : Arranged e.span.start e.span.stop e.places)
    (name : ∀ named ∈ e.named?, Stands 0 source named.1 named.2.toList)
    (parts : ∀ part ∈ e.parts, Placed source part) : Placed source e

/-- A placed expression between two bytes. -/
structure PlacedIn (source : List Char) (lo hi : Nat) (e : Expr) : Prop where
  start_le : lo ≤ e.span.start
  le_stop : e.span.stop ≤ hi
  placed : e.Placed source

end Expr

namespace Attr

/-- The expressions of an attribute. -/
def values : Attr → List Expr
  | .named _ _ value => value.toList
  | .spread value => [value]

/-- The places of what stands in an attribute. -/
def places : Attr → List Span
  | .named _ nameSpan value => nameSpan :: value.toList.map Expr.span
  | .spread value => [value.span]

/-- The name of an attribute, with its place. -/
def named? : Attr → Option (Span × String)
  | .named name nameSpan _ => some (nameSpan, name)
  | .spread _ => none

/-- An attribute in a source with its name and its value where their places say. -/
structure Placed (source : List Char) (attr : Attr) : Prop where
  name : ∀ named ∈ attr.named?, Stands 0 source named.1 named.2.toList
  values : ∀ value ∈ attr.values, value.Placed source

end Attr

/-! ## Tokens in a source -/

namespace Token

variable {c : Char} {cs written rest : List Char} {t : Token} {name value : String}

theorem ofWord_ident {word : List Char} (h : ofWord word = .ident name) : word = name.toList := by
  unfold ofWord at h
  split_ifs at h
  cases h
  rw [String.toList_ofList]

theorem ofWord_ne_text (word : List Char) : ofWord word ≠ .text value := by
  unfold ofWord
  split_ifs <;> exact nofun

theorem scanSymbol_not_word (h : scanSymbol c cs = .token t written rest) :
    (∀ name, t ≠ .ident name) ∧ ∀ value, t ≠ .text value := by
  unfold scanSymbol at h
  split at h
  · split at h
    · obtain ⟨v, rfl⟩ := scanNumber_number h
      exact ⟨nofun, nofun⟩
    · cases h
  · cases h
    exact ⟨nofun, nofun⟩
  · cases h
    exact ⟨nofun, nofun⟩
  · split at h
    · next hsingle =>
      cases h
      unfold single? at hsingle
      split at hsingle <;> cases hsingle <;> exact ⟨nofun, nofun⟩
    · cases h

/-- A name is written as it is, and a text in quotes. -/
theorem scanToken_word (h : scanToken c cs = .token t written rest) :
    (∀ name, t = .ident name → written = name.toList) ∧
      ∀ value, t = .text value → (c = '"' ∨ c = '\'') ∧ ∃ inner,
        written = c :: inner ∧ readQuoted c cs = .closed value.toList inner rest := by
  cases hname : isNameStart c with
  | true =>
    simp only [scanToken, hname, if_true] at h
    cases h
    exact ⟨fun name => ofWord_ident, fun value hword => absurd hword (ofWord_ne_text _)⟩
  | false =>
  cases hdigit : c.isDigit with
  | true =>
    simp only [scanToken, hname, hdigit, Bool.false_eq_true, if_true, if_false] at h
    obtain ⟨v, rfl⟩ := scanNumber_number h
    constructor
    · rintro name ⟨⟩
    · rintro value ⟨⟩
  | false =>
  by_cases hquote : c = '"' ∨ c = '\''
  · simp only [scanToken, hname, hdigit, hquote, Bool.false_eq_true, if_true, if_false] at h
    split at h
    · next inner _ hread =>
      cases h
      constructor
      · rintro name ⟨⟩
      · rintro value ⟨⟩
        exact ⟨hquote, inner, rfl, by rw [hread, String.toList_ofList]⟩
    · cases h
  · rw [scanToken_eq_scanSymbol hname hdigit hquote] at h
    obtain ⟨hident, htext⟩ := scanSymbol_not_word h
    exact ⟨fun name hname => absurd hname (hident name),
      fun value hvalue => absurd hvalue (htext value)⟩

end Token

/-- Tokens that stand in a source between two bytes as they are written, one behind the other. -/
inductive Row (source : List Char) (hi : Nat) : Nat → List Lexeme → Prop where
  | nil {lo} (h : lo ≤ hi) : Row source hi lo []
  | cons {lo c cs t written rest span s} (hlo : lo ≤ span.start)
      (hscan : Token.scanToken c cs = .token t written rest)
      (hstands : Stands 0 source span written) (hrest : Row source hi span.stop s) :
    Row source hi lo (⟨t, span⟩ :: s)

namespace Row

variable {source : List Char} {lo hi : Nat} {s : List Lexeme} {t : Token} {span : Span}
  {name : String}

theorem mono {lo' : Nat} (h : Row source hi lo s) (hlo : lo' ≤ lo) : Row source hi lo' s := by
  cases h with
  | nil hhi => exact .nil (hlo.trans hhi)
  | cons hstart hscan hstands hrest => exact .cons (hlo.trans hstart) hscan hstands hrest

theorem of_cons (h : Row source hi lo (⟨t, span⟩ :: s)) :
    lo ≤ span.start ∧ span.start < span.stop ∧ Row source hi span.stop s := by
  cases h with
  | cons hstart hscan hstands hrest =>
    exact ⟨hstart, hstands.nonempty (Token.scanToken_written hscan), hrest⟩

/-- A name stands in the source as it is. -/
theorem stands_ident (h : Row source hi lo (⟨.ident name, span⟩ :: s)) :
    Stands 0 source span name.toList := by
  cases h with
  | cons _ hscan hstands _ =>
    rw [(Token.scanToken_word hscan).1 name rfl] at hstands
    exact hstands

theorem le (h : Row source hi lo s) : lo ≤ hi := by
  induction h with
  | nil h => exact h
  | cons hlo hscan hstands _ ih =>
    have hspan := hstands.nonempty (Token.scanToken_written hscan)
    omega

end Row

/-- The tokens of a text stand where the text does. -/
theorem Lexes.row {pos : Nat} {text : List Char} {lexemes : List Lexeme}
    (h : Lexes pos text lexemes) (before after : List Char) (hpos : pos = byteLength before) :
    Row (before ++ text ++ after) (pos + byteLength text) pos lexemes := by
  induction h generalizing before with
  | nil => exact .nil (Nat.le_refl _)
  | @gap pos c cs lexemes _ _ ih =>
    have hrow := ih (before ++ [c]) (by simp [hpos])
    have hstop : pos + c.utf8Size + byteLength cs = pos + byteLength (c :: cs) := by
      rw [byteLength_cons, Nat.add_assoc]
    rw [hstop] at hrow
    simpa using hrow.mono (Nat.le_add_right pos c.utf8Size)
  | @token pos c cs t written rest lexemes _ hscan _ ih =>
    have hwritten := Token.scanToken_split hscan
    have hrow := ih (before ++ written) (by simp [hpos])
    have hstop : pos + byteLength written + byteLength rest = pos + byteLength (c :: cs) := by
      rw [← hwritten, byteLength_append, Nat.add_assoc]
    rw [hstop, List.append_assoc before written rest, hwritten] at hrow
    refine .cons (Nat.le_refl _) hscan ⟨before, rest ++ after, ?_, ?_⟩ hrow
    · rw [← hwritten]
      simp
    · rw [hpos, Nat.zero_add]

theorem Stands.row {source text : List Char} {span : Span} {lexemes : List Lexeme}
    (h : Stands 0 source span text) (hlexes : Lexes span.start text lexemes) :
    Row source span.stop span.start lexemes := by
  obtain ⟨before, after, rfl, rfl⟩ := h
  exact hlexes.row before after (Nat.zero_add _)

/-! ## Derived phrases -/

section
variable {source : List Char} {lo mid mid' hi first : Nat} {left right base position e : Expr}
  {span nameSpan close : Span} {name : String} {values : List Expr}

/-- Elements that are placed between a byte and a closing token. -/
structure Enclosed (source : List Char) (lo hi : Nat) (values : List Expr) (close : Span) :
    Prop where
  arranged : Arranged lo close.start (values.map Expr.span)
  placed : ∀ value ∈ values, value.Placed source
  le_start : lo ≤ close.start
  nonempty : close.start < close.stop
  stop_le : close.stop ≤ hi

namespace Enclosed

theorem nil (hlo : lo ≤ close.start) (hclose : close.start < close.stop) :
    Enclosed source lo close.stop [] close :=
  ⟨.nil _ _, nofun, hlo, hclose, Nat.le_refl _⟩

theorem cons (he : e.PlacedIn source lo mid) (h : Enclosed source mid' hi values close)
    (hmid : mid ≤ mid') : Enclosed source lo hi (e :: values) close := by
  obtain ⟨hstart, hstop, hplaced⟩ := he
  have hspan : e.span.start < e.span.stop := by
    cases hplaced with
    | mk hspan => exact hspan
  have hle := h.le_start
  refine ⟨?_, List.forall_mem_cons.2 ⟨hplaced, h.placed⟩, by omega, h.nonempty, h.stop_le⟩
  exact .cons hstart hspan (h.arranged.mono (by omega) (Nat.le_refl _)) (by omega)

end Enclosed

namespace Expr

theorem Placed.nonempty (h : e.Placed source) : e.span.start < e.span.stop := by
  cases h with
  | mk hspan => exact hspan

namespace PlacedIn

theorem mono {lo' hi' : Nat} (h : e.PlacedIn source lo hi) (hlo : lo' ≤ lo) (hhi : hi ≤ hi') :
    e.PlacedIn source lo' hi' :=
  ⟨hlo.trans h.start_le, h.le_stop.trans hhi, h.placed⟩

/-- Two operands, one behind the other, make a placed expression. -/
theorem pair (hleft : left.PlacedIn source lo mid) (hright : right.PlacedIn source mid' hi)
    (hmid : mid ≤ mid') (hspan : e.span = left.span.through right.span)
    (hplaces : e.places = [left.span, right.span]) (hparts : e.parts = [left, right])
    (hname : e.named? = none) : e.PlacedIn source lo hi := by
  have hleftSpan := hleft.placed.nonempty
  have hrightSpan := hright.placed.nonempty
  have hbetween := hleft.le_stop.trans (hmid.trans hright.start_le)
  have harranged : Arranged left.span.start right.span.stop [left.span, right.span] :=
    .cons (Nat.le_refl _) hleftSpan (.single hbetween hrightSpan (Nat.le_refl _)) (by omega)
  refine ⟨by rw [hspan]; exact hleft.start_le, by rw [hspan]; exact hright.le_stop, .mk ?_ ?_ ?_ ?_⟩
  · rw [hspan]
    show left.span.start < right.span.stop
    omega
  · rw [hspan, hplaces]
    exact harranged
  · rw [hname]
    exact nofun
  · rw [hparts]
    simpa using ⟨hleft.placed, hright.placed⟩

/-- So does an operand with a name behind it. -/
theorem attr (hbase : base.PlacedIn source lo mid) (hmid : mid ≤ span.start)
    (hspan : span.start < span.stop) :
    (Expr.attr (base.span.through span) base name).PlacedIn source lo span.stop := by
  have hbaseSpan := hbase.placed.nonempty
  have hstop := hbase.le_stop
  refine ⟨hbase.start_le, Nat.le_refl _, .mk ?_ ?_ nofun (by simpa [parts] using hbase.placed)⟩
  · show base.span.start < span.stop
    omega
  · exact .single (Nat.le_refl _) hbaseSpan (show base.span.stop ≤ span.stop by omega)

/-- And an operand with a position behind it, which ends in a bracket. -/
theorem index (hbase : base.PlacedIn source lo mid) (hposition : position.PlacedIn source mid' hi)
    (hmid : mid ≤ mid') (hclose : hi ≤ span.start) (hspan : span.start < span.stop) :
    (Expr.index (base.span.through span) base position).PlacedIn source lo span.stop := by
  have hbaseSpan := hbase.placed.nonempty
  have hpositionSpan := hposition.placed.nonempty
  have hbetween := hbase.le_stop.trans (hmid.trans hposition.start_le)
  have hlast : position.span.stop ≤ span.stop := by
    have hstop := hposition.le_stop
    omega
  refine ⟨hbase.start_le, Nat.le_refl _, .mk ?_ ?_ nofun ?_⟩
  · show base.span.start < span.stop
    omega
  · exact .cons (Nat.le_refl _) hbaseSpan (.single hbetween hpositionSpan hlast)
      (show base.span.stop ≤ span.stop by omega)
  · simpa [parts] using ⟨hbase.placed, hposition.placed⟩

/-- Elements behind an opening token and before a closing one make a placed expression. -/
theorem enclosed (hlo : lo ≤ span.start) (hspan : span.start < span.stop)
    (h : Enclosed source span.stop hi values close) (he : e.span = span.through close)
    (hplaces : e.places = values.map Expr.span) (hparts : e.parts = values)
    (hname : e.named? = none) : e.PlacedIn source lo hi := by
  have hbetween := h.le_start
  have hclose := h.nonempty
  refine ⟨by rw [he]; exact hlo, by rw [he]; exact h.stop_le, .mk ?_ ?_ ?_ ?_⟩
  · rw [he]
    show span.start < close.stop
    omega
  · rw [he, hplaces]
    exact h.arranged.mono hspan.le hclose.le
  · rw [hname]
    exact nofun
  · rw [hparts]
    exact h.placed

/-- And so do arguments behind the name of a function. -/
theorem call (hlo : lo ≤ span.start) (hspan : span.start < span.stop) (hmid : span.stop ≤ mid)
    (hname : Stands 0 source span name.toList) (h : Enclosed source mid hi values close) :
    (Expr.call (span.through close) name span values).PlacedIn source lo hi := by
  have hbetween := h.le_start
  have hclose := h.nonempty
  refine ⟨hlo, h.stop_le, .mk ?_ ?_ ?_ h.placed⟩
  · show span.start < close.stop
    omega
  · exact .cons (Nat.le_refl _) hspan (h.arranged.mono hmid hclose.le)
      (show span.stop ≤ close.stop by omega)
  · rintro _ ⟨⟩
    exact hname

end PlacedIn

end Expr

end

namespace Grammar

variable {source : List Char} {hi : Nat} {phrase : Phrase} {s rest : List Lexeme}

/-- What it means that a phrase is placed that is read from tokens between two bytes. A tail is
placed if it goes on with a first operand that stands before it. -/
def Phrase.PlacedIn (source : List Char) (lo mid : Nat) : Phrase → Prop
  | .expr e | .concat e | .access e | .atom e => e.PlacedIn source lo mid
  | .coalesceTail left e | .concatTail left e | .accessTail left e =>
    ∀ first, left.PlacedIn source first lo → e.PlacedIn source first mid
  | .items _ values close => Enclosed source lo mid values close
  | .entries values close => Enclosed source lo mid (values.map Prod.snd) close

/-- A phrase that is derived from tokens in a source is placed there, before the tokens that are
left. -/
theorem Derives.placed (h : Derives phrase s rest) :
    ∀ {lo}, Row source hi lo s →
      ∃ mid, lo ≤ mid ∧ Row source hi mid rest ∧ phrase.PlacedIn source lo mid := by
  induction h with
  | expr _ _ ihleft ihtail | concat _ _ ihleft ihtail | access _ _ ihleft ihtail =>
    intro lo hrow
    obtain ⟨mid, hmid, hrow, hleft⟩ := ihleft hrow
    obtain ⟨last, hlast, hrow, htail⟩ := ihtail hrow
    exact ⟨last, hmid.trans hlast, hrow, htail lo hleft⟩
  | coalesceEnd | tildeEnd | accessEnd =>
    intro lo hrow
    exact ⟨lo, Nat.le_refl _, hrow, fun first hleft => hleft⟩
  | coalesce _ _ ihright ihtail | tilde _ _ ihright ihtail =>
    intro lo hrow
    obtain ⟨hlo, hspan, hrow⟩ := hrow.of_cons
    obtain ⟨mid, hmid, hrow, hright⟩ := ihright hrow
    obtain ⟨last, hlast, hrow, htail⟩ := ihtail hrow
    refine ⟨last, by omega, hrow, fun first hleft => htail first ?_⟩
    exact hleft.pair hright (by omega) rfl rfl rfl rfl
  | attr _ ihtail =>
    intro lo hrow
    obtain ⟨hlo, hdot, hrow⟩ := hrow.of_cons
    obtain ⟨hname, hspan, hrow⟩ := hrow.of_cons
    obtain ⟨last, hlast, hrow, htail⟩ := ihtail hrow
    refine ⟨last, by omega, hrow, fun first hbase => htail first ?_⟩
    exact hbase.attr (by omega) hspan
  | index _ _ ihposition ihtail =>
    intro lo hrow
    obtain ⟨hlo, hopened, hrow⟩ := hrow.of_cons
    obtain ⟨mid, hmid, hrow, hposition⟩ := ihposition hrow
    obtain ⟨hclose, hspan, hrow⟩ := hrow.of_cons
    obtain ⟨last, hlast, hrow, htail⟩ := ihtail hrow
    refine ⟨last, by omega, hrow, fun first hbase => htail first ?_⟩
    exact hbase.index hposition (by omega) hclose hspan
  | call _ ihargs =>
    intro lo hrow
    have hname := hrow.stands_ident
    obtain ⟨hlo, hspan, hrow⟩ := hrow.of_cons
    obtain ⟨hopen, hopened, hrow⟩ := hrow.of_cons
    obtain ⟨mid, hmid, hrow, hargs⟩ := ihargs hrow
    exact ⟨mid, by omega, hrow, .call hlo hspan (by omega) hname hargs⟩
  | var =>
    intro lo hrow
    have hname := hrow.stands_ident
    obtain ⟨hlo, hspan, hrow⟩ := hrow.of_cons
    refine ⟨_, by omega, hrow, hlo, Nat.le_refl _, .mk hspan (.nil _ _) ?_ nofun⟩
    rintro _ ⟨⟩
    exact hname
  | list _ ihvalues | map _ ihvalues =>
    intro lo hrow
    obtain ⟨hlo, hspan, hrow⟩ := hrow.of_cons
    obtain ⟨mid, hmid, hrow, hvalues⟩ := ihvalues hrow
    exact ⟨mid, by omega, hrow, .enclosed hlo hspan hvalues rfl rfl rfl rfl⟩
  | paren _ ihe =>
    intro lo hrow
    obtain ⟨hlo, hspan, hrow⟩ := hrow.of_cons
    obtain ⟨mid, hmid, hrow, he⟩ := ihe hrow
    obtain ⟨hclose, hcloseSpan, hrow⟩ := hrow.of_cons
    exact ⟨_, by omega, hrow, he.mono (by omega) (by omega)⟩
  | literal =>
    intro lo hrow
    obtain ⟨hlo, hspan, hrow⟩ := hrow.of_cons
    exact ⟨_, by omega, hrow, hlo, Nat.le_refl _, .mk hspan (.nil _ _) nofun nofun⟩
  | noItems | noEntries =>
    intro lo hrow
    obtain ⟨hlo, hspan, hrow⟩ := hrow.of_cons
    exact ⟨_, by omega, hrow, .nil hlo hspan⟩
  | lastItem _ ihe =>
    intro lo hrow
    obtain ⟨mid, hmid, hrow, he⟩ := ihe hrow
    obtain ⟨hclose, hspan, hrow⟩ := hrow.of_cons
    exact ⟨_, by omega, hrow, .cons he (.nil hclose hspan) (Nat.le_refl _)⟩
  | item _ _ ihe ihvalues =>
    intro lo hrow
    obtain ⟨mid, hmid, hrow, he⟩ := ihe hrow
    obtain ⟨hcomma, hspan, hrow⟩ := hrow.of_cons
    obtain ⟨last, hlast, hrow, hvalues⟩ := ihvalues hrow
    exact ⟨last, by omega, hrow, .cons he hvalues (by omega)⟩
  | lastEntry _ _ ihe =>
    intro lo hrow
    obtain ⟨hkey, hkeySpan, hrow⟩ := hrow.of_cons
    obtain ⟨hcolon, hcolonSpan, hrow⟩ := hrow.of_cons
    obtain ⟨mid, hmid, hrow, he⟩ := ihe hrow
    obtain ⟨hclose, hspan, hrow⟩ := hrow.of_cons
    refine ⟨_, by omega, hrow, .cons (he.mono (by omega) (Nat.le_refl _)) (.nil hclose hspan) ?_⟩
    exact Nat.le_refl _
  | entry _ _ _ ihe ihvalues =>
    intro lo hrow
    obtain ⟨hkey, hkeySpan, hrow⟩ := hrow.of_cons
    obtain ⟨hcolon, hcolonSpan, hrow⟩ := hrow.of_cons
    obtain ⟨mid, hmid, hrow, he⟩ := ihe hrow
    obtain ⟨hcomma, hspan, hrow⟩ := hrow.of_cons
    obtain ⟨last, hlast, hrow, hvalues⟩ := ihvalues hrow
    exact ⟨last, by omega, hrow, .cons (he.mono (by omega) (Nat.le_refl _)) hvalues (by omega)⟩

/-! ## Attributes -/

section
variable {lo : Nat} {attr : Attr} {found : List Attr}

theorem DerivesAttr.placed (h : DerivesAttr attr s rest) (hrow : Row source hi lo s) :
    ∃ mid, lo ≤ mid ∧ Row source hi mid rest ∧ Arranged lo mid attr.places ∧
      attr.Placed source := by
  cases h with
  | spread he =>
    obtain ⟨hlo, hspan, hrow⟩ := hrow.of_cons
    obtain ⟨mid, hmid, hrow, hstart, hstop, hplaced⟩ := he.placed hrow
    refine ⟨mid, by omega, hrow, .single (by omega) hplaced.nonempty hstop, nofun, ?_⟩
    simpa [Attr.values] using hplaced
  | named he =>
    have hname := hrow.stands_ident
    obtain ⟨hlo, hspan, hrow⟩ := hrow.of_cons
    obtain ⟨hequals, hequalsSpan, hrow⟩ := hrow.of_cons
    obtain ⟨mid, hmid, hrow, hstart, hstop, hplaced⟩ := he.placed hrow
    refine ⟨mid, by omega, hrow, ?_, ?_, by simpa [Attr.values] using hplaced⟩
    · exact .cons hlo hspan (.single (by omega) hplaced.nonempty hstop) (by omega)
    · rintro _ ⟨⟩
      exact hname
  | bare =>
    have hname := hrow.stands_ident
    obtain ⟨hlo, hspan, hrow⟩ := hrow.of_cons
    refine ⟨_, by omega, hrow, .single hlo hspan (Nat.le_refl _), ?_, nofun⟩
    rintro _ ⟨⟩
    exact hname

/-- What separates attributes takes no place from those behind it. -/
theorem Separates.row {next : List Lexeme} (h : Separates s next) (hrow : Row source hi lo s) :
    Row source hi lo next := by
  cases h with
  | nothing => exact hrow
  | comma =>
    obtain ⟨hlo, hspan, hrow⟩ := hrow.of_cons
    exact hrow.mono (by omega)

/-- Attributes stand one behind the other. -/
theorem DerivesAttrs.placed (h : DerivesAttrs found s) :
    ∀ {lo}, Row source hi lo s →
      Arranged lo hi (found.flatMap Attr.places) ∧ ∀ attr ∈ found, attr.Placed source := by
  induction h with
  | nil => exact fun _ => ⟨.nil _ _, nofun⟩
  | cons hattr hmid _ ih =>
    intro lo hrow
    obtain ⟨mid, hle, hrow, harranged, hplaced⟩ := hattr.placed hrow
    obtain ⟨hrest, hplacedRest⟩ := ih (hmid.row hrow)
    rw [List.flatMap_cons]
    exact ⟨harranged.append hrest hle hrow.le, List.forall_mem_cons.2 ⟨hplaced, hplacedRest⟩⟩

end

/-- The name of a slot is its only token. -/
theorem slotName_eq_ok {name : String} {span : Span} (h : slotName s = .ok (name, span)) :
    s = [⟨.ident name, span⟩] ∨ s = [⟨.text name, span⟩] := by
  have alone {name' : String} {span' : Span} {rest : List Lexeme}
      (h : finish (name', span') rest [] = .ok (name, span)) :
      name' = name ∧ span' = span ∧ rest = [] := by
    unfold finish at h
    split at h
    · cases h
      exact ⟨rfl, rfl, rfl⟩
    · cases h
  unfold slotName at h
  split at h
  · obtain ⟨rfl, rfl, rfl⟩ := alone h
    exact .inl rfl
  · obtain ⟨rfl, rfl, rfl⟩ := alone h
    exact .inr rfl
  · cases h

end Grammar

/-! ## Texts in a source -/

/-- The name of a slot stands at its place: as it is, or in quotes, which end where the place
does. -/
def SlotHead.NameStands (source : List Char) (head : SlotHead) : Prop :=
  Stands 0 source head.nameSpan head.name.toList ∨
    ∃ quote inner rest, (quote = '"' ∨ quote = '\'') ∧
      Stands 0 source head.nameSpan (quote :: inner) ∧
      Token.readQuoted quote (inner ++ rest) = .closed head.name.toList inner rest

section
variable {source text : List Char} {span nameSpan : Span} {e : Expr} {found : List Attr}
  {name : String} (hstands : Stands 0 source span text)
include hstands

theorem parseExpr_placed (h : parseExpr span.start text = .ok e) :
    e.PlacedIn source span.start span.stop := by
  obtain ⟨lexemes, htokens, he⟩ := parseExpr_eq_ok_iff.1 h
  have hrow := hstands.row (tokenize_eq_ok_iff.1 htokens)
  obtain ⟨mid, -, hrest, hplaced⟩ := he.placed hrow
  exact hplaced.mono (Nat.le_refl _) hrest.le

theorem parseAttrs_placed (h : parseAttrs span.start text = .ok found) :
    Arranged span.start span.stop (found.flatMap Attr.places) ∧
      ∀ attr ∈ found, attr.Placed source := by
  obtain ⟨lexemes, htokens, hattrs⟩ := parseAttrs_eq_ok_iff.1 h
  exact hattrs.placed (hstands.row (tokenize_eq_ok_iff.1 htokens))

/-- The attributes of an invocation stand behind the expression of its name. -/
theorem parseDynamic_placed (h : parseDynamic span.start text = .ok (e, found)) :
    Arranged span.start span.stop (e.span :: found.flatMap Attr.places) ∧ e.Placed source ∧
      ∀ attr ∈ found, attr.Placed source := by
  obtain ⟨lexemes, rest, htokens, he, hattrs⟩ := parseDynamic_eq_ok_iff.1 h
  have hrow := hstands.row (tokenize_eq_ok_iff.1 htokens)
  obtain ⟨mid, -, hrest, hplaced⟩ := he.placed hrow
  obtain ⟨harranged, hplacedAttrs⟩ := hattrs.placed hrest
  have hmid := hplaced.le_stop
  refine ⟨?_, hplaced.placed, hplacedAttrs⟩
  exact .cons hplaced.start_le hplaced.placed.nonempty (harranged.mono hmid (Nat.le_refl _))
    (hmid.trans hrest.le)

theorem parseSlotName_placed (h : parseSlotName span.start text = .ok (name, nameSpan)) :
    span.start ≤ nameSpan.start ∧ nameSpan.start < nameSpan.stop ∧ nameSpan.stop ≤ span.stop ∧
      SlotHead.NameStands source ⟨span, name, nameSpan⟩ := by
  obtain ⟨lexemes, htokens, hname⟩ := Grammar.run_eq_ok_iff.1 h
  have hrow := hstands.row (tokenize_eq_ok_iff.1 htokens)
  rcases Grammar.slotName_eq_ok hname with rfl | rfl
  · have hname := hrow.stands_ident
    obtain ⟨hlo, hspan, hrow⟩ := hrow.of_cons
    exact ⟨hlo, hspan, hrow.le, .inl hname⟩
  · cases hrow with
    | cons hlo hscan hword hrest =>
      obtain ⟨hquote, inner, rfl, hread⟩ := (Token.scanToken_word hscan).2 name rfl
      rw [← Token.readQuoted_append hread] at hread
      exact ⟨hlo, hword.nonempty (List.cons_ne_nil _ _), hrest.le,
        .inr ⟨_, inner, _, hquote, hword, hread⟩⟩

end

end SlotTemplates
