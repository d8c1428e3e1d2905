import SlotTemplates.Proofs.Except
import SlotTemplates.Syntax.Grammar

/-!
# What the grammar derives

`Grammar.Derives` is the grammar of expressions without the parser: which tokens a phrase is read
from, and which are left. What the parser reads is derived (`Grammar.expr_sound`), and what is
derived is read if the tokens that are left do not go on with the phrase
(`Grammar.Derives.isRead`). So facts about what the parser reads are shown on derivations, case by
case of the grammar.

All phrases are in one relation, so that one induction goes over all of them.
-/

namespace SlotTemplates

namespace Grammar

/-- What can be derived. A tail is what follows on a first operand, and has the value of both
together. -/
inductive Phrase where
  | expr (value : Expr)
  | coalesceTail (left value : Expr)
  | concat (value : Expr)
  | concatTail (left value : Expr)
  | access (value : Expr)
  | accessTail (base value : Expr)
  | atom (value : Expr)
  /-- Expressions up to a closing token at a place. -/
  | items (close : Token) (values : List Expr) (place : Span)
  /-- Entries of a map up to a brace at a place. -/
  | entries (values : List (String × Expr)) (place : Span)

/-- A phrase is derived from the first tokens of a list, and the others are left. -/
inductive Derives : Phrase → List Lexeme → List Lexeme → Prop where
  | expr {s mid rest left e} (hleft : Derives (.concat left) s mid)
      (htail : Derives (.coalesceTail left e) mid rest) : Derives (.expr e) s rest
  | coalesceEnd {e rest} : Derives (.coalesceTail e e) rest rest
  | coalesce {span s mid rest left right e} (hright : Derives (.concat right) s mid)
      (htail : Derives
        (.coalesceTail (.coalesce (left.span.through right.span) left right) e) mid rest) :
    Derives (.coalesceTail left e) (⟨.coalesce, span⟩ :: s) rest
  | concat {s mid rest left e} (hleft : Derives (.access left) s mid)
      (htail : Derives (.concatTail left e) mid rest) : Derives (.concat e) s rest
  | tildeEnd {e rest} : Derives (.concatTail e e) rest rest
  | tilde {span s mid rest left right e} (hright : Derives (.access right) s mid)
      (htail : Derives
        (.concatTail (.concat (left.span.through right.span) left right) e) mid rest) :
    Derives (.concatTail left e) (⟨.tilde, span⟩ :: s) rest
  | access {s mid rest base e} (hbase : Derives (.atom base) s mid)
      (htail : Derives (.accessTail base e) mid rest) : Derives (.access e) s rest
  | accessEnd {e rest} : Derives (.accessTail e e) rest rest
  | attr {dot span name s rest base e}
      (htail : Derives (.accessTail (.attr (base.span.through span) base name) e) s rest) :
    Derives (.accessTail base e) (⟨.dot, dot⟩ :: ⟨.ident name, span⟩ :: s) rest
  | index {opened span s mid rest base position e}
      (hposition : Derives (.expr position) s (⟨.bracketClose, span⟩ :: mid))
      (htail : Derives
        (.accessTail (.index (base.span.through span) base position) e) mid rest) :
    Derives (.accessTail base e) (⟨.bracketOpen, opened⟩ :: s) rest
  | call {span opened close name s rest args}
      (hargs : Derives (.items .parenClose args close) s rest) :
    Derives (.atom (.call (span.through close) name span args))
      (⟨.ident name, span⟩ :: ⟨.parenOpen, opened⟩ :: s) rest
  | var {span name rest} : Derives (.atom (.var span name)) (⟨.ident name, span⟩ :: rest) rest
  | list {span close s rest values} (hvalues : Derives (.items .bracketClose values close) s rest) :
    Derives (.atom (.list (span.through close) values)) (⟨.bracketOpen, span⟩ :: s) rest
  | map {span close s rest values} (hvalues : Derives (.entries values close) s rest) :
    Derives (.atom (.map (span.through close) values)) (⟨.braceOpen, span⟩ :: s) rest
  | paren {opened close s rest e} (he : Derives (.expr e) s (⟨.parenClose, close⟩ :: rest)) :
    Derives (.atom e) (⟨.parenOpen, opened⟩ :: s) rest
  | literal {t span value rest} (h : literal? t = some value) :
    Derives (.atom (.literal span value)) (⟨t, span⟩ :: rest) rest
  | noItems {close place rest} : Derives (.items close [] place) (⟨close, place⟩ :: rest) rest
  | lastItem {close place s rest e} (he : Derives (.expr e) s (⟨close, place⟩ :: rest)) :
    Derives (.items close [e] place) s rest
  | item {close place comma s mid rest e values}
      (he : Derives (.expr e) s (⟨.comma, comma⟩ :: mid))
      (hvalues : Derives (.items close values place) mid rest) :
    Derives (.items close (e :: values) place) s rest
  | noEntries {place rest} : Derives (.entries [] place) (⟨.braceClose, place⟩ :: rest) rest
  | lastEntry {t key span colon place s rest e} (hkey : key? t = some key)
      (he : Derives (.expr e) s (⟨.braceClose, place⟩ :: rest)) :
    Derives (.entries [(key, e)] place) (⟨t, span⟩ :: ⟨.colon, colon⟩ :: s) rest
  | entry {t key span colon comma place s mid rest e values} (hkey : key? t = some key)
      (he : Derives (.expr e) s (⟨.comma, comma⟩ :: mid))
      (hvalues : Derives (.entries values place) mid rest) :
    Derives (.entries ((key, e) :: values) place) (⟨t, span⟩ :: ⟨.colon, colon⟩ :: s) rest

/-! ## What is read is derived -/

mutual

theorem expr_sound {pending : List Expectation} {s : List Lexeme} {p : Parsed Expr s.length}
    (h : expr pending s = .ok p) : Derives (.expr p.value) s p.rest := by
  rw [expr] at h
  split at h
  · cases h
  next left mid more hshort hleft =>
  split at h
  · cases h
  next q htail =>
  cases h
  exact .expr (concat_sound hleft) (coalesceTail_sound htail)
termination_by 8 * s.length + 4

theorem coalesceTail_sound {left : Expr} {pending : List Expectation} {s : List Lexeme}
    {p : Parsed Expr (s.length + 1)} (h : coalesceTail left pending s = .ok p) :
    Derives (.coalesceTail left p.value) s p.rest := by
  rw [coalesceTail.eq_def] at h
  split at h
  · next span r =>
    split at h
    · cases h
    next right mid more hshort hright =>
    split at h
    · cases h
    next q htail =>
    cases h
    exact .coalesce (concat_sound hright) (coalesceTail_sound htail)
  · cases h
    exact .coalesceEnd
termination_by 8 * s.length + 4
decreasing_by all_goals (subst_vars; simp only [List.length_cons]; omega)

theorem concat_sound {pending : List Expectation} {s : List Lexeme} {p : Parsed Expr s.length}
    (h : concat pending s = .ok p) : Derives (.concat p.value) s p.rest := by
  rw [concat] at h
  split at h
  · cases h
  next left mid more hshort hleft =>
  split at h
  · cases h
  next q htail =>
  cases h
  exact .concat (access_sound hleft) (concatTail_sound htail)
termination_by 8 * s.length + 3

theorem concatTail_sound {left : Expr} {pending : List Expectation} {s : List Lexeme}
    {p : Parsed Expr (s.length + 1)} (h : concatTail left pending s = .ok p) :
    Derives (.concatTail left p.value) s p.rest := by
  rw [concatTail.eq_def] at h
  split at h
  · next span r =>
    split at h
    · cases h
    next right mid more hshort hright =>
    split at h
    · cases h
    next q htail =>
    cases h
    exact .tilde (access_sound hright) (concatTail_sound htail)
  · cases h
    exact .tildeEnd
termination_by 8 * s.length + 3
decreasing_by all_goals (subst_vars; simp only [List.length_cons]; omega)

theorem access_sound {pending : List Expectation} {s : List Lexeme} {p : Parsed Expr s.length}
    (h : access pending s = .ok p) : Derives (.access p.value) s p.rest := by
  rw [access] at h
  split at h
  · cases h
  next base mid more hshort hbase =>
  split at h
  · cases h
  next q htail =>
  cases h
  exact .access (atom_sound hbase) (accessTail_sound htail)
termination_by 8 * s.length + 2

theorem accessTail_sound {base : Expr} {pending : List Expectation} {s : List Lexeme}
    {p : Parsed Expr (s.length + 1)} (h : accessTail base pending s = .ok p) :
    Derives (.accessTail base p.value) s p.rest := by
  rw [accessTail.eq_def] at h
  split at h
  · split at h
    · cases h
    next q htail =>
    cases h
    exact .attr (accessTail_sound htail)
  · cases h
  · next span r =>
    split at h
    · cases h
    next position mid more hshort hposition =>
    split at h
    · next close mid hshort =>
      have hlength : mid.length + 1 < r.length := hshort
      split at h
      · cases h
      next q htail =>
      cases h
      exact .index (expr_sound hposition) (accessTail_sound htail)
    · cases h
  · cases h
    exact .accessEnd
termination_by 8 * s.length + 2
decreasing_by all_goals (subst_vars; simp only [List.length_cons]; omega)

theorem atom_sound {pending : List Expectation} {s : List Lexeme} {p : Parsed Expr s.length}
    (h : atom pending s = .ok p) : Derives (.atom p.value) s p.rest := by
  rw [atom.eq_def] at h
  split at h
  · cases h
  · split at h
    · cases h
    next args close mid more hshort hargs =>
    cases h
    exact .call (items_sound hargs)
  · cases h
    exact .var
  · split at h
    · cases h
    next values close mid more hshort hvalues =>
    cases h
    exact .list (items_sound hvalues)
  · split at h
    · cases h
    next values close mid more hshort hvalues =>
    cases h
    exact .map (entries_sound hvalues)
  · split at h
    · cases h
    next inner mid more hshort hinner =>
    split at h
    · cases h
      exact .paren (expr_sound hinner)
    · cases h
  · split at h
    · next value hvalue =>
      cases h
      exact .literal hvalue
    · cases h
termination_by 8 * s.length + 1
decreasing_by all_goals (subst_vars; simp only [List.length_cons]; omega)

theorem items_sound {close : Token} {s : List Lexeme}
    {p : Parsed (List Expr × Span) s.length} (h : items close s = .ok p) :
    Derives (.items close p.value.1 p.value.2) s p.rest := by
  rw [items.eq_def] at h
  split at h
  · split at h
    · next hclose =>
      cases h
      subst hclose
      exact .noItems
    · exact itemsFrom_sound h
  · exact itemsFrom_sound h
termination_by 8 * s.length + 6
decreasing_by all_goals (subst_vars; omega)

theorem itemsFrom_sound {close : Token} {s : List Lexeme}
    {p : Parsed (List Expr × Span) s.length} (h : itemsFrom close s = .ok p) :
    Derives (.items close p.value.1 p.value.2) s p.rest := by
  rw [itemsFrom] at h
  split at h
  · cases h
  next e mid more hshort he =>
  split at h
  · next comma mid hshort =>
    have hlength : mid.length + 1 < s.length := hshort
    split at h
    · cases h
    next values place after more' hshort' hvalues =>
    cases h
    exact .item (expr_sound he) (items_sound hvalues)
  · split at h
    · next hclose =>
      cases h
      subst hclose
      exact .lastItem (expr_sound he)
    · cases h
  · cases h
termination_by 8 * s.length + 5

theorem entries_sound {s : List Lexeme} {p : Parsed (List (String × Expr) × Span) s.length}
    (h : entries s = .ok p) : Derives (.entries p.value.1 p.value.2) s p.rest := by
  rw [entries.eq_def] at h
  split at h
  · cases h
    exact .noEntries
  · next t span colon r hopen =>
    split at h
    · cases h
    next key hkey =>
    split at h
    · cases h
    next e mid more hshort he =>
    split at h
    · next comma mid hshort =>
      have hlength : mid.length + 1 < r.length := hshort
      split at h
      · cases h
      next values place after more' hshort' hvalues =>
      cases h
      exact .entry hkey (expr_sound he) (entries_sound hvalues)
    · cases h
      exact .lastEntry hkey (expr_sound he)
    · cases h
  · split at h <;> cases h
  · cases h
termination_by 8 * s.length + 5
decreasing_by all_goals (subst_vars; simp only [List.length_cons]; omega)

end

/-! ## What is derived is read -/

/-- How loosely a token goes on with an expression that ends before it: `(` makes a call of a name,
`.` and `[` take a part of an operand, `~` and `??` take a further operand, and all other tokens
leave the expression as it is. -/
def looseness : Token → Nat
  | .parenOpen => 0
  | .dot | .bracketOpen => 1
  | .tilde => 2
  | .coalesce => 3
  | _ => 4

/-- The first token goes on with phrases more loosely than at a level, or there is none. -/
def Stops (level : Nat) (s : List Lexeme) : Prop := ∀ l ∈ s.head?, level < looseness l.token

/-- A parser succeeds with a value and leaves tokens. -/
def Gives {α : Type} {n : Nat} (x : Except Failure (Parsed α n)) (value : α)
    (rest : List Lexeme) : Prop :=
  ∃ pending shorter, x = .ok ⟨value, rest, pending, shorter⟩

theorem Stops.mono {m n : Nat} {s : List Lexeme} (h : Stops n s) (hm : m ≤ n) : Stops m s :=
  fun l hl => Nat.lt_of_le_of_lt hm (h l hl)

theorem stops_cons {level : Nat} {l : Lexeme} {s : List Lexeme} :
    Stops level (l :: s) ↔ level < looseness l.token := by
  simp [Stops]

/-- What it means that a phrase is read: its parser gives the value, unless the tokens that are
left go on with it. -/
def Phrase.IsRead (s rest : List Lexeme) : Phrase → Prop
  | .expr e => Stops 3 rest → ∀ pending, Gives (Grammar.expr pending s) e rest
  | .coalesceTail left e =>
    Stops 3 rest → ∀ pending, Gives (Grammar.coalesceTail left pending s) e rest
  | .concat e => Stops 2 rest → ∀ pending, Gives (Grammar.concat pending s) e rest
  | .concatTail left e =>
    Stops 2 rest → ∀ pending, Gives (Grammar.concatTail left pending s) e rest
  | .access e => Stops 1 rest → ∀ pending, Gives (Grammar.access pending s) e rest
  | .accessTail base e =>
    Stops 1 rest → ∀ pending, Gives (Grammar.accessTail base pending s) e rest
  | .atom e => Stops 0 rest → ∀ pending, Gives (Grammar.atom pending s) e rest
  | .items close values place =>
    close = .parenClose ∨ close = .bracketClose →
      Gives (Grammar.items close s) (values, place) rest
  | .entries values place => Gives (Grammar.entries s) (values, place) rest

section
variable {s mid rest : List Lexeme} {left right base position e : Expr} {name : String}
  {span opened close : Span} {args values : List Expr}

theorem Derives.stops_coalesceTail (h : Derives (.coalesceTail left e) s rest)
    (hrest : Stops 3 rest) : Stops 2 s := by
  cases h with
  | coalesceEnd => exact hrest.mono (by decide)
  | coalesce => simp [stops_cons, looseness]

theorem Derives.stops_concatTail (h : Derives (.concatTail left e) s rest)
    (hrest : Stops 2 rest) : Stops 1 s := by
  cases h with
  | tildeEnd => exact hrest.mono (by decide)
  | tilde => simp [stops_cons, looseness]

theorem Derives.stops_accessTail (h : Derives (.accessTail base e) s rest)
    (hrest : Stops 1 rest) : Stops 0 s := by
  cases h with
  | accessEnd => exact hrest.mono (by decide)
  | attr | index => simp [stops_cons, looseness]

namespace Gives

theorem expr (hleft : ∀ pending, Gives (Grammar.concat pending s) left mid)
    (htail : ∀ pending, Gives (Grammar.coalesceTail left pending mid) e rest)
    (pending : List Expectation) : Gives (Grammar.expr pending s) e rest := by
  obtain ⟨more, hshort, hleft⟩ := hleft pending
  obtain ⟨final, hshort', htail⟩ := htail more
  exact ⟨final, _, by rw [Grammar.expr, hleft]; simp only [htail]; rfl⟩

theorem coalesceEnd (hrest : Stops 3 rest) (pending : List Expectation) :
    Gives (Grammar.coalesceTail e pending rest) e rest := by
  rw [Grammar.coalesceTail.eq_def]
  split
  · simp [stops_cons, looseness] at hrest
  · exact ⟨_, _, rfl⟩

theorem coalesce (hright : ∀ pending, Gives (Grammar.concat pending s) right mid)
    (htail : ∀ pending, Gives (Grammar.coalesceTail
      (.coalesce (left.span.through right.span) left right) pending mid) e rest)
    (pending : List Expectation) :
    Gives (Grammar.coalesceTail left pending (⟨.coalesce, span⟩ :: s)) e rest := by
  obtain ⟨more, hshort, hright⟩ := hright []
  obtain ⟨final, hshort', htail⟩ := htail more
  exact ⟨final, _, by rw [Grammar.coalesceTail, hright]; simp only [htail]; rfl⟩

theorem concat (hleft : ∀ pending, Gives (Grammar.access pending s) left mid)
    (htail : ∀ pending, Gives (Grammar.concatTail left pending mid) e rest)
    (pending : List Expectation) : Gives (Grammar.concat pending s) e rest := by
  obtain ⟨more, hshort, hleft⟩ := hleft pending
  obtain ⟨final, hshort', htail⟩ := htail more
  exact ⟨final, _, by rw [Grammar.concat, hleft]; simp only [htail]; rfl⟩

theorem tildeEnd (hrest : Stops 2 rest) (pending : List Expectation) :
    Gives (Grammar.concatTail e pending rest) e rest := by
  rw [Grammar.concatTail.eq_def]
  split
  · simp [stops_cons, looseness] at hrest
  · exact ⟨_, _, rfl⟩

theorem tilde (hright : ∀ pending, Gives (Grammar.access pending s) right mid)
    (htail : ∀ pending, Gives (Grammar.concatTail
      (.concat (left.span.through right.span) left right) pending mid) e rest)
    (pending : List Expectation) :
    Gives (Grammar.concatTail left pending (⟨.tilde, span⟩ :: s)) e rest := by
  obtain ⟨more, hshort, hright⟩ := hright []
  obtain ⟨final, hshort', htail⟩ := htail more
  exact ⟨final, _, by rw [Grammar.concatTail, hright]; simp only [htail]; rfl⟩

theorem access (hbase : ∀ pending, Gives (Grammar.atom pending s) base mid)
    (htail : ∀ pending, Gives (Grammar.accessTail base pending mid) e rest)
    (pending : List Expectation) : Gives (Grammar.access pending s) e rest := by
  obtain ⟨more, hshort, hbase⟩ := hbase pending
  obtain ⟨final, hshort', htail⟩ := htail more
  exact ⟨final, _, by rw [Grammar.access, hbase]; simp only [htail]; rfl⟩

theorem accessEnd (hrest : Stops 1 rest) (pending : List Expectation) :
    Gives (Grammar.accessTail e pending rest) e rest := by
  rw [Grammar.accessTail.eq_def]
  split
  · simp [stops_cons, looseness] at hrest
  · simp [stops_cons, looseness] at hrest
  · simp [stops_cons, looseness] at hrest
  · exact ⟨_, _, rfl⟩

theorem attr (htail : ∀ pending, Gives
      (Grammar.accessTail (.attr (base.span.through span) base name) pending s) e rest)
    (pending : List Expectation) :
    Gives (Grammar.accessTail base pending (⟨.dot, opened⟩ :: ⟨.ident name, span⟩ :: s)) e
      rest := by
  obtain ⟨final, hshort, htail⟩ := htail []
  exact ⟨final, _, by rw [Grammar.accessTail, htail]; rfl⟩

theorem index (hposition : Gives (Grammar.expr [] s) position (⟨.bracketClose, span⟩ :: mid))
    (htail : ∀ pending, Gives
      (Grammar.accessTail (.index (base.span.through span) base position) pending mid) e rest)
    (pending : List Expectation) :
    Gives (Grammar.accessTail base pending (⟨.bracketOpen, opened⟩ :: s)) e rest := by
  obtain ⟨more, hshort, hposition⟩ := hposition
  obtain ⟨final, hshort', htail⟩ := htail []
  exact ⟨final, _, by rw [Grammar.accessTail, hposition]; simp only [htail]; rfl⟩

theorem call (hargs : Gives (Grammar.items .parenClose s) (args, close) rest)
    (pending : List Expectation) :
    Gives (Grammar.atom pending (⟨.ident name, span⟩ :: ⟨.parenOpen, opened⟩ :: s))
      (.call (span.through close) name span args) rest := by
  obtain ⟨more, hshort, hargs⟩ := hargs
  exact ⟨[], _, by rw [Grammar.atom, hargs]⟩

theorem var (hrest : Stops 0 rest) (pending : List Expectation) :
    Gives (Grammar.atom pending (⟨.ident name, span⟩ :: rest)) (.var span name) rest := by
  cases rest with
  | nil => exact ⟨_, _, by rw [Grammar.atom.eq_def]⟩
  | cons l rest =>
    obtain ⟨t, place⟩ := l
    cases t with
    | parenOpen => simp [stops_cons, looseness] at hrest
    | _ => exact ⟨_, _, by rw [Grammar.atom.eq_def]⟩

theorem list (hvalues : Gives (Grammar.items .bracketClose s) (values, close) rest)
    (pending : List Expectation) :
    Gives (Grammar.atom pending (⟨.bracketOpen, span⟩ :: s)) (.list (span.through close) values)
      rest := by
  obtain ⟨more, hshort, hvalues⟩ := hvalues
  exact ⟨[], _, by rw [Grammar.atom, hvalues]⟩

theorem map {entries : List (String × Expr)}
    (hvalues : Gives (Grammar.entries s) (entries, close) rest) (pending : List Expectation) :
    Gives (Grammar.atom pending (⟨.braceOpen, span⟩ :: s)) (.map (span.through close) entries)
      rest := by
  obtain ⟨more, hshort, hvalues⟩ := hvalues
  exact ⟨[], _, by rw [Grammar.atom, hvalues]⟩

theorem paren (he : Gives (Grammar.expr [] s) e (⟨.parenClose, close⟩ :: rest))
    (pending : List Expectation) :
    Gives (Grammar.atom pending (⟨.parenOpen, opened⟩ :: s)) e rest := by
  obtain ⟨more, hshort, he⟩ := he
  exact ⟨[], _, by rw [Grammar.atom, he]⟩

theorem literal {t : Token} {value : Value} (h : literal? t = some value)
    (pending : List Expectation) :
    Gives (Grammar.atom pending (⟨t, span⟩ :: rest)) (.literal span value) rest := by
  cases t with
  | trueWord | falseWord | nullWord | text | number =>
    exact ⟨[], by simp, by rw [Grammar.atom.eq_def]; simp only [h]⟩
  | _ => cases h

theorem noItems (closing : Token) :
    Gives (Grammar.items closing (⟨closing, close⟩ :: rest)) ([], close) rest :=
  ⟨[], _, by rw [Grammar.items, if_pos rfl]⟩

/-- No expression starts with a closing token. -/
theorem ne_closing {pending : List Expectation} {closing : Token}
    (hclosing : closing = .parenClose ∨ closing = .bracketClose)
    (he : Gives (Grammar.expr pending s) e rest) : ∀ l ∈ s.head?, l.token ≠ closing := by
  obtain ⟨more, hshort, he⟩ := he
  intro l hl htoken
  obtain ⟨t, place⟩ := l
  obtain rfl : t = closing := htoken
  cases s with
  | nil => cases hl
  | cons first s =>
    obtain rfl : first = ⟨t, place⟩ := Option.some.inj hl
    rcases hclosing with rfl | rfl <;>
      simp [Grammar.expr, Grammar.concat, Grammar.access, Grammar.atom, literal?] at he

/-- Items that start with an expression. -/
theorem items_eq {closing : Token} (hfirst : ∀ l ∈ s.head?, l.token ≠ closing) :
    Grammar.items closing s = Grammar.itemsFrom closing s := by
  cases s with
  | nil => rw [Grammar.items]
  | cons l s => rw [Grammar.items, if_neg (hfirst l rfl)]

theorem lastItem {closing : Token} (hclosing : closing = .parenClose ∨ closing = .bracketClose)
    (he : ∀ pending, Gives (Grammar.expr pending s) e (⟨closing, close⟩ :: rest)) :
    Gives (Grammar.items closing s) ([e], close) rest := by
  rw [items_eq ((he []).ne_closing hclosing)]
  obtain ⟨more, hshort, he⟩ := he [fixed closing]
  refine ⟨[], by simp only [List.length_cons] at hshort; omega, ?_⟩
  rw [Grammar.itemsFrom, he]
  rcases hclosing with rfl | rfl <;> simp only [if_true]

theorem item {closing : Token} {comma : Span}
    (hclosing : closing = .parenClose ∨ closing = .bracketClose)
    (he : ∀ pending, Gives (Grammar.expr pending s) e (⟨.comma, comma⟩ :: mid))
    (hvalues : Gives (Grammar.items closing mid) (values, close) rest) :
    Gives (Grammar.items closing s) (e :: values, close) rest := by
  rw [items_eq ((he []).ne_closing hclosing)]
  obtain ⟨more, hshort, he⟩ := he [fixed closing]
  obtain ⟨final, hshort', hvalues⟩ := hvalues
  refine ⟨[], by simp only [List.length_cons] at hshort; omega, ?_⟩
  rw [Grammar.itemsFrom, he]
  simp only [hvalues]

theorem noEntries : Gives (Grammar.entries (⟨.braceClose, close⟩ :: rest)) ([], close) rest :=
  ⟨[], _, by rw [Grammar.entries]⟩

theorem lastEntry {t : Token} {key : String} {colon : Span} (hkey : key? t = some key)
    (he : Gives (Grammar.expr [] s) e (⟨.braceClose, close⟩ :: rest)) :
    Gives (Grammar.entries (⟨t, span⟩ :: ⟨.colon, colon⟩ :: s)) ([(key, e)], close) rest := by
  obtain ⟨more, hshort, he⟩ := he
  refine ⟨[], by simp only [List.length_cons] at hshort ⊢; omega, ?_⟩
  cases t with
  | ident | text =>
    rw [Grammar.entries.eq_def]
    simp only [hkey, he]
  | _ => cases hkey

theorem entry {t : Token} {key : String} {colon comma : Span} {entries : List (String × Expr)}
    (hkey : key? t = some key) (he : Gives (Grammar.expr [] s) e (⟨.comma, comma⟩ :: mid))
    (hvalues : Gives (Grammar.entries mid) (entries, close) rest) :
    Gives (Grammar.entries (⟨t, span⟩ :: ⟨.colon, colon⟩ :: s)) ((key, e) :: entries, close)
      rest := by
  obtain ⟨more, hshort, he⟩ := he
  obtain ⟨final, hshort', hvalues⟩ := hvalues
  refine ⟨[], by simp only [List.length_cons] at hshort ⊢; omega, ?_⟩
  cases t with
  | ident | text =>
    rw [Grammar.entries.eq_def]
    simp only [hkey, he, hvalues]
  | _ => cases hkey

end Gives

end

/-- What is derived is read. -/
theorem Derives.isRead {phrase : Phrase} {s rest : List Lexeme} (h : Derives phrase s rest) :
    phrase.IsRead s rest := by
  -- a closing token, a comma or the end of the tokens stops every expression
  have stops {t : Token} {span : Span} {s : List Lexeme}
      (ht : t = .parenClose ∨ t = .bracketClose ∨ t = .braceClose ∨ t = .comma) :
      Stops 3 (⟨t, span⟩ :: s) := by
    rcases ht with rfl | rfl | rfl | rfl <;> simp [stops_cons, looseness]
  induction h with
  | expr _ htail ihleft ihtail =>
    exact fun hrest => Gives.expr (ihleft (htail.stops_coalesceTail hrest)) (ihtail hrest)
  | coalesceEnd => exact fun hrest => Gives.coalesceEnd hrest
  | coalesce _ htail ihright ihtail =>
    exact fun hrest => Gives.coalesce (ihright (htail.stops_coalesceTail hrest)) (ihtail hrest)
  | concat _ htail ihleft ihtail =>
    exact fun hrest => Gives.concat (ihleft (htail.stops_concatTail hrest)) (ihtail hrest)
  | tildeEnd => exact fun hrest => Gives.tildeEnd hrest
  | tilde _ htail ihright ihtail =>
    exact fun hrest => Gives.tilde (ihright (htail.stops_concatTail hrest)) (ihtail hrest)
  | access _ htail ihbase ihtail =>
    exact fun hrest => Gives.access (ihbase (htail.stops_accessTail hrest)) (ihtail hrest)
  | accessEnd => exact fun hrest => Gives.accessEnd hrest
  | attr _ ihtail => exact fun hrest => Gives.attr (ihtail hrest)
  | index _ _ ihposition ihtail =>
    exact fun hrest => Gives.index (ihposition (stops (by simp)) []) (ihtail hrest)
  | call _ ihargs => exact fun _ => Gives.call (ihargs (.inl rfl))
  | var => exact fun hrest => Gives.var hrest
  | list _ ihvalues => exact fun _ => Gives.list (ihvalues (.inr rfl))
  | map _ ihvalues => exact fun _ => Gives.map ihvalues
  | paren _ ihe => exact fun _ => Gives.paren (ihe (stops (by simp)) [])
  | literal h => exact fun _ => Gives.literal h
  | noItems => exact fun _ => Gives.noItems _
  | lastItem _ ihe =>
    exact fun hclosing => Gives.lastItem hclosing (ihe (stops (hclosing.imp_right .inl)))
  | item _ _ ihe ihvalues =>
    exact fun hclosing => Gives.item hclosing (ihe (stops (by simp))) (ihvalues hclosing)
  | noEntries => exact Gives.noEntries
  | lastEntry hkey _ ihe => exact Gives.lastEntry hkey (ihe (stops (by simp)) [])
  | entry hkey _ _ ihe ihvalues => exact Gives.entry hkey (ihe (stops (by simp)) []) ihvalues

end Grammar

end SlotTemplates
