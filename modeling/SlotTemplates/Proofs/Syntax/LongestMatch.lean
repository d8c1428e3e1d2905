import SlotTemplates.Proofs.Syntax.Patterns

/-!
# Tokens by longest match

A token is read by longest match if a word of it stands in the source and no word of any token that
stands at the same place is longer (`Token.Longest`). `scanToken` reads tokens like that, and no
others (`Token.longest_iff`). So the tokens of a source are those that tile it by longest match,
with nothing but white space between them (`Tokenized`), and `tokenize` finds them if there are
such tokens, wherever the source starts (`tokenize_longest_match`).
-/

namespace SlotTemplates

namespace Token

/-- A word of a token, and no word of a token is longer that starts where it does. -/
structure Longest (word after : List Char) (t : Token) : Prop where
  spells : Spells word t
  longest : ∀ longer other, Spells longer other → longer <+: word ++ after →
    longer.length ≤ word.length

section
variable {c : Char} {cs word written rest after : List Char} {t other : Token}

/-- A word is written for one token. -/
theorem Spells.unique (h : Spells word t) (hother : Spells word other) : t = other := by
  obtain ⟨c, cs, rfl, hscan⟩ := h.scanToken_eq
  obtain ⟨d, ds, hword, hscanOther⟩ := hother.scanToken_eq
  obtain ⟨rfl, rfl⟩ := List.cons.inj hword
  cases hscan.symm.trans hscanOther
  rfl

theorem longest_of_scanToken (h : scanToken c cs = .token t written rest) :
    Longest written rest t where
  spells := spells_of_scanToken h
  longest longer other hspells hprefix := by
    obtain ⟨more, hmore⟩ := hprefix
    rw [scanToken_split h] at hmore
    obtain ⟨d, ds, t', written', rest', htext, hscan, hlength⟩ := hspells.scansPast more
    obtain ⟨rfl, rfl⟩ := List.cons.inj (hmore.symm.trans htext)
    cases h.symm.trans hscan
    exact hlength

theorem Longest.exists_scanToken (h : Longest word after t) :
    ∃ c cs, word ++ after = c :: cs ∧ scanToken c cs = .token t word after := by
  obtain ⟨c, cs, other, written, rest, htext, hscan, hlength⟩ := h.spells.scansPast after
  have hsplit : written ++ rest = word ++ after := (scanToken_split hscan).trans htext.symm
  have hspells := spells_of_scanToken hscan
  have hshort := h.longest written other hspells ⟨rest, hsplit⟩
  obtain ⟨rfl, rfl⟩ := List.append_inj hsplit (Nat.le_antisymm hshort hlength)
  rw [h.spells.unique hspells]
  exact ⟨c, cs, htext, hscan⟩

/-- What is scanned is a longest match, and a longest match is scanned. -/
theorem longest_iff :
    Longest word after t ↔ ∃ c cs, word ++ after = c :: cs ∧ scanToken c cs = .token t word after :=
  ⟨Longest.exists_scanToken, fun ⟨_, _, _, h⟩ => longest_of_scanToken h⟩

/-- Points behind a number are no fraction of it without a digit. -/
example : scanToken '1' ['.', '.', '.', 'x'] =
    .token (.number (.ofDecimal false 1 0)) ['1'] ['.', '.', '.', 'x'] := rfl

/-- A dash belongs to a name only before another part. -/
example : scanToken 'a' ['-', ' ', 'b'] = .token (.ident "a") ['a'] ['-', ' ', 'b'] := rfl

/-- No match starts with white space. -/
theorem Longest.not_gap (h : Longest word after t) (htext : word ++ after = c :: cs) :
    isGap c = false := by
  obtain ⟨d, ds, hd, hscan⟩ := h.exists_scanToken
  obtain ⟨rfl, rfl⟩ := List.cons.inj (htext.symm.trans hd)
  by_contra hgap
  rw [scanToken_blank (Lexes.isBlank_of_isGap (by simpa using hgap))] at hscan
  cases hscan

theorem isGap_iff : isGap c = true ↔ c ∈ [' ', '\t', '\n', '\r'] := by
  simp [isGap, or_assoc]

end

end Token

/-! ## Sources tiled by longest match -/

/-- A byte is in a range. -/
def Span.Covers (span : Span) (place : Nat) : Prop := span.start ≤ place ∧ place < span.stop

/-- A token stands in a source that starts at a place, as the longest match where it starts. -/
def Lexeme.StandsLongest (pos : Nat) (source : List Char) (l : Lexeme) : Prop :=
  ∃ before word after, source = before ++ (word ++ after) ∧
    l.span = Span.sized (pos + byteLength before) (byteLength word) ∧
    Token.Longest word after l.token

/-- A source that starts at a place is tiled by tokens: none is empty and they stand one behind the
other, each is the longest match where it starts, and what they leave out is white space. -/
structure Tokenized (pos : Nat) (source : List Char) (lexemes : List Lexeme) : Prop where
  arranged : Arranged pos (pos + byteLength source) (lexemes.map Lexeme.span)
  longest : ∀ l ∈ lexemes, l.StandsLongest pos source
  gaps : ∀ before c after, source = before ++ c :: after →
    (∀ l ∈ lexemes, ¬l.span.Covers (pos + byteLength before)) → c ∈ [' ', '\t', '\n', '\r']

section
variable {pos : Nat} {c : Char} {front source before cs : List Char} {l : Lexeme}
  {lexemes more : List Lexeme}

/-- Of two texts at the start of a text, the one of fewer bytes is the start of the other. -/
theorem exists_append_of_byteLength_le {after rest : List Char}
    (h : before ++ after = front ++ rest) (hle : byteLength front ≤ byteLength before) :
    ∃ between, before = front ++ between := by
  rcases List.append_eq_append_iff.1 h with ⟨between, hfront, -⟩ | ⟨between, hbefore, -⟩
  · rw [hfront, byteLength_append] at hle
    obtain rfl : between = [] := byteLength_eq_zero_iff.1 (by omega)
    exact ⟨[], by simpa using hfront.symm⟩
  · exact ⟨between, hbefore⟩

namespace Lexeme.StandsLongest

theorem behind (h : l.StandsLongest (pos + byteLength front) source) :
    l.StandsLongest pos (front ++ source) := by
  obtain ⟨before, word, after, rfl, hspan, hlongest⟩ := h
  refine ⟨front ++ before, word, after, by simp, ?_, hlongest⟩
  rw [hspan, byteLength_append, Nat.add_assoc]

/-- What stands behind the front of a source stands in what follows the front. -/
theorem of_behind (h : l.StandsLongest pos (front ++ source))
    (hle : pos + byteLength front ≤ l.span.start) :
    l.StandsLongest (pos + byteLength front) source := by
  obtain ⟨before, word, after, htext, hspan, hlongest⟩ := h
  rw [hspan] at hle
  obtain ⟨between, rfl⟩ := exists_append_of_byteLength_le htext.symm (Nat.le_of_add_le_add_left hle)
  refine ⟨between, word, after, by simpa using htext, ?_, hlongest⟩
  rw [hspan, byteLength_append, Nat.add_assoc]

end Lexeme.StandsLongest

namespace Tokenized

/-- More tokens in front of a source that is tiled. -/
theorem prepend (front : List Char) (lexemes : List Lexeme)
    (h : Tokenized (pos + byteLength front) source more)
    (harranged : Arranged pos (pos + byteLength front) (lexemes.map Lexeme.span))
    (hlongest : ∀ l ∈ lexemes, l.StandsLongest pos (front ++ source))
    (hgaps : ∀ before c after, front = before ++ c :: after →
      (∀ l ∈ lexemes, ¬l.span.Covers (pos + byteLength before)) → c ∈ [' ', '\t', '\n', '\r']) :
    Tokenized pos (front ++ source) (lexemes ++ more) where
  arranged := by
    rw [List.map_append, byteLength_append, ← Nat.add_assoc]
    exact harranged.append h.arranged (Nat.le_add_right _ _) (Nat.le_add_right _ _)
  longest := List.forall_mem_append.2 ⟨hlongest, fun l hl => (h.longest l hl).behind⟩
  gaps before c after htext hfree := by
    obtain ⟨hfirst, hrest⟩ := List.forall_mem_append.1 hfree
    rcases List.append_eq_append_iff.1 htext with ⟨between, rfl, hsource⟩ | ⟨between, hfront, hc⟩
    · rw [byteLength_append, ← Nat.add_assoc] at hrest
      exact h.gaps between c after hsource hrest
    · cases between with
      | nil =>
        obtain rfl : front = before := by simpa using hfront
        exact h.gaps [] c after hc.symm (by simpa using hrest)
      | cons d ds =>
        obtain ⟨rfl, -⟩ := List.cons.inj hc
        exact hgaps before c ds hfront hfirst

/-- What is left when tokens are taken away with the front of the source that they stand in. -/
theorem drop (front : List Char) (lexemes : List Lexeme)
    (h : Tokenized pos (front ++ source) (lexemes ++ more))
    (hfront : ∀ l ∈ lexemes, l.span.stop ≤ pos + byteLength front)
    (hmore : ∀ l ∈ more, pos + byteLength front ≤ l.span.start) :
    Tokenized (pos + byteLength front) source more where
  arranged := by
    have harranged := h.arranged
    rw [byteLength_append, ← Nat.add_assoc, List.map_append] at harranged
    exact {
      start_le := by simpa using hmore
      le_stop := fun span hspan => harranged.le_stop span (List.mem_append_right _ hspan)
      ordered := (List.pairwise_append.1 harranged.ordered).2.1
      nonempty := fun span hspan => harranged.nonempty span (List.mem_append_right _ hspan) }
  longest l hl := (h.longest l (List.mem_append_right _ hl)).of_behind (hmore l hl)
  gaps before c after htext hfree := by
    refine h.gaps (front ++ before) c after (by simp [htext]) ?_
    rw [byteLength_append, ← Nat.add_assoc]
    refine List.forall_mem_append.2 ⟨fun l hl hcovers => ?_, hfree⟩
    have hstop := hfront l hl
    have hplace := hcovers.2
    omega

/-- Where a source starts with white space, no token does. -/
theorem of_gap (h : Tokenized pos (c :: cs) lexemes) (hc : Token.isGap c = true) :
    Tokenized (pos + c.utf8Size) cs lexemes := by
  refine drop [c] [] h nofun fun l hl => ?_
  obtain ⟨before, word, after, htext, hspan, hlongest⟩ := h.longest l hl
  cases before with
  | nil =>
    rw [hlongest.not_gap htext.symm] at hc
    cases hc
  | cons b before =>
    obtain ⟨rfl, -⟩ := List.cons.inj htext
    rw [hspan]
    simp only [Span.sized, byteLength_cons, byteLength_nil]
    omega

/-- Where it starts with another character, a token does, and the others stand behind it. -/
theorem of_not_gap (h : Tokenized pos (c :: cs) lexemes) (hc : Token.isGap c = false) :
    ∃ t word after more, lexemes = ⟨t, Span.sized pos (byteLength word)⟩ :: more ∧
      Token.scanToken c cs = .token t word after ∧
      Tokenized (pos + byteLength word) after more := by
  have hcovered : ∃ l ∈ lexemes, l.span.Covers pos := by
    by_contra hnone
    have hgap := h.gaps [] c cs rfl (by simpa using hnone)
    rw [Token.isGap_iff.2 hgap] at hc
    cases hc
  obtain ⟨l, hl, hstart, -⟩ := hcovered
  obtain _ | ⟨first, more⟩ := lexemes
  · cases hl
  have hfirst := h.arranged.start_le first.span List.mem_cons_self
  have hnonempty := h.arranged.nonempty first.span List.mem_cons_self
  have hbehind := (List.pairwise_cons.1 h.arranged.ordered).1
  obtain rfl : l = first := by
    refine (List.mem_cons.1 hl).resolve_right fun hmore => ?_
    have hstop := hbehind l.span (List.mem_map_of_mem hmore)
    omega
  obtain ⟨before, word, after, htext, hspan, hlongest⟩ := h.longest l List.mem_cons_self
  obtain ⟨t, span⟩ := l
  obtain rfl : span = _ := hspan
  obtain rfl : before = [] := byteLength_eq_zero_iff.1 (by simp only [Span.sized] at hstart; omega)
  obtain ⟨d, ds, hd, hscan⟩ := hlongest.exists_scanToken
  obtain ⟨rfl, rfl⟩ := List.cons.inj (htext.trans hd)
  refine ⟨t, word, after, more, rfl, hscan, drop word [_] (htext ▸ h) ?_ ?_⟩
  · simp [Span.sized]
  · exact fun l hl => hbehind l.span (List.mem_map_of_mem hl)

end Tokenized

/-- What is made of tokens is tiled by them. -/
theorem Lexes.tokenized (h : Lexes pos source lexemes) : Tokenized pos source lexemes := by
  induction h with
  | nil => exact ⟨.nil _ _, nofun, by simp⟩
  | @gap pos c cs lexemes hc hrest ih =>
    refine Tokenized.prepend [c] [] ih (.nil _ _) nofun ?_
    intro before d after htext _
    obtain ⟨-, htext⟩ | ⟨-, htext⟩ := List.append_eq_singleton_iff.1 htext.symm
    · cases htext
      exact Token.isGap_iff.1 hc
    · cases htext
  | @token pos c cs t written rest lexemes hc hscan hrest ih =>
    have hpos := Nat.pos_of_ne_zero (mt byteLength_eq_zero_iff.1 (Token.scanToken_written hscan))
    rw [← Token.scanToken_split hscan]
    refine Tokenized.prepend written [⟨t, Span.sized pos (byteLength written)⟩] ih ?_ ?_ ?_
    · exact .single (Nat.le_refl _) (Nat.lt_add_of_pos_right hpos) (Nat.le_refl _)
    · rintro _ (_ | ⟨_, ⟨⟩⟩)
      exact ⟨[], written, rest, rfl, rfl, Token.longest_of_scanToken hscan⟩
    · -- the token covers all of it
      intro before d after htext hfree
      refine (hfree _ List.mem_cons_self ⟨Nat.le_add_right _ _, ?_⟩).elim
      have hd := d.utf8Size_pos
      simp only [Span.sized, htext, byteLength_append, byteLength_cons]
      omega

/-- What is tiled by tokens is made of them. -/
theorem lexes_of_tokenized {pos : Nat} {source : List Char} {lexemes : List Lexeme}
    (h : Tokenized pos source lexemes) : Lexes pos source lexemes := by
  cases source with
  | nil =>
    cases lexemes with
    | nil => exact .nil
    | cons l lexemes =>
      have hstart := h.arranged.start_le l.span List.mem_cons_self
      have hstop := h.arranged.le_stop l.span List.mem_cons_self
      have hnonempty := h.arranged.nonempty l.span List.mem_cons_self
      rw [byteLength_nil] at hstop
      omega
  | cons c cs =>
    cases hc : Token.isGap c with
    | true => exact .gap hc (lexes_of_tokenized (h.of_gap hc))
    | false =>
      obtain ⟨t, word, after, more, rfl, hscan, hafter⟩ := h.of_not_gap hc
      have hshort := Token.scanToken_rest_length hscan
      exact .token hc hscan (lexes_of_tokenized hafter)
termination_by source.length

/-! ## Other places -/

/-- The same token in a source that has `offset` more bytes in front. -/
def Lexeme.shift (offset : Nat) (l : Lexeme) : Lexeme := { l with span := l.span.shift offset }

theorem tokenize_shift (pos offset : Nat) (source : List Char) :
    tokenize (pos + offset) source =
      ((tokenize pos source).map (List.map (Lexeme.shift offset))).mapError
        (SyntaxError.shift offset) := by
  cases source with
  | nil => simp [tokenize, Except.map, Except.mapError]
  | cons c cs =>
    rw [tokenize, tokenize]
    split
    · rw [Nat.add_right_comm]
      exact tokenize_shift (pos + c.utf8Size) offset cs
    split
    · next t written rest hscan =>
      have hshort := Token.scanToken_rest_length hscan
      have hrest := tokenize_shift (pos + byteLength written) offset rest
      rw [Nat.add_right_comm] at hrest
      simp only [Span.sized, hrest]
      cases tokenize (pos + byteLength written) rest with
      | error e => rfl
      | ok lexemes =>
        simp only [Except.map, Except.mapError, List.map_cons, Lexeme.shift, Span.shift,
          Nat.add_right_comm pos offset]
    · simp only [Except.map, Except.mapError, SyntaxError.shift, Span.shift_sized]
termination_by source.length

end

/-- `tokenize` reads tokens by longest match: what it makes of a source that starts at any place is
the one row of tokens that tile the source, if there is one. With the same source at another place
the tokens are the same, or the error is, and all places move with it. -/
theorem tokenize_longest_match (pos : Nat) (source : List Char) :
    (∀ lexemes, tokenize pos source = .ok lexemes ↔ Tokenized pos source lexemes) ∧
      ∀ offset, tokenize (pos + offset) source =
        ((tokenize pos source).map (List.map (Lexeme.shift offset))).mapError
          (SyntaxError.shift offset) :=
  ⟨fun _ => tokenize_eq_ok_iff.trans ⟨Lexes.tokenized, lexes_of_tokenized⟩,
    fun offset => tokenize_shift pos offset source⟩

end SlotTemplates
