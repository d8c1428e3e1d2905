import Mathlib.Computability.Language
import SlotTemplates.Proofs.Syntax.Spans
import SlotTemplates.Proofs.Toml.Numeral

/-!
# The patterns of tokens

What a token can be written with is said by patterns: fixed words, names, quoted texts and numbers
(`Token.Spells`). A word of a pattern is scanned as its token and nothing is left of it
(`Token.Spells.scanToken_eq`), so no word is written for two tokens. What is scanned is a word
of its token (`Token.spells_of_scanToken`), and at least as long as any word that stands there
(`Token.Spells.scanToken_append`).
-/

namespace SlotTemplates

open scoped Computability

namespace Token

/-! ## Patterns -/

/-- One character of a kind. -/
def oneOf (p : Char → Bool) : Language Char := {word | ∃ c, p c = true ∧ word = [c]}

/-- A dash and another part of a name: `-[a-zA-Z0-9_]+`. -/
def dashed : Language Char := {['-']} * (oneOf isNameChar * (oneOf isNameChar)∗)

/-- What follows the first character of a name: `[a-zA-Z0-9_]*(-[a-zA-Z0-9_]+)*`. -/
def tailPattern : Language Char := (oneOf isNameChar)∗ * dashed∗

/-- Names: `[a-zA-Z_][a-zA-Z0-9_]*(-[a-zA-Z0-9_]+)*`. -/
def namePattern : Language Char := oneOf isNameStart * tailPattern

/-- What can stand between quotes, as for double ones: `([^"\\]|\\.)*`. -/
def innerPattern (quote : Char) : Language Char :=
  (oneOf (fun c => c ≠ quote && c ≠ '\\') + {['\\']} * oneOf (· ≠ '\n'))∗

/-- What stands between quotes with the escapes resolved. -/
def unescaped : List Char → List Char
  | '\\' :: c :: cs => unescape c :: unescaped cs
  | c :: cs => c :: unescaped cs
  | [] => []

/-- The tokens that are written with one word each. -/
def fixedWords : List (List Char × Token) :=
  [(['t', 'r', 'u', 'e'], .trueWord), (['f', 'a', 'l', 's', 'e'], .falseWord),
   (['n', 'u', 'l', 'l'], .nullWord), (['.', '.', '.'], .spread), (['?', '?'], .coalesce),
   (['~'], .tilde), (['='], .equals), (['.'], .dot), (['{'], .braceOpen), (['}'], .braceClose),
   (['['], .bracketOpen), ([']'], .bracketClose), (['('], .parenOpen), ([')'], .parenClose),
   ([','], .comma), ([':'], .colon)]

/-- The words that are written for a token. A fixed word is no name. -/
inductive Spells : List Char → Token → Prop where
  | fixed {word : List Char} {t : Token} (h : (word, t) ∈ fixedWords) : Spells word t
  | name {word : List Char} (h : word ∈ namePattern) (hfree : ∀ t, (word, t) ∉ fixedWords) :
    Spells word (.ident (String.ofList word))
  | text {quote : Char} {inner : List Char} (hquote : quote = '"' ∨ quote = '\'')
    (h : inner ∈ innerPattern quote) :
    Spells (quote :: (inner ++ [quote])) (.text (String.ofList (unescaped inner)))
  /-- Numbers: `-?[0-9]+(\.[0-9]+)?`. -/
  | number (n : Numeral) : Spells n.toList (.number n.value)

/-! ## Repetition -/

section
variable {l : Language Char} {word : List Char} {p : Char → Bool}

theorem append_mem_star {piece : List Char} (hpiece : piece ∈ l) (h : word ∈ l∗) :
    piece ++ word ∈ l∗ :=
  (mul_kstar_le_kstar (a := l)) (Language.append_mem_mul hpiece h)

/-- A repetition is made piece by piece. -/
theorem star_induction {motive : List Char → Prop} (h : word ∈ l∗) (nil : motive [])
    (append : ∀ piece rest, piece ∈ l → motive rest → motive (piece ++ rest)) : motive word := by
  obtain ⟨pieces, rfl, hpieces⟩ := Language.mem_kstar.1 h
  clear h
  induction pieces with
  | nil => exact nil
  | cons piece pieces ih =>
    obtain ⟨hpiece, hrest⟩ := List.forall_mem_cons.1 hpieces
    exact append piece _ hpiece (ih hrest)

theorem singleton_mem_oneOf {c : Char} (h : p c = true) : [c] ∈ oneOf p := ⟨c, h, rfl⟩

theorem mem_star_oneOf : word ∈ (oneOf p)∗ ↔ ∀ c ∈ word, p c = true := by
  constructor
  · intro h
    refine star_induction (motive := fun word => ∀ c ∈ word, p c = true) h (by simp) ?_
    rintro _ rest ⟨c, hc, rfl⟩ ih
    exact List.forall_mem_cons.2 ⟨hc, ih⟩
  · intro h
    induction word with
    | nil => exact Language.nil_mem_kstar _
    | cons c word ih =>
      obtain ⟨hc, hword⟩ := List.forall_mem_cons.1 h
      exact append_mem_star (singleton_mem_oneOf hc) (ih hword)

end

/-! ## Names -/

section
variable {c d : Char} {cs part tail word : List Char} {t : Token}

theorem mem_dashed : word ∈ dashed ↔
    ∃ d ds, word = '-' :: d :: ds ∧ ∀ c ∈ d :: ds, isNameChar c = true := by
  constructor
  · rintro ⟨_, rfl, _, ⟨_, ⟨d, hd, rfl⟩, ds, hds, rfl⟩, rfl⟩
    exact ⟨d, ds, rfl, List.forall_mem_cons.2 ⟨hd, mem_star_oneOf.1 hds⟩⟩
  · rintro ⟨d, ds, rfl, h⟩
    obtain ⟨hd, hds⟩ := List.forall_mem_cons.1 h
    have hpart : [d] ++ ds ∈ oneOf isNameChar * (oneOf isNameChar)∗ :=
      Language.append_mem_mul (singleton_mem_oneOf hd) (mem_star_oneOf.2 hds)
    exact Language.append_mem_mul (Set.mem_singleton ['-']) hpart

/-- A part of a name is taken whole. -/
theorem nameTail_append_of_forall (h : ∀ c ∈ part, isNameChar c = true) (cs : List Char) :
    nameTail (part ++ cs) = (part ++ (nameTail cs).1, (nameTail cs).2) := by
  induction part with
  | nil => rfl
  | cons c part ih =>
    obtain ⟨hc, hpart⟩ := List.forall_mem_cons.1 h
    rw [List.cons_append, nameTail_part hc, ih hpart]
    rfl

/-- So is a repetition of dashes and parts. -/
theorem nameTail_append_of_dashed (h : tail ∈ dashed∗) (cs : List Char) :
    nameTail (tail ++ cs) = (tail ++ (nameTail cs).1, (nameTail cs).2) := by
  refine star_induction (motive := fun tail =>
    nameTail (tail ++ cs) = (tail ++ (nameTail cs).1, (nameTail cs).2)) h rfl ?_
  intro piece rest hpiece ih
  obtain ⟨d, ds, rfl, hpart⟩ := mem_dashed.1 hpiece
  rw [List.append_assoc, List.cons_append, List.cons_append,
    nameTail_dash (hpart d List.mem_cons_self), ← List.cons_append,
    nameTail_append_of_forall hpart, ih]
  simp

/-- What can follow the first character of a name is taken, and after it what goes on with it. -/
theorem nameTail_append_of_mem (h : tail ∈ tailPattern) (cs : List Char) :
    nameTail (tail ++ cs) = (tail ++ (nameTail cs).1, (nameTail cs).2) := by
  obtain ⟨part, hpart, rest, hrest, rfl⟩ := h
  rw [List.append_assoc, nameTail_append_of_forall (mem_star_oneOf.1 hpart),
    nameTail_append_of_dashed hrest, List.append_assoc]

theorem head_of_dashed (h : d :: cs ∈ dashed∗) : d = '-' := by
  refine star_induction (motive := fun word => ∀ d cs, word = d :: cs → d = '-') h nofun ?_ d cs rfl
  intro piece rest hpiece _ d cs hcs
  obtain ⟨e, es, rfl, -⟩ := mem_dashed.1 hpiece
  exact (List.cons.inj hcs).1.symm

/-- What is taken as the rest of a name can follow the first character of one. -/
theorem nameTail_mem (cs : List Char) : (nameTail cs).1 ∈ tailPattern := by
  fun_induction nameTail cs with
  | case1 | case3 | case5 =>
    exact Language.append_mem_mul (Language.nil_mem_kstar _) (Language.nil_mem_kstar _)
  | case2 d cs h name rest hr ih =>
    -- the part that the dash is followed by is not empty, for what follows is no dash
    rw [hr] at ih
    obtain ⟨part, hpart, more, hmore, (hname : part ++ more = name)⟩ := ih
    rw [nameTail_part h] at hr
    have hfirst : part ++ more = d :: (nameTail cs).1 := hname.trans (Prod.mk.inj hr).1.symm
    cases part with
    | nil =>
      obtain rfl : more = _ := hfirst
      rw [head_of_dashed hmore] at h
      cases h
    | cons e es =>
      obtain ⟨rfl, -⟩ := List.cons.inj hfirst
      have hdashed : '-' :: e :: es ∈ dashed := mem_dashed.2 ⟨e, es, rfl, mem_star_oneOf.1 hpart⟩
      have hlonger : '-' :: name ∈ dashed∗ := hname ▸ append_mem_star hdashed hmore
      exact Language.append_mem_mul (Language.nil_mem_kstar _) hlonger
  | case4 c cs hne h name rest hr ih =>
    rw [hr] at ih
    obtain ⟨part, hpart, more, hmore, rfl⟩ := ih
    have hlonger : c :: part ∈ (oneOf isNameChar)∗ :=
      append_mem_star (singleton_mem_oneOf h) hpart
    exact Language.append_mem_mul hlonger hmore

theorem mem_namePattern : word ∈ namePattern ↔
    ∃ c tail, word = c :: tail ∧ isNameStart c = true ∧ tail ∈ tailPattern := by
  constructor
  · rintro ⟨_, ⟨c, hc, rfl⟩, tail, htail, rfl⟩
    exact ⟨c, tail, rfl, hc, htail⟩
  · rintro ⟨c, tail, rfl, hc, htail⟩
    exact Language.append_mem_mul (singleton_mem_oneOf hc) htail

/-- A fixed word is a keyword, a symbol of more than one character, or one character. -/
theorem fixed_cases (h : (word, t) ∈ fixedWords) :
    (word ∈ namePattern ∧ ofWord word = t) ∨ (word = ['.', '.', '.'] ∧ t = .spread) ∨
      (word = ['?', '?'] ∧ t = .coalesce) ∨ ∃ c, word = [c] ∧ single? c = some t := by
  have hname (c : Char) (tail : List Char) (hc : isNameStart c = true) :
      c :: (nameTail tail).1 ∈ namePattern := mem_namePattern.2 ⟨c, _, rfl, hc, nameTail_mem tail⟩
  simp only [fixedWords, List.mem_cons, Prod.mk.injEq, List.not_mem_nil, or_false] at h
  rcases h with ⟨rfl, rfl⟩ | ⟨rfl, rfl⟩ | ⟨rfl, rfl⟩ | ⟨rfl, rfl⟩ | ⟨rfl, rfl⟩ | h
  · exact .inl ⟨hname 't' ['r', 'u', 'e'] rfl, rfl⟩
  · exact .inl ⟨hname 'f' ['a', 'l', 's', 'e'] rfl, rfl⟩
  · exact .inl ⟨hname 'n' ['u', 'l', 'l'] rfl, rfl⟩
  · exact .inr (.inl ⟨rfl, rfl⟩)
  · exact .inr (.inr (.inl ⟨rfl, rfl⟩))
  · refine .inr (.inr (.inr ?_))
    rcases h with h | h | h | h | h | h | h | h | h | h | h <;>
      exact ⟨_, h.1, h.2 ▸ rfl⟩

theorem single?_not_nameStart (h : single? c = some t) : isNameStart c = false := by
  unfold single? at h
  split at h <;> first | rfl | cases h

/-- A fixed word that is a name is a keyword. -/
theorem ofWord_of_fixed (hword : word ∈ namePattern) (h : (word, t) ∈ fixedWords) :
    ofWord word = t := by
  obtain ⟨c, tail, rfl, hc, -⟩ := mem_namePattern.1 hword
  rcases fixed_cases h with ⟨-, ht⟩ | ⟨hspread, -⟩ | ⟨hcoalesce, -⟩ | ⟨d, hd, hsingle⟩
  · exact ht
  · rw [(List.cons.inj hspread).1] at hc
    cases hc
  · rw [(List.cons.inj hcoalesce).1] at hc
    cases hc
  · rw [(List.cons.inj hd).1, single?_not_nameStart hsingle] at hc
    cases hc

/-- A word that is not fixed is no keyword. -/
theorem ofWord_of_free (h : ∀ t, (word, t) ∉ fixedWords) :
    ofWord word = .ident (String.ofList word) := by
  unfold ofWord
  split_ifs with htrue hfalse hnull
  · exact absurd (htrue ▸ by simp [fixedWords]) (h .trueWord)
  · exact absurd (hfalse ▸ by simp [fixedWords]) (h .falseWord)
  · exact absurd (hnull ▸ by simp [fixedWords]) (h .nullWord)
  · rfl

/-- A name is written for its token, be it a keyword or not. -/
theorem spells_ofWord (h : word ∈ namePattern) : Spells word (ofWord word) := by
  by_cases hfixed : ∃ t, (word, t) ∈ fixedWords
  · obtain ⟨t, ht⟩ := hfixed
    rw [ofWord_of_fixed h ht]
    exact .fixed ht
  · have hfree : ∀ t, (word, t) ∉ fixedWords := not_exists.1 hfixed
    rw [ofWord_of_free hfree]
    exact .name h hfree

/-- A name is scanned with what goes on with it. -/
theorem scanToken_of_name (h : word ∈ namePattern) : ∃ c tail, word = c :: tail ∧ ∀ cs,
    scanToken c (tail ++ cs) =
      .token (ofWord (word ++ (nameTail cs).1)) (word ++ (nameTail cs).1) (nameTail cs).2 := by
  obtain ⟨c, tail, rfl, hc, htail⟩ := mem_namePattern.1 h
  refine ⟨c, tail, rfl, fun cs => ?_⟩
  simp only [scanToken, hc, if_true, nameTail_append_of_mem htail, List.cons_append]

end

/-! ## Quoted texts -/

section
variable {quote c : Char} {inner cs value written rest : List Char}

theorem unescaped_char (h : c ≠ '\\') (cs : List Char) :
    unescaped (c :: cs) = c :: unescaped cs := by
  cases cs <;> simp [unescaped, h]

/-- What is inside of quotes is read up to the closing one. -/
theorem readQuoted_of_mem (hquote : quote ≠ '\\') (h : inner ∈ innerPattern quote)
    (rest : List Char) :
    readQuoted quote (inner ++ quote :: rest) =
      .closed (unescaped inner) (inner ++ [quote]) rest := by
  refine star_induction (motive := fun inner => readQuoted quote (inner ++ quote :: rest) =
    .closed (unescaped inner) (inner ++ [quote]) rest) h ?_ ?_
  · rw [List.nil_append, readQuoted_char hquote, if_pos rfl]
    rfl
  · rintro piece more (⟨c, hc, rfl⟩ | ⟨_, rfl, _, ⟨c, hc, rfl⟩, rfl⟩) ih
    · simp only [Bool.and_eq_true, decide_eq_true_eq] at hc
      rw [List.append_assoc, List.singleton_append, readQuoted_char hc.2, if_neg hc.1, ih,
        List.singleton_append, unescaped_char hc.2]
      rfl
    · simp only [decide_eq_true_eq] at hc
      show readQuoted quote ('\\' :: c :: (more ++ quote :: rest)) = _
      rw [readQuoted, if_neg hc, ih]
      rfl

/-- What is read up to a closing quote can stand inside of quotes. -/
theorem mem_of_readQuoted (h : readQuoted quote cs = .closed value written rest) :
    ∃ inner ∈ innerPattern quote, written = inner ++ [quote] ∧ value = unescaped inner := by
  fun_induction readQuoted quote cs generalizing value written rest with
  | case1 | case2 | case3 | case5 | case8 => cases h
  | case4 c cs hbreak value' written' rest' hread ih =>
    cases h
    obtain ⟨inner, hinner, rfl, rfl⟩ := ih hread
    have hc : [c] ∈ oneOf (· ≠ '\n') := singleton_mem_oneOf (by simpa using hbreak)
    have hescape : ['\\', c] ∈ {['\\']} * oneOf (· ≠ '\n') :=
      Language.append_mem_mul (Set.mem_singleton ['\\']) hc
    exact ⟨'\\' :: c :: inner, append_mem_star (.inr hescape) hinner, rfl, rfl⟩
  | case6 cs hend hpair =>
    cases h
    exact ⟨[], Language.nil_mem_kstar _, rfl, rfl⟩
  | case7 c cs hend hpair hquote value' written' rest' hread ih =>
    cases h
    obtain ⟨inner, hinner, rfl, rfl⟩ := ih hread
    have hescape : c ≠ '\\' := not_escape hend hpair
    have hpiece : [c] ∈ oneOf (fun c => c ≠ quote && c ≠ '\\') :=
      singleton_mem_oneOf (by simp [hquote, hescape])
    exact ⟨c :: inner, append_mem_star (.inl hpiece) hinner, rfl, (unescaped_char hescape _).symm⟩

end

/-! ## Numbers -/

section
variable {d : Char}

/-- What is scanned where a digit stands is a numeral, of all digits that stand there. -/
theorem scanNumber_numeral (negative : Bool) (hd : d.isDigit = true) (ds : List Char) :
    ∃ (n : Numeral) (rest : List Char),
      scanNumber (Numeral.sign negative) (d :: ds) = .token (.number n.value) n.toList rest ∧
        n.negative = negative ∧ n.whole = (d :: ds).takeWhile Char.isDigit ∧
        n.fraction = (fractionTail ((d :: ds).dropWhile Char.isDigit)).1 := by
  have hdigits : ∀ c ∈ (fractionTail ((d :: ds).dropWhile Char.isDigit)).1, c.isDigit = true :=
    fun c => isDigit_of_mem_fractionTail
  have hsign : decide (Numeral.sign negative ≠ []) = negative := by cases negative <;> rfl
  rcases hfound : fractionTail ((d :: ds).dropWhile Char.isDigit) with ⟨fraction, left⟩
  rw [hfound] at hdigits
  refine ⟨⟨negative, (d :: ds).takeWhile Char.isDigit, fraction, by simp [hd],
    fun c hc => List.mem_takeWhile_imp hc, hdigits⟩,
    if fraction = [] then (d :: ds).dropWhile Char.isDigit else left, ?_, rfl, rfl, rfl⟩
  simp only [scanNumber, hfound, hsign, ofDigits, Numeral.value, Numeral.toList]
  cases fraction with
  | nil => simp [Numeral.tail]
  | cons f fs => simp [Numeral.tail]

theorem scanToken_digit (hd : d.isDigit = true) (ds : List Char) :
    scanToken d ds = scanNumber (Numeral.sign false) (d :: ds) := by
  obtain ⟨hletter, hline, -⟩ := Numeral.not_letter_of_isDigit hd
  have hstart : isNameStart d = false := by simp [isNameStart, hletter, hline]
  simp only [scanToken, hstart, hd, Bool.false_eq_true, if_false, if_true]
  rfl

/-- A number is scanned with its sign. -/
theorem scanToken_sign (negative : Bool) (hd : d.isDigit = true) (ds : List Char) :
    ∃ c cs, Numeral.sign negative ++ d :: ds = c :: cs ∧
      scanToken c cs = scanNumber (Numeral.sign negative) (d :: ds) := by
  cases negative with
  | true => exact ⟨'-', d :: ds, rfl, if_pos hd⟩
  | false => exact ⟨d, ds, rfl, scanToken_digit hd ds⟩

/-- Where a numeral stands, none that is shorter is scanned. -/
theorem scanNumber_longer (n : Numeral) (cs : List Char) :
    ∃ (longer : Numeral) (rest : List Char),
      scanNumber (Numeral.sign n.negative) (n.whole ++ (Numeral.tail n.fraction ++ cs)) =
          .token (.number longer.value) longer.toList rest ∧
        n.toList.length ≤ longer.toList.length := by
  obtain ⟨d, ds, hwhole⟩ := List.exists_cons_of_ne_nil n.whole_ne_nil
  have hd : d.isDigit = true := n.whole_digits d (hwhole ▸ List.mem_cons_self)
  obtain ⟨longer, rest, hscan, hsign, hlonger, hfraction⟩ :=
    scanNumber_numeral n.negative hd (ds ++ (Numeral.tail n.fraction ++ cs))
  rw [← List.cons_append, ← hwhole] at hscan hlonger hfraction
  rw [List.takeWhile_append_of_pos n.whole_digits] at hlonger
  rw [List.dropWhile_append_of_pos n.whole_digits] at hfraction
  refine ⟨longer, rest, hscan, ?_⟩
  cases hn : n.fraction with
  | nil => simp [Numeral.toList, hsign, hlonger, hn, Numeral.tail]
  | cons f fs =>
    have hf : ∀ c ∈ f :: fs, c.isDigit = true := hn ▸ n.fraction_digits
    have htail : longer.fraction = f :: fs ++ cs.takeWhile Char.isDigit := by
      rw [hfraction, hn, Numeral.tail, List.cons_append, List.dropWhile_cons_of_neg (by decide),
        List.cons_append, fractionTail, if_pos (hf f List.mem_cons_self), ← List.cons_append,
        List.takeWhile_append_of_pos hf]
    simp [Numeral.toList, hsign, hlonger, hn, Numeral.tail, htail]

end

/-! ## Scanning what is spelled -/

section
variable {c : Char} {cs word written rest : List Char} {t : Token}

theorem scanToken_quote (hquote : c = '"' ∨ c = '\'') (cs : List Char) :
    scanToken c cs =
      match readQuoted c cs with
      | .closed value written rest => .token (.text (String.ofList value)) (c :: written) rest
      | .unterminated read => .stray (c :: read) := by
  rcases hquote with rfl | rfl <;> rfl

theorem spells_of_scanNumber {d : Char} {ds : List Char} (negative : Bool)
    (hd : d.isDigit = true)
    (h : scanNumber (Numeral.sign negative) (d :: ds) = .token t written rest) :
    Spells written t := by
  obtain ⟨n, left, hscan, -⟩ := scanNumber_numeral negative hd ds
  cases hscan.symm.trans h
  exact .number n

theorem spells_of_single? (h : single? c = some t) : Spells [c] t := by
  refine .fixed ?_
  unfold single? at h
  split at h <;> cases h <;> simp [fixedWords]

theorem spells_of_scanSymbol (h : scanSymbol c cs = .token t written rest) : Spells written t := by
  unfold scanSymbol at h
  split at h
  · split at h
    · next hd => exact spells_of_scanNumber true hd h
    · cases h
  · cases h
    exact .fixed (by simp [fixedWords])
  · cases h
    exact .fixed (by simp [fixedWords])
  · split at h
    · next hsingle =>
      cases h
      exact spells_of_single? hsingle
    · cases h

/-- What is scanned is a word of its token. -/
theorem spells_of_scanToken (h : scanToken c cs = .token t written rest) : Spells written t := by
  cases hname : isNameStart c with
  | true =>
    simp only [scanToken, hname, if_true] at h
    cases h
    exact spells_ofWord (mem_namePattern.2 ⟨c, _, rfl, hname, nameTail_mem cs⟩)
  | false =>
  cases hdigit : c.isDigit with
  | true =>
    rw [scanToken_digit hdigit] at h
    exact spells_of_scanNumber false hdigit h
  | false =>
  by_cases hquote : c = '"' ∨ c = '\''
  · rw [scanToken_quote hquote] at h
    split at h
    · next hread =>
      cases h
      obtain ⟨inner, hinner, rfl, rfl⟩ := mem_of_readQuoted hread
      exact .text hquote hinner
    · cases h
  · rw [scanToken_eq_scanSymbol hname hdigit hquote] at h
    exact spells_of_scanSymbol h

theorem not_backslash (hquote : c = '"' ∨ c = '\'') : c ≠ '\\' := by
  rcases hquote with rfl | rfl <;> decide

/-- A word of a token is scanned as the token, and nothing is left of it. -/
theorem Spells.scanToken_eq (h : Spells word t) :
    ∃ c cs, word = c :: cs ∧ scanToken c cs = .token t word [] := by
  have hname (hword : word ∈ namePattern) (ht : ofWord word = t) :
      ∃ c cs, word = c :: cs ∧ scanToken c cs = .token t word [] := by
    obtain ⟨c, tail, hcs, hscan⟩ := scanToken_of_name hword
    have halone := hscan []
    simp only [nameTail, List.append_nil, ht] at halone
    exact ⟨c, tail, hcs, halone⟩
  cases h with
  | fixed h =>
    rcases fixed_cases h with ⟨hword, ht⟩ | ⟨rfl, rfl⟩ | ⟨rfl, rfl⟩ | ⟨c, rfl, hsingle⟩
    · exact hname hword ht
    · exact ⟨'.', ['.', '.'], rfl, rfl⟩
    · exact ⟨'?', ['?'], rfl, rfl⟩
    · refine ⟨c, [], rfl, ?_⟩
      unfold single? at hsingle
      split at hsingle <;> cases hsingle <;> rfl
  | name hword hfree => exact hname hword (ofWord_of_free hfree)
  | @text quote inner hquote h =>
    refine ⟨quote, inner ++ [quote], rfl, ?_⟩
    rw [scanToken_quote hquote, readQuoted_of_mem (not_backslash hquote) h []]
  | number n =>
    obtain ⟨c, cs, hcs, -, hscan⟩ := n.exists_scanToken
    exact ⟨c, cs, hcs, hscan⟩

/-- A token of at least a number of characters is scanned at the front of a text. -/
def ScansPast (length : Nat) (s : List Char) : Prop :=
  ∃ c cs t written rest, s = c :: cs ∧ scanToken c cs = .token t written rest ∧
    length ≤ written.length

theorem scansPast_of_single? (h : single? c = some t) (cs : List Char) :
    ScansPast 1 (c :: cs) := by
  have hscan : ∃ t written rest, scanToken c cs = .token t written rest := by
    by_cases hgoes : GoesOn c cs
    · rcases hgoes with ⟨rfl, -⟩ | ⟨rfl, ds, rfl⟩ | ⟨rfl, -⟩
      · cases h
      · exact ⟨_, _, _, rfl⟩
      · cases h
    · have hsymbol : scanToken c cs = scanSymbol c cs := by
        unfold single? at h
        split at h <;> first | exact scanToken_eq_scanSymbol rfl rfl (by decide) cs | cases h
      rw [hsymbol, scanSymbol_alone hgoes, h]
      exact ⟨_, _, _, rfl⟩
  obtain ⟨t, written, rest, hscan⟩ := hscan
  exact ⟨c, cs, t, written, rest, rfl, hscan, List.length_pos_iff.2 (scanToken_written hscan)⟩

theorem scansPast_of_name (h : word ∈ namePattern) (cs : List Char) :
    ScansPast word.length (word ++ cs) := by
  obtain ⟨c, tail, rfl, hscan⟩ := scanToken_of_name h
  exact ⟨c, tail ++ cs, _, _, _, rfl, hscan cs, by simp⟩

/-- Where a word of a token stands, no shorter one is scanned. -/
theorem Spells.scansPast (h : Spells word t) (cs : List Char) :
    ScansPast word.length (word ++ cs) := by
  cases h with
  | fixed h =>
    rcases fixed_cases h with ⟨hword, -⟩ | ⟨rfl, -⟩ | ⟨rfl, -⟩ | ⟨c, rfl, hsingle⟩
    · exact scansPast_of_name hword cs
    · exact ⟨'.', '.' :: '.' :: cs, _, _, _, rfl, rfl, le_rfl⟩
    · exact ⟨'?', '?' :: cs, _, _, _, rfl, rfl, le_rfl⟩
    · exact scansPast_of_single? hsingle cs
  | name hword => exact scansPast_of_name hword cs
  | @text quote inner hquote h =>
    have hscan : scanToken quote (inner ++ quote :: cs) =
        .token (.text (String.ofList (unescaped inner))) (quote :: (inner ++ [quote])) cs := by
      rw [scanToken_quote hquote, readQuoted_of_mem (not_backslash hquote) h cs]
    exact ⟨quote, inner ++ quote :: cs, _, _, _, by simp, hscan, le_rfl⟩
  | number n =>
    obtain ⟨longer, rest, hscan, hlength⟩ := scanNumber_longer n cs
    obtain ⟨d, ds, hwhole⟩ := List.exists_cons_of_ne_nil n.whole_ne_nil
    have hd : d.isDigit = true := n.whole_digits d (hwhole ▸ List.mem_cons_self)
    rw [hwhole, List.cons_append] at hscan
    obtain ⟨c, more, hmore, hsign⟩ :=
      scanToken_sign n.negative hd (ds ++ (Numeral.tail n.fraction ++ cs))
    refine ⟨c, more, _, _, _, ?_, hsign.trans hscan, hlength⟩
    rw [← hmore, Numeral.toList, hwhole]
    simp

end

end Token

end SlotTemplates
