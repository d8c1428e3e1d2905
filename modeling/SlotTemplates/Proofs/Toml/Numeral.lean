import SlotTemplates.Proofs.Except
import SlotTemplates.Proofs.Syntax.Tokens
import SlotTemplates.Toml.Scalar

/-!
# Numbers that TOML and templates write alike

A sign, digits, and a fraction after a point: a `Numeral` is a number that a declaration and a
template can both write. As a token it is the number nearest to what its digits say
(`Numeral.tokenize_eq`); TOML reads it as the same number if it has a fraction, and else as an
integer (`Numeral.scalar`). All other numbers of TOML have a letter, an underscore or a plus in them
(`Toml.scalar_takes`), and no number of a template has (`Lexes.not_foreign`); so what both take for
a number is a numeral (`Toml.scalar_of_token`).
-/

namespace SlotTemplates

/-- A decimal number as it is written. -/
structure Numeral where
  negative : Bool
  whole : List Char
  /-- The digits after the point; there is no point if there are none. -/
  fraction : List Char
  whole_ne_nil : whole ≠ []
  whole_digits : ∀ c ∈ whole, c.isDigit = true
  fraction_digits : ∀ c ∈ fraction, c.isDigit = true

namespace Numeral

/-- The sign in front of a number. -/
def sign (negative : Bool) : List Char := if negative then ['-'] else []

/-- What follows the digits in front of the point. -/
def tail : List Char → List Char
  | [] => []
  | d :: ds => '.' :: d :: ds

/-- The characters of a numeral. -/
def toList (n : Numeral) : List Char := sign n.negative ++ (n.whole ++ tail n.fraction)

/-- The number nearest to what a numeral says. -/
def value (n : Numeral) : Binary64 :=
  .ofDecimal n.negative (Token.decimalValue (n.whole ++ n.fraction)) (-n.fraction.length)

/-- The scalar that a numeral writes. -/
def scalar (n : Numeral) : Toml.Scalar :=
  if n.fraction = [] then
    .integer (if n.negative then -Token.decimalValue n.whole else Token.decimalValue n.whole)
  else .float n.value

/-- A character that other numbers of TOML have, and no number of a template has. -/
def isForeign (c : Char) : Bool := c.isAlpha || c = '_' || c = '+'

end Numeral

/-! ## Numerals in templates -/

namespace Numeral

theorem not_letter_of_isDigit {c : Char} (h : c.isDigit = true) :
    c.isAlpha = false ∧ c ≠ '_' ∧ c ≠ '+' ∧ c ≠ '-' ∧ c ≠ '.' := by
  refine ⟨?_, ?_, ?_, ?_, ?_⟩
  · simp only [Char.isDigit, Char.isAlpha, Char.isUpper, Char.isLower, Bool.and_eq_true,
      decide_eq_true_eq, UInt32.le_iff_toNat_le, Bool.or_eq_false_iff, Bool.and_eq_false_iff,
      decide_eq_false_iff_not, ge_iff_le] at h ⊢
    have hnine : '9'.val.toNat = 57 := rfl
    have hcapital : 'A'.val.toNat = 65 := rfl
    have hsmall : 'a'.val.toNat = 97 := rfl
    omega
  all_goals
    rintro rfl
    cases h

theorem not_foreign_of_isDigit {c : Char} (h : c.isDigit = true) : isForeign c = false := by
  obtain ⟨hletter, hline, hplus, -, -⟩ := not_letter_of_isDigit h
  simp [isForeign, hletter, hline, hplus]

theorem tail_of_ne_nil {fraction : List Char} (h : fraction ≠ []) :
    tail fraction = '.' :: fraction := by
  cases fraction with
  | nil => exact absurd rfl h
  | cons d ds => rfl

theorem fractionTail_tail {fraction : List Char} (h : ∀ c ∈ fraction, c.isDigit = true) :
    Token.fractionTail (tail fraction) = (fraction, []) := by
  cases fraction with
  | nil => rfl
  | cons d ds =>
    have htake : (d :: ds).takeWhile Char.isDigit = d :: ds := List.takeWhile_eq_self_iff.2 h
    have hdrop : (d :: ds).dropWhile Char.isDigit = [] := List.dropWhile_eq_nil_iff.2 h
    rw [tail, Token.fractionTail, if_pos (h d List.mem_cons_self), htake, hdrop]

/-- The digits of a numeral end at its point. -/
theorem takeWhile_whole (n : Numeral) :
    (n.whole ++ tail n.fraction).takeWhile Char.isDigit = n.whole ∧
      (n.whole ++ tail n.fraction).dropWhile Char.isDigit = tail n.fraction := by
  have htake : (tail n.fraction).takeWhile Char.isDigit = [] := by cases n.fraction <;> rfl
  have hdrop : (tail n.fraction).dropWhile Char.isDigit = tail n.fraction := by
    cases n.fraction <;> rfl
  rw [List.takeWhile_append_of_pos n.whole_digits, List.dropWhile_append_of_pos n.whole_digits,
    htake, hdrop, List.append_nil]
  exact ⟨rfl, rfl⟩

/-- After its sign a numeral is scanned as one number. -/
theorem scanNumber_eq (n : Numeral) :
    Token.scanNumber (sign n.negative) (n.whole ++ tail n.fraction) =
      .token (.number n.value) n.toList [] := by
  obtain ⟨htake, hdrop⟩ := n.takeWhile_whole
  have hsign : decide (sign n.negative ≠ []) = n.negative := by cases n.negative <;> rfl
  rw [Token.scanNumber, htake, hdrop, fractionTail_tail n.fraction_digits, hsign, value, toList]
  cases hfraction : n.fraction with
  | nil => simp [Token.ofDigits, tail]
  | cons d ds => simp [Token.ofDigits, tail]

/-- A numeral is scanned as one number. -/
theorem exists_scanToken (n : Numeral) :
    ∃ c cs, n.toList = c :: cs ∧ Token.isGap c = false ∧
      Token.scanToken c cs = .token (.number n.value) n.toList [] := by
  obtain ⟨d, ds, hwhole⟩ := List.exists_cons_of_ne_nil n.whole_ne_nil
  have hdigit : d.isDigit = true := n.whole_digits d (hwhole ▸ List.mem_cons_self)
  have hnumber := n.scanNumber_eq
  rw [hwhole, List.cons_append] at hnumber
  cases hnegative : n.negative with
  | true =>
    rw [hnegative] at hnumber
    refine ⟨'-', d :: (ds ++ tail n.fraction), by simp [toList, sign, hnegative, hwhole], rfl, ?_⟩
    have hsign : Token.scanToken '-' (d :: (ds ++ tail n.fraction)) =
        Token.scanNumber ['-'] (d :: (ds ++ tail n.fraction)) := if_pos hdigit
    exact hsign.trans hnumber
  | false =>
    rw [hnegative] at hnumber
    obtain ⟨hletter, hline, -⟩ := not_letter_of_isDigit hdigit
    have hstart : Token.isNameStart d = false := by simp [Token.isNameStart, hletter, hline]
    refine ⟨d, ds ++ tail n.fraction, by simp [toList, sign, hnegative, hwhole], ?_, ?_⟩
    · rw [Bool.eq_false_iff]
      intro hgap
      have hblank := (Token.not_part_of_isBlank (Lexes.isBlank_of_isGap hgap)).2
      rw [hdigit] at hblank
      cases hblank
    · simp only [Token.scanToken, hstart, hdigit, Bool.false_eq_true, if_false, if_true]
      exact hnumber

theorem tokenize_eq (n : Numeral) (pos : Nat) :
    tokenize pos n.toList = .ok [⟨.number n.value, Span.sized pos (byteLength n.toList)⟩] := by
  obtain ⟨c, cs, hlist, hgap, hscan⟩ := n.exists_scanToken
  have hlexes : Lexes pos (c :: cs) _ := .token hgap hscan .nil
  rw [← hlist] at hlexes
  exact hlexes.tokenize_eq

end Numeral

/-- A number of a template is written without foreign characters. -/
theorem Token.not_foreign_of_scanToken {c : Char} {cs written rest : List Char} {v : Binary64}
    (h : scanToken c cs = .token (.number v) written rest) :
    ∀ d ∈ written, Numeral.isForeign d = false := by
  have hnumber {sign cs : List Char} (hsign : ∀ d ∈ sign, Numeral.isForeign d = false)
      (h : scanNumber sign cs = .token (.number v) written rest) :
      ∀ d ∈ written, Numeral.isForeign d = false := by
    intro d hd
    rcases mem_of_scanNumber h hd with hd | hd | rfl
    · exact hsign d hd
    · exact Numeral.not_foreign_of_isDigit hd
    · rfl
  cases hname : isNameStart c with
  | true =>
    simp only [scanToken, hname, if_true] at h
    injection h with hword
    unfold ofWord at hword
    split_ifs at hword
  | false =>
  cases hdigit : c.isDigit with
  | true =>
    simp only [scanToken, hname, hdigit, Bool.false_eq_true, if_true, if_false] at h
    exact hnumber (by simp) h
  | false =>
  by_cases hquote : c = '"' ∨ c = '\''
  · simp only [scanToken, hname, hdigit, hquote, Bool.false_eq_true, if_true, if_false] at h
    split at h <;> cases h
  rw [scanToken_eq_scanSymbol hname hdigit hquote] at h
  unfold scanSymbol at h
  split at h
  · split at h
    · exact hnumber (by simp [Numeral.isForeign]) h
    · cases h
  · cases h
  · cases h
  · split at h
    · next hsingle =>
      cases h
      unfold single? at hsingle
      split at hsingle <;> cases hsingle
    · cases h

/-- What is made of numbers has no foreign characters. -/
theorem Lexes.not_foreign {pos : Nat} {s : List Char} {lexemes : List Lexeme}
    (h : Lexes pos s lexemes) (hnumbers : ∀ l ∈ lexemes, ∃ v, l.token = .number v) :
    ∀ c ∈ s, Numeral.isForeign c = false := by
  induction h with
  | nil => simp
  | gap hc _ ih =>
    refine List.forall_mem_cons.2 ⟨?_, ih hnumbers⟩
    simp only [Token.isGap, Bool.or_eq_true, decide_eq_true_eq] at hc
    rcases hc with ((rfl | rfl) | rfl) | rfl <;> rfl
  | token hc hscan _ ih =>
    obtain ⟨⟨v, hv⟩, hmore⟩ := List.forall_mem_cons.1 hnumbers
    cases hv
    rw [← Token.scanToken_split hscan]
    exact List.forall_mem_append.2 ⟨Token.not_foreign_of_scanToken hscan, ih hmore⟩

/-! ## Numerals in TOML -/

namespace Toml

/-- Whether a scalar is a number. -/
def Scalar.isNumber : Scalar → Bool
  | .integer _ => true
  | .float _ => true
  | _ => false

/-- A text is left after what is taken from its front, which has a foreign character or is as `p`
says. -/
def Takes (s rest : List Char) (p : List Char → Prop) : Prop :=
  ∃ written, s = written ++ rest ∧ ((∃ c ∈ written, Numeral.isForeign c = true) ∨ p written)

namespace Takes

variable {s r rest : List Char} {p q : List Char → Prop}

theorem mono (h : Takes s rest p) (hpq : ∀ w, p w → q w) : Takes s rest q := by
  obtain ⟨w, hs, hw⟩ := h
  exact ⟨w, hs, hw.imp_right (hpq w)⟩

/-- Nothing is taken. -/
theorem nothing (h : p []) : Takes s s p := ⟨[], rfl, .inr h⟩

/-- What is taken from the front and then from the rest. -/
theorem append (hp : Takes s r p) (hq : Takes r rest q) :
    Takes s rest fun w => ∃ a b, w = a ++ b ∧ p a ∧ q b := by
  obtain ⟨a, rfl, ha⟩ := hp
  obtain ⟨b, rfl, hb⟩ := hq
  refine ⟨a ++ b, (List.append_assoc a b rest).symm, ?_⟩
  rcases ha with ⟨c, hc, hforeign⟩ | ha
  · exact .inl ⟨c, List.mem_append_left b hc, hforeign⟩
  rcases hb with ⟨c, hc, hforeign⟩ | hb
  · exact .inl ⟨c, List.mem_append_right a hc, hforeign⟩
  · exact .inr ⟨a, b, rfl, ha, hb⟩

/-- One more character is taken. -/
theorem cons {c : Char} (h : Takes r rest p) (hpq : ∀ w, p w → q (c :: w)) :
    Takes (c :: r) rest q := by
  obtain ⟨w, rfl, hw⟩ := h
  refine ⟨c :: w, rfl, ?_⟩
  rcases hw with ⟨d, hd, hforeign⟩ | hw
  · exact .inl ⟨d, List.mem_cons_of_mem c hd, hforeign⟩
  · exact .inr (hpq w hw)

/-- A foreign character is taken, and something after it. -/
theorem foreign {c : Char} (hc : Numeral.isForeign c = true) (h : Takes r rest q) :
    Takes (c :: r) rest p := by
  obtain ⟨w, rfl, -⟩ := h
  exact ⟨c :: w, rfl, .inl ⟨c, List.mem_cons_self, hc⟩⟩

end Takes

theorem must_eq_ok_iff {α : Type} {result : Except Failure α} {v : α} :
    must result = .ok v ↔ result = .ok v := by
  cases result with
  | ok a => rfl
  | error f => exact ⟨nofun, nofun⟩

section
variable {isDigit : Char → Bool} {s ds rest : List Char}

theorem moreDigits_takes (h : moreDigits isDigit s = .ok (ds, rest)) :
    Takes s rest fun w => w = ds ∧ ∀ c ∈ ds, isDigit c = true := by
  fun_induction moreDigits isDigit s generalizing ds rest with
  | case1 =>
    cases h
    exact .nothing ⟨rfl, by simp⟩
  | case2 d r hd ih => exact .foreign rfl (ih h)
  | case3 => cases h
  | case4 => cases h
  | case5 c r hne hc ih =>
    obtain ⟨⟨more, left⟩, hmore, heq⟩ := bind_eq_ok_iff.1 h
    cases heq
    exact (ih hmore).cons fun w hw => ⟨by rw [hw.1], List.forall_mem_cons.2 ⟨hc, hw.2⟩⟩
  | case6 =>
    cases h
    exact .nothing ⟨rfl, by simp⟩

theorem someDigits_takes (h : someDigits isDigit s = .ok (ds, rest)) :
    Takes s rest fun w => w = ds ∧ ds ≠ [] ∧ ∀ c ∈ ds, isDigit c = true := by
  unfold someDigits at h
  split at h
  · next c r =>
    split at h
    · next hc =>
      obtain ⟨⟨more, left⟩, hmore, heq⟩ := bind_eq_ok_iff.1 h
      cases heq
      exact (moreDigits_takes hmore).cons fun w hw =>
        ⟨by rw [hw.1], List.cons_ne_nil c more, List.forall_mem_cons.2 ⟨hc, hw.2⟩⟩
    · cases h
  · cases h

end

section
variable {s rest : List Char} {negative : Bool} {ds : List Char} {x : Scalar}

theorem sign_takes {r : List Char} (h : sign s = (negative, r)) :
    Takes s r (· = Numeral.sign negative) := by
  unfold sign at h
  split at h <;> cases h
  · exact ⟨['-'], rfl, .inr rfl⟩
  · exact ⟨['+'], rfl, .inl ⟨'+', List.mem_cons_self, rfl⟩⟩
  · exact .nothing rfl

theorem decimalInteger_takes (h : decimalInteger s = .ok ((negative, ds), rest)) :
    Takes s rest fun w => w = Numeral.sign negative ++ ds ∧ ds ≠ [] ∧
      ∀ c ∈ ds, c.isDigit = true := by
  rw [decimalInteger] at h
  cases hsign : sign s with
  | mk minus r =>
  simp only [hsign] at h
  split at h
  · next r =>
    cases h
    have hzero : Takes ('0' :: rest) rest (· = ['0']) := ⟨['0'], rfl, .inr rfl⟩
    refine ((sign_takes hsign).append hzero).mono ?_
    rintro w ⟨a, b, rfl, rfl, rfl⟩
    exact ⟨rfl, List.cons_ne_nil '0' [], List.forall_mem_singleton.2 rfl⟩
  · obtain ⟨⟨more, left⟩, hmore, heq⟩ := bind_eq_ok_iff.1 h
    cases heq
    refine ((sign_takes hsign).append (someDigits_takes hmore)).mono ?_
    rintro w ⟨a, b, rfl, rfl, rfl, hdigits⟩
    exact ⟨rfl, hdigits⟩

theorem exponent_takes {e : Int} (h : exponent s = .ok (e, rest)) :
    Takes s rest fun _ => True := by
  rw [exponent] at h
  cases hsign : sign s with
  | mk minus r =>
  simp only [hsign] at h
  obtain ⟨⟨ds, left⟩, hdigits, heq⟩ := bind_eq_ok_iff.1 h
  cases heq
  exact ((sign_takes hsign).append (someDigits_takes (must_eq_ok_iff.1 hdigits))).mono
    fun _ _ => trivial

theorem exponent?_takes {e : Int} (h : exponent? s = .ok (e, rest)) :
    Takes s rest fun w => w = [] ∧ e = 0 := by
  unfold exponent? at h
  split at h
  · exact .foreign rfl (exponent_takes h)
  · exact .foreign rfl (exponent_takes h)
  · cases h
    exact .nothing ⟨rfl, rfl⟩

theorem digitsValue_ten (h : ∀ c ∈ ds, c.isDigit = true) :
    digitsValue 10 ds = Token.decimalValue ds := by
  refine List.foldl_ext _ _ 0 fun n c hc => ?_
  rw [hexDigit?, if_pos (h c hc)]
  rfl

/-- What a number of TOML is written with. -/
def WritesNumeral (x : Scalar) (written : List Char) : Prop :=
  ∃ n : Numeral, written = n.toList ∧ x = n.scalar

theorem decimalFloat_takes (h : decimalFloat s = .ok (x, rest)) :
    Takes s rest (WritesNumeral x) := by
  rw [decimalFloat] at h
  obtain ⟨⟨⟨negative, whole⟩, r⟩, hwhole, h⟩ := bind_eq_ok_iff.1 h
  dsimp only at h
  obtain ⟨⟨fraction, r'⟩, hfraction, h⟩ := bind_eq_ok_iff.1 h
  obtain ⟨⟨e, left⟩, hexponent, h⟩ := bind_eq_ok_iff.1 h
  dsimp only at h
  split at h
  · cases h
  cases h
  have hfront := decimalInteger_takes hwhole
  split at hfraction
  · -- a point and digits: without an exponent this is a numeral
    have hpoint := (someDigits_takes (must_eq_ok_iff.1 hfraction)).cons (c := '.')
      (q := fun w => w = '.' :: fraction ∧ fraction ≠ [] ∧ ∀ c ∈ fraction, c.isDigit = true)
      fun w hw => ⟨congrArg _ hw.1, hw.2⟩
    refine (hfront.append (hpoint.append (exponent?_takes hexponent))).mono ?_
    rintro w ⟨a, b, rfl, ⟨rfl, hne, hdigits⟩, c, d, rfl, ⟨rfl, hpart, hmore⟩, rfl, rfl⟩
    refine ⟨⟨negative, whole, fraction, hne, hdigits, hmore⟩, ?_, ?_⟩
    · simp only [Numeral.toList, Numeral.tail_of_ne_nil hpart, List.append_assoc, List.append_nil]
    · have hall := List.forall_mem_append.2 ⟨hdigits, hmore⟩
      rw [Numeral.scalar, if_neg hpart, Numeral.value, digitsValue_ten hall, Int.zero_sub]
  · cases hfraction
    exact (hfront.append (.foreign (p := fun _ => False) rfl (exponent_takes hexponent))).mono
      fun w ⟨_, _, _, _, hnone⟩ => hnone.elim
  · cases hfraction
    exact (hfront.append (.foreign (p := fun _ => False) rfl (exponent_takes hexponent))).mono
      fun w ⟨_, _, _, _, hnone⟩ => hnone.elim
  · cases hfraction

theorem specialFloat_takes (h : specialFloat s = .ok (x, rest)) :
    Takes s rest (WritesNumeral x) := by
  unfold specialFloat at h
  split at h
  · next minus r hsign =>
    cases h
    have hword : Takes ('i' :: 'n' :: 'f' :: rest) rest fun _ => False :=
      ⟨['i', 'n', 'f'], rfl, .inl ⟨'i', List.mem_cons_self, rfl⟩⟩
    refine ((sign_takes hsign).append hword).mono ?_
    rintro w ⟨-, -, -, -, ⟨⟩⟩
  · next minus r hsign =>
    cases h
    have hword : Takes ('n' :: 'a' :: 'n' :: rest) rest fun _ => False :=
      ⟨['n', 'a', 'n'], rfl, .inl ⟨'n', List.mem_cons_self, rfl⟩⟩
    refine ((sign_takes hsign).append hword).mono ?_
    rintro w ⟨-, -, -, -, ⟨⟩⟩
  · cases h

theorem inRange_eq_ok {start r : List Char} {n : Int} (h : inRange start n r = .ok (x, rest)) :
    x = .integer n ∧ rest = r := by
  unfold inRange at h
  split at h <;> cases h
  exact ⟨rfl, rfl⟩

theorem basedInteger_takes {base : Nat} {start : List Char}
    (h : basedInteger base start s = .ok (x, rest)) : Takes s rest fun _ => True := by
  obtain ⟨⟨ds, left⟩, hdigits, hrange⟩ := bind_eq_ok_iff.1 h
  obtain ⟨-, rfl⟩ := inRange_eq_ok hrange
  exact (someDigits_takes (must_eq_ok_iff.1 hdigits)).mono fun _ _ => trivial

theorem integer_takes (h : integer s = .ok (x, rest)) : Takes s rest (WritesNumeral x) := by
  have hbased {c base r start} (hc : Numeral.isForeign c = true)
      (h : basedInteger base start r = .ok (x, rest)) :
      Takes ('0' :: c :: r) rest (WritesNumeral x) :=
    (Takes.foreign (p := fun _ => False) hc (basedInteger_takes h)).cons fun _ hnone => hnone.elim
  unfold integer at h
  split at h
  · exact hbased rfl h
  · exact hbased rfl h
  · exact hbased rfl h
  · obtain ⟨⟨⟨negative, ds⟩, left⟩, hinteger, hrange⟩ := bind_eq_ok_iff.1 h
    obtain ⟨rfl, rfl⟩ := inRange_eq_ok hrange
    refine (decimalInteger_takes hinteger).mono ?_
    rintro w ⟨rfl, hne, hdigits⟩
    refine ⟨⟨negative, ds, [], hne, hdigits, by simp⟩, ?_, ?_⟩
    · simp only [Numeral.toList, Numeral.tail, List.append_nil]
    · rw [Numeral.scalar, if_pos rfl, digitsValue_ten hdigits]

theorem datetime_not_number (h : datetime s = .ok (x, rest)) : x.isNumber = false := by
  unfold datetime at h
  split at h
  · split at h <;> cases h <;> rfl
  · cases h
  · obtain ⟨⟨clock, left⟩, -, heq⟩ := bind_eq_ok_iff.1 h
    cases heq
    rfl

theorem word_not_number {letters : List Char} {value : Scalar}
    (h : word letters value s = .ok (x, rest)) (hvalue : value.isNumber = false) :
    x.isNumber = false := by
  unfold word at h
  split at h <;> cases h
  exact hvalue

theorem exists_of_firstOf {α : Type} {readers : List (List Char → Except Failure (α × List Char))}
    {v : α} (h : firstOf s readers = .ok (v, rest)) :
    ∃ reader ∈ readers, reader s = .ok (v, rest) := by
  induction readers with
  | nil => cases h
  | cons reader more ih =>
    rw [firstOf] at h
    split at h
    · obtain ⟨found, hmem, hfound⟩ := ih h
      exact ⟨found, List.mem_cons_of_mem reader hmem, hfound⟩
    · exact ⟨reader, List.mem_cons_self, h⟩

/-- A number is a numeral, or has foreign characters. -/
theorem scalar_takes (h : scalar s = .ok (x, rest)) (hnumber : x.isNumber = true) :
    Takes s rest (WritesNumeral x) := by
  unfold scalar at h
  split at h
  · cases h
  next c cs =>
  split_ifs at h with hquote hnumeric htrue hfalse hspecial
  · obtain ⟨⟨text, left⟩, -, heq⟩ := bind_eq_ok_iff.1 h
    cases heq
    cases hnumber
  · obtain ⟨reader, hmem, hread⟩ := exists_of_firstOf h
    simp only [List.mem_cons, List.not_mem_nil, or_false] at hmem
    rcases hmem with rfl | rfl | rfl | rfl
    · rw [datetime_not_number hread] at hnumber
      cases hnumber
    · exact decimalFloat_takes hread
    · exact specialFloat_takes hread
    · exact integer_takes hread
  · rw [word_not_number h rfl] at hnumber
    cases hnumber
  · rw [word_not_number h rfl] at hnumber
    cases hnumber
  · exact specialFloat_takes h
  · cases h

/-- What TOML takes for a number and a template for one number is a numeral. -/
theorem scalar_of_token {written : List Char} {pos : Nat} {v : Binary64} {span : Span}
    (h : scalar (written ++ rest) = .ok (x, rest)) (hnumber : x.isNumber = true)
    (htoken : tokenize pos written = .ok [⟨.number v, span⟩]) :
    ∃ n : Numeral, written = n.toList ∧ x = n.scalar ∧ v = n.value := by
  obtain ⟨taken, htaken, hshape⟩ := scalar_takes h hnumber
  obtain rfl := List.append_cancel_right htaken
  rcases hshape with ⟨c, hc, hforeign⟩ | ⟨n, rfl, hx⟩
  · have hnone := (tokenize_eq_ok_iff.1 htoken).not_foreign (by simp) c hc
    rw [hforeign] at hnone
    cases hnone
  · rw [n.tokenize_eq] at htoken
    cases htoken
    exact ⟨n, rfl, hx, rfl⟩

end

end Toml

end SlotTemplates
