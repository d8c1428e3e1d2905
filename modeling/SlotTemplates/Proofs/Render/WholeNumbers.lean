import SlotTemplates.Proofs.Component.AllowList

/-!
# Whole numbers in outputs

An output of digits, with a minus in front of them or without, shows the number that they write
(`Environment.renders_whole`). Below `9 · 10^15` nothing is rounded and the number is an integer, so
the output has the same digits less the zeros in front. From there on it is the nearest floating
point number, and an output of one always has a fraction or an exponent
(`Binary64.jsonText_inexact`); a number that is too large for the format has no text at all.
-/

namespace SlotTemplates

/-! ## Digits -/

/-- Digits without the zeros in front. The digits of zero are one zero. -/
def Numeral.significant (digits : List Char) : List Char :=
  match digits.dropWhile (· = '0') with
  | [] => ['0']
  | d :: ds => d :: ds

theorem digitChar_of_isDigit {d : Char} (h : d.isDigit = true) :
    d.toNat - '0'.toNat < 10 ∧ (d.toNat - '0'.toNat).digitChar = d := by
  obtain ⟨hzero, hnine⟩ := Char.isDigit_iff_toNat.1 h
  have hten : '9'.toNat = '0'.toNat + 9 := rfl
  have hlt : d.toNat - '0'.toNat < 10 := by omega
  refine ⟨hlt, Char.toNat_inj.1 ?_⟩
  rw [Nat.toNat_digitChar_of_lt_ten hlt]
  exact Nat.add_sub_cancel' hzero

/-- The numeral of what digits write are the digits, without the zeros in front. -/
theorem digitsOf_decimalValue {digits : List Char} (h : ∀ c ∈ digits, c.isDigit = true) :
    digitsOf (Token.decimalValue digits) = Numeral.significant digits := by
  induction digits using List.reverseRecOn with
  | nil => rfl
  | append_singleton digits d ih =>
    have hfront := ih fun c hc => h c (List.mem_append_left _ hc)
    obtain ⟨hlt, hchar⟩ := digitChar_of_isDigit (h d (by simp))
    have hvalue : Token.decimalValue (digits ++ [d]) =
        Token.decimalValue digits * 10 + (d.toNat - '0'.toNat) := by
      simp [Token.decimalValue, List.foldl_append]
    rw [Numeral.significant, List.dropWhile_append, hvalue, digitsOf,
      Nat.toDigits_eq_if (by decide)]
    generalize d.toNat - '0'.toNat = v at hlt hchar ⊢
    generalize Token.decimalValue digits = n at hfront ⊢
    unfold Numeral.significant at hfront
    cases hdrop : digits.dropWhile (· = '0') with
    | nil =>
      rw [hdrop] at hfront
      obtain rfl : n = 0 := by
        have hback := Nat.ofDigitChars_toDigits (n := n) (b := 10) (by decide) (by decide)
        exact hback.symm.trans (congrArg (Nat.ofDigitChars 10 · 0) hfront)
      have hsmall : 0 * 10 + v < 10 := by omega
      rw [if_pos hsmall, Nat.zero_mul, Nat.zero_add, hchar]
      by_cases hd : d = '0' <;> simp [hd]
    | cons e es =>
      rw [hdrop] at hfront
      have hpos : n ≠ 0 := by
        rintro rfl
        have hne : digits.dropWhile (· = '0') ≠ [] := by simp [hdrop]
        have he := List.head_dropWhile_not (· = '0') hne
        simp only [hdrop, List.head_cons, decide_eq_false_iff_not] at he
        exact he (List.cons.inj hfront).1.symm
      have hlarge : ¬ n * 10 + v < 10 := by omega
      have hdiv : (n * 10 + v) / 10 = n := by omega
      have hmod : (n * 10 + v) % 10 = v := by omega
      rw [if_neg hlarge, hdiv, hmod, hchar, ← digitsOf, hfront]
      rfl

theorem integerText_eq_toString (n : Int) : String.ofList (integerText n) = toString n := by
  have hrepr : toString n = n.repr := rfl
  rw [hrepr, Int.repr_eq_if, integerText]
  by_cases hneg : n < 0
  · have habs : n.natAbs = (-n).toNat := by omega
    rw [if_pos hneg, if_neg (Int.not_le.2 hneg), habs, Nat.repr_eq_ofList_toDigits, digitsOf]
    exact String.toList_injective (by simp)
  · have habs : n.natAbs = n.toNat := by omega
    rw [if_neg hneg, if_pos (Int.not_lt.1 hneg), habs, Nat.repr_eq_ofList_toDigits, digitsOf]

/-- The text of the integer that digits write, with a minus or without: a minus stands before all
numbers but zero. -/
theorem toList_toString_signed (negative : Bool) {digits : List Char}
    (h : ∀ c ∈ digits, c.isDigit = true) :
    let magnitude := Token.decimalValue digits
    let value : Int := if negative then -magnitude else magnitude
    (toString value).toList =
      (if negative ∧ magnitude ≠ 0 then ['-'] else []) ++ Numeral.significant digits := by
  intro magnitude value
  have habs : value.natAbs = magnitude := by cases negative <;> simp [value]
  have hsign : value < 0 ↔ negative = true ∧ magnitude ≠ 0 := by
    cases negative
    · simp [value]
    · simp [value, Nat.pos_iff_ne_zero]
  rw [← integerText_eq_toString, String.toList_ofList, ← digitsOf_decimalValue h, integerText, habs]
  by_cases hminus : value < 0
  · rw [if_pos hminus, if_pos (hsign.1 hminus)]
    rfl
  · rw [if_neg hminus, if_neg (mt hsign.2 hminus)]
    rfl

namespace Binary64

/-- A number from the bound of integers on stays there when it is rounded. -/
theorem bound_le_of_toInt? {negative : Bool} {m : Nat} {k : Int} (h : 9 * tenPow 15 ≤ m)
    (hint : (ofDecimal negative m 0).toInt? = some k) : 9 * tenPow 15 ≤ k.natAbs := by
  rcases Nat.lt_or_ge m (twoPow precision) with hexact | hrounded
  · rw [toInt?_ofDecimal negative hexact] at hint
    cases hint
    cases negative <;> simpa using h
  · have hbits : 9 * tenPow 15 ≤ twoPow precision := by decide
    exact hbits.trans (le_of_toInt?_ofDecimal hrounded hint)

/-- A floating point number is never written as an integer is. -/
theorem jsonText_inexact {x : Binary64} (h : x.isFinite = true) :
    '.' ∈ x.jsonText ∨ 'e' ∈ x.jsonText := by
  have hdigits (digits : List Char) (point : Int) :
      '.' ∈ jsonDigits digits point ∨ 'e' ∈ jsonDigits digits point := by
    unfold jsonDigits
    split
    · refine .inl ?_
      dsimp only
      split
      · simp
      · next hshort =>
        unfold positionalDigits
        split <;> simp
    · exact .inr (by simp [exponentDigits])
  cases x with
  | finite s m e =>
    rw [jsonText]
    split
    · exact .inl (by simp)
    · simpa using (hdigits _ _).imp (.inr ·) (.inr ·)
  | infinite | undefined => cases h

end Binary64

/-! ## Outputs -/

/-- An output of digits, with a minus or without, shows the integer that they write if it is below
`9 · 10^15`: the same digits without the zeros in front, and no minus before zero. From there on it
shows the nearest floating point number, with a fraction or an exponent, or nothing if there is
none. -/
theorem Environment.renders_whole (env : Environment) (vars : Entries Value) (cache : Cache)
    (negative : Bool) {digits : String} (hne : digits ≠ "")
    (hdigits : ∀ c ∈ digits.toList, c.isDigit = true) :
    let magnitude := Token.decimalValue digits.toList
    let value : Int := if negative then -magnitude else magnitude
    let nearest := Binary64.ofDecimal negative magnitude 0
    let source := "\x7b\x7b " ++ ((if negative then "-" else "") ++ digits) ++ " \x7d\x7d"
    (magnitude < 9 * tenPow 15 →
      env.renderText source vars cache = (.ok (toString value), cache) ∧
      (toString value).toList = (if negative ∧ magnitude ≠ 0 then ['-'] else []) ++
        Numeral.significant digits.toList) ∧
    (9 * tenPow 15 ≤ magnitude →
      env.renderText source vars cache =
        (.ok (if nearest.isFinite then String.ofList nearest.jsonText else ""), cache) ∧
      (nearest.isFinite = true → '.' ∈ nearest.jsonText ∨ 'e' ∈ nearest.jsonText)) := by
  intro magnitude value nearest source
  let n : Numeral :=
    ⟨negative, digits.toList, [], mt String.toList_eq_nil_iff.1 hne, hdigits, nofun⟩
  have hwritten : ((if negative then "-" else "") ++ digits).toList = n.toList := by
    cases negative <;> simp [n, Numeral.toList, Numeral.sign, Numeral.tail]
  have hrender := renderText_literal (n.isLiteral hwritten) env vars cache
  have hvalue : n.value = nearest := by
    simp [n, Numeral.value, nearest, magnitude]
  have hint : n.int = value := rfl
  have habs : n.int.natAbs = magnitude := by
    rw [hint]
    cases negative <;> simp [value]
  refine ⟨fun hsmall => ?_, fun hlarge => ?_⟩
  · have hsmall : n.int.natAbs < 9 * tenPow 15 := by rw [habs]; exact hsmall
    have hliteral := Number.literal_of_small (n.toInt?_value rfl hsmall) hsmall
    rw [hliteral] at hrender
    have hshown : (Value.number (.int n.int)).display = toString value := by
      rw [← hint, ← integerText_eq_toString]
      rfl
    exact ⟨hshown ▸ hrender, toList_toString_signed negative hdigits⟩
  · have hfar : ∀ k, n.value.toInt? = some k → 9 * tenPow 15 ≤ k.natAbs := fun k hk =>
      Binary64.bound_le_of_toInt? hlarge (hvalue ▸ hk)
    rw [Number.literal_of_large hfar, hvalue, Toml.Data.toValue] at hrender
    refine ⟨hrender.trans ?_, Binary64.jsonText_inexact⟩
    split <;> rfl

/-- Seven with zeros and a minus in front of it, and a whole number beyond the precision. -/
theorem Environment.renders_whole_zeros :
    ∃ env, make {} [] (.dir []) = .ok env ∧
      env.renderText "\x7b\x7b -007 \x7d\x7d" [] [] = (.ok "-7", []) ∧
      env.renderText "\x7b\x7b 9007199254740993 \x7d\x7d" [] [] =
        (.ok "9007199254740992.0", []) := by
  obtain ⟨env, hmake⟩ : ∃ env, make {} [] (.dir []) = .ok env := ⟨_, rfl⟩
  have hseven : ∀ c ∈ "007".toList, c.isDigit = true := List.all_eq_true.1 rfl
  have hodd : ∀ c ∈ "9007199254740993".toList, c.isDigit = true := List.all_eq_true.1 rfl
  have hsmall := (env.renders_whole [] [] true (by decide) hseven).1 (by decide +kernel)
  have hlarge := (env.renders_whole [] [] false (by decide) hodd).2 (by decide +kernel)
  refine ⟨env, hmake, hsmall.1, hlarge.1.trans (congrArg (Except.ok ·, []) ?_)⟩
  decide +kernel

/-- The first whole number that is not kept as an integer is written with a fraction. -/
theorem Environment.whole_with_fraction :
    ∃ env, make {} [] (.dir []) = .ok env ∧
      env.renderText "\x7b\x7b 9000000000000000 \x7d\x7d" [] [] =
        (.ok "9000000000000000.0", []) ∧
      toString (9000000000000000 : Int) = "9000000000000000" := by
  obtain ⟨env, hmake⟩ : ∃ env, make {} [] (.dir []) = .ok env := ⟨_, rfl⟩
  have hdigits : ∀ c ∈ "9000000000000000".toList, c.isDigit = true := List.all_eq_true.1 rfl
  let n : Numeral := ⟨false, "9000000000000000".toList, [], by decide, hdigits, nofun⟩
  have hwritten : "9000000000000000".toList = n.toList := (List.append_nil _).symm
  have hvalue : n.value = .ofDecimal false 9000000000000000 0 := by
    have hdecimal : Token.decimalValue ("9000000000000000".toList ++ []) = 9000000000000000 := by
      decide +kernel
    exact congrArg (Binary64.ofDecimal false · 0) hdecimal
  have hshown : (Number.literal (.ofDecimal false 9000000000000000 0)).display =
      "9000000000000000.0" := by decide +kernel
  have hrender := renderText_literal (n.isLiteral hwritten) env [] []
  rw [hvalue, hshown] at hrender
  exact ⟨env, hmake, hrender, by decide⟩

end SlotTemplates
