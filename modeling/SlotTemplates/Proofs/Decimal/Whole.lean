import Mathlib.Data.Nat.Log
import SlotTemplates.Decimal.Binary64

/-!
# Whole numbers of the binary format

A natural number with at most `precision` bits is a number of the format, so nothing is rounded
where it is read: the number of a decimal without a fraction is the integer that its digits write
(`Binary64.toInt?_ofDecimal`). A larger number is rounded, but not to less than the numbers with
`precision` bits (`Binary64.le_of_toInt?_ofDecimal`).
-/

namespace SlotTemplates.Binary64

/-- Nothing is rounded where nothing is divided. -/
theorem roundHalfEven_one (n : Nat) : roundHalfEven n 1 = n := by
  simp [roundHalfEven, Nat.mod_one]

section
variable {n : Nat}

/-- The number of bits by which a whole number is moved to fill the significand. -/
def headroom (n : Nat) : Nat := precision - 1 - n.log2

theorem log2_lt_precision (hn : n ≠ 0) (h : n < twoPow precision) : n.log2 < precision :=
  (Nat.log2_lt hn).2 h

/-- A whole number is moved by its headroom, and has a significand of full width then. -/
theorem significand_bounds (hn : n ≠ 0) (h : n < twoPow precision) :
    twoPow (precision - 1) ≤ n * twoPow (headroom n) ∧
      n * twoPow (headroom n) < twoPow precision := by
  have hlog := log2_lt_precision hn h
  have hsum : n.log2 + headroom n = precision - 1 := by
    rw [headroom]
    omega
  constructor
  · calc twoPow (precision - 1) = 2 ^ n.log2 * twoPow (headroom n) := by
          rw [← hsum]
          exact Nat.pow_add ..
      _ ≤ n * twoPow (headroom n) := Nat.mul_le_mul_right _ (Nat.log2_self_le hn)
  · calc n * twoPow (headroom n) < 2 ^ (n.log2 + 1) * twoPow (headroom n) :=
          Nat.mul_lt_mul_of_pos_right Nat.lt_log2_self (Nat.two_pow_pos _)
      _ = twoPow precision := by
          have hfull : n.log2 + 1 + headroom n = precision := by omega
          rw [← hfull]
          exact (Nat.pow_add ..).symm

/-- A whole number moved by its headroom. -/
theorem descale_headroom (n : Nat) :
    descale n 1 (-(headroom n : Int)) = (n * twoPow (headroom n), 1) := by
  by_cases hzero : headroom n = 0
  · simp [descale, hzero]
  · simp [descale, Int.natAbs_neg, Nat.pos_of_ne_zero hzero]

theorem exponentOf_whole (hn : n ≠ 0) (h : n < twoPow precision) :
    exponentOf n 1 = -(headroom n : Int) := by
  have hlog := log2_lt_precision hn h
  obtain ⟨hfull, -⟩ := significand_bounds hn h
  have hstart : (n.log2 : Int) - (1 : Nat).log2 - precision = -((headroom n + 1 : Nat) : Int) := by
    have hone : (1 : Nat).log2 = 0 := by decide
    rw [hone, headroom]
    omega
  have hdescale : descale n 1 (-((headroom n + 1 : Nat) : Int)) =
      (n * twoPow (headroom n + 1), 1) := by
    have hneg : -((headroom n + 1 : Nat) : Int) < 0 := by omega
    rw [descale, if_pos hneg, Int.natAbs_neg, Int.natAbs_natCast]
  have hwide : ¬ n * twoPow (headroom n + 1) < 1 * twoPow precision := by
    have hdouble : n * twoPow (headroom n + 1) = n * twoPow (headroom n) * 2 := by
      rw [Nat.mul_assoc]
      rfl
    have hhalf : twoPow precision = twoPow (precision - 1) * 2 := rfl
    omega
  have hleast : minExponent ≤ -(headroom n : Int) := by
    rw [minExponent, headroom, precision]
    omega
  have hnext : -((headroom n + 1 : Nat) : Int) + 1 = -(headroom n : Int) := by omega
  simp only [exponentOf, hstart, hdescale, if_neg hwide, hnext]
  exact max_eq_right hleast

/-- A whole number is itself in the format. -/
theorem ofRatio_whole (negative : Bool) (hn : n ≠ 0) (h : n < twoPow precision) :
    ofRatio negative n 1 = .finite negative (n * twoPow (headroom n)) (-(headroom n : Int)) := by
  obtain ⟨-, hfits⟩ := significand_bounds hn h
  have hexp : ¬ -(headroom n : Int) > maxExponent := by
    rw [maxExponent]
    omega
  rw [ofRatio, if_neg hn, exponentOf_whole hn h]
  dsimp only
  rw [descale_headroom]
  dsimp only
  rw [roundHalfEven_one, if_neg hfits.ne]
  dsimp only
  rw [if_neg hexp]

theorem toInt?_zero (negative : Bool) : (zero negative).toInt? = some 0 := by
  rw [zero, toInt?]
  simp

theorem toInt?_ofRatio (negative : Bool) (h : n < twoPow precision) :
    (ofRatio negative n 1).toInt? = some (if negative then -(n : Int) else n) := by
  by_cases hn : n = 0
  · subst hn
    rw [ofRatio, if_pos rfl, toInt?_zero]
    simp
  rw [ofRatio_whole negative hn h, toInt?]
  by_cases hzero : headroom n = 0
  · simp [hzero]
  · have hneg : -(headroom n : Int) < 0 := by omega
    have hpos : 0 < twoPow (headroom n) := Nat.two_pow_pos _
    simp only [if_pos hneg, Int.natAbs_neg, Int.natAbs_natCast, Nat.mul_mod_left, if_true,
      Nat.mul_div_cancel _ hpos]

end

/-- The number of a decimal without a fraction is the integer that its digits write. -/
theorem toInt?_ofDecimal (negative : Bool) {digits : Nat} (h : digits < twoPow precision) :
    (ofDecimal negative digits 0).toInt? = some (if negative then -(digits : Int) else digits) := by
  have hwidth : (Nat.toDigits 10 digits).length ≤ 16 :=
    (Nat.length_toDigits_le_iff (by decide) (by decide)).2 (h.trans (by decide))
  have hlarge : ¬ (0 : Int) + (Nat.toDigits 10 digits).length > 311 := by omega
  by_cases hzero : digits = 0
  · subst hzero
    rw [ofDecimal, if_pos (.inl rfl), toInt?_zero]
    simp
  · have hsmall : ¬ (digits = 0 ∨ (0 : Int) + (Nat.toDigits 10 digits).length < -330) := by
      omega
    rw [ofDecimal, if_neg hsmall, if_neg hlarge, if_neg (Int.lt_irrefl 0)]
    exact (congrArg (ofRatio negative · 1) (Nat.mul_one digits)) ▸ toInt?_ofRatio negative h

/-! ## Beyond the precision -/

section
variable {n : Nat}

theorem div_le_roundHalfEven (num den : Nat) : num / den ≤ roundHalfEven num den := by
  unfold roundHalfEven
  dsimp only
  split <;> omega

/-- A number with more bits loses those behind the first ones. -/
theorem exponentOf_large (h : twoPow precision ≤ n) :
    exponentOf n 1 = ((n.log2 + 1 - precision : Nat) : Int) := by
  have hn : n ≠ 0 := by
    rintro rfl
    cases h
  have hlog : precision ≤ n.log2 := (Nat.le_log2 hn).2 h
  obtain ⟨extra, hextra⟩ : ∃ extra, n.log2 = precision + extra := Nat.exists_eq_add_of_le hlog
  have hstart : (n.log2 : Int) - (1 : Nat).log2 - precision = (extra : Int) := by
    have hone : (1 : Nat).log2 = 0 := by decide
    rw [hone]
    omega
  have hdescale : descale n 1 (extra : Int) = (n, 1 * twoPow extra) :=
    if_neg (Int.not_lt.2 (Int.natCast_nonneg extra))
  have hwide : ¬ n < 1 * twoPow extra * twoPow precision := by
    refine Nat.not_lt.2 ?_
    calc 1 * twoPow extra * twoPow precision = twoPow n.log2 := by
          rw [Nat.one_mul, hextra, Nat.add_comm]
          exact (Nat.pow_add ..).symm
      _ ≤ n := Nat.log2_self_le hn
  have hleast : minExponent ≤ (extra : Int) + 1 := by
    rw [minExponent]
    omega
  simp only [exponentOf, hstart, hdescale, if_neg hwide]
  rw [max_eq_right hleast]
  omega

theorem natAbs_of_toInt? {negative : Bool} {m : Nat} {e k : Int} (he : 0 ≤ e)
    (h : (finite negative m e).toInt? = some k) : k.natAbs = m * twoPow e.natAbs := by
  rw [toInt?, if_neg (Int.not_lt.2 he)] at h
  generalize m * twoPow e.natAbs = v at h ⊢
  cases negative <;> cases h
  · exact Int.natAbs_natCast v
  · exact (Int.natAbs_neg _).trans (Int.natAbs_natCast v)

/-- Nothing beyond the precision is rounded to a number below it. -/
theorem le_of_toInt?_ofRatio {negative : Bool} {k : Int} (h : twoPow precision ≤ n)
    (hint : (ofRatio negative n 1).toInt? = some k) : twoPow precision ≤ k.natAbs := by
  have hn : n ≠ 0 := by
    rintro rfl
    cases h
  have hlog : precision ≤ n.log2 := (Nat.le_log2 hn).2 h
  obtain ⟨extra, hextra⟩ : ∃ extra, n.log2 + 1 - precision = extra + 1 :=
    ⟨n.log2 - precision, by omega⟩
  have hsum : extra + 1 + (precision - 1) = n.log2 := by
    rw [precision] at hextra hlog ⊢
    omega
  have hdescale : descale n 1 ((extra + 1 : Nat) : Int) = (n, 1 * twoPow (extra + 1)) :=
    if_neg (Int.not_lt.2 (Int.natCast_nonneg _))
  have hfull : twoPow (precision - 1) ≤ roundHalfEven n (1 * twoPow (extra + 1)) := by
    have hpos : 0 < twoPow (extra + 1) := Nat.two_pow_pos _
    refine Nat.le_trans ?_ (div_le_roundHalfEven _ _)
    rw [Nat.one_mul, Nat.le_div_iff_mul_le hpos]
    calc twoPow (precision - 1) * twoPow (extra + 1) = twoPow n.log2 := by
          rw [← hsum, Nat.add_comm (extra + 1)]
          exact (Nat.pow_add ..).symm
      _ ≤ n := Nat.log2_self_le hn
  have hlarge {m : Nat} {e : Int} (hm : twoPow (precision - 1) ≤ m) (he : (extra : Int) + 1 ≤ e)
      (hint : (finite negative m e).toInt? = some k) : twoPow precision ≤ k.natAbs := by
    have htwo : twoPow 1 ≤ twoPow e.natAbs := Nat.pow_le_pow_right (by decide) (by omega)
    rw [natAbs_of_toInt? (by omega) hint]
    exact Nat.mul_le_mul hm htwo
  rw [ofRatio, if_neg hn, exponentOf_large h, hextra] at hint
  dsimp only at hint
  rw [hdescale] at hint
  dsimp only at hint
  split at hint
  · dsimp only at hint
    split at hint
    · cases hint
    · exact hlarge (Nat.le_refl _) (by omega) hint
  · dsimp only at hint
    split at hint
    · cases hint
    · exact hlarge hfull (by omega) hint

end

theorem le_of_toInt?_ofDecimal {negative : Bool} {digits : Nat} {k : Int}
    (h : twoPow precision ≤ digits) (hint : (ofDecimal negative digits 0).toInt? = some k) :
    twoPow precision ≤ k.natAbs := by
  have hsmall : ¬ (digits = 0 ∨ (0 : Int) + (Nat.toDigits 10 digits).length < -330) := by
    have hpos : 0 < digits := Nat.lt_of_lt_of_le (Nat.two_pow_pos _) h
    omega
  rw [ofDecimal, if_neg hsmall] at hint
  split at hint
  · cases hint
  · rw [if_neg (Int.lt_irrefl 0)] at hint
    exact le_of_toInt?_ofRatio h ((congrArg (ofRatio negative · 1) (Nat.mul_one digits)) ▸ hint)

end SlotTemplates.Binary64
