import SlotTemplates.Json.Fault
import SlotTemplates.Json.Value

/-!
# Reading JSON numbers

A number without fraction and exponent that fits a signed or an unsigned 64-bit integer is an
integer; `-0` and everything else is a floating point number. Its significand is read into 64
bits and then scaled by one power of ten in floating point, so the last bit can differ from
the nearest number: digits that no longer fit count as a decimal shift in the integer part
and are dropped in the fraction.
-/

namespace SlotTemplates

namespace Json

/-- The result of reading a piece of a text: a value and what is left, which is shorter. -/
structure Taken (α : Type) (s : List Char) where
  value : α
  rest : List Char
  shorter : rest.length < s.length

/-- A failure at the character that comes next. -/
def failNext {α : Type} (fault : JsonFault) (rest : List Char) : Except JsonFailure α :=
  .error ⟨fault, rest, 1⟩

/-- A failure at what was read last. -/
def failHere {α : Type} (fault : JsonFault) (rest : List Char) : Except JsonFailure α :=
  .error ⟨fault, rest, 0⟩

/-- The value of a decimal digit. -/
def digitValue (c : Char) : Nat := c.toNat - '0'.toNat

/-- A significand read from digits, how many digits it took, and what is left. -/
structure Digits where
  significand : Nat
  count : Nat
  rest : List Char

/-- The significand read on from `significand` as far as the digits go and the limit
allows. -/
def takeDigits (limit : Nat) (significand : Nat) : List Char → Digits
  | [] => ⟨significand, 0, []⟩
  | c :: cs =>
    if c.isDigit && significand * 10 + digitValue c ≤ limit then
      let d := takeDigits limit (significand * 10 + digitValue c) cs
      { d with count := d.count + 1 }
    else ⟨significand, 0, c :: cs⟩

theorem takeDigits_length_le (limit : Nat) (s : List Char) (significand : Nat) :
    (takeDigits limit significand s).rest.length ≤ s.length := by
  induction s generalizing significand with
  | nil => simp [takeDigits]
  | cons c cs ih =>
    rw [takeDigits]
    split
    · exact Nat.le_succ_of_le (ih _)
    · exact Nat.le_refl _

theorem length_dropWhile_le (p : Char → Bool) (s : List Char) :
    (s.dropWhile p).length ≤ s.length := by
  induction s with
  | nil => exact Nat.le_refl _
  | cons c cs ih =>
    rw [List.dropWhile_cons]
    split
    · exact Nat.le_succ_of_le ih
    · exact Nat.le_refl _

/-- The largest unsigned 64-bit integer. -/
def maxUnsigned : Nat := twoPow 64 - 1

/-- The largest signed 32-bit integer, the limit of an exponent. -/
def maxExponentText : Nat := twoPow 31 - 1

/-- Whether a digit comes next. -/
def startsWithDigit : List Char → Bool
  | c :: _ => c.isDigit
  | [] => false

/-- A significand scaled by a power of ten, one operation at a time; `none` if the result is
beyond the format. -/
def scale : Nat → Binary64 → Int → Option Binary64
  | 0, f, _ => some f
  | steps + 1, f, exponent =>
    if exponent.natAbs ≤ 308 then
      let power := Binary64.ofDecimal false 1 exponent.natAbs
      if 0 ≤ exponent then
        let product := f.mul power
        if product.isFinite then some product else none
      else some (f.div power)
    else if f.isZero then some f
    else if 0 ≤ exponent then none
    else scale steps (f.div (Binary64.ofDecimal false 1 308)) (exponent + 308)

/-- The floating point number of a significand and an exponent. Three steps are enough: two
divisions by `10^308` take any significand to zero. -/
def fromParts (negative : Bool) (significand : Nat) (exponent : Int) (rest : List Char) :
    Except JsonFailure Number :=
  match scale 4 (Binary64.ofNat significand) exponent with
  | some f => .ok (.float (if negative then f.neg else f))
  | none => failHere .numberOutOfRange rest

/-- The exponent after `e`, and with it the number. -/
def readExponent (negative : Bool) (significand : Nat) (start : Int) (s : List Char) :
    Except JsonFailure (Number × List Char) :=
  match s with
  | '+' :: r => digits true r
  | '-' :: r => digits false r
  | r => digits true r
where
  /-- The digits of the exponent after its sign. -/
  digits (positive : Bool) : List Char → Except JsonFailure (Number × List Char)
  | [] => failHere .endInValue []
  | c :: r =>
    if c.isDigit then
      let d := takeDigits maxExponentText (digitValue c) r
      if startsWithDigit d.rest then
        if significand ≠ 0 && positive then failHere .numberOutOfRange (d.rest.drop 1)
        else .ok (.float (Binary64.zero negative), d.rest.dropWhile Char.isDigit)
      else
        let e : Int := d.significand
        do
          let exponent := if positive then start + e else start - e
          let n ← fromParts negative significand exponent d.rest
          .ok (n, d.rest)
    else failHere .invalidNumber r

/-- The fraction after the point, and with it the number. -/
def readFraction (negative : Bool) (significand : Nat) (start : Int) (s : List Char) :
    Except JsonFailure (Number × List Char) :=
  let d := takeDigits maxUnsigned significand s
  let exponent := start - d.count
  if d.count = 0 && !startsWithDigit d.rest then
    match d.rest with
    | [] => failNext .endInValue []
    | r => failNext .invalidNumber r
  else
    match d.rest.dropWhile Char.isDigit with
    | 'e' :: r => readExponent negative d.significand exponent r
    | 'E' :: r => readExponent negative d.significand exponent r
    | r => do
      let n ← fromParts negative d.significand exponent r
      .ok (n, r)

/-- What may follow the digits of an integer part; `shift` counts the digits that did not
fit, and is `none` if all did. -/
def readTail (negative : Bool) (significand : Nat) (shift : Option Nat) (s : List Char) :
    Except JsonFailure (Number × List Char) :=
  match s with
  | '.' :: r => readFraction negative significand (shift.getD 0) r
  | 'e' :: r => readExponent negative significand (shift.getD 0) r
  | 'E' :: r => readExponent negative significand (shift.getD 0) r
  | r =>
    match shift with
    | some places => do
      let n ← fromParts negative significand places r
      .ok (n, r)
    | none =>
      if !negative then .ok (.int significand, r)
      else if 0 < significand && significand ≤ twoPow 63 then .ok (.int (-(significand : Int)), r)
      else .ok (.float (Binary64.ofNat significand).neg, r)

/-- A number after its sign. -/
def readNumber (negative : Bool) (s : List Char) : Except JsonFailure (Number × List Char) :=
  match s with
  | [] => failHere .endInValue []
  | '0' :: r =>
    if startsWithDigit r then failNext .invalidNumber r else readTail negative 0 none r
  | c :: r =>
    if c.isDigit then
      let d := takeDigits maxUnsigned (digitValue c) r
      if startsWithDigit d.rest then
        readTail negative d.significand (some (d.rest.takeWhile Char.isDigit).length)
          (d.rest.dropWhile Char.isDigit)
      else readTail negative d.significand none d.rest
    else failHere .invalidNumber r

/-! ### A number leaves no more than there was -/

theorem fromParts_rest {negative : Bool} {m : Nat} {e : Int} {rest : List Char}
    {n : Number} {r : List Char}
    (h : (do let n ← fromParts negative m e rest; .ok (n, rest) :
      Except JsonFailure (Number × List Char)) = .ok (n, r)) : r = rest := by
  cases hp : fromParts negative m e rest with
  | error f => simp [hp, bind, Except.bind] at h
  | ok v => simp [hp, bind, Except.bind] at h; exact h.2.symm

theorem readExponent_length_le {negative : Bool} {m : Nat} {start : Int} {s : List Char}
    {n : Number} {r : List Char} (h : readExponent negative m start s = .ok (n, r)) :
    r.length ≤ s.length := by
  have body : ∀ (positive : Bool) (d : List Char), d.length ≤ s.length →
      readExponent.digits negative m start positive d = .ok (n, r) → r.length ≤ s.length := by
    intro positive d hd h
    cases d with
    | nil => cases h
    | cons c d =>
      have ht := takeDigits_length_le maxExponentText d (digitValue c)
      simp only [List.length_cons] at hd
      unfold readExponent.digits at h
      dsimp only at h
      split at h
      · split at h
        · split at h
          · cases h
          · cases h
            exact Nat.le_trans (length_dropWhile_le _ _) (by omega)
        · rw [fromParts_rest h]
          omega
      · cases h
  unfold readExponent at h
  split at h
  · exact body _ _ (by simp) h
  · exact body _ _ (by simp) h
  · exact body _ _ (Nat.le_refl _) h

theorem readFraction_length_le {negative : Bool} {m : Nat} {start : Int} {s : List Char}
    {n : Number} {r : List Char} (h : readFraction negative m start s = .ok (n, r)) :
    r.length ≤ s.length := by
  have ht := takeDigits_length_le maxUnsigned s m
  have hd := length_dropWhile_le Char.isDigit (takeDigits maxUnsigned m s).rest
  unfold readFraction at h
  dsimp only at h
  split at h
  · split at h <;> cases h
  · split at h
    · rename_i hr
      have := readExponent_length_le h
      rw [hr] at hd
      simp only [List.length_cons] at hd
      omega
    · rename_i hr
      have := readExponent_length_le h
      rw [hr] at hd
      simp only [List.length_cons] at hd
      omega
    · rw [fromParts_rest h]
      omega

theorem readTail_length_le {negative : Bool} {m : Nat} {shift : Option Nat} {s : List Char}
    {n : Number} {r : List Char} (h : readTail negative m shift s = .ok (n, r)) :
    r.length ≤ s.length := by
  unfold readTail at h
  split at h
  · exact Nat.le_succ_of_le (readFraction_length_le h)
  · exact Nat.le_succ_of_le (readExponent_length_le h)
  · exact Nat.le_succ_of_le (readExponent_length_le h)
  · split at h
    · exact Nat.le_of_eq (congrArg List.length (fromParts_rest h))
    · split at h
      · cases h
        exact Nat.le_refl _
      · split at h <;> cases h <;> exact Nat.le_refl _

theorem readNumber_length_lt {negative : Bool} {s : List Char} {n : Number} {r : List Char}
    (h : readNumber negative s = .ok (n, r)) : r.length < s.length := by
  unfold readNumber at h
  split at h
  · cases h
  · split at h
    · cases h
    · exact Nat.lt_succ_of_le (readTail_length_le h)
  · rename_i c s _
    have ht := takeDigits_length_le maxUnsigned s (digitValue c)
    have hd := length_dropWhile_le Char.isDigit (takeDigits maxUnsigned (digitValue c) s).rest
    split at h
    · dsimp only at h
      split at h
      · have := readTail_length_le h
        simp only [List.length_cons]
        omega
      · have := readTail_length_le h
        simp only [List.length_cons]
        omega
    · cases h

end Json

end SlotTemplates
