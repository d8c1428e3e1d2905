import SlotTemplates.Decimal.Power

/-!
# Binary floating point, exactly

`Binary64` is the 64-bit binary format as data: a finite number is `± m · 2^e` with natural
`m` and integer `e`, so every operation below is arithmetic on `Nat` and `Int` and can be
reasoned about. `Binary64.ofRatio` rounds a quotient to the nearest number of the format, a
tie to the even significand; `ofDecimal`, `mul` and `div` are that rounding applied to an
exact result. Numbers of this module come out in one form, the significand as large as the
format allows, so two finite numbers are equal exactly if their fields are, zeros apart.
-/

namespace SlotTemplates

/-- A datum of the 64-bit binary format. -/
inductive Binary64 where
  /-- The number `± significand · 2^exponent`. -/
  | finite (negative : Bool) (significand : Nat) (exponent : Int)
  | infinite (negative : Bool)
  /-- The result of an operation that has none. -/
  | undefined
deriving DecidableEq, Repr, Inhabited

namespace Binary64

/-- The exponent of the smallest positive number. -/
def minExponent : Int := -1074

/-- The exponent of the largest finite number. -/
def maxExponent : Int := 971

/-- The number of bits in a full significand. -/
def precision : Nat := 53

/-- The zero of a sign. -/
def zero (negative : Bool) : Binary64 := .finite negative 0 minExponent

/-- `num / den` rounded to a natural number, a half to the even neighbour. -/
def roundHalfEven (num den : Nat) : Nat :=
  let q := num / den
  let r := num % den
  if 2 * r > den ∨ (2 * r = den ∧ q % 2 = 1) then q + 1 else q

/-- `num / den` with `2^e` taken out, as a pair of numerator and denominator. -/
def descale (num den : Nat) (e : Int) : Nat × Nat :=
  if e < 0 then (num * twoPow e.natAbs, den) else (num, den * twoPow e.natAbs)

/-- The exponent at which `num / den` has a significand of full width, or the least exponent
of the format if that is larger. -/
def exponentOf (num den : Nat) : Int :=
  let e : Int := (num.log2 : Int) - den.log2 - precision
  let (n, d) := descale num den e
  max minExponent (if n < d * twoPow precision then e else e + 1)

/-- The number of the format that is nearest to `± num / den`, a tie to the even
significand; infinite beyond the largest one. -/
def ofRatio (negative : Bool) (num den : Nat) : Binary64 :=
  if num = 0 then zero negative
  else
    let e := exponentOf num den
    let (n, d) := descale num den e
    let m := roundHalfEven n d
    let (m, e) := if m = twoPow precision then (twoPow (precision - 1), e + 1) else (m, e)
    if e > maxExponent then .infinite negative else .finite negative m e

/-- The number nearest to a natural number. -/
def ofNat (n : Nat) : Binary64 := ofRatio false n 1

/-- The number nearest to `± digits · 10^exponent`. The first two cases keep the powers
small: a value of at least `10^310` is infinite and one below `10^-330` is zero. -/
def ofDecimal (negative : Bool) (digits : Nat) (exponent : Int) : Binary64 :=
  let width : Int := (Nat.toDigits 10 digits).length
  if digits = 0 ∨ exponent + width < -330 then zero negative
  else if exponent + width > 311 then .infinite negative
  else if exponent < 0 then ofRatio negative digits (tenPow exponent.natAbs)
  else ofRatio negative (digits * tenPow exponent.natAbs) 1

/-- Numerator and denominator of a significand and an exponent. -/
def ratio (m : Nat) (e : Int) : Nat × Nat :=
  if e < 0 then (m, twoPow e.natAbs) else (m * twoPow e.natAbs, 1)

/-- The rounded product. -/
def mul : Binary64 → Binary64 → Binary64
  | .finite a m e, .finite b n f =>
    let (p, q) := ratio (m * n) (e + f)
    ofRatio (a != b) p q
  | .infinite a, .infinite b => .infinite (a != b)
  | .infinite a, .finite b n _ => if n = 0 then .undefined else .infinite (a != b)
  | .finite a m _, .infinite b => if m = 0 then .undefined else .infinite (a != b)
  | _, _ => .undefined

/-- The rounded quotient. -/
def div : Binary64 → Binary64 → Binary64
  | .finite a m e, .finite b n f =>
    if n = 0 then (if m = 0 then .undefined else .infinite (a != b))
    else
      let (p, q) := ratio m (e - f)
      ofRatio (a != b) p (q * n)
  | .infinite a, .finite b _ _ => .infinite (a != b)
  | .finite a _ _, .infinite b => zero (a != b)
  | _, _ => .undefined

/-- The opposite number. -/
def neg : Binary64 → Binary64
  | .finite s m e => .finite (!s) m e
  | .infinite s => .infinite (!s)
  | .undefined => .undefined

/-- Whether a number is neither infinite nor undefined. -/
def isFinite : Binary64 → Bool
  | .finite .. => true
  | _ => false

/-- Whether a number is a zero of either sign. -/
def isZero : Binary64 → Bool
  | .finite _ 0 _ => true
  | _ => false

/-- Equality of numbers: the two zeros are equal, and nothing equals the undefined datum. -/
def same : Binary64 → Binary64 → Bool
  | .undefined, _ => false
  | _, .undefined => false
  | a, b => (a.isZero && b.isZero) || a == b

/-- The integer that a number is, if it is one. -/
def toInt? : Binary64 → Option Int
  | .finite s m e =>
    let signed (n : Nat) : Int := if s then -(n : Int) else n
    if e < 0 then
      if m % twoPow e.natAbs = 0 then some (signed (m / twoPow e.natAbs)) else none
    else some (signed (m * twoPow e.natAbs))
  | _ => none

end Binary64

end SlotTemplates
