import SlotTemplates.Decimal.Shortest

/-!
# How numbers are written

Two notations for a floating point number, both with its shortest digits. `positional` never
uses an exponent and writes no fraction that is not there: a diagnostic shows a number so.
`jsonText` is the notation of JSON output: it keeps one decimal at least, and outside
`10^-5 ≤ |x| < 10^16` it writes an exponent with its sign.
-/

namespace SlotTemplates

/-- The decimal digits of a natural number. -/
def digitsOf (n : Nat) : List Char := Nat.toDigits 10 n

/-- The decimal numeral of an integer. -/
def integerText (n : Int) : List Char :=
  if n < 0 then '-' :: digitsOf n.natAbs else digitsOf n.natAbs

/-- `count` zeros. -/
def zeros (count : Nat) : List Char := List.replicate count '0'

namespace Binary64

/-- The digits of a number and the place of its point, counted from the front of the
digits. -/
def digitsAndPoint (m : Nat) (e : Int) : List Char × Int :=
  let (digits, exponent) := shortest m e
  let text := digitsOf digits
  (text, (text.length : Int) + exponent)

/-- A sign, if there is one. -/
def signText (negative : Bool) : List Char := if negative then ['-'] else []

/-- Digits without an exponent, and a fraction only if there is one. -/
def positionalDigits (digits : List Char) (point : Int) : List Char :=
  if point ≤ 0 then '0' :: '.' :: (zeros point.natAbs ++ digits)
  else if (digits.length : Int) ≤ point then digits ++ zeros (point.natAbs - digits.length)
  else digits.take point.natAbs ++ '.' :: digits.drop point.natAbs

/-- The notation of diagnostics. -/
def positional : Binary64 → String
  | .finite s m e =>
    if m = 0 then String.ofList (signText s ++ ['0'])
    else
      let (digits, point) := digitsAndPoint m e
      String.ofList (signText s ++ positionalDigits digits point)
  | .infinite s => String.ofList (signText s ++ ['i', 'n', 'f'])
  | .undefined => "NaN"

/-- Digits with an exponent: one digit before the point, none of it after if there is no
more. -/
def exponentDigits (digits : List Char) (point : Int) : List Char :=
  let exponent := point - 1
  let fraction := match digits.drop 1 with
    | [] => []
    | rest => '.' :: rest
  let sign := if exponent < 0 then '-' else '+'
  digits.take 1 ++ fraction ++ 'e' :: sign :: digitsOf exponent.natAbs

/-- Digits in JSON output. -/
def jsonDigits (digits : List Char) (point : Int) : List Char :=
  if -4 ≤ point ∧ point ≤ 16 then
    let text := positionalDigits digits point
    if (digits.length : Int) ≤ point then text ++ ['.', '0'] else text
  else exponentDigits digits point

/-- The notation of JSON output. JSON has no text for a number that is not finite. -/
def jsonText : Binary64 → List Char
  | .finite s m e =>
    if m = 0 then signText s ++ ['0', '.', '0']
    else
      let (digits, point) := digitsAndPoint m e
      signText s ++ jsonDigits digits point
  | _ => ['n', 'u', 'l', 'l']

/-! ### Where the notation changes -/

/-- The least power of ten without an exponent. -/
example : jsonDigits ['1'] (-4) = "0.00001".toList := by decide

/-- One power lower there is an exponent. -/
example : jsonDigits ['1'] (-5) = "1e-6".toList := by decide

/-- The greatest power of ten without an exponent keeps one decimal. -/
example : jsonDigits ['1'] 16 = "1000000000000000.0".toList := by decide

/-- One power higher there is an exponent, with its sign. -/
example : jsonDigits ['1', '5'] 17 = "1.5e+16".toList := by decide

end Binary64

end SlotTemplates
