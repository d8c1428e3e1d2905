import SlotTemplates.Decimal.Binary64

/-!
# Shortest decimal digits

A floating point number is written with the fewest digits that read back as itself.
`Binary64.shortest` finds them: among the reals that round to the number it takes a point of
the coarsest decimal grid that has one there, and of two such points the nearer one.
-/

namespace SlotTemplates

namespace Binary64

/-- The value of a positive number and the ends of the interval of reals that round to it,
over one denominator. -/
structure Neighbourhood where
  low : Nat
  value : Nat
  high : Nat
  den : Nat
  /-- Whether the ends themselves round to the number. -/
  closed : Bool

/-- The neighbourhood of `m · 2^e`. The gap below is half as wide at a power of two, the
least exponent apart. -/
def neighbourhood (m : Nat) (e : Int) : Neighbourhood :=
  let below := if m = twoPow (precision - 1) ∧ e > minExponent then 1 else 2
  let scale := if e < 2 then 1 else twoPow (e - 2).natAbs
  let den := if e < 2 then twoPow (2 - e).natAbs else 1
  { low := (4 * m - below) * scale, value := 4 * m * scale, high := (4 * m + 2) * scale,
    den := den, closed := m % 2 = 0 }

/-- Whether a point over the neighbourhood's denominator rounds to the number. -/
def Neighbourhood.holds (n : Neighbourhood) (point : Nat) : Bool :=
  if n.closed then n.low ≤ point && point ≤ n.high else n.low < point && point < n.high

/-- The neighbourhood in units of `10^p`: the ends and the value multiplied out, and the
unit, over one denominator. -/
def Neighbourhood.inUnits (n : Neighbourhood) (p : Int) : Neighbourhood × Nat :=
  if p < 0 then
    let s := tenPow p.natAbs
    ({ n with low := n.low * s, value := n.value * s, high := n.high * s }, n.den)
  else (n, n.den * tenPow p.natAbs)

/-- The multiple of `10^p` that rounds to the number, the nearer one of two. -/
def Neighbourhood.onGrid (n : Neighbourhood) (p : Int) : Option Nat :=
  let (n, unit) := n.inUnits p
  let below := n.value / unit
  match n.holds (below * unit), n.holds ((below + 1) * unit) with
  | true, true =>
    if n.value - below * unit ≤ (below + 1) * unit - n.value then some below
    else some (below + 1)
  | true, false => some below
  | false, true => some (below + 1)
  | false, false => none

/-- The first grid from `10^p` downwards that has a point, and the point. -/
def Neighbourhood.coarsest (n : Neighbourhood) : Nat → Int → Nat × Int
  | 0, p => (n.value, p)
  | tries + 1, p =>
    match n.onGrid p with
    | some digits => (digits, p)
    | none => n.coarsest tries (p - 1)

/-- Digits and decimal exponent of `m · 2^e`, which must be positive. The search starts
above the number's decimal magnitude, and a grid of 17 digits always has a point. -/
def shortest (m : Nat) (e : Int) : Nat × Int :=
  let magnitude : Int := ((m.log2 : Int) + e + 1) * 30103 / 100000 + 1
  (neighbourhood m e).coarsest 24 magnitude

end Binary64

end SlotTemplates
