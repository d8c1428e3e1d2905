/-!
# Powers

Powers of two and of ten, as natural numbers.
-/

namespace SlotTemplates

/-- The power of two. -/
abbrev twoPow (n : Nat) : Nat := Nat.pow 2 n

/-- The power of ten. -/
abbrev tenPow (n : Nat) : Nat := Nat.pow 10 n

end SlotTemplates
