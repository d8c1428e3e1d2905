import SlotTemplates.Text.Ranges

/-!
# Blank characters

The characters that trimming removes are those with the Unicode property `White_Space`.
`blankRanges` is the table of that property; `trim` and its halves work on it. A text is
*blank* when nothing is left of it after trimming.
-/

namespace SlotTemplates

/-- The code point ranges of `White_Space`, both ends included. -/
def blankRanges : CharRanges :=
  [(0x09, 0x0D), (0x20, 0x20), (0x85, 0x85), (0xA0, 0xA0), (0x1680, 0x1680),
   (0x2000, 0x200A), (0x2028, 0x2029), (0x202F, 0x202F), (0x205F, 0x205F), (0x3000, 0x3000)]

/-- Whether a character has the property `White_Space`. -/
def isBlank (c : Char) : Bool := blankRanges.contains c

/-- Blank characters removed at the front. -/
def trimStart (cs : List Char) : List Char := cs.dropWhile isBlank

/-- Blank characters removed at the end. -/
def trimEnd (cs : List Char) : List Char := (cs.reverse.dropWhile isBlank).reverse

/-- Blank characters removed at both ends. -/
def trim (cs : List Char) : List Char := trimEnd (trimStart cs)

/-- Whether a text holds blank characters only. -/
def allBlank (cs : List Char) : Bool := cs.all isBlank

/-- `trim` on strings. -/
def trimText (s : String) : String := String.ofList (trim s.toList)

/-- `allBlank` on strings. -/
def isBlankText (s : String) : Bool := allBlank s.toList

theorem trim_eq_self {cs : List Char} (h : ∀ c ∈ cs, isBlank c = false) : trim cs = cs := by
  have dropNone : ∀ ds : List Char, (∀ c ∈ ds, isBlank c = false) → ds.dropWhile isBlank = ds := by
    intro ds hds
    cases ds with
    | nil => rfl
    | cons d ds => rw [List.dropWhile_cons, hds d List.mem_cons_self]; rfl
  rw [trim, trimStart, dropNone cs h, trimEnd,
    dropNone _ fun c hc => h c (List.mem_reverse.1 hc), List.reverse_reverse]

end SlotTemplates
