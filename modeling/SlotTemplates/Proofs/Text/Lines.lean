import Mathlib.Data.List.Basic
import SlotTemplates.Text.Lines

/-!
# Lines and columns

The position of a character is its line and its column, both counted from one. Reading on from a
character, the next one is in the next column, or at the start of the next line if a line ends
between them (`Position.behind`). The lines that a text is divided into say the same
(`positionIn_linesOf`), and no other place has the same position (`positionIn_inj`).
-/

namespace SlotTemplates

/-- Where a character stands for a reader, counted from one. -/
structure Position where
  line : Nat
  column : Nat
deriving DecidableEq, Repr

/-- Whether a line ends with a character that a text follows: a line feed after a carriage return
belongs to it. -/
def endsLine (c : Char) (rest : List Char) : Bool :=
  isLineEnd c && !(c = '\r' && rest.head? = some '\n')

namespace Position

/-- The position of the first character of a text. -/
def first : Position := ⟨1, 1⟩

/-- The position behind a character that a text follows. -/
def next (p : Position) (c : Char) (rest : List Char) : Position :=
  if endsLine c rest then ⟨p.line + 1, 1⟩ else ⟨p.line, p.column + 1⟩

/-- The position behind characters that a text follows, if the first of them stands at `p`. -/
def behind (p : Position) : List Char → List Char → Position
  | [], _ => p
  | c :: before, after => behind (p.next c (before ++ after)) before after

/-- The same column one line further down. -/
def below (p : Position) : Position := ⟨p.line + 1, p.column⟩

theorem below_behind (p : Position) (before after : List Char) :
    p.below.behind before after = (p.behind before after).below := by
  induction before generalizing p with
  | nil => rfl
  | cons c before ih =>
    have hnext : p.below.next c (before ++ after) = (p.next c (before ++ after)).below := by
      unfold next
      split <;> rfl
    rw [behind, behind, hnext, ih]

end Position

/-- The position of a place among the characters of lines. -/
def positionIn (lines : List TextLine) (place : Nat) : Position :=
  let number := lineNumber lines place
  ⟨number + 1, place - (lines.getD number default).start + 1⟩

section
variable {place other : Nat} {before after : List Char} {c : Char} {line next : TextLine}
  {lines : List TextLine}

/-! ## Dividing a text into lines -/

/-- A line goes on up to a character that ends it. -/
theorem splitLines_cons (start : Nat) (read : List Char) (c : Char) (rest : List Char) :
    splitLines start read (c :: rest) =
      if endsLine c rest then
        ⟨start, (c :: read).reverse⟩ :: splitLines (start + read.length + 1) [] rest
      else splitLines start (c :: read) rest := by
  rw [splitLines.eq_def]
  split
  · next heq => cases heq
  · next rest heq =>
    -- the line feed after the carriage return is read with it
    cases heq
    have hends : endsLine '\r' ('\n' :: rest) = false := rfl
    simp [hends, splitLines, isLineEnd, Nat.add_assoc]
  · next d rest hpair heq =>
    cases heq
    have halone : (c = '\r' && rest.head? = some '\n') = false := by
      simp only [Bool.and_eq_false_iff, decide_eq_false_iff_not]
      refine not_and_or.1 fun ⟨hc, hhead⟩ => ?_
      obtain ⟨more, hmore⟩ := List.head?_eq_some_iff.1 hhead
      exact hpair more hc hmore
    rw [endsLine, halone, Bool.not_false, Bool.and_true]

/-- The first line starts where it is said to, and the others behind what is read. -/
theorem exists_splitLines (start : Nat) (read : List Char) (c : Char) (rest : List Char) :
    ∃ line lines, splitLines start read (c :: rest) = line :: lines ∧ line.start = start ∧
      ∀ l ∈ lines, start + read.length < l.start := by
  induction rest generalizing start read c with
  | nil =>
    rw [splitLines_cons]
    split
    · exact ⟨_, [], rfl, rfl, nofun⟩
    · exact ⟨_, [], rfl, rfl, nofun⟩
  | cons d rest ih =>
    rw [splitLines_cons]
    split
    · obtain ⟨line, lines, heq, hstart, hlines⟩ := ih (start + read.length + 1) [] d
      refine ⟨_, _, rfl, rfl, ?_⟩
      rw [heq]
      refine List.forall_mem_cons.2 ⟨by omega, fun l hl => ?_⟩
      have hl := hlines l hl
      simp only [List.length_nil] at hl
      omega
    · obtain ⟨line, lines, heq, hstart, hlines⟩ := ih start (c :: read) d
      refine ⟨line, lines, heq, hstart, fun l hl => ?_⟩
      have hl := hlines l hl
      simp only [List.length_cons] at hl
      omega

/-! ## Positions -/

/-- A place in the second line or further down. -/
theorem lineNumber_cons (hline : line.start ≤ place) (hnext : next.start ≤ place) :
    lineNumber (line :: next :: lines) place = lineNumber (next :: lines) place + 1 := by
  simp [lineNumber, hline, hnext]

theorem positionIn_cons (hline : line.start ≤ place) (hnext : next.start ≤ place) :
    positionIn (line :: next :: lines) place = (positionIn (next :: lines) place).below := by
  simp only [positionIn, lineNumber_cons hline hnext, Position.below, List.getD_cons_succ]

/-- A place in the first line. -/
theorem lineNumber_eq_zero (h : ∀ l ∈ lines, place < l.start) :
    lineNumber (line :: lines) place = 0 := by
  cases lines with
  | nil => by_cases hline : line.start ≤ place <;> simp [lineNumber, hline]
  | cons next lines =>
    have hnext := h next List.mem_cons_self
    by_cases hline : line.start ≤ place <;> simp [lineNumber, hline, hnext]

theorem positionIn_splitLines (start : Nat) (read before : List Char) (c : Char)
    (after : List Char) :
    positionIn (splitLines start read (before ++ c :: after))
        (start + read.length + before.length) =
      Position.behind ⟨1, read.length + 1⟩ before (c :: after) := by
  induction before generalizing start read with
  | nil =>
    obtain ⟨line, lines, heq, rfl, hlines⟩ := exists_splitLines start read c after
    have hnumber : lineNumber (line :: lines) _ = 0 := lineNumber_eq_zero hlines
    simp [heq, positionIn, hnumber, Position.behind]
  | cons b before ih =>
    rw [List.cons_append, splitLines_cons, Position.behind, Position.next]
    split
    · have htext : before ++ c :: after ≠ [] := by simp
      obtain ⟨d, ds, hd⟩ := List.exists_cons_of_ne_nil htext
      obtain ⟨next, lines, heq, hnext, -⟩ := exists_splitLines (start + read.length + 1) [] d ds
      have hplace : start + read.length + (b :: before).length =
          start + read.length + 1 + before.length := by simp only [List.length_cons]; omega
      have hrest := ih (start + read.length + 1) []
      rw [hd, heq, List.length_nil, Nat.add_zero, Nat.zero_add] at hrest
      rw [hd, heq, hplace, positionIn_cons (by simp only; omega) (by omega), hrest]
      exact (Position.below_behind ⟨1, 1⟩ before (c :: after)).symm
    · have hplace : start + read.length + (b :: before).length =
          start + (b :: read).length + before.length := by simp only [List.length_cons]; omega
      rw [hplace]
      exact ih start (b :: read)

/-- The lines of a text say for each character where it stands. -/
theorem positionIn_linesOf (before : List Char) (c : Char) (after : List Char) :
    positionIn (linesOf (before ++ c :: after)) before.length =
      Position.first.behind before (c :: after) := by
  have hlines := positionIn_splitLines 0 [] before c after
  rw [List.length_nil, Nat.zero_add, Nat.zero_add] at hlines
  rw [linesOf, if_neg (by simp)]
  exact hlines

/-- A place is not in front of its line. -/
theorem start_le_of_line (h : line.start ≤ place) :
    ((line :: lines).getD (lineNumber (line :: lines) place) default).start ≤ place := by
  induction lines generalizing line with
  | nil => simp [lineNumber, h]
  | cons next lines ih =>
    by_cases hnext : next.start ≤ place
    · rw [lineNumber_cons h hnext, List.getD_cons_succ]
      exact ih hnext
    · simp [lineNumber, h, hnext]

theorem start_le_of_text (text : List Char) (place : Nat) :
    ((linesOf text).getD (lineNumber (linesOf text) place) default).start ≤ place := by
  cases text with
  | nil => exact start_le_of_line (Nat.zero_le place)
  | cons c rest =>
    obtain ⟨line, lines, heq, hstart, -⟩ := exists_splitLines 0 [] c rest
    rw [linesOf, if_neg (by simp), heq]
    exact start_le_of_line (by omega)

/-- Places with one position are one place. -/
theorem positionIn_inj {text : List Char}
    (h : positionIn (linesOf text) place = positionIn (linesOf text) other) : place = other := by
  have hplace := start_le_of_text text place
  have hother := start_le_of_text text other
  obtain ⟨hline, hcolumn⟩ := Position.mk.inj h
  rw [Nat.add_right_cancel hline] at hplace hcolumn
  omega

end

end SlotTemplates
