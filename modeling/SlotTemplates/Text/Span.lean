/-!
# Spans

A place in a source text is given in bytes of its UTF-8 form. `byteLength` measures a piece
of text in them, and a `Span` names a half-open range of them. Sources are handled as lists
of characters, so that every cut falls on a character boundary by construction.
-/

namespace SlotTemplates

/-- The number of bytes that a text takes in UTF-8. -/
def byteLength : List Char → Nat
  | [] => 0
  | c :: cs => c.utf8Size + byteLength cs

@[simp] theorem byteLength_nil : byteLength [] = 0 := rfl

@[simp] theorem byteLength_cons (c : Char) (cs : List Char) :
    byteLength (c :: cs) = c.utf8Size + byteLength cs := rfl

@[simp] theorem byteLength_append (a b : List Char) :
    byteLength (a ++ b) = byteLength a + byteLength b := by
  induction a with
  | nil => simp
  | cons c a ih => simp [ih, Nat.add_assoc]

/-- A half-open byte range of a source text. -/
structure Span where
  start : Nat
  stop : Nat
deriving DecidableEq, Repr, Inhabited

namespace Span

/-- The range of a text of `length` bytes that starts at `start`. -/
def sized (start length : Nat) : Span := ⟨start, start + length⟩

/-- The same range in a source that has `offset` more bytes in front. -/
def shift (offset : Nat) (s : Span) : Span := ⟨s.start + offset, s.stop + offset⟩

/-- From the start of the first range to the end of the second. -/
def through (a b : Span) : Span := ⟨a.start, b.stop⟩

@[simp] theorem shift_start (n : Nat) (s : Span) : (s.shift n).start = s.start + n := rfl
@[simp] theorem shift_stop (n : Nat) (s : Span) : (s.shift n).stop = s.stop + n := rfl
@[simp] theorem through_start (a b : Span) : (a.through b).start = a.start := rfl
@[simp] theorem through_stop (a b : Span) : (a.through b).stop = b.stop := rfl

theorem shift_through (n : Nat) (a b : Span) :
    (a.through b).shift n = (a.shift n).through (b.shift n) := rfl

theorem shift_sized (n start length : Nat) :
    (sized start length).shift n = sized (start + n) length := by
  simp only [shift, sized, Nat.add_right_comm]

end Span

end SlotTemplates
