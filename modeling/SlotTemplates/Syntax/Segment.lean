import SlotTemplates.Syntax.Error
import SlotTemplates.Text.Blank

/-!
# Segments

The scanner cuts a source into text, outputs and block tags; comments are dropped. A brace
opens a tag only if a head that someone claims follows it at once, perhaps after a slash; any
other brace is text. Quoted texts and nested braces inside a tag or an output do not end it.
A comment that opens with `{#---` ends at `---#}` and not at the first `#}`.

`scanFrom` reads one construct at a time and gives each character outside of one to the text
around it, so the segments come in the order of the source and no two texts touch.
-/

namespace SlotTemplates

/-- A block tag as written. -/
structure Tag where
  /-- The head without the slash of a closing tag. -/
  head : String
  closing : Bool
  selfClosing : Bool
  /-- The text between the head and the end of the tag. -/
  args : List Char
  argsSpan : Span
  span : Span
deriving DecidableEq, Repr

/-- The form of a tag that diagnostics show. -/
def Tag.shown (closing : Bool) (head : String) : String :=
  (if closing then "\x7b/" else "\x7b") ++ head

/-- The form of a tag that diagnostics show, with its brace. -/
def Tag.display (t : Tag) : String := Tag.shown t.closing t.head ++ "\x7d"

/-- A piece of a source. -/
inductive Segment where
  | text (span : Span) (text : List Char)
  /-- `{{ … }}`: the place and the text between the braces. -/
  | output (span inner : Span) (source : List Char)
  | tag (tag : Tag)
deriving DecidableEq, Repr

/-- The range of source that a segment covers. -/
def Segment.span : Segment → Span
  | .text s _ => s
  | .output s _ _ => s
  | .tag t => t.span

namespace Scan

/-- What opens a declaration header. -/
def headerOpen : List Char := ['{', '#', '-', '-', '-']

/-- What closes a declaration header. -/
def headerClose : List Char := ['-', '-', '-', '#', '}']

/-- What closes any other comment. -/
def commentClose : List Char := ['#', '}']

/-- The text before the first place where `mark` stands, and the text after the mark. -/
def splitAt? (mark : List Char) : List Char → Option (List Char × List Char)
  | [] => if mark = [] then some ([], []) else none
  | c :: cs =>
    if mark.isPrefixOf (c :: cs) then some ([], (c :: cs).drop mark.length)
    else (splitAt? mark cs).map fun (before, rest) => (c :: before, rest)

/-- Where a tag or an output ends. -/
inductive Closer where
  | oneBrace
  | twoBraces

/-- What is left after a closer, if the text starts with it. -/
def Closer.strip? : Closer → List Char → Option (List Char)
  | .oneBrace, '}' :: cs => some cs
  | .twoBraces, '}' :: '}' :: cs => some cs
  | _, _ => none

/-- A character put in front of what stands before a closer. -/
def before (c : Char) (found : Option (List Char × List Char)) : Option (List Char × List Char) :=
  found.map fun (body, rest) => (c :: body, rest)

/-- The text up to a closer outside of quotes and of `depth` open braces, and what follows
the closer. In quotes a backslash hides the next character. -/
def close (closer : Closer) (depth : Nat) (quote : Option Char) :
    List Char → Option (List Char × List Char)
  | [] => none
  | c :: cs =>
    match quote with
    | some q =>
      if c = '\\' then
        match cs with
        | [] => none
        | d :: ds => before c (before d (close closer depth quote ds))
      else before c (close closer depth (if c = q then none else quote) cs)
    | none =>
      if c = '"' ∨ c = '\'' then before c (close closer depth (some c) cs)
      else if c = '{' then before c (close closer (depth + 1) none cs)
      else if c = '}' then
        match depth with
        | depth + 1 => before c (close closer depth none cs)
        | 0 =>
          match closer.strip? (c :: cs) with
          | some rest => some ([], rest)
          | none => before c (close closer 0 none cs)
      else before c (close closer depth none cs)

/-- The characters of a head. -/
def isHeadChar (c : Char) : Bool :=
  c.isAlphanum || c = '_' || c = '-' || c = '.' || c = ':' || c = '/'

/-- The head at the front of a text and the rest. The slash of `/}` is not part of it. -/
def splitHead : List Char → List Char × List Char
  | [] => ([], [])
  | '/' :: '}' :: cs => ([], '/' :: '}' :: cs)
  | c :: cs =>
    if isHeadChar c then
      let (head, rest) := splitHead cs
      (c :: head, rest)
    else ([], c :: cs)

/-- The white space that may follow a head. -/
def isHeadSpace (c : Char) : Bool :=
  c = ' ' || c = '\t' || c = '\n' || c = '\r' || c = '\x0c'

/-- Whether a head may be followed by this text. -/
def endsHead : List Char → Bool
  | [] => true
  | c :: _ => isHeadSpace c || c = '}' || c = '/'

/-- A construct at the front of a text: nothing for a dropped comment or else its segment, the
place where it stops, and the text after it. -/
structure Construct where
  segment : Option Segment
  stop : Nat
  rest : List Char

/-- An output after its two braces. -/
def output (pos : Nat) (s : List Char) : Except SyntaxError Construct :=
  match close .twoBraces 0 none s with
  | none => .error { span := Span.sized pos 2, fault := .unterminatedOutput }
  | some (inner, rest) =>
    let innerSpan := Span.sized (pos + 2) (byteLength inner)
    let stop := innerSpan.stop + 2
    .ok ⟨some (.output ⟨pos, stop⟩ innerSpan inner), stop, rest⟩

/-- A comment, given with its brace. -/
def comment (pos : Nat) (s : List Char) : Except SyntaxError Construct :=
  let (opened, mark) :=
    if headerOpen.isPrefixOf s then (5, headerClose) else (2, commentClose)
  match splitAt? mark (s.drop opened) with
  | none =>
    .error { span := Span.sized pos opened, fault := .unterminatedComment (String.ofList mark) }
  | some (body, rest) => .ok ⟨none, pos + opened + byteLength body + byteLength mark, rest⟩

/-- The tag of a claimed head: `body` stands between the head and the brace. -/
def tagOf (pos : Nat) (closing : Bool) (head body : List Char) : Tag :=
  let raw := trimEnd body
  let selfClosing := raw.getLast? = some '/'
  let args := if selfClosing then raw.dropLast else raw
  let start := pos + 1 + (if closing then 1 else 0) + byteLength head
  { head := String.ofList head, closing, selfClosing, args,
    argsSpan := Span.sized start (byteLength args),
    span := ⟨pos, start + byteLength body + 1⟩ }

/-- A tag after its brace and slash, if `claims` knows its head. -/
def tag (claims : String → Bool) (pos : Nat) (closing : Bool) (s : List Char) :
    Except SyntaxError (Option Construct) :=
  let (head, s) := splitHead s
  if head.isEmpty || !claims (String.ofList head) || !endsHead s then .ok none
  else
    match close .oneBrace 0 none s with
    | none =>
      let shown := Tag.shown closing (String.ofList head)
      .error { span := Span.sized pos (byteLength shown.toList), fault := .unterminatedTag shown }
    | some (body, rest) =>
      let t := tagOf pos closing head body
      if closing && (t.selfClosing || !allBlank t.args) then
        .error { span := t.span, fault := .closingTagArguments t.display }
      else .ok (some ⟨some (.tag t), t.span.stop, rest⟩)

/-- The construct at the front of a text, if there is one. -/
def construct (claims : String → Bool) (pos : Nat) (s : List Char) :
    Except SyntaxError (Option Construct) :=
  match s with
  | '{' :: '{' :: cs => (output pos cs).map some
  | '{' :: '#' :: _ => (comment pos s).map some
  | '{' :: '/' :: cs => tag claims pos true cs
  | '{' :: cs => tag claims pos false cs
  | _ => .ok none

/-- A character of text in front of segments that start after it. -/
def addText (pos : Nat) (c : Char) : List Segment → List Segment
  | .text span t :: more =>
    if span.start = pos + c.utf8Size then
      .text ⟨pos, span.stop⟩ (c :: t) :: more
    else .text (Span.sized pos c.utf8Size) [c] :: .text span t :: more
  | segments => .text (Span.sized pos c.utf8Size) [c] :: segments

/-! ### A construct leaves less text -/

theorem splitAt?_length {mark s before rest : List Char}
    (h : splitAt? mark s = some (before, rest)) : rest.length ≤ s.length := by
  induction s generalizing before rest with
  | nil =>
    simp only [splitAt?] at h
    split at h <;> cases h
    exact Nat.le_refl _
  | cons c cs ih =>
    simp only [splitAt?] at h
    split at h
    · cases h
      simp only [List.length_drop]
      omega
    · obtain ⟨⟨b, r⟩, hb, he⟩ := Option.map_eq_some_iff.1 h
      cases he
      exact Nat.le_succ_of_le (ih hb)

theorem before_eq_some {c : Char} {found : Option (List Char × List Char)}
    {body rest : List Char} (h : before c found = some (body, rest)) :
    ∃ inner, found = some (inner, rest) ∧ body = c :: inner := by
  obtain ⟨⟨b, r⟩, hb, he⟩ := Option.map_eq_some_iff.1 h
  cases he
  exact ⟨b, hb, rfl⟩

theorem strip?_length {closer : Closer} {s rest : List Char} (h : closer.strip? s = some rest) :
    rest.length < s.length := by
  unfold Closer.strip? at h
  split at h <;> cases h <;> simp only [List.length_cons] <;> omega

theorem close_length {closer : Closer} {depth : Nat} {quote : Option Char}
    {s body rest : List Char} (h : close closer depth quote s = some (body, rest)) :
    rest.length < s.length := by
  fun_induction close closer depth quote s generalizing body rest with
  | case1 => cases h
  | case2 => cases h
  | case3 _ _ _ _ ih =>
    obtain ⟨_, h, _⟩ := before_eq_some h
    obtain ⟨_, h, _⟩ := before_eq_some h
    exact Nat.lt_succ_of_lt (Nat.lt_succ_of_lt (ih h))
  | case8 _ _ _ _ _ =>
    cases h
    exact strip?_length (by assumption)
  | _ =>
    rename_i ih
    obtain ⟨_, h, _⟩ := before_eq_some h
    exact Nat.lt_succ_of_lt (ih h)

theorem output_length {pos : Nat} {s : List Char} {k : Construct} (h : output pos s = .ok k) :
    k.rest.length < s.length := by
  unfold output at h
  split at h
  · cases h
  · cases h
    exact close_length (by assumption)

theorem comment_length {pos : Nat} {s : List Char} {k : Construct} (h : comment pos s = .ok k) :
    k.rest.length ≤ s.length - 2 := by
  have body : ∀ (opened : Nat) (mark : List Char), 2 ≤ opened →
      ∀ {before rest : List Char}, splitAt? mark (s.drop opened) = some (before, rest) →
        rest.length ≤ s.length - 2 := by
    intro opened mark ho before rest hs
    have := splitAt?_length hs
    simp only [List.length_drop] at this
    omega
  unfold comment at h
  split at h
  rename_i opened mark hm
  have ho : 2 ≤ opened := by
    split at hm <;> cases hm <;> decide
  split at h
  · cases h
  · cases h
    exact body opened mark ho (by assumption)

theorem splitHead_length (s : List Char) : (splitHead s).2.length ≤ s.length := by
  fun_induction splitHead s with
  | case1 => exact Nat.le_refl _
  | case2 => exact Nat.le_refl _
  | case3 c cs _ _ head rest hr ih =>
    rw [hr] at ih
    exact Nat.le_succ_of_le ih
  | case4 => exact Nat.le_refl _

theorem tag_length {claims : String → Bool} {pos : Nat} {closing : Bool} {s : List Char}
    {k : Construct} (h : tag claims pos closing s = .ok (some k)) :
    k.rest.length < s.length := by
  have hs := splitHead_length s
  unfold tag at h
  split at h
  rename_i head rest hr
  rw [hr] at hs
  split at h
  · cases h
  · split at h
    · cases h
    · dsimp only at h
      split at h
      · cases h
      · cases h
        exact Nat.lt_of_lt_of_le (close_length (by assumption)) hs

theorem construct_length {claims : String → Bool} {pos : Nat} {s : List Char} {k : Construct}
    (h : construct claims pos s = .ok (some k)) : k.rest.length < s.length := by
  unfold construct at h
  split at h
  · rename_i cs
    cases ho : output pos cs with
    | error e => simp [ho, Except.map] at h
    | ok k' =>
      simp only [ho, Except.map, Except.ok.injEq, Option.some.injEq] at h
      subst h
      exact Nat.lt_succ_of_lt (Nat.lt_succ_of_lt (output_length ho))
  · rename_i cs
    cases ho : comment pos ('{' :: '#' :: cs) with
    | error e => simp [ho, Except.map] at h
    | ok k' =>
      simp only [ho, Except.map, Except.ok.injEq, Option.some.injEq] at h
      subst h
      have := comment_length ho
      simp only [List.length_cons] at this ⊢
      omega
  · exact Nat.lt_succ_of_lt (Nat.lt_succ_of_lt (tag_length h))
  · exact Nat.lt_succ_of_lt (tag_length h)
  · cases h

end Scan

/-- The segments of a text that starts at byte `pos` of its source, or the error at the first
construct that does not end. -/
def scanFrom (claims : String → Bool) (pos : Nat) (s : List Char) :
    Except SyntaxError (List Segment) :=
  match s with
  | [] => .ok []
  | c :: cs =>
    match _h : Scan.construct claims pos (c :: cs) with
    | .error e => .error e
    | .ok none => (scanFrom claims (pos + c.utf8Size) cs).map (Scan.addText pos c)
    | .ok (some ⟨segment, stop, rest⟩) =>
      (scanFrom claims stop rest).map (segment.toList ++ ·)
termination_by s.length
decreasing_by
  · simp
  · exact Scan.construct_length (by assumption)

/-- The segments of a source; `claims` decides which heads are block tags. -/
def scan (claims : String → Bool) (source : List Char) : Except SyntaxError (List Segment) :=
  scanFrom claims 0 source

end SlotTemplates
