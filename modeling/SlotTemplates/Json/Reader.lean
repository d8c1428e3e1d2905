import SlotTemplates.Json.Number

/-!
# Reading JSON text

`Value.ofJson` reads a whole JSON text. Nesting is limited to `maxDepth - 1` brackets. A
member that is repeated keeps its first place and takes its last value. Every step leaves
less text than it found, which is what the recursion goes by.
-/

namespace SlotTemplates

namespace Json

/-- The white space of JSON. -/
def isJsonSpace (c : Char) : Bool := c = ' ' || c = '\n' || c = '\t' || c = '\r'

/-- The text after its leading white space. -/
def skipSpace (s : List Char) : List Char := s.dropWhile isJsonSpace

theorem skipSpace_length_le (s : List Char) : (skipSpace s).length ≤ s.length :=
  length_dropWhile_le _ _

/-- The value of a hexadecimal digit. -/
def hexValue? (c : Char) : Option Nat :=
  if c.isDigit then some (c.toNat - '0'.toNat)
  else if 'a' ≤ c ∧ c ≤ 'f' then some (c.toNat - 'a'.toNat + 10)
  else if 'A' ≤ c ∧ c ≤ 'F' then some (c.toNat - 'A'.toNat + 10)
  else none

/-- The number that hexadecimal digits write. -/
def hexNumber? (digits : List Char) : Option Nat :=
  digits.foldl (fun acc c => acc.bind fun n => (hexValue? c).map (n * 16 + ·)) (some 0)

/-- Four hexadecimal digits. -/
def readHex (s : List Char) : Except JsonFailure (Taken Nat s) :=
  match s with
  | a :: b :: c :: d :: r =>
    match hexNumber? [a, b, c, d] with
    | some n => .ok ⟨n, r, by simp only [List.length_cons]; omega⟩
    | none => .error ⟨.invalidEscape, s, 4⟩
  | s => if byteLength s < 4 then failHere .endInString [] else .error ⟨.invalidEscape, s, 4⟩

/-- The character of an escape after `\u`: one unit, or the second of a surrogate pair after
the first. -/
def readUnicodeEscape (s : List Char) : Except JsonFailure (Taken Char s) :=
  match readHex s with
  | .error f => .error f
  | .ok ⟨n, r, hr⟩ =>
    if 0xDC00 ≤ n ∧ n ≤ 0xDFFF then failHere .loneSurrogate r
    else if n < 0xD800 ∨ 0xDBFF < n then .ok ⟨Char.ofNat n, r, hr⟩
    else
      match r, hr with
      | '\\' :: 'u' :: r, hr =>
        match readHex r with
        | .error f => .error f
        | .ok ⟨m, r, hm⟩ =>
          if m < 0xDC00 ∨ 0xDFFF < m then failHere .loneSurrogate r
          else
            .ok ⟨Char.ofNat ((n - 0xD800) * 0x400 + (m - 0xDC00) + 0x10000), r,
              by simp only [List.length_cons] at hr; omega⟩
      | '\\' :: [], _ => failHere .endInString []
      | '\\' :: _ :: r, _ => failHere .endOfSurrogatePair r
      | [], _ => failHere .endInString []
      | _ :: r, _ => failHere .endOfSurrogatePair r

/-- The character that a backslash and one more character stand for. -/
def simpleEscape? : Char → Option Char
  | '"' => some '"'
  | '\\' => some '\\'
  | '/' => some '/'
  | 'b' => some '\x08'
  | 'f' => some '\x0c'
  | 'n' => some '\n'
  | 'r' => some '\r'
  | 't' => some '\t'
  | _ => none

/-- A string after its opening quote; `read` holds what was read of it, last first. -/
def readString (read : List Char) (s : List Char) : Except JsonFailure (Taken String s) :=
  match s with
  | [] => failHere .endInString []
  | '"' :: r => .ok ⟨String.ofList read.reverse, r, by simp⟩
  | '\\' :: [] => failHere .endInString []
  | '\\' :: 'u' :: r =>
    match readUnicodeEscape r with
    | .error f => .error f
    | .ok ⟨c, r', hr⟩ =>
      match readString (c :: read) r' with
      | .error f => .error f
      | .ok ⟨text, rest, h⟩ => .ok ⟨text, rest, by simp only [List.length_cons]; omega⟩
  | '\\' :: e :: r =>
    match simpleEscape? e with
    | none => failHere .invalidEscape r
    | some c =>
      match readString (c :: read) r with
      | .error f => .error f
      | .ok ⟨text, rest, h⟩ => .ok ⟨text, rest, by simp only [List.length_cons]; omega⟩
  | c :: r =>
    if c.toNat < 0x20 then failHere .controlCharacter r
    else
      match readString (c :: read) r with
      | .error f => .error f
      | .ok ⟨text, rest, h⟩ => .ok ⟨text, rest, by simp only [List.length_cons]; omega⟩
termination_by s.length
decreasing_by all_goals simp_wf; try omega

/-- The letters that must follow the first letter of a word. -/
def readWord (letters : List Char) (s : List Char) : Except JsonFailure (List Char) :=
  match letters, s with
  | [], s => .ok s
  | _ :: _, [] => failHere .endInValue []
  | l :: ls, c :: cs => if c = l then readWord ls cs else failHere .expectedIdent cs

theorem readWord_length_le {letters s r : List Char} (h : readWord letters s = .ok r) :
    r.length ≤ s.length := by
  induction letters generalizing s with
  | nil =>
    cases s <;> simp [readWord] at h <;> simp [h]
  | cons l ls ih =>
    cases s with
    | nil => cases h
    | cons c cs =>
      rw [readWord] at h
      split at h
      · exact Nat.le_succ_of_le (ih h)
      · cases h

/-- One more than the number of brackets that may stand around a value. -/
def maxDepth : Nat := 128

mutual

/-- A value; `depth` is what remains of the nesting limit. -/
def readValue (depth : Nat) (s : List Char) : Except JsonFailure (Taken Value s) :=
  have hs := skipSpace_length_le s
  match hr : skipSpace s with
  | [] => failNext .endInValue []
  | c :: r =>
    have hr' : r.length < s.length := by
      rw [hr] at hs
      simp only [List.length_cons] at hs
      omega
    if c = 'n' then word Value.null ['u', 'l', 'l'] r hr'
    else if c = 't' then word (Value.bool true) ['r', 'u', 'e'] r hr'
    else if c = 'f' then word (Value.bool false) ['a', 'l', 's', 'e'] r hr'
    else if c = '-' then number true r (Nat.le_of_lt hr')
    else if c.isDigit then
      number false (c :: r) (by rw [hr] at hs; exact hs)
    else if c = '"' then
      match readString [] r with
      | .error f => .error f
      | .ok ⟨text, rest, h⟩ => .ok ⟨.string text, rest, by omega⟩
    else if c = '[' then
      if depth ≤ 1 then failNext .tooDeep (c :: r)
      else
        match readItems (depth - 1) true r with
        | .error f => .error f
        | .ok ⟨items, rest, h⟩ => .ok ⟨.array items, rest, by omega⟩
    else if c = '{' then
      if depth ≤ 1 then failNext .tooDeep (c :: r)
      else
        match readMembers (depth - 1) true r with
        | .error f => .error f
        | .ok ⟨members, rest, h⟩ => .ok ⟨.object (Entries.ofList members), rest, by omega⟩
    else failNext .expectedValue (c :: r)
termination_by (s.length, 0)
where
  /-- A word whose first letter was read. -/
  word {s : List Char} (v : Value) (letters r : List Char) (hr : r.length < s.length) :
      Except JsonFailure (Taken Value s) :=
    match h : readWord letters r with
    | .error f => .error f
    | .ok rest => .ok ⟨v, rest, Nat.lt_of_le_of_lt (readWord_length_le h) hr⟩
  /-- A number whose sign was read. -/
  number {s : List Char} (negative : Bool) (r : List Char) (hr : r.length ≤ s.length) :
      Except JsonFailure (Taken Value s) :=
    match h : readNumber negative r with
    | .error f => .error f
    | .ok (n, rest) => .ok ⟨.number n, rest, Nat.lt_of_lt_of_le (readNumber_length_lt h) hr⟩

/-- The items of an array up to its bracket; `first` says that none was read yet. -/
def readItems (depth : Nat) (first : Bool) (s : List Char) :
    Except JsonFailure (Taken (List Value) s) :=
  have hs := skipSpace_length_le s
  match hr : skipSpace s with
  | [] => failNext .endInList []
  | c :: r =>
    have hr' : r.length < s.length := by
      rw [hr] at hs
      simp only [List.length_cons] at hs
      omega
    if c = ']' then .ok ⟨[], r, hr'⟩
    else if first then
      match readValue depth (c :: r) with
      | .error f => .error f
      | .ok ⟨v, rest, h⟩ =>
        match readItems depth false rest with
        | .error f => .error f
        | .ok ⟨vs, rest', h'⟩ =>
          .ok ⟨v :: vs, rest', by simp only [List.length_cons] at h; omega⟩
    else if c = ',' then
      match skipSpace r with
      | [] => failNext .endInValue []
      | ']' :: r' => failNext .trailingComma (']' :: r')
      | _ =>
        match readValue depth r with
        | .error f => .error f
        | .ok ⟨v, rest, h⟩ =>
          match readItems depth false rest with
          | .error f => .error f
          | .ok ⟨vs, rest', h'⟩ => .ok ⟨v :: vs, rest', by omega⟩
    else failNext .expectedListEnd (c :: r)
termination_by (s.length, 1)
decreasing_by
  all_goals simp_wf
  all_goals simp_all only [List.length_cons]
  all_goals omega

/-- The members of an object up to its brace; `first` says that none was read yet. -/
def readMembers (depth : Nat) (first : Bool) (s : List Char) :
    Except JsonFailure (Taken (List (String × Value)) s) :=
  have hs := skipSpace_length_le s
  match hr : skipSpace s with
  | [] => failNext .endInObject []
  | c :: r =>
    have hr' : r.length < s.length := by
      rw [hr] at hs
      simp only [List.length_cons] at hs
      omega
    if c = '}' then .ok ⟨[], r, hr'⟩
    else if first then
      if c = '"' then readMember depth r hr' else failNext .keyNotString (c :: r)
    else if c = ',' then
      have hq := skipSpace_length_le r
      match hk : skipSpace r with
      | [] => failNext .endInValue []
      | q :: r' =>
        have hq' : r'.length < s.length := by
          rw [hk] at hq
          simp only [List.length_cons] at hq
          omega
        if q = '"' then readMember depth r' hq'
        else if q = '}' then failNext .trailingComma (q :: r')
        else failNext .keyNotString (q :: r')
    else failNext .expectedObjectEnd (c :: r)
termination_by (s.length, 0)

/-- A member after the quote of its name, and the members after it. -/
def readMember {s : List Char} (depth : Nat) (r : List Char) (hr : r.length < s.length) :
    Except JsonFailure (Taken (List (String × Value)) s) :=
  match readString [] r with
  | .error f => .error f
  | .ok ⟨name, rest, h⟩ =>
    have hc := skipSpace_length_le rest
    match hk : skipSpace rest with
    | [] => failNext .endInObject []
    | c :: r' =>
      have hr' : r'.length < r.length := by
        rw [hk] at hc
        simp only [List.length_cons] at hc
        omega
      if c = ':' then
        match readValue depth r' with
        | .error f => .error f
        | .ok ⟨v, rest', h'⟩ =>
          match readMembers depth false rest' with
          | .error f => .error f
          | .ok ⟨more, rest'', h''⟩ => .ok ⟨(name, v) :: more, rest'', by omega⟩
      else failNext .expectedColon (c :: r')
termination_by (r.length, 1)

end

/-- The value of a whole text, or the first failure. -/
def readDocument (s : List Char) : Except JsonFailure Value :=
  match readValue maxDepth s with
  | .error f => .error f
  | .ok t =>
    match skipSpace t.rest with
    | [] => .ok t.value
    | r => failNext .trailingCharacters r

end Json

/-- The value that a JSON text writes, or the message of what is wrong with it. -/
def Value.ofJson (text : String) : Except String Value :=
  match Json.readDocument text.toList with
  | .ok v => .ok v
  | .error f => .error (f.message text.toList)

end SlotTemplates
