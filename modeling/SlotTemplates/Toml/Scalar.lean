import SlotTemplates.Toml.Item

/-!
# The words of TOML

Blanks, comments, strings, numbers, dates and times, each read from the front of a text. A
failure says where it arose; a *final* failure means that no other reading is tried, because
what was read so far can only be the beginning of what failed.
-/

namespace SlotTemplates.Toml

/-- A failure before the text that is left. -/
structure Failure where
  rest : List Char
  final : Bool
deriving DecidableEq

/-- A failure after which another reading may be tried. -/
def miss {α : Type} (rest : List Char) : Except Failure α := .error ⟨rest, false⟩

/-- A failure of the whole document. -/
def fail {α : Type} (rest : List Char) : Except Failure α := .error ⟨rest, true⟩

/-- The same reading, with every failure final. -/
def must {α : Type} : Except Failure α → Except Failure α
  | .ok v => .ok v
  | .error f => fail f.rest

/-! ### Blanks and comments -/

/-- A space or a tab. -/
def isSpace (c : Char) : Bool := c = ' ' || c = '\t'

/-- The text after its leading spaces and tabs. -/
def skipSpaces (s : List Char) : List Char := s.dropWhile isSpace

/-- A character that may stand in a comment: no control character but the tab. -/
def isCommentChar (c : Char) : Bool := c = '\t' || (0x20 ≤ c.toNat && c.toNat ≠ 0x7F)

/-- The text after a line end at its front. -/
def newline? : List Char → Option (List Char)
  | '\n' :: r => some r
  | '\r' :: '\n' :: r => some r
  | _ => none

/-- The text after blanks, line ends and comments; `comment` says that one is open. -/
def skipBlanks (comment : Bool) : List Char → List Char
  | [] => []
  | '\n' :: r => skipBlanks false r
  | '\r' :: '\n' :: r => skipBlanks false r
  | c :: r =>
    if comment && isCommentChar c then skipBlanks true r
    else if isSpace c then skipBlanks false r
    else if c = '#' then skipBlanks true r
    else c :: r

/-- The text after blanks and line ends. -/
def skipLines : List Char → List Char
  | [] => []
  | '\n' :: r => skipLines r
  | '\r' :: '\n' :: r => skipLines r
  | c :: r => if isSpace c then skipLines r else c :: r

/-- What may follow a value or a header on its line. -/
def lineEnd (s : List Char) : Except Failure (List Char) :=
  let s := skipSpaces s
  let s := match s with
    | '#' :: r => r.dropWhile isCommentChar
    | s => s
  match s, newline? s with
  | [], _ => .ok []
  | _, some r => .ok r
  | s, none => fail s

/-! ### Strings -/

/-- The value of a hexadecimal digit. -/
def hexDigit? (c : Char) : Option Nat :=
  if c.isDigit then some (c.toNat - '0'.toNat)
  else if 'a' ≤ c ∧ c ≤ 'f' then some (c.toNat - 'a'.toNat + 10)
  else if 'A' ≤ c ∧ c ≤ 'F' then some (c.toNat - 'A'.toNat + 10)
  else none

/-- The character with a code of `count` hexadecimal digits, and the text after them. -/
def codePoint (count : Nat) (s : List Char) : Except Failure (Char × List Char) :=
  let digits := (s.take count).takeWhile fun c => (hexDigit? c).isSome
  let code := digits.foldl (fun n c => n * 16 + (hexDigit? c).getD 0) 0
  if digits.length = count ∧ code.isValidChar then .ok (Char.ofNat code, s.drop count)
  else fail s

/-- The character of an escape after its backslash. -/
def escape (s : List Char) : Except Failure (Char × List Char) :=
  match s with
  | 'b' :: r => .ok ('\x08', r)
  | 'f' :: r => .ok ('\x0c', r)
  | 'n' :: r => .ok ('\n', r)
  | 'r' :: r => .ok ('\r', r)
  | 't' :: r => .ok ('\t', r)
  | '\\' :: r => .ok ('\\', r)
  | '"' :: r => .ok ('"', r)
  | 'u' :: r => codePoint 4 r
  | 'U' :: r => codePoint 8 r
  | _ :: r => fail r
  | [] => miss []

/-- A character that needs no escape between quotes of a kind. -/
def isPlain (quote : Char) (c : Char) : Bool :=
  isCommentChar c && c ≠ quote && !(quote = '"' && c = '\\')

/-- The rest of a string on one line; `read` holds what was read, last first. -/
def lineString (quote : Char) :
    Nat → List Char → List Char → Except Failure (String × List Char)
  | 0, _, s => fail s
  | _ + 1, _, [] => fail []
  | steps + 1, read, c :: r =>
    if c = quote then .ok (String.ofList read.reverse, r)
    else if isPlain quote c then lineString quote steps (c :: read) r
    else if quote = '"' ∧ c = '\\' then
      match escape r with
      | .ok (e, r) => lineString quote steps (e :: read) r
      | .error ⟨rest, true⟩ => fail rest
      | .error ⟨_, false⟩ => fail (c :: r)
    else fail (c :: r)

/-- Whether a text starts with something that a string over several lines may hold. -/
def startsContent (quote : Char) : List Char → Bool
  | [] => false
  | c :: r =>
    isPlain quote c || (newline? (c :: r)).isSome ||
      (quote = '"' && c = '\\' && !r.isEmpty)

/-- The rest of a string over several lines. Up to two quotes may stand anywhere in it, also
before the three that end it. -/
def linesString (quote : Char) :
    Nat → List Char → List Char → Except Failure (String × List Char)
  | 0, _, s => fail s
  | _ + 1, _, [] => fail []
  | steps + 1, read, c :: r =>
    let s := c :: r
    let go (more rest : List Char) := linesString quote steps (more ++ read) rest
    if c = quote then
      let count := (s.takeWhile (· = quote)).length
      if 3 ≤ count then
        let inside := min (count - 3) 2
        .ok (String.ofList (read.reverse ++ List.replicate inside quote), s.drop (inside + 3))
      else
        let rest := s.drop count
        if startsContent quote rest then go (List.replicate count quote) rest
        else if quote = '"' && !rest.isEmpty then fail rest
        else fail s
    else
      match newline? s with
      | some r => go ['\n'] r
      | none =>
        if isPlain quote c then go [c] r
        else if quote = '"' ∧ c = '\\' then
          match newline? (skipSpaces r) with
          | some r => go [] (skipLines r)
          | none =>
            match escape r with
            | .ok (e, r) => go [e] r
            | .error ⟨rest, true⟩ => fail rest
            | .error ⟨_, false⟩ => fail s
        else fail s

/-- The text after a line end that directly follows the opening quotes. -/
def skipFirstNewline (s : List Char) : List Char := (newline? s).getD s

/-- A string of any kind. -/
def string (s : List Char) : Except Failure (String × List Char) :=
  let steps := s.length + 1
  match s with
  | '"' :: '"' :: '"' :: r => linesString '"' steps [] (skipFirstNewline r)
  | '\'' :: '\'' :: '\'' :: r => linesString '\'' steps [] (skipFirstNewline r)
  | '"' :: r => lineString '"' steps [] r
  | '\'' :: r => lineString '\'' steps [] r
  | s => miss s

/-! ### Numbers -/

/-- Digits after a first one, with single underscores between digits. -/
def moreDigits (isDigit : Char → Bool) :
    List Char → Except Failure (List Char × List Char)
  | [] => .ok ([], [])
  | '_' :: r =>
    match r with
    | d :: _ => if isDigit d then moreDigits isDigit r else fail r
    | [] => fail []
  | c :: r =>
    if isDigit c then do
      let (ds, rest) ← moreDigits isDigit r
      return (c :: ds, rest)
    else .ok ([], c :: r)

/-- At least one digit. -/
def someDigits (isDigit : Char → Bool) :
    List Char → Except Failure (List Char × List Char)
  | c :: r =>
    if isDigit c then do
      let (ds, rest) ← moreDigits isDigit r
      return (c :: ds, rest)
    else miss (c :: r)
  | [] => miss []

/-- An optional sign; `true` for a minus. -/
def sign : List Char → Bool × List Char
  | '-' :: r => (true, r)
  | '+' :: r => (false, r)
  | s => (false, s)

/-- The sign and digits of a decimal integer. A zero is not followed by more digits. -/
def decimalInteger (s : List Char) : Except Failure ((Bool × List Char) × List Char) :=
  let (negative, r) := sign s
  match r with
  | '0' :: r => .ok ((negative, ['0']), r)
  | r => do
    let (ds, rest) ← someDigits Char.isDigit r
    return ((negative, ds), rest)

/-- The number that digits write in a base. -/
def digitsValue (base : Nat) (ds : List Char) : Nat :=
  ds.foldl (fun n c => n * base + (hexDigit? c).getD 0) 0

/-- A signed 64-bit integer, or a failure at its start. -/
def inRange (start : List Char) (n : Int) (rest : List Char) :
    Except Failure (Scalar × List Char) :=
  if -(twoPow 63 : Int) ≤ n ∧ n < twoPow 63 then .ok (.integer n, rest) else fail start

/-- An integer in a base other than ten, after its prefix. -/
def basedInteger (base : Nat) (start s : List Char) : Except Failure (Scalar × List Char) := do
  let isDigit (c : Char) := ((hexDigit? c).map fun n => decide (n < base)).getD false
  let (ds, rest) ← must (someDigits isDigit s)
  inRange start (digitsValue base ds) rest

/-- An integer. -/
def integer (s : List Char) : Except Failure (Scalar × List Char) :=
  match s with
  | '0' :: 'x' :: r => basedInteger 16 s r
  | '0' :: 'o' :: r => basedInteger 8 s r
  | '0' :: 'b' :: r => basedInteger 2 s r
  | s => do
    let ((negative, ds), rest) ← decimalInteger s
    let n : Int := digitsValue 10 ds
    inRange s (if negative then -n else n) rest

/-- The exponent of a number after its letter. -/
def exponent (s : List Char) : Except Failure (Int × List Char) := do
  let (negative, r) := sign s
  let (ds, rest) ← must (someDigits Char.isDigit r)
  let n : Int := digitsValue 10 ds
  return (if negative then -n else n, rest)

/-- An optional exponent. -/
def exponent? (s : List Char) : Except Failure (Int × List Char) :=
  match s with
  | 'e' :: r => exponent r
  | 'E' :: r => exponent r
  | s => .ok (0, s)

/-- A number with a fraction or an exponent, rounded to the nearest one. Positive infinity is
refused at its start. -/
def decimalFloat (s : List Char) : Except Failure (Scalar × List Char) := do
  let ((negative, whole), r) ← decimalInteger s
  let (fraction, r) ← (match r with
    | '.' :: r => must (someDigits Char.isDigit r)
    | 'e' :: _ => .ok ([], r)
    | 'E' :: _ => .ok ([], r)
    | _ => miss s)
  let (e, rest) ← exponent? r
  let x := Binary64.ofDecimal negative (digitsValue 10 (whole ++ fraction)) (e - fraction.length)
  if x = .infinite false then fail s else return (.float x, rest)

/-- The words for numbers that are not finite, with a sign or without. -/
def specialFloat (s : List Char) : Except Failure (Scalar × List Char) :=
  match sign s with
  | (negative, 'i' :: 'n' :: 'f' :: r) => .ok (.float (.infinite negative), r)
  | (_, 'n' :: 'a' :: 'n' :: r) => .ok (.float .undefined, r)
  | _ => miss s

/-! ### Dates and times -/

/-- A number of exactly two digits within limits. -/
def twoDigits (low high : Nat) (s : List Char) : Except Failure (Nat × List Char) :=
  match s with
  | a :: b :: r =>
    let n := digitsValue 10 [a, b]
    if a.isDigit && b.isDigit && low ≤ n && n ≤ high then .ok (n, r) else miss s
  | s => miss s

/-- One given character. -/
def literally (c : Char) (s : List Char) : Except Failure (List Char) :=
  match s with
  | d :: r => if d = c then .ok r else miss s
  | [] => miss []

/-- The number of days of a month. -/
def daysOf (year month : Nat) : Nat :=
  if month = 2 then
    if year % 4 = 0 ∧ (year % 100 ≠ 0 ∨ year % 400 = 0) then 29 else 28
  else if month ∈ [4, 6, 9, 11] then 30
  else 31

/-- A number in two digits at least. -/
def padded (n : Nat) : List Char := if n < 10 then ['0', Nat.digitChar n] else Nat.toDigits 10 n

/-- A date, as text. -/
def date (s : List Char) : Except Failure (List Char × List Char) :=
  match s with
  | a :: b :: c :: d :: '-' :: r =>
    if [a, b, c, d].all Char.isDigit then do
      let (month, r) ← must (twoDigits 1 12 r)
      let r ← must (literally '-' r)
      let (day, rest) ← must (twoDigits 1 31 r)
      if daysOf (digitsValue 10 [a, b, c, d]) month < day then fail r
      else return ([a, b, c, d] ++ '-' :: padded month ++ '-' :: padded day, rest)
    else miss s
  | s => miss s

/-- Fractional seconds, of which nine digits count and trailing zeros do not show. -/
def secondFraction (s : List Char) : List Char × List Char :=
  match s with
  | '.' :: r =>
    let digits := r.takeWhile Char.isDigit
    if digits.isEmpty then ([], s)
    else
      let shown := ((digits.take 9).reverse.dropWhile (· = '0')).reverse
      (if shown.isEmpty then [] else '.' :: shown, r.dropWhile Char.isDigit)
  | s => ([], s)

/-- A time, as text. -/
def time (s : List Char) : Except Failure (List Char × List Char) := do
  let (hour, r) ← twoDigits 0 23 s
  let r ← literally ':' r
  let (minute, r) ← must (twoDigits 0 59 r)
  let r ← must (literally ':' r)
  let (second, r) ← must (twoDigits 0 60 r)
  let (fraction, rest) := secondFraction r
  return (padded hour ++ ':' :: padded minute ++ ':' :: padded second ++ fraction, rest)

/-- The distance from universal time, as text; empty if there is none. -/
def offset (s : List Char) : Except Failure (List Char × List Char) :=
  let numbered (c : Char) (r : List Char) : Except Failure (List Char × List Char) := do
    let (hour, r) ← must (twoDigits 0 23 r)
    let r ← must (literally ':' r)
    let (minute, rest) ← must (twoDigits 0 59 r)
    let shownSign := if hour = 0 ∧ minute = 0 then '+' else c
    return (shownSign :: padded hour ++ ':' :: padded minute, rest)
  match s with
  | 'Z' :: r => .ok (['Z'], r)
  | 'z' :: r => .ok (['Z'], r)
  | '+' :: r => numbered '+' r
  | '-' :: r => numbered '-' r
  | s => .ok ([], s)

/-- The time after a date, with its distance from universal time. -/
def timeAfterDate (s : List Char) : Except Failure (List Char × List Char) :=
  match s with
  | c :: r =>
    if c = 'T' ∨ c = 't' ∨ c = ' ' then do
      let (clock, r) ← time r
      let (distance, rest) ← offset r
      return ('T' :: clock ++ distance, rest)
    else miss s
  | [] => miss []

/-- A date, a time, or both. -/
def datetime (s : List Char) : Except Failure (Scalar × List Char) :=
  match date s with
  | .ok (day, r) =>
    match timeAfterDate r with
    | .ok (clock, rest) => .ok (.datetime (String.ofList (day ++ clock)), rest)
    | .error ⟨rest, true⟩ => fail rest
    | .error ⟨_, false⟩ => .ok (.datetime (String.ofList day), r)
  | .error ⟨rest, true⟩ => fail rest
  | .error ⟨_, false⟩ => do
    let (clock, rest) ← time s
    return (.datetime (String.ofList clock), rest)

/-- The first of several readings that does not miss. -/
def firstOf {α : Type} (s : List Char) :
    List (List Char → Except Failure (α × List Char)) → Except Failure (α × List Char)
  | [] => miss s
  | reader :: more =>
    match reader s with
    | .error ⟨_, false⟩ => firstOf s more
    | result => result

/-- A value that starts like a number. -/
def numeric (s : List Char) : Except Failure (Scalar × List Char) :=
  firstOf s [datetime, decimalFloat, specialFloat, integer]

/-- A given word and the scalar it stands for. -/
def word (letters : List Char) (value : Scalar) (s : List Char) :
    Except Failure (Scalar × List Char) :=
  if letters.isPrefixOf s then .ok (value, s.drop letters.length) else fail s

/-- A scalar. -/
def scalar (s : List Char) : Except Failure (Scalar × List Char) :=
  match s with
  | [] => miss []
  | c :: _ =>
    if c = '"' ∨ c = '\'' then do
      let (text, rest) ← string s
      return (.string text, rest)
    else if c = '+' ∨ c = '-' ∨ c.isDigit then numeric s
    else if c = 't' then word ['t', 'r', 'u', 'e'] (.boolean true) s
    else if c = 'f' then word ['f', 'a', 'l', 's', 'e'] (.boolean false) s
    else if c = 'i' ∨ c = 'n' then specialFloat s
    else miss s

end SlotTemplates.Toml
