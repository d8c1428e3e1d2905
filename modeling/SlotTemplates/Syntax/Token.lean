import SlotTemplates.Decimal.Notation
import SlotTemplates.Text.Span

/-!
# Tokens

The words of expressions and of tag arguments. `Token.describe` is how a diagnostic names a
token, and a `Lexeme` is a token with its place in the source.
-/

namespace SlotTemplates

/-- A word of an expression or of tag arguments. -/
inductive Token where
  | trueWord
  | falseWord
  | nullWord
  /-- Three points. -/
  | spread
  /-- Two question marks. -/
  | coalesce
  | tilde
  | equals
  | dot
  | braceOpen
  | braceClose
  | bracketOpen
  | bracketClose
  | parenOpen
  | parenClose
  | comma
  | colon
  | ident (name : String)
  /-- A quoted text, escapes resolved. -/
  | text (value : String)
  | number (value : Binary64)
deriving DecidableEq, Repr, Inhabited

/-- How a diagnostic names a token. -/
def Token.describe : Token → String
  | .trueWord => "'true'"
  | .falseWord => "'false'"
  | .nullWord => "'null'"
  | .spread => "'...'"
  | .coalesce => "'??'"
  | .tilde => "'~'"
  | .equals => "'='"
  | .dot => "'.'"
  | .braceOpen => "'\x7b'"
  | .braceClose => "'\x7d'"
  | .bracketOpen => "'['"
  | .bracketClose => "']'"
  | .parenOpen => "'('"
  | .parenClose => "')'"
  | .comma => "','"
  | .colon => "':'"
  | .ident name => "identifier '" ++ name ++ "'"
  | .text value => "string \"" ++ value ++ "\""
  | .number value => "number " ++ value.positional

/-- A token and the range of source it was read from. -/
structure Lexeme where
  token : Token
  span : Span
deriving DecidableEq, Repr, Inhabited

end SlotTemplates
