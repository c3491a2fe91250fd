import RegisterMachine.ErrorCode
import RegisterMachine.Text.Decimal
import RegisterMachine.Text.Span

/-!
# Tokens

The tokens of the listing syntax: two keywords, the assignment arrow, the sign
of inequality, signs, brackets, numbers, names and the end of a line.
-/

namespace RegisterMachine

inductive Token where
  | ifWord
  | gotoWord
  | assign
  | notEquals
  | plus
  | minus
  | openBracket
  | closeBracket
  | openParen
  | closeParen
  | number (value : UInt64)
  | name (text : String)
  | lineEnd
deriving DecidableEq, Repr

namespace Token

/-- How a message speaks of a token. -/
def describe : Token → String
  | ifWord => "'IF'"
  | gotoWord => "'GOTO'"
  | assign => "'<-'"
  | notEquals => "'!='"
  | plus => "'+'"
  | minus => "'-'"
  | openBracket => "'['"
  | closeBracket => "']'"
  | openParen => "'('"
  | closeParen => "')'"
  | number value => "number " ++ Text.Decimal.written value.toNat
  | name text => "'" ++ text ++ "'"
  | lineEnd => "end of line"

/-- The token of a run of name characters: a keyword or a name. -/
def ofWord (word : List Char) : Token :=
  if word = ['I', 'F'] then ifWord
  else if word = ['G', 'O', 'T', 'O'] then gotoWord
  else name (String.ofList word)

end Token

/-- A token and the bytes of the text it was read from. -/
structure Lexeme where
  token : Token
  span : Span
deriving DecidableEq, Repr

/-- A place where no token can be read, with the text that stands there. -/
structure LexError where
  position : Nat
  snippet : String
deriving DecidableEq, Repr

namespace LexError

def errorCode : ErrorCode := .unexpectedCharacter

/-- What to write instead of a text that is no token. -/
def suggestionFor (snippet : String) : String :=
  if snippet = "←" ∨ snippet = "<" then "write assignment as '<-'"
  else if snippet = "≠" ∨ snippet = "!" then "write the jump condition as '!= 0'"
  else if snippet = "=" then "assignment is '<-'; the jump condition is '!='"
  else if snippet = "*" ∨ snippet = "/" then "only '+ 1' and '- 1' are instructions"
  else if Text.Decimal.isNumeral snippet.toList then
    "number literal '" ++ snippet ++ "' is too large; values must fit in 64 bits"
  else "unexpected character(s) '" ++ snippet ++ "'; comments start with '#'"

def suggestion (error : LexError) : String :=
  suggestionFor error.snippet

def message (error : LexError) : String :=
  "unexpected character '" ++ error.snippet ++ "' at byte " ++
    Text.Decimal.written error.position ++ ". " ++ error.suggestion

end LexError

end RegisterMachine
