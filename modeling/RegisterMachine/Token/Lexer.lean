import RegisterMachine.Name
import RegisterMachine.Token.Basic

/-!
# From text to tokens

A text is cut into pieces from left to right.  Each piece is as long as its
kind allows: a run of spaces, tabs and carriage returns, a comment up to the
end of its line, a number, a word, or a sign of one or two characters.  The
first piece that is no token ends the reading.  A number that does not fit in
64 bits is such a piece, and so is a character that no token begins with.
-/

namespace RegisterMachine

namespace Token

/-- What a piece of text amounts to. -/
inductive Reading where
  | gap
  | token (token : Token)
  | fault
deriving DecidableEq, Repr

/-- A piece of text with its reading, and the text after it. -/
structure Piece where
  reading : Reading
  text : List Char
  rest : List Char

/-- The characters that separate tokens within a line. -/
def isGap (c : Char) : Bool :=
  c == ' ' || c == '\t' || c == '\r'

/-- A piece that begins with `c` and goes on as long as `more` holds. -/
def run (more : Char → Bool) (read : List Char → Reading) (c : Char) (cs : List Char) : Piece :=
  let text := c :: cs.takeWhile more
  ⟨read text, text, cs.dropWhile more⟩

/-- A number, unless it is too large. -/
def readNumber (digits : List Char) : Reading :=
  match Text.Decimal.readWord digits with
  | some value => .token (.number value)
  | none => .fault

/-- The signs that are tokens by themselves. -/
def sign (c : Char) : Reading :=
  if c = '+' then .token .plus
  else if c = '-' then .token .minus
  else if c = '[' then .token .openBracket
  else if c = ']' then .token .closeBracket
  else if c = '(' then .token .openParen
  else if c = ')' then .token .closeParen
  else if c = '\n' then .token .lineEnd
  else .fault

/-- A piece of a sign: the two signs of two characters, then those of one. -/
def signPiece : Char → List Char → Piece
  | '<', '-' :: rest => ⟨.token .assign, ['<', '-'], rest⟩
  | '!', '=' :: rest => ⟨.token .notEquals, ['!', '='], rest⟩
  | c, rest => ⟨sign c, [c], rest⟩

/-- The first piece of a text that begins with `c`. -/
def firstPiece (c : Char) (cs : List Char) : Piece :=
  if isGap c then run isGap (fun _ => .gap) c cs
  else if c = '#' then run (· != '\n') (fun _ => .gap) c cs
  else if c.isDigit then run Char.isDigit readNumber c cs
  else if isNameStart c then run isNameChar (fun word => .token (ofWord word)) c cs
  else signPiece c cs

theorem run_text_append_rest (more : Char → Bool) (read : List Char → Reading) (c : Char)
    (cs : List Char) : (run more read c cs).text ++ (run more read c cs).rest = c :: cs := by
  simp [run]

theorem signPiece_text_append_rest (c : Char) (cs : List Char) :
    (signPiece c cs).text ++ (signPiece c cs).rest = c :: cs := by
  unfold signPiece
  split <;> rfl

/-- A piece and the text after it make up the whole text. -/
theorem firstPiece_text_append_rest (c : Char) (cs : List Char) :
    (firstPiece c cs).text ++ (firstPiece c cs).rest = c :: cs := by
  unfold firstPiece
  split
  · exact run_text_append_rest _ _ c cs
  · split
    · exact run_text_append_rest _ _ c cs
    · split
      · exact run_text_append_rest _ _ c cs
      · split
        · exact run_text_append_rest _ _ c cs
        · exact signPiece_text_append_rest c cs

/-- No piece is empty. -/
theorem firstPiece_text_ne_nil (c : Char) (cs : List Char) : (firstPiece c cs).text ≠ [] := by
  unfold firstPiece
  split
  · simp [run]
  · split
    · simp [run]
    · split
      · simp [run]
      · split
        · simp [run]
        · unfold signPiece
          split <;> simp

/-- What follows a piece is shorter than the text. -/
theorem firstPiece_rest_length_lt (c : Char) (cs : List Char) :
    (firstPiece c cs).rest.length < (c :: cs).length := by
  have whole := congrArg List.length (firstPiece_text_append_rest c cs)
  have positive := List.length_pos_iff.mpr (firstPiece_text_ne_nil c cs)
  rw [List.length_append] at whole
  omega

/-- The tokens of a text that begins at byte `offset`. -/
def scan (offset : Nat) : List Char → Except LexError (List Lexeme)
  | [] => .ok []
  | c :: cs =>
      let piece := firstPiece c cs
      let stop := offset + Text.byteLength piece.text
      match piece.reading with
      | .gap => scan stop piece.rest
      | .token token => (scan stop piece.rest).map fun lexemes => ⟨token, ⟨offset, stop⟩⟩ :: lexemes
      | .fault => .error ⟨offset, String.ofList piece.text⟩
termination_by cs => cs.length
decreasing_by
  · exact firstPiece_rest_length_lt c cs
  · exact firstPiece_rest_length_lt c cs

/-- The tokens of a text, or the first place where there is none. -/
def lex (source : String) : Except LexError (List Lexeme) :=
  scan 0 source.toList

end Token

end RegisterMachine
