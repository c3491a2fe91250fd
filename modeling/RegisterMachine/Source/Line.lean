import RegisterMachine.Instruction.Operands
import RegisterMachine.Token.Basic

/-!
# Lines of source text

A line of a program is an optional label in brackets, an operation, and an
optional count of cycles in parentheses, which has to be the cost of the
operation.  The brackets of the label may be empty.  A line is read token by
token from the left, and the first token that does not fit is its fault; a line
has at most one fault.
-/

namespace RegisterMachine

/-- What a line could have gone on with. -/
inductive Expectation where
  | token (token : Token)
  | label
  | variableName
  | variableOrZero
  | instruction
  | cycleCount
  | lineEnd
deriving DecidableEq, Repr

namespace Expectation

def describe : Expectation → String
  | token expected => expected.describe
  | label => "a label"
  | variableName => "a variable"
  | variableOrZero => "a variable or 0"
  | instruction => "an instruction"
  | cycleCount => "a cycle count"
  | lineEnd => "end of line"

end Expectation

/-- What is wrong with a line. -/
inductive LineFault where
  | unexpected (expected : Expectation) (found : Token)
  | incomplete (expected : Expectation)
  | wrongNumber (expected found : UInt64)
  /-- A keyword that is not written in capitals. -/
  | smallKeyword (written keyword : String)
  | mismatchedOperands (target source : String)
  | wrongCycles (opcode : Opcode) (written : UInt64)
  | instruction (error : InstructionError)
deriving DecidableEq, Repr

namespace LineFault

def errorCode : LineFault → ErrorCode
  | unexpected _ _ | wrongNumber _ _ | smallKeyword _ _ => .unexpectedToken
  | mismatchedOperands _ _ => .mismatchedOperands
  | wrongCycles _ _ => .cycleMismatch
  | incomplete _ => .unexpectedLineEnd
  | instruction error => error.errorCode

def message : LineFault → String
  | unexpected expected found =>
      "expected " ++ expected.describe ++ ", found " ++ found.describe
  | incomplete expected => "expected " ++ expected.describe ++ ", found end of line"
  | wrongNumber expected found =>
      "expected " ++ Text.Decimal.written expected.toNat ++ ", found number " ++
        Text.Decimal.written found.toNat
  | smallKeyword written _ => "expected an instruction, found '" ++ written ++ "'"
  | mismatchedOperands target source =>
      "'" ++ target ++ " <- " ++ source ++ " ...' must read and write the same variable"
  | wrongCycles opcode written =>
      "cycle annotation (" ++ Text.Decimal.written written.toNat ++ ") does not match " ++
        opcode.name ++ " which costs " ++ Text.Decimal.written opcode.cycles
  | instruction error => error.message

/-- What to write instead, where that is plain. -/
def hint : LineFault → Option String
  | wrongNumber _ _ =>
      some "registers only move by one: use '+ 1' or '- 1', and jumps test '!= 0'"
  | smallKeyword _ keyword => some ("keywords are uppercase: '" ++ keyword ++ "'")
  | mismatchedOperands target _ => some ("write '" ++ target ++ " <- " ++ target ++ " ...'")
  | wrongCycles opcode _ =>
      some ("write (" ++ Text.Decimal.written opcode.cycles ++ ") or drop the annotation")
  | unexpected _ _ | incomplete _ | instruction _ => none

end LineFault

/-- A fault and the place in the text it is about. -/
structure LineError where
  fault : LineFault
  span : Span
deriving DecidableEq, Repr

/-- The tokens of a line.  The ending is the newline after them, or the end of the text. -/
structure TokenLine where
  lexemes : List Lexeme
  ending : Span
  /-- Whether the ending is a newline. -/
  terminated : Bool
deriving DecidableEq, Repr

/-- An instruction and the line it stands on. -/
structure Line where
  instruction : Instruction
  span : Span
deriving DecidableEq, Repr

namespace Line

/-- Something read from a line, the last token it took, and the tokens after it. -/
structure Taken (α : Type) where
  value : α
  last : Span
  rest : List Lexeme

/-- The error of a line that goes on with something else than expected. -/
def mismatch (ending : Span) (expected : Expectation) : List Lexeme → LineError
  | [] => ⟨.incomplete expected, ending⟩
  | lexeme :: _ => ⟨.unexpected expected lexeme.token, lexeme.span⟩

/-- Take a given token. -/
def takeToken (ending : Span) (token : Token) (lexemes : List Lexeme) :
    Except LineError (Taken Unit) :=
  match lexemes with
  | lexeme :: rest =>
      if lexeme.token = token then .ok ⟨(), lexeme.span, rest⟩
      else .error (mismatch ending (.token token) lexemes)
  | [] => .error (mismatch ending (.token token) lexemes)

/-- Take a name. -/
def takeName (ending : Span) (expected : Expectation) (lexemes : List Lexeme) :
    Except LineError (Taken String) :=
  match lexemes with
  | ⟨.name text, span⟩ :: rest => .ok ⟨text, span, rest⟩
  | _ => .error (mismatch ending expected lexemes)

/-- Take a given number. -/
def takeNumber (ending : Span) (value : UInt64) (lexemes : List Lexeme) :
    Except LineError (Taken Unit) :=
  match lexemes with
  | ⟨.number found, span⟩ :: rest =>
      if found = value then .ok ⟨(), span, rest⟩
      else .error ⟨.wrongNumber value found, span⟩
  | _ => .error (mismatch ending (.token (.number value)) lexemes)

/-- Take the label before an operation, if there is one. -/
def takeLabel (ending : Span) (lexemes : List Lexeme) :
    Except LineError (Option String × List Lexeme) :=
  match lexemes with
  | ⟨.openBracket, _⟩ :: ⟨.closeBracket, _⟩ :: rest => .ok (none, rest)
  | ⟨.openBracket, _⟩ :: rest => do
      let label ← takeName ending .label rest
      let bracket ← takeToken ending .closeBracket label.rest
      return (some label.value, bracket.rest)
  | _ => .ok (none, lexemes)

/-- Take what follows the `IF` of a conditional jump. -/
def takeCondition (ending : Span) (lexemes : List Lexeme) : Except LineError (Taken Op) := do
  let var ← takeName ending .variableName lexemes
  let sign ← takeToken ending .notEquals var.rest
  let zero ← takeNumber ending 0 sign.rest
  let goto ← takeToken ending .gotoWord zero.rest
  let target ← takeName ending .label goto.rest
  return { target with value := .jumpNotZero var.value target.value }

/-- Take what follows the `GOTO` of an unconditional jump. -/
def takeGoto (ending : Span) (lexemes : List Lexeme) : Except LineError (Taken Op) := do
  let target ← takeName ending .label lexemes
  return { target with value := .goto target.value }

/-- Take the change after the second variable of an assignment, if there is one. -/
def takeChange (ending : Span) (var : String) (source : Taken String) :
    Except LineError (Taken Op) :=
  match source.rest with
  | ⟨.plus, _⟩ :: rest => do
      let one ← takeNumber ending 1 rest
      return { one with value := .increase var }
  | ⟨.minus, _⟩ :: rest => do
      let one ← takeNumber ending 1 rest
      return { one with value := .decrease var }
  | _ => return { source with value := .neutral var }

/-- Take what follows the first variable of an assignment. -/
def takeAssignment (ending : Span) (var : String) (lexemes : List Lexeme) :
    Except LineError (Taken Op) := do
  let arrow ← takeToken ending .assign lexemes
  match arrow.rest with
  | ⟨.number 0, span⟩ :: rest => return ⟨.zero var, span, rest⟩
  | _ =>
      let source ← takeName ending .variableOrZero arrow.rest
      if source.value = var then takeChange ending var source
      else throw ⟨.mismatchedOperands var source.value, source.last⟩

/-- The keyword that a name would be in capitals. -/
def keywordOf? (name : String) : Option String :=
  ["IF", "GOTO"].find? fun keyword => name.toUpper == keyword

/-- Whether the assignment arrow comes next. -/
def startsWithArrow : List Lexeme → Bool
  | lexeme :: _ => lexeme.token == .assign
  | [] => false

/-- Take an operation. -/
def takeOp (ending : Span) (lexemes : List Lexeme) : Except LineError (Taken Op) :=
  match lexemes with
  | ⟨.ifWord, _⟩ :: rest => takeCondition ending rest
  | ⟨.gotoWord, _⟩ :: rest => takeGoto ending rest
  | ⟨.name name, span⟩ :: rest =>
      match keywordOf? name, startsWithArrow rest with
      | some keyword, false => .error ⟨.smallKeyword name keyword, span⟩
      | _, _ => takeAssignment ending name rest
  | _ => .error (mismatch ending .instruction lexemes)

/-- Refuse an operation on something that is no variable. -/
def checkVariable (op : Op) (span : Span) : Except LineError Unit :=
  match op.var? with
  | some var =>
      if isVariableName var then .ok ()
      else .error ⟨.instruction (.malformedVariable op.opcode var), span⟩
  | none => .ok ()

/-- Take the count of cycles after an operation, if there is one. -/
def takeCycles (ending : Span) (op : Op) (lexemes : List Lexeme) :
    Except LineError (List Lexeme) :=
  match lexemes with
  | ⟨.openParen, start⟩ :: ⟨.number written, _⟩ :: rest => do
      let close ← takeToken ending .closeParen rest
      if written.toNat = op.cycles then return close.rest
      else throw ⟨.wrongCycles op.opcode written, start.merge close.last⟩
  | ⟨.openParen, _⟩ :: rest => .error (mismatch ending .cycleCount rest)
  | _ => .ok lexemes

/-- The span of a whole line that begins at `start`, with its newline if it has one. -/
def wholeSpan (line : TokenLine) (start : Span) : Span :=
  if line.terminated then start.merge line.ending
  else match line.lexemes.getLast? with
    | some lexeme => start.merge lexeme.span
    | none => start

/-- Read a line that begins at `start`. -/
def readFrom (line : TokenLine) (start : Span) : Except LineError Line := do
  let (label, afterLabel) ← takeLabel line.ending line.lexemes
  let op ← takeOp line.ending afterLabel
  checkVariable op.value (start.merge op.last)
  let rest ← takeCycles line.ending op.value op.rest
  match rest with
  | [] => return ⟨{ op := op.value, label }, wholeSpan line start⟩
  | _ => throw (mismatch line.ending .lineEnd rest)

/-- Read a line; a line without tokens holds nothing. -/
def read? (line : TokenLine) : Option (Except LineError Line) :=
  match line.lexemes with
  | [] => none
  | lexeme :: _ => some (readFrom line lexeme.span)

end Line

end RegisterMachine
