import RegisterMachine.Source.Basic

/-!
# Intake with a cursor

The tokens of a text can be read in one go, without cutting them into lines first.
A cursor moves over them, and a line is taken token by token; its names go through
the same checks as the parts of any other instruction.  After a fault the cursor
is moved behind the next newline, and reading goes on there, round after round,
until there are no tokens left or too many faults.  The instructions are pushed
afterwards, so the faults have to be sorted by their places in the end.
-/

namespace RegisterMachine

/-- The order of errors by their places. -/
def LineError.startsBefore (one other : LineError) : Bool :=
  one.span.start ≤ other.span.start

theorem LineError.startsBefore_iff {one other : LineError} :
    one.startsBefore other = true ↔ one.span.start ≤ other.span.start :=
  decide_eq_true_iff

namespace Source

/-- A place among the tokens of a text. -/
structure Cursor where
  /-- The tokens in front of it, the nearest one first. -/
  taken : List Lexeme := []
  rest : List Lexeme
  /-- The end of the text. -/
  ending : Span
deriving DecidableEq, Repr

namespace Cursor

def peek? (cursor : Cursor) : Option Token :=
  cursor.rest.head?.map Lexeme.token

/-- The token behind the next one. -/
def second? (cursor : Cursor) : Option Token :=
  cursor.rest[1]?.map Lexeme.token

/-- Where the next token stands, or where the text ends. -/
def span (cursor : Cursor) : Span :=
  match cursor.rest with
  | lexeme :: _ => lexeme.span
  | [] => cursor.ending

/-- Where the token in front of the cursor stands. -/
def lastSpan (cursor : Cursor) : Span :=
  match cursor.taken with
  | lexeme :: _ => lexeme.span
  | [] => Span.point 0

/-- Behind the next token, if there is one. -/
def advance (cursor : Cursor) : Cursor :=
  match cursor.rest with
  | lexeme :: rest => { cursor with taken := lexeme :: cursor.taken, rest }
  | [] => cursor

def atLineEnd (cursor : Cursor) : Bool :=
  cursor.peek? == none || cursor.peek? == some .lineEnd

/-- The error of going on with something else than expected. -/
def mismatch (cursor : Cursor) (expected : Expectation) : LineError :=
  match cursor.peek? with
  | none | some .lineEnd => ⟨.incomplete expected, cursor.span⟩
  | some token => ⟨.unexpected expected token, cursor.span⟩

/-- Behind the first newline of some tokens, or behind all of them. -/
def skipFrom (ending : Span) (taken : List Lexeme) : List Lexeme → Cursor
  | [] => { taken, rest := [], ending }
  | lexeme :: rest =>
      if lexeme.token = .lineEnd then { taken := lexeme :: taken, rest, ending }
      else skipFrom ending (lexeme :: taken) rest

/-- Behind the next newline. -/
def skipLine (cursor : Cursor) : Cursor :=
  skipFrom cursor.ending cursor.taken cursor.rest

end Cursor

/-- A reading that moves a cursor: it gives a value or fails, and it leaves a cursor either way. -/
abbrev CursorM (α : Type) := EStateM LineError Cursor α

namespace CursorM

def advance : CursorM Unit :=
  modify Cursor.advance

/-- Take a given token, and give its place. -/
def expect (token : Token) : CursorM Span := fun cursor =>
  if cursor.peek? = some token then .ok cursor.span cursor.advance
  else .error (cursor.mismatch (.token token)) cursor

/-- Take a name, and give its place. -/
def expectName (expected : Expectation) : CursorM (String × Span) := fun cursor =>
  match cursor.peek? with
  | some (.name text) => .ok (text, cursor.span) cursor.advance
  | _ => .error (cursor.mismatch expected) cursor

/-- Take a given number, and give its place. -/
def expectNumber (value : UInt64) : CursorM Span := fun cursor =>
  match cursor.peek? with
  | some (.number found) =>
      if found = value then .ok cursor.span cursor.advance
      else .error ⟨.wrongNumber value found, cursor.span⟩ cursor
  | _ => .error (cursor.mismatch (.token (.number value))) cursor

/-- Take a label and the bracket behind it. -/
def labelName : CursorM (Option String) := do
  let (label, _) ← expectName .label
  let _ ← expect .closeBracket
  return some label

/-- Take the label before an operation, if there is one. -/
def label : CursorM (Option String) := do
  if (← get).peek? = some .openBracket then
    advance
    if (← get).peek? = some .closeBracket then
      advance
      return none
    else labelName
  else return none

/-- Take a conditional jump. -/
def condition : CursorM (Opcode × Operands) := do
  let _ ← expect .ifWord
  let (var, _) ← expectName .variableName
  let _ ← expect .notEquals
  let _ ← expectNumber 0
  let _ ← expect .gotoWord
  let (target, _) ← expectName .label
  return (.jumpNotZero,
    { var := some var, arguments := NameTable.empty.insert jumpArgument target })

/-- Take the change after the second variable of an assignment, if there is one. -/
def change (var : String) : CursorM (Opcode × Operands) := do
  match (← get).peek? with
  | some .plus =>
      advance
      let _ ← expectNumber 1
      return (.increase, { var := some var })
  | some .minus =>
      advance
      let _ ← expectNumber 1
      return (.decrease, { var := some var })
  | _ => return (.neutral, { var := some var })

/-- Take the second variable of an assignment and its change. -/
def copy (var : String) : CursorM (Opcode × Operands) := do
  let (source, place) ← expectName .variableOrZero
  if source = var then change var
  else throw ⟨.mismatchedOperands var source, place⟩

/-- Take an assignment. -/
def assignment : CursorM (Opcode × Operands) := do
  let (var, _) ← expectName .variableName
  let _ ← expect .assign
  if (← get).peek? = some (.number 0) then
    advance
    return (.zeroVariable, { var := some var })
  else copy var

/-- Take an unconditional jump. -/
def jump : CursorM (Opcode × Operands) := do
  advance
  let (target, _) ← expectName .label
  return (.gotoLabel, { arguments := NameTable.empty.insert gotoArgument target })

/-- Take an operation. -/
def operation : CursorM (Opcode × Operands) := do
  let cursor ← get
  match cursor.peek? with
  | some .ifWord => condition
  | some .gotoWord => jump
  | some (.name name) =>
      match Line.keywordOf? name with
      | some keyword =>
          if cursor.second? = some .assign then assignment
          else throw ⟨.smallKeyword name keyword, cursor.span⟩
      | none => assignment
  | _ => throw (cursor.mismatch .instruction)

/-- Check the parts of an instruction that stands at a place. -/
def construct (opcode : Opcode) (operands : Operands) (place : Span) : CursorM Instruction :=
  MonadExcept.ofExcept
    ((opcode.construct operands).mapError fun error => ⟨.instruction error, place⟩)

/-- Take the count of cycles in parentheses. -/
def cycleCount (instruction : Instruction) : CursorM Unit := do
  let first ← expect .openParen
  let cursor ← get
  match cursor.peek? with
  | some (.number written) =>
      advance
      let last ← expect .closeParen
      if written.toNat = instruction.cycles then return ()
      else throw ⟨.wrongCycles instruction.op.opcode written, first.merge last⟩
  | _ => throw (cursor.mismatch .cycleCount)

/-- Take the count of cycles after an instruction, if there is one. -/
def cycles (instruction : Instruction) : CursorM Unit := do
  if (← get).peek? = some .openParen then cycleCount instruction else return ()

/-- Take the end of a line. -/
def lineEnd : CursorM Unit := do
  let cursor ← get
  if cursor.atLineEnd then advance else throw (cursor.mismatch .lineEnd)

/-- Take a line with its newline. -/
def line : CursorM Line := do
  let start := (← get).span
  let label ← label
  let (opcode, operands) ← operation
  let place := start.merge (← get).lastSpan
  let instruction ← construct opcode { operands with label := label.or operands.label } place
  cycles instruction
  lineEnd
  return ⟨instruction, start.merge (← get).lastSpan⟩

end CursorM

/-- What has been read of a text, and the cursor behind it. -/
structure Intake where
  cursor : Cursor
  lines : List Line := []
  errors : List LineError := []

namespace Intake

/-- The beginning of a text with these tokens. -/
def start (source : String) (lexemes : List Lexeme) : Intake :=
  { cursor := { rest := lexemes, ending := Span.point source.utf8ByteSize } }

/-- The next round; there is none at the end of the text and after too many faults. -/
def next? (intake : Intake) : Option Intake :=
  if intake.cursor.rest = [] then none
  else if maxFaults ≤ intake.errors.length then none
  else if intake.cursor.peek? = some .lineEnd then
    some { intake with cursor := intake.cursor.advance }
  else match CursorM.line.run intake.cursor with
    | .ok line cursor => some { intake with cursor, lines := intake.lines ++ [line] }
    | .error error cursor =>
        some { intake with cursor := cursor.skipLine, errors := intake.errors ++ [error] }

/-- Round after round, as long as there is one. -/
inductive Ends : Intake → Intake → Prop
  | ended {intake : Intake} (none : intake.next? = none) : Ends intake intake
  | round {intake after last : Intake} (next : intake.next? = some after)
      (ends : Ends after last) : Ends intake last

/-- The program of the lines, or the first faults by their places. -/
def settle (name : String) (intake : Intake) : Except SourceError Program :=
  let assembly := (intake.lines.map Except.ok).foldl Assembly.add
    { program := Program.named name, faults := intake.errors.reverse }
  if assembly.faults.isEmpty then .ok assembly.program
  else .error (.lines ((assembly.faults.reverse.mergeSort LineError.startsBefore).take maxFaults))

end Intake

/-- What a text is read as with a cursor. -/
inductive ReadsAs (name source : String) : Except SourceError Program → Prop
  | lex {error : LexError} (failed : Token.lex source = .error error) :
      ReadsAs name source (.error (.lex error))
  | tokens {lexemes : List Lexeme} {last : Intake} (lexed : Token.lex source = .ok lexemes)
      (ends : (Intake.start source lexemes).Ends last) : ReadsAs name source (last.settle name)

end Source

end RegisterMachine
