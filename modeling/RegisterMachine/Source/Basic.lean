import RegisterMachine.Program.Basic
import RegisterMachine.Source.Line
import RegisterMachine.Token.Lexer

/-!
# Programs from source text

A text is cut into tokens, the tokens into lines, and every line is read by
itself.  Reading stops at the twentieth faulty line.  The instructions become a
program; an instruction whose label an earlier one has is a fault of its line.
At most twenty faults are reported, in the order of the lines.
-/

namespace RegisterMachine

/-- Why a text is no program. -/
inductive SourceError where
  | lex (error : LexError)
  | lines (errors : List LineError)
deriving DecidableEq, Repr

namespace SourceError

def message : SourceError → String
  | lex error => error.message
  | lines errors => Text.Decimal.written errors.length ++ " parse error(s)"

end SourceError

namespace Source

/-- The number of faults after which reading stops. -/
def maxFaults : Nat := 20

/-- The lines of some tokens of a text that ends at byte `stop`. -/
def tokenLines (stop : Nat) : List Lexeme → List TokenLine
  | [] => [⟨[], Span.point stop, false⟩]
  | lexeme :: rest =>
      if lexeme.token = .lineEnd then ⟨[], lexeme.span, true⟩ :: tokenLines stop rest
      else match tokenLines stop rest with
        | [] => [⟨[lexeme], Span.point stop, false⟩]
        | line :: lines => { line with lexemes := lexeme :: line.lexemes } :: lines

/-- The lines that hold something, each read by itself. -/
def readLines (stop : Nat) (lexemes : List Lexeme) : List (Except LineError Line) :=
  (tokenLines stop lexemes).filterMap Line.read?

/-- The readings up to and including the one with the last of `count` faults. -/
def untilFault : Nat → List (Except LineError Line) → List (Except LineError Line)
  | 0, _ => []
  | _, [] => []
  | count + 1, .ok line :: rest => .ok line :: untilFault (count + 1) rest
  | count + 1, .error error :: rest => .error error :: untilFault count rest

/-- The readings of a text's tokens, up to the last fault that is looked at. -/
def readings (stop : Nat) (lexemes : List Lexeme) : List (Except LineError Line) :=
  untilFault maxFaults (readLines stop lexemes)

/-- The instructions of the lines that can be read, in order. -/
def goodLines (results : List (Except LineError Line)) : List Line :=
  results.filterMap Except.toOption

/-- The faults of the lines that cannot be read, in order. -/
def faults (results : List (Except LineError Line)) : List LineError :=
  results.filterMap fun
    | .ok _ => none
    | .error error => some error

/-- A program being put together and the faults found so far, the last one first. -/
structure Assembly where
  program : Program
  faults : List LineError := []

/-- Add a line to a program, or its fault to the faults. -/
def Assembly.add (assembly : Assembly) : Except LineError Line → Assembly
  | .error error => { assembly with faults := error :: assembly.faults }
  | .ok line =>
      match (Program.push line.instruction).run assembly.program with
      | .ok _ program => { assembly with program }
      | .error error program =>
          { program, faults := ⟨.instruction error, line.span⟩ :: assembly.faults }

theorem Assembly.add_of_pushed {assembly : Assembly} {line : Line} {next : Program}
    (pushed : assembly.program.pushed line.instruction = .ok next) :
    assembly.add (.ok line) = { assembly with program := next } := by
  rw [add, Program.push_of_pushed pushed]

theorem Assembly.add_of_refused {assembly : Assembly} {line : Line} {error : InstructionError}
    (refused : assembly.program.pushed line.instruction = .error error) :
    assembly.add (.ok line) =
      { assembly with faults := ⟨.instruction error, line.span⟩ :: assembly.faults } := by
  rw [add, Program.push_of_refused refused]

/-- The program of some lines, or their first faults. -/
def assemble (name : String) (results : List (Except LineError Line)) :
    Except SourceError Program :=
  let assembly := results.foldl Assembly.add { program := Program.named name }
  if assembly.faults.isEmpty then .ok assembly.program
  else .error (.lines (assembly.faults.reverse.take maxFaults))

/-- The program of a text. -/
def parse (name source : String) : Except SourceError Program :=
  match Token.lex source with
  | .error error => .error (.lex error)
  | .ok lexemes => assemble name (readings source.utf8ByteSize lexemes)

end Source

end RegisterMachine
