import RegisterMachine.Document
import RegisterMachine.Session
import RegisterMachine.Source.Basic

/-!
# Diagnostics

A diagnostic is a problem ready to be reported.  A problem of a text points at
a span of it, a problem of a program at an instruction, numbered from one.
Every error of the library has its diagnostic.
-/

namespace RegisterMachine

inductive Severity where
  | error
  | warning
deriving DecidableEq, Repr

namespace Severity

def name : Severity → String
  | error => "error"
  | warning => "warning"

end Severity

structure Diagnostic where
  severity : Severity := .error
  code : Option String := none
  message : String
  span : Option Span := none
  instruction : Option Nat := none
  notes : List String := []
  suggestion : Option String := none
  /-- The text that the span is about. -/
  source : Option String := none
deriving DecidableEq, Repr

namespace Diagnostic

/-- The short description of the code, if the code is known. -/
def summary (diagnostic : Diagnostic) : Option String := do
  let code ← diagnostic.code
  let entry ← ErrorCode.lookup code
  return entry.short

/-- The diagnostic with one more note. -/
def withNote (diagnostic : Diagnostic) (note : String) : Diagnostic :=
  { diagnostic with notes := diagnostic.notes ++ [note] }

/-- An error with a code of its own. -/
def ofCode (errorCode : ErrorCode) (message : String) : Diagnostic :=
  { code := some errorCode.code, message }

end Diagnostic

def LexError.diagnostic (error : LexError) : Diagnostic :=
  { Diagnostic.ofCode LexError.errorCode error.message with
    span := some ⟨error.position,
      error.position + max 1 (Text.byteLength error.snippet.toList)⟩
    suggestion := some error.suggestion }

def LineError.diagnostic (error : LineError) : Diagnostic :=
  { Diagnostic.ofCode error.fault.errorCode error.fault.message with
    span := some error.span
    suggestion := error.fault.hint }

/-- The diagnostics of a text that is no program, each with the text. -/
def SourceError.diagnostics (error : SourceError) (source : String) : List Diagnostic :=
  let found := match error with
    | .lex error => [error.diagnostic]
    | .lines errors => errors.map LineError.diagnostic
  found.map fun diagnostic => { diagnostic with source := some source }

def InstructionError.diagnostic (error : InstructionError) : Diagnostic :=
  let diagnostic := Diagnostic.ofCode error.errorCode error.message
  match error with
  | .duplicateLabel _ first second =>
      { diagnostic with
        instruction := some second
        notes := ["first bound at instruction #" ++ Text.Decimal.written first] }
  | .unknownInstruction _ | .missingOperand _ _ | .malformedVariable _ _ | .malformedLabel _ =>
      diagnostic

def ValidationError.diagnostic (error : ValidationError) : Diagnostic :=
  { Diagnostic.ofCode ValidationError.errorCode
      ("program '" ++ error.program ++ "' is not valid") with
    instruction := error.unbound.head?.map UnboundJump.number
    notes := error.unbound.map fun jump =>
      "instruction #" ++ Text.Decimal.written jump.number ++ " jumps to unbound label '" ++
        jump.label ++ "'"
    suggestion := some "bind each target with a '[label]' prefix on some instruction" }

def LoweringError.diagnostic (error : LoweringError) : Diagnostic :=
  Diagnostic.ofCode LoweringError.errorCode error.message

def RuntimeError.diagnostic (error : RuntimeError) : Diagnostic :=
  let diagnostic := Diagnostic.ofCode error.errorCode error.message
  match error with
  | .unresolvedLabel _ number => { diagnostic with instruction := some number }
  | .stepLimitExceeded _ _ =>
      { diagnostic with
        suggestion := some ("raise --step-limit (or SEMULATOR_STEP_LIMIT) if the program " ++
          "is expected to finish") }

def DocumentError.diagnostic (error : DocumentError) : Diagnostic :=
  match error with
  | .instruction number inner => { inner.diagnostic with instruction := some number }
  | .malformed | .missingName => Diagnostic.ofCode error.errorCode error.message

def SessionError.diagnostic (error : SessionError) : Diagnostic :=
  match error with
  | .noProgram => Diagnostic.ofCode error.errorCode error.message
  | .invalid inner => inner.diagnostic
  | .lowering inner => inner.diagnostic
  | .runtime inner => inner.diagnostic

/-- The warning about an unconditional jump without a bound target. -/
def UnboundJump.warning (jump : UnboundJump) : Diagnostic where
  severity := .warning
  message := "GOTO target '" ++ jump.label ++ "' is never bound"
  instruction := some jump.number
  suggestion := some "the run fails with SEM-R001 if this jump is taken"

/-- The warnings about a program, in the order of its instructions. -/
def Program.gotoWarnings (program : Program) : List Diagnostic :=
  program.unboundGotos.map UnboundJump.warning

end RegisterMachine
