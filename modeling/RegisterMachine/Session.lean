import RegisterMachine.Lowering.Basic
import RegisterMachine.Machine.Run
import RegisterMachine.Program.Validation

/-!
# Sessions

A session holds a program and the history of its runs.  Only valid programs
are loaded, and loading one forgets the runs of the program before.  What fails
leaves the session as it was.
-/

namespace RegisterMachine

inductive SessionError where
  | noProgram
  | invalid (error : ValidationError)
  | lowering (error : LoweringError)
  | runtime (error : RuntimeError)
deriving DecidableEq, Repr

namespace SessionError

def errorCode : SessionError → ErrorCode
  | noProgram => .noProgram
  | invalid _ => ValidationError.errorCode
  | lowering _ => LoweringError.errorCode
  | runtime error => error.errorCode

def message : SessionError → String
  | noProgram => "no program loaded"
  | invalid error => error.message
  | lowering error => error.message
  | runtime error => error.message

end SessionError

/-- A run that gave a result; runs are numbered from one. -/
structure RunRecord where
  number : Nat
  degree : Nat
  inputs : List Int64
  output : UInt64
  cycles : UInt64
deriving DecidableEq, Repr

structure Session where
  limit : Option UInt64 := none
  program : Option Program := none
  history : List RunRecord := []
deriving DecidableEq, Repr

/-- A call on a session: it gives a value or fails, and it leaves a session either way. -/
abbrev SessionM (α : Type) := EStateM SessionError Session α

namespace Session

/-- Add a run to the history. -/
def record (session : Session) (degree : Nat) (inputs : List Int64) (result : RunResult) :
    Session :=
  { session with
    history := session.history ++
      [{ number := session.history.length + 1, degree, inputs,
         output := result.output, cycles := result.cycles }] }

/-- The loaded program. -/
def current : SessionM Program := do
  match (← get).program with
  | some program => return program
  | none => throw .noProgram

/-- Take another program and forget the runs. -/
def load (program : Program) : SessionM Unit := do
  MonadExcept.ofExcept (program.validate.mapError .invalid)
  modify fun session => { session with program := some program, history := [] }

/-- The loaded program lowered to a degree. -/
def lower (degree : Nat) : SessionM Program := do
  let program ← current
  MonadExcept.ofExcept ((program.lowerTo degree).mapError .lowering)

/-- Run the loaded program at a degree and record the run. -/
def run (inputs : List Int64) (degree : Nat) : SessionM RunResult := do
  let lowered ← lower degree
  let result ← MonadExcept.ofExcept ((lowered.run (← get).limit inputs).mapError .runtime)
  modify fun session => session.record degree inputs result
  return result

/-- Forget the runs. -/
def clearHistory : SessionM Unit :=
  modify fun session => { session with history := [] }

end Session

end RegisterMachine
