import RegisterMachine.Command.Perform

/-!
# The command line

Reads the arguments, the environment and the program file, and writes what the
command says to write.
-/

namespace RegisterMachine.Command

/-- The text of a file. -/
def readText (path : String) : IO (Except ReadError String) := do
  try
    match String.fromUTF8? (← IO.FS.readBinFile path) with
    | some text => return .ok text
    | none => return .error .notText
  catch
    | .noFileOrDirectory _ _ _ => return .error .notFound
    | error => return .error (.other (toString error))

/-- Write an outcome and give its exit code. -/
def write (outcome : Outcome) : IO UInt32 := do
  (← IO.getStdout).putStr outcome.output
  (← IO.getStderr).putStr outcome.errors
  return UInt32.ofNat outcome.exitCode

/-- Perform a request. -/
def answer : Request → IO UInt32
  | .version => write { output := versionText }
  | .perform flags action => do
      let terminal ← (← IO.getStderr).isTty
      let style : Style :=
        { json := flags.json, color := !flags.noColor && !flags.json && terminal }
      match action with
      | .explain code => write (explain style code)
      | .onFile path action => do
          write (performOnFile style path (← readText path) action)

/-- Perform what the arguments ask for. -/
def start (arguments : List String) : IO UInt32 := do
  match readArguments (← IO.getEnv "SEMULATOR_STEP_LIMIT") arguments with
  | .ok request => answer request
  | .error error => write { exitCode := 2, errors := error.message ++ "\n" }

end RegisterMachine.Command

def main (arguments : List String) : IO UInt32 :=
  RegisterMachine.Command.start arguments
