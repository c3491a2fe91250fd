import RegisterMachine.Command.Arguments
import RegisterMachine.Command.Path
import RegisterMachine.Diagnostic.Record
import RegisterMachine.Diagnostic.Terminal
import RegisterMachine.Program.Listing

/-!
# Actions

An action reads a program file, if it needs one, and ends with an exit code and
the texts for the two output channels.  A file with the extension `json` is a
document, any other one source text; either way the program has to be valid.
Results go to the standard output, diagnostics to the error output, in both
cases as text or as JSON.
-/

namespace RegisterMachine.Command

/-- Why the text of a file cannot be had. -/
inductive ReadError where
  | notFound
  /-- The bytes of the file are no UTF-8. -/
  | notText
  | other (reason : String)
deriving DecidableEq, Repr

def ReadError.message : ReadError → String
  | notFound => "No such file or directory (os error 2)"
  | notText => "stream did not contain valid UTF-8"
  | other reason => reason

/-- What a command writes and how it ends. -/
structure Outcome where
  exitCode : Nat := 0
  output : String := ""
  errors : String := ""
deriving DecidableEq, Repr

/-- How diagnostics are written. -/
structure Style where
  json : Bool
  color : Bool
deriving DecidableEq, Repr

/-- A diagnostic on the error output. -/
def Style.report (style : Style) (diagnostic : Diagnostic) : String :=
  if style.json then diagnostic.recordText ++ "\n" else diagnostic.terminalText style.color

/-- Diagnostics on the error output, in order. -/
def Style.reportAll (style : Style) (diagnostics : List Diagnostic) : String :=
  String.join (diagnostics.map style.report)

/-- An action that ends with diagnostics, after some output. -/
def failed (style : Style) (diagnostics : List Diagnostic) (output : String) : Outcome where
  exitCode := 1
  output := output
  errors := style.reportAll diagnostics

/-- The note that names the file of a problem. -/
def fileNote (path : String) : String :=
  "in " ++ path

/-- The program in the text of a file. -/
def readProgram (path text : String) : Except (List Diagnostic) Program :=
  if extension? path = some "json" then
    match Document.parse text >>= fun document => document.build (some (fileStem path)) with
    | .ok program => .ok program
    | .error error => .error [error.diagnostic.withNote (fileNote path)]
  else
    match Source.parse (fileStem path) text with
    | .ok program => .ok program
    | .error error => .error (error.diagnostics text)

/-- The valid program in a file, and a session with it. -/
def load (path : String) (contents : Except ReadError String) (limit : Option UInt64) :
    Except (List Diagnostic) (Program × Session) := do
  let text ← match contents with
    | .ok text => pure text
    | .error error => throw [{ message := "cannot read " ++ path ++ ": " ++ error.message }]
  let program ← readProgram path text
  match (Session.load program).run { limit } with
  | .ok () session => return (program, session)
  | .error error _ => throw [error.diagnostic.withNote (fileNote path)]

/-- A program as a document on lines of its own. -/
def documentText (program : Program) : String :=
  (Document.ofProgram program).render ++ "\n"

/-- Show a program: its document, or its summary and its listing. -/
def display (program : Program) (json : Bool) : String :=
  if json then documentText program else program.summary ++ program.listing

/-- The account of a program that has been checked. -/
def checkText (program : Program) (json : Bool) : String :=
  if json then
    (Json.ofFields
      [("instructions", Json.ofNat program.length),
       ("max_degree", Json.ofNat program.maxDegree),
       ("ok", .bool true),
       ("program", Json.ofString program.name),
       ("warnings", Json.ofNat program.gotoWarnings.length)]).compact ++ "\n"
  else
    "ok: " ++ program.name ++ " (" ++ Text.Decimal.written program.length ++
      " instruction(s), max degree " ++ Text.Decimal.written program.maxDegree ++ ")\n"

/-- A program in one of the forms for lowered programs. -/
def emitText (program : Program) : Emit → String
  | .listing => program.listing
  | .source => program.sourceText
  | .json => documentText program

/-! ## Runs -/

/-- A list of inputs in brackets. -/
def inputsText (inputs : List Int64) : String :=
  "[" ++ String.intercalate ", " (inputs.map fun input =>
    Text.Decimal.writtenInt input.toInt) ++ "]"

def inputsJson (inputs : List Int64) : Json :=
  .array (inputs.map fun input => Json.ofInt input.toInt)

/-- A run that has ended: its record in the history and its result. -/
structure FinishedRun where
  number : Nat
  degree : Nat
  inputs : List Int64
  result : RunResult
deriving DecidableEq, Repr

/-- A finished run as text, with a line for every variable. -/
def runText (run : FinishedRun) : String :=
  "run " ++ Text.Decimal.written run.number ++ " (degree " ++ Text.Decimal.written run.degree ++
    ", inputs " ++ inputsText run.inputs ++ "): y = " ++
    Text.Decimal.written run.result.output.toNat ++ ", " ++
    Text.Decimal.written run.result.cycles.toNat ++ " cycle(s), " ++
    Text.Decimal.written run.result.steps.toNat ++ " step(s)\n" ++
    String.join (run.result.registers.map fun entry =>
      "  " ++ entry.1 ++ " = " ++ Text.Decimal.written entry.2.toNat ++ "\n")

def wordJson (value : UInt64) : Json :=
  Json.ofNat value.toNat

def resultJson (result : RunResult) : Json :=
  Json.ofFields
    [("cycles", wordJson result.cycles),
     ("output", wordJson result.output),
     ("steps", wordJson result.steps),
     ("variables", .array (result.registers.map fun entry =>
        Json.ofFields [("name", Json.ofString entry.1), ("value", wordJson entry.2)]))]

def runJson (run : FinishedRun) : Json :=
  Json.ofFields
    [("degree", Json.ofNat run.degree),
     ("inputs", inputsJson run.inputs),
     ("result", resultJson run.result),
     ("run", Json.ofNat run.number)]

def recordJson (record : RunRecord) : Json :=
  Json.ofFields
    [("cycles", wordJson record.cycles),
     ("degree", Json.ofNat record.degree),
     ("inputs", inputsJson record.inputs),
     ("output", wordJson record.output),
     ("run", Json.ofNat record.number)]

/-- All runs of a program as one JSON object. -/
def runsJson (program : Program) (runs : List FinishedRun) (history : List RunRecord) : String :=
  (Json.ofFields
    [("history", .array (history.map recordJson)),
     ("program", Json.ofString program.name),
     ("runs", .array (runs.map runJson))]).compact ++ "\n"

/-- The runs of a session up to the first that fails. -/
structure Series where
  session : Session
  finished : List FinishedRun := []
  failure : Option Diagnostic := none

/-- Run the program of a session on one list of inputs after another. -/
def runSeries (degree : Nat) (series : Series) : List (List Int64) → Series
  | [] => series
  | inputs :: rest =>
      match (Session.run inputs degree).run series.session with
      | .ok result session =>
          let run : FinishedRun := { number := session.history.length, degree, inputs, result }
          runSeries degree { series with session, finished := series.finished ++ [run] } rest
      | .error error session =>
          { series with
            session
            failure := some (error.diagnostic.withNote ("inputs " ++ inputsText inputs)) }

/-- Run a program; without inputs it runs once, on none. -/
def runAll (style : Style) (program : Program) (session : Session) (degree : Option Nat)
    (inputs : List (List Int64)) : Outcome :=
  let series := runSeries (degree.getD program.maxDegree) { session }
    (if inputs.isEmpty then [[]] else inputs)
  let text := String.join (series.finished.map runText)
  match series.failure with
  | some diagnostic => failed style [diagnostic] (if style.json then "" else text)
  | none =>
      { output :=
          if style.json then runsJson program series.finished series.session.history else text }

/-! ## Performing an action -/

/-- The explanation of a code. -/
def explain (style : Style) (code : String) : Outcome :=
  match ErrorCode.lookup code with
  | some entry => { output := entry.long }
  | none =>
      failed style
        [{ message := "unknown error code '" ++ code ++ "'"
           suggestion := some "codes look like SEM-P001; see the README for the full list" }] ""

/-- The step limit of an action. -/
def ProgramAction.limit : ProgramAction → Option UInt64
  | .run _ _ limit => limit
  | .display | .check | .expand _ _ => none

/-- Do something with a program that has been loaded. -/
def performOn (style : Style) (program : Program) (session : Session) : ProgramAction → Outcome
  | .display => { output := display program style.json }
  | .check =>
      { output := checkText program style.json
        errors := style.reportAll program.gotoWarnings }
  | .expand degree emit =>
      match (Session.lower degree).run session with
      | .ok lowered _ => { output := emitText lowered emit }
      | .error error _ => failed style [error.diagnostic] ""
  | .run degree inputs _ => runAll style program session degree inputs

/-- Do something with the program in a file that has these contents. -/
def performOnFile (style : Style) (path : String) (contents : Except ReadError String)
    (action : ProgramAction) : Outcome :=
  match load path contents action.limit with
  | .ok (program, session) => performOn style program session action
  | .error diagnostics => failed style diagnostics ""

/-- The name and the version of the program. -/
def versionText : String :=
  "semulator 0.1.0\n"

end RegisterMachine.Command
