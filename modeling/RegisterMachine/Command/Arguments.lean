import RegisterMachine.Text.Blank
import RegisterMachine.Text.Decimal
import RegisterMachine.Text.Plain

/-!
# Command-line arguments

A command is a verb with an operand and options.  Three flags may stand before
or after the verb, each at most once on either side.  An option has its value
after an equals sign or in the next argument; a next argument that begins with
a dash is a value only of `--inputs`, which is also the only option that may be
repeated.  After a lone `--` only operands follow.

Arguments are checked from left to right, and what is missing is noticed at the
end.  A value in an argument of its own is read only when the argument after it
has been recognised, so of a bad value and a stray argument behind it the stray
argument is the fault.
-/

namespace RegisterMachine.Command

/-- The forms in which a lowered program is written. -/
inductive Emit where
  | listing
  | source
  | json
deriving DecidableEq, Repr

/-- What to do with a program. -/
inductive ProgramAction where
  | display
  | check
  | expand (degree : Nat) (emit : Emit)
  | run (degree : Option Nat) (inputs : List (List Int64)) (limit : Option UInt64)
deriving DecidableEq, Repr

/-- What to do. -/
inductive Action where
  /-- Do something with the program in a file. -/
  | onFile (path : String) (action : ProgramAction)
  | explain (code : String)
deriving DecidableEq, Repr

/-- The flags, which go with every action. -/
structure Flags where
  json : Bool := false
  noColor : Bool := false
  verbose : Bool := false
deriving DecidableEq, Repr

/-- What the arguments ask for. -/
inductive Request where
  | version
  | perform (flags : Flags) (action : Action)
deriving DecidableEq, Repr

/-- Arguments that ask for nothing; a bad list of inputs is told apart. -/
inductive UsageError where
  | unusable
  | badInputs (written part : String)
deriving DecidableEq, Repr

namespace UsageError

/-- The message, in plain text.  A control sequence that the faulty part leaves open goes on
into the words after it. -/
def message : UsageError → String
  | unusable => "error: unusable arguments"
  | badInputs written part =>
      "error: invalid value '" ++ Text.plain written ++ "' for '--inputs <A,B,...>': " ++
        Text.plain ("'" ++ part ++ "' is not an integer")

end UsageError

/-! ## Values -/

/-- The inputs of one run: integers with commas between them; a blank text has none. -/
def readInputs (written : String) : Except UsageError (List Int64) :=
  if Text.trim written = "" then .ok []
  else (written.splitOn ",").mapM fun part =>
    match Text.Decimal.readSigned (Text.trim part).toList with
    | some input => .ok input
    | none => .error (.badInputs written (Text.trim part))

/-- A degree: an integer from zero to the largest of 32 bits. -/
def readDegree (written : String) : Except UsageError Nat :=
  match Text.Decimal.readSigned written.toList with
  | some degree =>
      if 0 ≤ degree.toInt ∧ degree.toInt ≤ 0xFFFFFFFF then .ok degree.toInt.toNat
      else .error .unusable
  | none => .error .unusable

/-- A step limit: an unsigned integer of 64 bits. -/
def readLimit (written : String) : Except UsageError UInt64 :=
  match Text.Decimal.readUnsigned Text.Decimal.wordMax written.toList with
  | some limit => .ok (UInt64.ofNat limit)
  | none => .error .unusable

def readEmit (written : String) : Except UsageError Emit :=
  if written = "listing" then .ok .listing
  else if written = "source" then .ok .source
  else if written = "json" then .ok .json
  else .error .unusable

/-! ## Flags -/

inductive Flag where
  | json
  | noColor
  | verbose
deriving DecidableEq, Repr

def Flag.ofName? (name : String) : Option Flag :=
  if name = "json" then some .json
  else if name = "no-color" then some .noColor
  else if name = "verbose" then some .verbose
  else none

namespace Flags

def has (flags : Flags) : Flag → Bool
  | .json => flags.json
  | .noColor => flags.noColor
  | .verbose => flags.verbose

/-- Set a flag that is not set. -/
def set (flags : Flags) (flag : Flag) : Except UsageError Flags :=
  if flags.has flag then .error .unusable
  else match flag with
    | .json => .ok { flags with json := true }
    | .noColor => .ok { flags with noColor := true }
    | .verbose => .ok { flags with verbose := true }

/-- The flags set on one side of the verb or the other. -/
def union (before after : Flags) : Flags where
  json := before.json || after.json
  noColor := before.noColor || after.noColor
  verbose := before.verbose || after.verbose

end Flags

/-! ## The shape of an argument -/

/-- How an argument is written. -/
inductive Argument where
  /-- A lone `--`. -/
  | separator
  /-- `--name` or `--name=value`. -/
  | long (name : String) (value : Option String)
  /-- A dash and some letters. -/
  | short (letters : List Char)
  | plain (text : String)
deriving DecidableEq, Repr

/-- The text before the first equals sign and the text after it, if there is one. -/
def splitValue (cs : List Char) : String × Option String :=
  let name := String.ofList (cs.takeWhile (· != '='))
  match cs.dropWhile (· != '=') with
  | [] => (name, none)
  | _ :: value => (name, some (String.ofList value))

def Argument.ofString (argument : String) : Argument :=
  match argument.toList with
  | ['-', '-'] => .separator
  | '-' :: '-' :: cs =>
      let (name, value) := splitValue cs
      .long name value
  | '-' :: c :: cs => .short (c :: cs)
  | _ => .plain argument

/-! ## The command -/

inductive Verb where
  | display
  | check
  | expand
  | run
  | explain
deriving DecidableEq, Repr

def Verb.ofName? (name : String) : Option Verb :=
  if name = "show" then some .display
  else if name = "check" then some .check
  else if name = "expand" then some .expand
  else if name = "run" then some .run
  else if name = "explain" then some .explain
  else none

/-- The options that have a value. -/
inductive Setting where
  | degree
  | emit
  | inputs
  | limit
deriving DecidableEq, Repr

/-- The option with a name, among those of a verb. -/
def Verb.setting? (verb : Verb) (name : String) : Option Setting :=
  match verb with
  | .expand =>
      if name = "degree" then some .degree
      else if name = "emit" then some .emit
      else none
  | .run =>
      if name = "degree" then some .degree
      else if name = "inputs" then some .inputs
      else if name = "step-limit" then some .limit
      else none
  | .display | .check | .explain => none

/-- What has been read after the verb. -/
structure Draft where
  verb : Verb
  flags : Flags := {}
  operand : Option String := none
  degree : Option Nat := none
  emit : Option Emit := none
  inputs : List (List Int64) := []
  limit : Option UInt64 := none
  /-- The last option, when its value was an argument of its own and has not been read. -/
  pending : Option (Setting × String) := none
deriving DecidableEq, Repr

namespace Draft

/-- Give an option that has no value yet its value. -/
def setOnce {α : Type} (old : Option α) (read : Except UsageError α) :
    Except UsageError (Option α) := do
  let value ← read
  match old with
  | none => return some value
  | some _ => throw .unusable

/-- Give an option its value; inputs may be given again. -/
def apply (draft : Draft) (setting : Setting) (written : String) : Except UsageError Draft :=
  match setting with
  | .degree => return { draft with degree := ← setOnce draft.degree (readDegree written) }
  | .emit => return { draft with emit := ← setOnce draft.emit (readEmit written) }
  | .limit => return { draft with limit := ← setOnce draft.limit (readLimit written) }
  | .inputs => return { draft with inputs := draft.inputs ++ [← readInputs written] }

/-- Read the value that is pending. -/
def settle (draft : Draft) : Except UsageError Draft :=
  match draft.pending with
  | some (setting, written) => { draft with pending := none }.apply setting written
  | none => .ok draft

/-- The operand, of which there is one; the empty text is no path. -/
def addOperand (draft : Draft) (operand : String) : Except UsageError Draft :=
  if draft.operand.isSome then .error .unusable
  else do
    let draft ← draft.settle
    if draft.verb != .explain && operand == "" then throw .unusable
    else return { draft with operand := some operand }

/-- Set a flag after the verb. -/
def setFlag (draft : Draft) (flag : Flag) : Except UsageError Draft := do
  let draft ← draft.settle
  return { draft with flags := ← draft.flags.set flag }

/-- A call for help is recognised, but there is none to give. -/
def refuseHelp (draft : Draft) : Except UsageError Draft := do
  let _ ← draft.settle
  throw .unusable

/-- Set the flags of some letters after the verb. -/
def setLetters (draft : Draft) (letters : List Char) : Except UsageError Draft :=
  letters.foldlM (fun draft letter =>
    if letter = 'v' then draft.setFlag .verbose
    else if letter = 'h' then draft.refuseHelp
    else .error .unusable) draft

/-- Whether the next argument can be the value of an option. -/
def isValueOf (setting : Setting) (argument : String) : Bool :=
  setting == .inputs ||
    match Argument.ofString argument with
    | .plain _ => true
    | .separator | .long _ _ | .short _ => false

/-- Read the arguments after the verb. -/
def read (draft : Draft) : List String → Except UsageError Draft
  | [] => draft.settle
  | argument :: rest =>
      match Argument.ofString argument with
      | .separator => do (← rest.foldlM addOperand draft).settle
      | .plain text => do (← draft.addOperand text).read rest
      | .short letters => do (← draft.setLetters letters).read rest
      | .long name value =>
          match Flag.ofName? name, draft.verb.setting? name, value with
          | some flag, _, none => do (← draft.setFlag flag).read rest
          | none, some setting, some value => do
              (← (← draft.settle).apply setting value).read rest
          | none, some setting, none => do
              let draft ← draft.settle
              match rest with
              | value :: rest =>
                  if isValueOf setting value then
                    Draft.read { draft with pending := some (setting, value) } rest
                  else throw .unusable
              | [] => throw .unusable
          | none, none, none => if name = "help" then draft.refuseHelp else .error .unusable
          | _, _, _ => .error .unusable

/-- The action of a complete draft, with the step limit of the environment for a run that
has none of its own. -/
def action (draft : Draft) (environment : Option String) : Except UsageError Action := do
  let limit ← match draft.verb, draft.limit, environment with
    | .run, none, some written => some <$> readLimit written
    | _, limit, _ => pure limit
  match draft.operand with
  | none => throw .unusable
  | some operand =>
      match draft.verb with
      | .display => return .onFile operand .display
      | .check => return .onFile operand .check
      | .expand =>
          return .onFile operand (.expand (draft.degree.getD 0) (draft.emit.getD .listing))
      | .run => return .onFile operand (.run draft.degree draft.inputs limit)
      | .explain => return .explain operand

end Draft

/-- Read the letters of a short argument before the verb; `none` asks for the version. -/
def readLetters (flags : Flags) : List Char → Except UsageError (Option Flags)
  | [] => .ok (some flags)
  | letter :: letters =>
      if letter = 'V' then .ok none
      else if letter = 'v' then do readLetters (← flags.set .verbose) letters
      else .error .unusable

/-- Read arguments, some flags of which have been read. -/
def readFrom (environment : Option String) (flags : Flags) :
    List String → Except UsageError Request
  | [] => .error .unusable
  | argument :: rest =>
      match Argument.ofString argument with
      | .separator | .long _ (some _) => .error .unusable
      | .long name none =>
          if name = "version" then .ok .version
          else match Flag.ofName? name with
            | some flag => do readFrom environment (← flags.set flag) rest
            | none => .error .unusable
      | .short letters => do
          match ← readLetters flags letters with
          | some flags => readFrom environment flags rest
          | none => return .version
      | .plain text =>
          match Verb.ofName? text with
          | some verb => do
              let draft ← Draft.read { verb } rest
              return .perform (flags.union draft.flags) (← draft.action environment)
          | none => .error .unusable

/-- The request of some arguments, given the step limit that the environment sets. -/
def readArguments (environment : Option String) (arguments : List String) :
    Except UsageError Request :=
  readFrom environment {} arguments

end RegisterMachine.Command
