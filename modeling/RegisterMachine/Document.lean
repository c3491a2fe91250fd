import RegisterMachine.Json.Reader
import RegisterMachine.Program.Basic

/-!
# Program documents

A document is a program as data: an optional name and a list of entries, each
the name of an operation with its variable, its label and its named arguments.
Documents are written in JSON.  Where a document is read, an object may hold
fields beyond the known ones, which are ignored, but a known field at most
once; in place of an object with its fields there may be an array with their
values in order, from which optional ones may be missing at the end.

Building a program checks the entries in order and stops at the first that is
no instruction or repeats a label.
-/

namespace RegisterMachine

/-- One instruction of a document. -/
structure DocumentEntry where
  name : String
  operands : Operands := {}
deriving DecidableEq, Repr

structure Document where
  name : Option String := none
  entries : List DocumentEntry
deriving DecidableEq, Repr

/-- Why a document gives no program. -/
inductive DocumentError where
  /-- The text is no JSON, or JSON of another shape. -/
  | malformed
  /-- The entry with this number, counted from one, cannot be used. -/
  | instruction (number : Nat) (error : InstructionError)
  | missingName
deriving DecidableEq, Repr

namespace DocumentError

def errorCode : DocumentError → ErrorCode
  | malformed | missingName => .malformedDocument
  | instruction _ error => error.errorCode

def message : DocumentError → String
  | malformed => "malformed program document"
  | instruction number error =>
      "instruction #" ++ Text.Decimal.written number ++ ": " ++ error.message
  | missingName => "program document has no name"

end DocumentError

namespace Document

/-! ## Writing -/

/-- A field that is left out when there is nothing to write. -/
def optionalField (key : String) : Option String → List (String × Json)
  | some text => [(key, Json.ofString text)]
  | none => []

/-- The named arguments as an object. -/
def argumentsJson (arguments : NameTable String) : Json :=
  Json.ofFields (arguments.entries.map fun entry => (entry.1, Json.ofString entry.2))

/-- The arguments of an entry, left out when there are none. -/
def argumentsField (arguments : NameTable String) : List (String × Json) :=
  if arguments.isEmpty then [] else [("arguments", argumentsJson arguments)]

def entryJson (entry : DocumentEntry) : Json :=
  Json.ofFields
    (("name", Json.ofString entry.name) :: optionalField "variable" entry.operands.var ++
      optionalField "label" entry.operands.label ++ argumentsField entry.operands.arguments)

/-- The name of a document; a missing one is written as null. -/
def nameJson : Option String → Json
  | some name => Json.ofString name
  | none => .null

/-- The JSON of a document. -/
def toJson (document : Document) : Json :=
  Json.ofFields
    [("name", nameJson document.name),
     ("instructions", .array (document.entries.map entryJson))]

/-- The text of a document. -/
def render (document : Document) : String :=
  document.toJson.pretty

/-! ## Reading -/

/-- The fields of an object by name; every name has to be a text. -/
def namedFields (fields : List (Option String × Json)) : Option (List (String × Json)) :=
  fields.mapM fun field => field.1.map fun key => (key, field.2)

/-- The value of a field that occurs at most once. -/
def uniqueField (fields : List (String × Json)) (key : String) : Option (Option Json) :=
  match fields.filter fun field => field.1 == key with
  | [] => some none
  | [field] => some (some field.2)
  | _ => none

/-- The values of the known fields, in order, of an object or of the array in its place. -/
def recordFields (keys : List String) : Json → Option (List (Option Json))
  | .object fields => do
      let fields ← namedFields fields
      keys.mapM (uniqueField fields)
  | .array items =>
      if items.length ≤ keys.length then
        some (items.map some ++ List.replicate (keys.length - items.length) none)
      else none
  | .null | .bool _ | .number _ | .string _ => none

/-- A string that is a text. -/
def textOf : Json → Option String
  | .string text => text
  | .null | .bool _ | .number _ | .array _ | .object _ => none

/-- A string or null; a missing value counts as null. -/
def optionalText : Option Json → Option (Option String)
  | none | some .null => some none
  | some value => (textOf value).map some

/-- The named arguments, none when they are missing; of two with one name the later counts. -/
def argumentsOf : Option Json → Option (NameTable String)
  | none => some NameTable.empty
  | some (.object fields) => do
      let fields ← namedFields fields
      let arguments ← fields.mapM fun field => (textOf field.2).map fun text => (field.1, text)
      return NameTable.ofList arguments
  | some _ => none

def entryOf (value : Json) : Option DocumentEntry := do
  match ← recordFields ["name", "variable", "label", "arguments"] value with
  | [some name, var, label, arguments] =>
      return {
        name := ← textOf name
        operands := {
          var := ← optionalText var
          label := ← optionalText label
          arguments := ← argumentsOf arguments } }
  | _ => none

/-- The document of a JSON value of the right shape. -/
def ofJson (value : Json) : Option Document := do
  match ← recordFields ["name", "instructions"] value with
  | [name, some (.array entries)] =>
      return { name := ← optionalText name, entries := ← entries.mapM entryOf }
  | _ => none

/-- The document written in a text. -/
def parse (text : String) : Except DocumentError Document :=
  match (Json.parse text).bind ofJson with
  | some document => .ok document
  | none => .error .malformed

/-! ## Documents and programs -/

/-- The document of a program. -/
def ofProgram (program : Program) : Document where
  name := some program.name
  entries := program.instructions.map fun instruction =>
    { name := instruction.op.opcode.name, operands := Operands.ofInstruction instruction }

/-- The name of the program: the document's own unless it is blank, else the fallback. -/
def programName (document : Document) (fallback : Option String) : Option String :=
  (document.name.filter fun name => Text.trim name != "").or fallback

/-- Add the instruction of an entry to a program. -/
def addEntry (program : Program) (entry : DocumentEntry) : Except InstructionError Program := do
  let instruction ← Instruction.read entry.name entry.operands
  program.pushed instruction

/-- Add entries to a program; the first has the given number. -/
def addEntries (program : Program) : Nat → List DocumentEntry → Except DocumentError Program
  | _, [] => .ok program
  | number, entry :: entries =>
      match addEntry program entry with
      | .ok program => addEntries program (number + 1) entries
      | .error error => .error (.instruction number error)

/-- The program of a document. -/
def build (document : Document) (fallback : Option String) : Except DocumentError Program :=
  match document.programName fallback with
  | some name => addEntries (Program.named name) 1 document.entries
  | none => .error .missingName

end Document

end RegisterMachine
