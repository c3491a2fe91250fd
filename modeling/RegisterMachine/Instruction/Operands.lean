import RegisterMachine.ErrorCode
import RegisterMachine.Instruction.Basic
import RegisterMachine.Name
import RegisterMachine.NameTable
import RegisterMachine.Text.Blank

/-!
# Instructions from their parts

An instruction can be given by the name of its operation, a variable, a label
and named arguments.  The parts are trimmed, and a blank part counts as absent.
The label is checked first, then the variable, then the argument; the first
fault found is the one reported.  Parts that an operation does not use are
ignored.
-/

namespace RegisterMachine

/-- Why an instruction cannot be made or added. -/
inductive InstructionError where
  | unknownInstruction (name : String)
  | missingOperand (opcode : Opcode) (operand : String)
  | malformedVariable (opcode : Opcode) (var : String)
  | malformedLabel (label : String)
  /-- The two instructions are numbered from one. -/
  | duplicateLabel (label : String) (first second : Nat)
deriving DecidableEq, Repr

namespace InstructionError

def errorCode : InstructionError → ErrorCode
  | unknownInstruction _ => .unknownInstruction
  | missingOperand _ _ => .missingOperand
  | malformedVariable _ _ => .malformedVariable
  | malformedLabel _ => .malformedLabel
  | duplicateLabel _ _ _ => .duplicateLabel

def message : InstructionError → String
  | unknownInstruction name => "unknown instruction: " ++ name
  | missingOperand opcode operand =>
      opcode.name ++ ": missing required operand '" ++ operand ++ "'"
  | malformedVariable opcode var =>
      opcode.name ++ ": malformed variable '" ++ var ++ "'"
  | malformedLabel label => "malformed label '" ++ label ++ "'"
  | duplicateLabel label first second =>
      "duplicate label '" ++ label ++ "' on instructions #" ++ Text.Decimal.written first ++
        " and #" ++ Text.Decimal.written second

end InstructionError

/-- The argument that names the target of a conditional jump. -/
def jumpArgument : String := "JNZLabel"

/-- The argument that names the target of an unconditional jump. -/
def gotoArgument : String := "gotoLabel"

/-- The parts of an instruction other than its operation. -/
structure Operands where
  var : Option String := none
  label : Option String := none
  arguments : NameTable String := NameTable.empty
deriving DecidableEq, Repr

namespace Operands

/-- The parts that describe an instruction. -/
def ofInstruction (instruction : Instruction) : Operands where
  var := instruction.var?
  label := instruction.label
  arguments :=
    match instruction.op with
    | .jumpNotZero _ target => NameTable.empty.insert jumpArgument target
    | .goto target => NameTable.empty.insert gotoArgument target
    | .neutral _ | .increase _ | .decrease _ | .zero _ => NameTable.empty

/-- The label, if there is one. -/
def readLabel (operands : Operands) : Except InstructionError (Option String) :=
  match Text.present operands.label with
  | none => .ok none
  | some label => if isLabelName label then .ok (some label) else .error (.malformedLabel label)

/-- The variable, which has to be there. -/
def readVariable (operands : Operands) (opcode : Opcode) : Except InstructionError String :=
  match Text.present operands.var with
  | none => .error (.missingOperand opcode "variable")
  | some var =>
      if isVariableName var then .ok var
      else .error (.malformedVariable opcode var)

/-- A named argument, which has to be there and to be a label. -/
def readArgument (operands : Operands) (opcode : Opcode) (argument : String) :
    Except InstructionError String :=
  match Text.present (operands.arguments.get? argument) with
  | none => .error (.missingOperand opcode argument)
  | some target => if isLabelName target then .ok target else .error (.malformedLabel target)

/-- The operation of a kind with these operands. -/
def readOp (operands : Operands) : Opcode → Except InstructionError Op
  | .neutral => return .neutral (← operands.readVariable .neutral)
  | .increase => return .increase (← operands.readVariable .increase)
  | .decrease => return .decrease (← operands.readVariable .decrease)
  | .jumpNotZero => do
      let var ← operands.readVariable .jumpNotZero
      let target ← operands.readArgument .jumpNotZero jumpArgument
      return .jumpNotZero var target
  | .zeroVariable => return .zero (← operands.readVariable .zeroVariable)
  | .gotoLabel => return .goto (← operands.readArgument .gotoLabel gotoArgument)

end Operands

/-- The kind of operation with a given name, which may be surrounded by blanks. -/
def Opcode.read (name : String) : Except InstructionError Opcode :=
  match Opcode.ofName? (Text.trim name) with
  | some opcode => .ok opcode
  | none => .error (.unknownInstruction (Text.trim name))

/-- The instruction of a kind with these operands. -/
def Opcode.construct (opcode : Opcode) (operands : Operands) :
    Except InstructionError Instruction := do
  let label ← operands.readLabel
  let op ← operands.readOp opcode
  return { op, label }

/-- The instruction with a named operation and these operands. -/
def Instruction.read (name : String) (operands : Operands) :
    Except InstructionError Instruction := do
  let opcode ← Opcode.read name
  opcode.construct operands

end RegisterMachine
