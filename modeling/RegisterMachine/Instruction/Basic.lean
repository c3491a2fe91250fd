import RegisterMachine.Text.Decimal

/-!
# Instructions

The language has six operations.  Four are basic: doing nothing to a variable,
increasing it, decreasing it, and jumping when it is not zero.  Two are
synthetic, shorthand for basic ones: setting a variable to zero, and jumping
unconditionally.  An instruction is an operation with an optional label.
-/

namespace RegisterMachine

/-- Basic operations are atomic; synthetic ones stand for basic code. -/
inductive Family where
  | basic
  | synthetic
deriving DecidableEq, Repr

namespace Family

/-- The letter of a family in listings. -/
def tag : Family → String
  | basic => "B"
  | synthetic => "S"

/-- The name of a family. -/
def name : Family → String
  | basic => "basic"
  | synthetic => "synthetic"

/-- The family of a name, matched exactly. -/
def ofName? (name : String) : Option Family :=
  [basic, synthetic].find? fun family => family.name == name

/-- The number of lowering passes after which only basic code is left. -/
def degree : Family → Nat
  | basic => 0
  | synthetic => 1

theorem degree_le_one (family : Family) : family.degree ≤ 1 := by
  cases family <;> decide

end Family

/-- The kinds of operations. -/
inductive Opcode where
  | neutral
  | increase
  | decrease
  | jumpNotZero
  | zeroVariable
  | gotoLabel
deriving DecidableEq, Repr

namespace Opcode

def all : List Opcode :=
  [neutral, increase, decrease, jumpNotZero, zeroVariable, gotoLabel]

/-- The name of an operation in documents and messages. -/
def name : Opcode → String
  | neutral => "NEUTRAL"
  | increase => "INCREASE"
  | decrease => "DECREASE"
  | jumpNotZero => "JUMP_NOT_ZERO"
  | zeroVariable => "ZERO_VARIABLE"
  | gotoLabel => "GOTO_LABEL"

/-- The operation of a name, matched exactly. -/
def ofName? (name : String) : Option Opcode :=
  all.find? fun opcode => opcode.name == name

@[simp] theorem ofName?_name (opcode : Opcode) : ofName? opcode.name = some opcode := by
  cases opcode <;> decide

def family : Opcode → Family
  | neutral | increase | decrease | jumpNotZero => .basic
  | zeroVariable | gotoLabel => .synthetic

/-- The cycles one execution costs. -/
def cycles : Opcode → Nat
  | neutral => 0
  | increase | decrease | zeroVariable | gotoLabel => 1
  | jumpNotZero => 2

theorem cycles_le_two (opcode : Opcode) : opcode.cycles ≤ 2 := by
  cases opcode <;> decide

end Opcode

/-- An operation with its operands. -/
inductive Op where
  /-- Leaves the variable as it is. -/
  | neutral (var : String)
  | increase (var : String)
  /-- Decreases the variable, which stays at zero when it is zero. -/
  | decrease (var : String)
  | jumpNotZero (var target : String)
  | zero (var : String)
  | goto (target : String)
deriving DecidableEq, Repr

namespace Op

def opcode : Op → Opcode
  | neutral _ => .neutral
  | increase _ => .increase
  | decrease _ => .decrease
  | jumpNotZero _ _ => .jumpNotZero
  | zero _ => .zeroVariable
  | goto _ => .gotoLabel

/-- The variable an operation works on. -/
def var? : Op → Option String
  | neutral v | increase v | decrease v | jumpNotZero v _ | zero v => some v
  | goto _ => none

/-- The label an operation can jump to. -/
def target? : Op → Option String
  | jumpNotZero _ target | goto target => some target
  | neutral _ | increase _ | decrease _ | zero _ => none

def family (op : Op) : Family :=
  op.opcode.family

def cycles (op : Op) : Nat :=
  op.opcode.cycles

def degree (op : Op) : Nat :=
  op.family.degree

/-- The text of an operation. -/
def render : Op → String
  | neutral v => v ++ " <- " ++ v
  | increase v => v ++ " <- " ++ v ++ " + 1"
  | decrease v => v ++ " <- " ++ v ++ " - 1"
  | jumpNotZero v target => "IF " ++ v ++ " != 0 GOTO " ++ target
  | zero v => v ++ " <- 0"
  | goto target => "GOTO " ++ target

end Op

/-- An operation at a place of a program.  The label names that place; the parent,
if any, is the number of the replaced instruction in the program's record of origins. -/
structure Instruction where
  op : Op
  label : Option String := none
  parent : Option Nat := none
deriving DecidableEq, Repr

namespace Instruction

def var? (instruction : Instruction) : Option String :=
  instruction.op.var?

def target? (instruction : Instruction) : Option String :=
  instruction.op.target?

def cycles (instruction : Instruction) : Nat :=
  instruction.op.cycles

def degree (instruction : Instruction) : Nat :=
  instruction.op.degree

def isBasic (instruction : Instruction) : Bool :=
  instruction.op.family == .basic

/-- The names an instruction mentions: its label, its variable and its target. -/
def names (instruction : Instruction) : List String :=
  instruction.label.toList ++ instruction.var?.toList ++ instruction.target?.toList

/-- The same instruction without its parent. -/
def orphan (instruction : Instruction) : Instruction :=
  { instruction with parent := none }

/-- A text filled up with spaces to at least `width` characters. -/
def padTo (width : Nat) (text : String) : String :=
  text ++ String.ofList (List.replicate (width - text.length) ' ')

/-- The width of the label column. -/
def labelWidth : Nat := 5

/-- The text of an instruction: label column, operation, cycles. -/
def render (instruction : Instruction) : String :=
  "[" ++ padTo labelWidth (instruction.label.getD "") ++ "] " ++ instruction.op.render ++
    " (" ++ Text.Decimal.written instruction.cycles ++ ")"

/-- The text of an instruction with the letter of its family. -/
def renderTagged (instruction : Instruction) : String :=
  "(" ++ instruction.op.family.tag ++ ") " ++ instruction.render

end Instruction

end RegisterMachine
