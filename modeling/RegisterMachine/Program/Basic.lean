import RegisterMachine.Instruction.Operands

/-!
# Programs

A program is a list of instructions with three tables kept beside it: the
position of every label, the input variables, and the highest degree of an
instruction.  It also carries the record of its origins, the instructions that
lowering has replaced; an instruction points into that record by a number.

Pushing an instruction fails when its label is bound already, and then the
program stays as it was.  Appending does not look: a label bound twice stays
where it was bound first.
-/

namespace RegisterMachine

structure Program where
  name : String
  instructions : List Instruction := []
  /-- The position of each label, counted from zero. -/
  labels : NameTable Nat := NameTable.empty
  inputs : NameSet := NameTable.empty
  maxDegree : Nat := 0
  /-- The instructions replaced by lowering, in the order of their replacement. -/
  origins : List Instruction := []
deriving DecidableEq, Repr

/-- A change to a program: it gives a value or fails, and it leaves a program either way. -/
abbrev ProgramM (α : Type) := EStateM InstructionError Program α

namespace Program

/-- The program without instructions. -/
def named (name : String) : Program :=
  { name }

def length (program : Program) : Nat :=
  program.instructions.length

/-- The label table after an instruction at `position`. -/
def bindLabel (labels : NameTable Nat) (position : Nat) : Option String → NameTable Nat
  | some label => labels.insertNew label position
  | none => labels

/-- The input variables after an instruction on a variable. -/
def noteInput (inputs : NameSet) : Option String → NameSet
  | some var => if startsWith inputLetter var then inputs.add var else inputs
  | none => inputs

/-- The program with one more instruction, whatever its label. -/
def append (program : Program) (instruction : Instruction) : Program :=
  { program with
    instructions := program.instructions ++ [instruction]
    labels := bindLabel program.labels program.length instruction.label
    inputs := noteInput program.inputs instruction.var?
    maxDegree := max program.maxDegree instruction.degree }

/-- The earlier binding that a label would clash with. -/
def clash? (program : Program) (label : Option String) : Option (String × Nat) := do
  let label ← label
  let position ← program.labels.get? label
  return (label, position)

/-- Add an instruction, unless its label is bound already, and give its position. -/
def push (instruction : Instruction) : ProgramM Nat := fun program =>
  match program.clash? instruction.label with
  | some (label, first) => .error (.duplicateLabel label (first + 1) (program.length + 1)) program
  | none => .ok program.length (program.append instruction)

/-- The program with one more instruction, unless its label is bound already. -/
def pushed (program : Program) (instruction : Instruction) : Except InstructionError Program :=
  match (push instruction).run program with
  | .ok _ next => .ok next
  | .error error _ => .error error

/-- The program of some instructions, unless two of them have the same label. -/
def ofInstructions (name : String) (instructions : List Instruction) :
    Except InstructionError Program :=
  instructions.foldlM pushed (named name)

/-- Every name the program mentions, bound or not. -/
def names (program : Program) : NameSet :=
  NameSet.addAll NameTable.empty (program.instructions.flatMap Instruction.names)

/-- The cycles of one execution of every instruction. -/
def staticCycles (program : Program) : Nat :=
  program.instructions.foldr (fun instruction total => instruction.cycles + total) 0

/-- The position of a label, or the label itself when it is not bound. -/
def position (program : Program) (label : String) : Except String Nat :=
  match program.labels.get? label with
  | some position => .ok position
  | none => .error label

/-- The message about a label that is not bound. -/
def labelNotFound (label : String) : String :=
  "label not found: " ++ label

@[simp] theorem instructions_named (name : String) : (named name).instructions = [] := rfl

@[simp] theorem instructions_append (program : Program) (instruction : Instruction) :
    (program.append instruction).instructions = program.instructions ++ [instruction] := rfl

@[simp] theorem origins_append (program : Program) (instruction : Instruction) :
    (program.append instruction).origins = program.origins := rfl

@[simp] theorem length_append (program : Program) (instruction : Instruction) :
    (program.append instruction).length = program.length + 1 := by
  simp [length]

theorem push_of_free {program : Program} {instruction : Instruction}
    (free : program.clash? instruction.label = none) :
    (push instruction).run program = .ok program.length (program.append instruction) := by
  rw [EStateM.run, push, free]

theorem push_of_clash {program : Program} {instruction : Instruction} {label : String}
    {first : Nat} (clash : program.clash? instruction.label = some (label, first)) :
    (push instruction).run program =
      .error (.duplicateLabel label (first + 1) (program.length + 1)) program := by
  rw [EStateM.run, push, clash]

/-- A push that succeeds appends. -/
theorem pushed_eq_ok_iff {program result : Program} {instruction : Instruction} :
    program.pushed instruction = .ok result ↔
      program.clash? instruction.label = none ∧ result = program.append instruction := by
  rw [pushed]
  cases found : program.clash? instruction.label with
  | none => simp [push_of_free found, eq_comm]
  | some clash => simp [push_of_clash found]

theorem pushed_of_clash {program : Program} {instruction : Instruction} {label : String}
    {first : Nat} (clash : program.clash? instruction.label = some (label, first)) :
    program.pushed instruction =
      .error (.duplicateLabel label (first + 1) (program.length + 1)) := by
  rw [pushed, push_of_clash clash]

theorem push_of_pushed {program next : Program} {instruction : Instruction}
    (pushed : program.pushed instruction = .ok next) :
    (push instruction).run program = .ok program.length next := by
  obtain ⟨free, rfl⟩ := pushed_eq_ok_iff.mp pushed
  exact push_of_free free

/-- A push that fails leaves the program as it was. -/
theorem push_of_refused {program : Program} {instruction : Instruction}
    {error : InstructionError} (refused : program.pushed instruction = .error error) :
    (push instruction).run program = .error error program := by
  cases found : program.clash? instruction.label with
  | none => cases refused.symm.trans (pushed_eq_ok_iff.mpr ⟨found, rfl⟩)
  | some clash =>
      obtain rfl := Except.error.inj (refused.symm.trans (pushed_of_clash found))
      exact push_of_clash found

theorem pushed_of_push {program next : Program} {instruction : Instruction} {position : Nat}
    (done : (push instruction).run program = .ok position next) :
    program.pushed instruction = .ok next := by
  rw [pushed, done]

theorem refused_of_push {program left : Program} {instruction : Instruction}
    {error : InstructionError} (failed : (push instruction).run program = .error error left) :
    program.pushed instruction = .error error := by
  rw [pushed, failed]

/-! ## Origins -/

/-- A program without instructions that keeps the record of origins. -/
def restart (program : Program) : Program :=
  { named program.name with origins := program.origins }

/-- The program with one more origin; its number is the length of the record before. -/
def recordOrigin (program : Program) (instruction : Instruction) : Program :=
  { program with origins := program.origins ++ [instruction] }

/-- The instruction that another one was expanded from. -/
def parent? (program : Program) (instruction : Instruction) : Option Instruction :=
  instruction.parent.bind fun number => program.origins[number]?

/-- The nearest `bound` origins of an instruction, each expanded from the next. -/
def ancestors (program : Program) : Nat → Instruction → List Instruction
  | 0, _ => []
  | bound + 1, instruction =>
      match program.parent? instruction with
      | some parent => parent :: program.ancestors bound parent
      | none => []

/-- The origins of an instruction from the nearest outward. -/
def provenance (program : Program) (instruction : Instruction) : List Instruction :=
  program.ancestors program.origins.length instruction

end Program

end RegisterMachine
