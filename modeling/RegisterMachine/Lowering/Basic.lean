import RegisterMachine.Lowering.NameSupply

/-!
# Lowering

Lowering replaces synthetic instructions by basic ones.  Setting a variable to
zero becomes a loop that decreases it; the loop begins at the label of the
instruction, or at a fresh label when it has none.  An unconditional jump
becomes a conditional one on a fresh work variable that has just been
increased.  The label of a replaced instruction moves to the first instruction
of its replacement, so every jump still arrives.
-/

namespace RegisterMachine

namespace Instruction

/-- The code that replaces a synthetic instruction, and the names left for others. -/
def expand (instruction : Instruction) (supply : NameSupply) :
    Option (List Instruction × NameSupply) :=
  match instruction.op with
  | .zero var =>
      let (head, supply) :=
        match instruction.label with
        | some label => (label, supply)
        | none => supply.freshLabel
      some ([{ op := .decrease var, label := some head }, { op := .jumpNotZero var head }], supply)
  | .goto target =>
      let (work, supply) := supply.freshWork
      some ([{ op := .increase work, label := instruction.label },
        { op := .jumpNotZero work target }], supply)
  | .neutral _ | .increase _ | .decrease _ | .jumpNotZero _ _ => none

/-- Exactly the synthetic instructions are replaced. -/
theorem expand_eq_none_iff (instruction : Instruction) (supply : NameSupply) :
    instruction.expand supply = none ↔ instruction.op.family = .basic := by
  unfold expand
  cases instruction.op <;> simp [Op.family, Op.opcode, Opcode.family]

/-- The degree counts the expansions on top of each other: none for an instruction that is not
replaced, else one more than the highest degree in the code that replaces it. -/
theorem degree_eq_expand (instruction : Instruction) (supply : NameSupply) :
    instruction.degree =
      ((instruction.expand supply).map fun replaced =>
        1 + (replaced.1.map degree).max?.getD 0).getD 0 := by
  rcases instruction with ⟨op, label, parent⟩
  cases op with
  | zero var => cases label <;> rfl
  | goto target => rfl
  | neutral _ | increase _ | decrease _ | jumpNotZero _ _ => rfl

end Instruction

/-- A degree above that of the program. -/
inductive LoweringError where
  | invalidDegree (requested max : Nat)
deriving DecidableEq, Repr

namespace LoweringError

def errorCode : ErrorCode := .invalidDegree

def message : LoweringError → String
  | invalidDegree requested max =>
      "invalid expansion degree " ++ Text.Decimal.written requested ++
        ": expected a degree between 0 and " ++ Text.Decimal.written max

end LoweringError

namespace Program

/-- A lowering pass underway: the names still free and the code emitted so far. -/
structure Pass where
  supply : NameSupply
  lowered : Program

/-- Append the replacement of an instruction, and record the instruction as its origin. -/
def appendExpansion (program : Program) (replaced : Instruction) (body : List Instruction) :
    Program :=
  let number := program.origins.length
  body.foldl (fun program child => program.append { child with parent := some number })
    (program.recordOrigin replaced)

/-- One instruction of a pass: it is replaced when its degree is above `target`. -/
def Pass.step (target : Nat) (pass : Pass) (instruction : Instruction) : Pass :=
  let expansion :=
    if target < instruction.degree then instruction.expand pass.supply else none
  match expansion with
  | some (body, supply) => ⟨supply, pass.lowered.appendExpansion instruction body⟩
  | none => ⟨pass.supply, pass.lowered.append instruction⟩

/-- The program with every instruction above `target` replaced once. -/
def lowerOnce (program : Program) (target : Nat) : Program :=
  (program.instructions.foldl (Pass.step target)
    ⟨NameSupply.forProgram program, program.restart⟩).lowered

/-- Lower until no instruction is above `target`, in at most `bound` passes. -/
def lowerPasses (target : Nat) : Nat → Program → Program
  | 0, program => program
  | bound + 1, program =>
      if target < program.maxDegree then lowerPasses target bound (program.lowerOnce target)
      else program

/-- The program with no instruction above `target`, named after it.  Every pass lowers the
degree, so as many passes as the degree are enough. -/
def lowerTo (program : Program) (target : Nat) : Except LoweringError Program :=
  if program.maxDegree < target then .error (.invalidDegree target program.maxDegree)
  else
    let lowered := lowerPasses target program.maxDegree program
    .ok { lowered with name := program.name ++ "@" ++ Text.Decimal.written target }

end Program

end RegisterMachine
