import RegisterMachine.Program.Basic

/-!
# Unbound targets

A program is valid when every conditional jump has a bound target.  The target
of an unconditional jump is looked up only when the jump is taken; an unbound
one is worth a warning.
-/

namespace RegisterMachine

/-- A jump to a label that is not bound, by its position counted from zero. -/
structure UnboundJump where
  position : Nat
  label : String
deriving DecidableEq, Repr

namespace UnboundJump

/-- The number of the jump, counted from one. -/
def number (jump : UnboundJump) : Nat :=
  jump.position + 1

end UnboundJump

/-- The conditional jumps without a bound target, of which there is at least one. -/
structure ValidationError where
  program : String
  unbound : List UnboundJump
deriving DecidableEq, Repr

namespace ValidationError

def errorCode : ErrorCode := .unboundLabel

def message (error : ValidationError) : String :=
  "program '" ++ error.program ++ "' jumps to unbound label(s): " ++
    String.intercalate ", " (error.unbound.map fun jump =>
      jump.label ++ " (instruction #" ++ Text.Decimal.written jump.number ++ ")")

end ValidationError

namespace Op

/-- The target of a conditional jump. -/
def conditionalTarget? : Op → Option String
  | jumpNotZero _ target => some target
  | neutral _ | increase _ | decrease _ | zero _ | goto _ => none

/-- The target of an unconditional jump. -/
def gotoTarget? : Op → Option String
  | goto target => some target
  | neutral _ | increase _ | decrease _ | jumpNotZero _ _ | zero _ => none

end Op

namespace Program

/-- The instructions whose target, as `target?` gives it, is not bound. -/
def unboundJumps (program : Program) (target? : Op → Option String) : List UnboundJump :=
  program.instructions.zipIdx.filterMap fun (instruction, position) =>
    match target? instruction.op with
    | some label => if program.labels.contains label then none else some ⟨position, label⟩
    | none => none

/-- The conditional jumps without a bound target. -/
def unboundConditions (program : Program) : List UnboundJump :=
  program.unboundJumps Op.conditionalTarget?

/-- The unconditional jumps without a bound target. -/
def unboundGotos (program : Program) : List UnboundJump :=
  program.unboundJumps Op.gotoTarget?

/-- Every conditional jump has a bound target. -/
def isValid (program : Program) : Bool :=
  program.unboundConditions.isEmpty

/-- Refuse a program that is not valid. -/
def validate (program : Program) : Except ValidationError Unit :=
  if program.isValid then .ok () else .error ⟨program.name, program.unboundConditions⟩

theorem validate_eq_ok_iff (program : Program) :
    program.validate = .ok () ↔ program.unboundConditions = [] := by
  unfold validate isValid
  cases program.unboundConditions <;> simp

end Program

end RegisterMachine
