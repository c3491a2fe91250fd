import RegisterMachine.Machine.Registers
import RegisterMachine.Program.Basic

/-!
# Machine states

The state of a running program is its registers, the position of the next
instruction, the cycles charged so far, whether a jump has just set the
position, and whether a stop has been asked for.  An operation is charged before
it has its effect, so a jump to an unbound label is paid for although it fails.
After an operation the machine goes on to the next one, unless there was a jump
or a stop.
-/

namespace RegisterMachine

/-- Why a run ends without a result. -/
inductive RuntimeError where
  /-- The jump with this number, counted from one, goes to a label that is not bound. -/
  | unresolvedLabel (label : String) (number : Nat)
  | stepLimitExceeded (limit cycles : UInt64)
deriving DecidableEq, Repr

namespace RuntimeError

def errorCode : RuntimeError → ErrorCode
  | unresolvedLabel _ _ => .unresolvedLabel
  | stepLimitExceeded _ _ => .stepLimit

def message : RuntimeError → String
  | unresolvedLabel label number =>
      "label '" ++ label ++ "' is not bound (jump at instruction #" ++
        Text.Decimal.written number ++ ")"
  | stepLimitExceeded limit cycles =>
      "step limit of " ++ Text.Decimal.written limit.toNat ++ " exceeded after " ++
        Text.Decimal.written cycles.toNat ++ " cycles"

end RuntimeError

namespace Op

/-- What an operation does to the registers.  A condition touches its variable. -/
def effect (registers : Registers) : Op → Registers
  | neutral _ => registers
  | increase var => registers.increment var
  | decrease var => registers.decrement var
  | jumpNotZero var _ => registers.touch var
  | zero var => registers.store var 0
  | goto _ => registers

/-- The label an operation jumps to with these registers. -/
def jump? (registers : Registers) : Op → Option String
  | jumpNotZero var target => if registers.value var = 0 then none else some target
  | goto target => some target
  | neutral _ | increase _ | decrease _ | zero _ => none

end Op

structure State where
  registers : Registers := {}
  position : Nat := 0
  cycles : UInt64 := 0
  /-- Whether the operation just carried out has set the position itself. -/
  jumped : Bool := false
  stopped : Bool := false
deriving DecidableEq, Repr

namespace State

/-- The state before the first instruction. -/
def initial (inputs : List Int64) : State :=
  { registers := Registers.seed {} inputs }

/-- Charge some cycles. -/
def charge (state : State) (cycles : UInt64) : State :=
  { state with cycles := state.cycles + cycles }

/-- Ask for a stop. -/
def stop (state : State) : State :=
  { state with stopped := true }

/-- Go to a position. -/
def jumpTo (state : State) (position : Nat) : State :=
  { state with position, jumped := true }

/-- Go to the position of a label. -/
def jumpToLabel (labels : NameTable Nat) (state : State) (label : String) :
    Except RuntimeError State :=
  match labels.get? label with
  | some position => .ok (state.jumpTo position)
  | none => .error (.unresolvedLabel label (state.position + 1))

/-- Charge an operation and let it have its effect on the registers. -/
def apply (state : State) (op : Op) : State :=
  { state.charge (UInt64.ofNat op.cycles) with registers := op.effect state.registers }

/-- Carry out an operation, with its jump if it takes one. -/
def execute (labels : NameTable Nat) (state : State) (op : Op) : Except RuntimeError State :=
  match op.jump? state.registers with
  | some label => jumpToLabel labels (state.apply op) label
  | none => .ok (state.apply op)

/-- The position after an operation that has been carried out. -/
def nextPosition (state : State) : Nat :=
  if state.jumped || state.stopped then state.position else state.position + 1

/-- Go on after an operation that has been carried out. -/
def advance (state : State) : State :=
  { state with position := state.nextPosition, jumped := false }

/-- Carry out an operation and go on. -/
def step (labels : NameTable Nat) (state : State) (op : Op) : Except RuntimeError State :=
  (state.execute labels op).map advance

/-- The instruction to carry out next; there is none after a stop or past the end. -/
def next? (program : Program) (state : State) : Option Instruction :=
  if state.stopped then none else program.instructions[state.position]?

end State

end RegisterMachine
