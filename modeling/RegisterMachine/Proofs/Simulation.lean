import RegisterMachine.Proofs.Execution
import RegisterMachine.Proofs.LoweringPass
import RegisterMachine.Proofs.Snapshot

/-!
# Lowered code simulates its program

A state of the lowered code matches a state of the program when it stands at the
start of the block of the same instruction and its registers agree, apart from the
work variables of jumps, which the program does not have.  Every step of the
program is then an execution of the lowered code between matching states: one step
for a basic instruction, two for a jump, and for setting a variable to zero as many
rounds of a loop as the variable takes to get there.
-/

namespace RegisterMachine

namespace Visit

/-- The steps that lowered code takes for a visit. -/
def loweredSteps (visit : Visit) : Nat :=
  match visit.instruction.op with
  | .zero var => 2 * max (visit.state.registers.value var).toNat 1
  | .goto _ => 2
  | .neutral _ | .increase _ | .decrease _ | .jumpNotZero _ _ => 1

/-- The cycles that lowered code is charged for a visit. -/
def loweredCycles (visit : Visit) : Nat :=
  match visit.instruction.op with
  | .zero var => 3 * max (visit.state.registers.value var).toNat 1
  | .goto _ => 3
  | .neutral _ | .increase _ | .decrease _ | .jumpNotZero _ _ => visit.instruction.cycles

theorem loweredSteps_pos (visit : Visit) : 0 < visit.loweredSteps := by
  unfold loweredSteps
  split <;> omega

/-- Lowered code takes at least one step for every visit. -/
theorem length_le_sum_loweredSteps (trace : List Visit) :
    trace.length ≤ (trace.map loweredSteps).sum := by
  induction trace with
  | nil => exact Nat.le_refl 0
  | cons visit trace ih =>
      have positive := visit.loweredSteps_pos
      rw [List.map_cons, List.sum_cons, List.length_cons]
      omega

end Visit

namespace Program

/-- A work variable that lowering has introduced for a jump. -/
def IsWork (program : Program) (fresh : Nat → String) (name : String) : Prop :=
  program.names.contains name = false ∧ (∃ number, name = numbered workLetter number) ∧
    ∃ position instruction target, program.instructions[position]? = some instruction ∧
      instruction.op = .goto target ∧ name = fresh position

theorem LowersTo.isWork {program lowered : Program} {fresh : Nat → String}
    (lowers : program.LowersTo lowered fresh) {position : Nat} {instruction : Instruction}
    {target : String} (place : program.instructions[position]? = some instruction)
    (jumps : instruction.op = .goto target) : program.IsWork fresh (fresh position) :=
  ⟨lowers.fresh_absent position instruction place (Instruction.needsName_of_goto jumps),
    lowers.work_numbered position instruction target place jumps,
    position, instruction, target, place, jumps, rfl⟩

theorem not_isWork_of_var {program : Program} {fresh : Nat → String} {position : Nat}
    {instruction : Instruction} {var : String}
    (place : program.instructions[position]? = some instruction)
    (operand : instruction.op.var? = some var) : ¬ program.IsWork fresh var := by
  rintro ⟨absent, -⟩
  rw [contains_names_of_var place operand] at absent
  cases absent

/-! ## Registers -/

/-- The second registers are the first ones with some work variables added. -/
structure Agrees (program : Program) (fresh : Nat → String) (registers lowered : Registers) :
    Prop where
  kept : ∀ name, ¬ program.IsWork fresh name →
    findEntry name lowered.entries = findEntry name registers.entries
  unused : ∀ name, program.IsWork fresh name → findEntry name registers.entries = none

namespace Agrees

variable {program : Program} {fresh : Nat → String} {registers lowered : Registers}
  (agrees : program.Agrees fresh registers lowered)
include agrees

theorem value_eq {name : String}
    (own : ¬ program.IsWork fresh name) : lowered.value name = registers.value name := by
  unfold Registers.value
  rw [agrees.kept name own]

theorem store {name : String} (own : ¬ program.IsWork fresh name) (value : UInt64) :
    program.Agrees fresh (registers.store name value) (lowered.store name value) where
  kept other notWork := by
    rw [Registers.findEntry_store, Registers.findEntry_store, agrees.kept other notWork]
  unused other work := by
    have differ : other ≠ name := fun same => own (same ▸ work)
    rw [Registers.findEntry_store, if_neg differ]
    exact agrees.unused other work

theorem store_work {name : String} (work : program.IsWork fresh name) (value : UInt64) :
    program.Agrees fresh registers (lowered.store name value) where
  kept other notWork := by
    have differ : other ≠ name := fun same => notWork (same ▸ work)
    rw [Registers.findEntry_store, if_neg differ]
    exact agrees.kept other notWork
  unused := agrees.unused

/-- An operation on a variable of the program keeps the registers in agreement. -/
theorem effect {op : Op} (own : ∀ var, op.var? = some var → ¬ program.IsWork fresh var) :
    program.Agrees fresh (op.effect registers) (op.effect lowered) := by
  cases op with
  | neutral var => exact agrees
  | increase var =>
      have same := agrees.value_eq (own var rfl)
      simpa only [Op.effect, Registers.increment, same] using agrees.store (own var rfl) _
  | decrease var =>
      have same := agrees.value_eq (own var rfl)
      simpa only [Op.effect, Registers.decrement, same] using agrees.store (own var rfl) _
  | jumpNotZero var target =>
      have same := agrees.value_eq (own var rfl)
      simpa only [Op.effect, Registers.touch, same] using agrees.store (own var rfl) _
  | zero var => exact agrees.store (own var rfl) 0
  | goto target => exact agrees

theorem jump?_eq {op : Op} (own : ∀ var, op.var? = some var → ¬ program.IsWork fresh var) :
    op.jump? lowered = op.jump? registers := by
  cases op with
  | jumpNotZero var target => simp only [Op.jump?, agrees.value_eq (own var rfl)]
  | neutral _ | increase _ | decrease _ | zero _ | goto _ => rfl

end Agrees

/-! ## Loops and jumps -/

/-- One round of a loop decreases the variable and leaves the loop when it is zero then. -/
theorem loop_round {program : Program} {decrement condition : Instruction} {var head : String}
    {state : State} (first : program.instructions[state.position]? = some decrement)
    (second : program.instructions[state.position + 1]? = some condition)
    (decreases : decrement.op = .decrease var) (jumps : condition.op = .jumpNotZero var head)
    (bound : program.labels.get? head = some state.position) (ready : state.Ready) :
    ∃ trace last, program.Execution state trace last ∧ last.Ready ∧
      last.position = (if Registers.predecessor (state.registers.value var) = 0
        then state.position + 2 else state.position) ∧
      last.registers =
        state.registers.store var (Registers.predecessor (state.registers.value var)) ∧
      trace.length = 2 ∧ totalCycles trace = 3 := by
  have stays : decrement.op.jump? state.registers = none := by rw [decreases]; rfl
  have start := Execution.behind ready first stays
  generalize middleEq : (state.apply decrement.op).standAt (state.position + 1) = middle at start
  have middleRegisters : middle.registers =
      state.registers.store var (Registers.predecessor (state.registers.value var)) := by
    rw [← middleEq, decreases]
    rfl
  have middlePlace : program.instructions[middle.position]? = some condition := by
    rw [← middleEq]
    exact second
  have middleReady : middle.Ready := by
    rw [← middleEq]
    exact ready.standAt decrement.op _
  have left : middle.registers.value var =
      Registers.predecessor (state.registers.value var) := by
    rw [middleRegisters, Registers.value_store, if_pos rfl]
  have touched : (condition.op.effect middle.registers) = middle.registers := by
    rw [jumps, Op.effect, Registers.touch, left, middleRegisters, Registers.store_store]
  have cost : ∀ rest : State, totalCycles [⟨state, decrement⟩, ⟨rest, condition⟩] = 3 := by
    intro rest
    simp [totalCycles, Instruction.cycles, decreases, jumps, Op.cycles, Op.opcode, Opcode.cycles]
  by_cases zero : Registers.predecessor (state.registers.value var) = 0
  · have falls : condition.op.jump? middle.registers = none := by
      rw [jumps, Op.jump?, left, if_pos zero]
    refine ⟨_, _, start.trans (Execution.behind middleReady middlePlace falls),
      middleReady.standAt condition.op _, ?_, ?_, rfl, cost middle⟩
    · rw [if_pos zero, ← middleEq]
      rfl
    · exact touched.trans middleRegisters
  · have back : condition.op.jump? middle.registers = some head := by
      rw [jumps, Op.jump?, left, if_neg zero]
    refine ⟨_, _, start.trans (Execution.jump middleReady middlePlace back bound),
      middleReady.standAt condition.op _, ?_, ?_, rfl, cost middle⟩
    · rw [if_neg zero]
      rfl
    · exact touched.trans middleRegisters

/-- A loop sets its variable to zero, in one round at least and else in as many as it takes. -/
theorem loop_execution {program : Program} {decrement condition : Instruction}
    {var head : String} {start : Nat} (first : program.instructions[start]? = some decrement)
    (second : program.instructions[start + 1]? = some condition)
    (decreases : decrement.op = .decrease var) (jumps : condition.op = .jumpNotZero var head)
    (bound : program.labels.get? head = some start) {count : Nat} {state : State}
    (place : state.position = start) (ready : state.Ready)
    (value : (state.registers.value var).toNat = count) :
    ∃ trace last, program.Execution state trace last ∧ last.Ready ∧
      last.position = start + 2 ∧ last.registers = state.registers.store var 0 ∧
        trace.length = 2 * max count 1 ∧ totalCycles trace = 3 * max count 1 := by
  -- The variable counts the rounds: a round that goes back has made it smaller.
  induction count using Nat.strongRecOn generalizing state with
  | ind count ih =>
      subst place
      obtain ⟨round, middle, executed, middleReady, middlePlace, middleRegisters, two, three⟩ :=
        loop_round first second decreases jumps bound ready
      have smaller : (Registers.predecessor (state.registers.value var)).toNat = count - 1 := by
        rw [Registers.toNat_predecessor, value]
      by_cases zero : Registers.predecessor (state.registers.value var) = 0
      · rw [if_pos zero] at middlePlace
        rw [zero] at middleRegisters smaller
        have once : max count 1 = 1 := by
          have none : (0 : UInt64).toNat = 0 := rfl
          omega
        exact ⟨round, middle, executed, middleReady, middlePlace, middleRegisters,
          by rw [two, once], by rw [three, once]⟩
      · rw [if_neg zero] at middlePlace
        have positive : 0 < count - 1 := by
          rw [← smaller]
          exact Nat.pos_of_ne_zero fun none => zero (UInt64.toNat_inj.mp none)
        have left : (middle.registers.value var).toNat = count - 1 := by
          rw [middleRegisters, Registers.value_store, if_pos rfl, smaller]
        obtain ⟨rest, last, more, lastReady, lastPlace, lastRegisters, length, cost⟩ :=
          ih (count - 1) (by omega) middlePlace middleReady left
        refine ⟨round ++ rest, last, executed.trans more, lastReady, lastPlace, ?_, ?_, ?_⟩
        · rw [lastRegisters, middleRegisters, Registers.store_store]
        · rw [List.length_append, two, length]
          omega
        · rw [totalCycles_append, three, cost]
          omega

theorem successor_ne_zero (value : UInt64) : Registers.successor value ≠ 0 := by
  intro zero
  have number := Registers.toNat_successor value
  rw [zero] at number
  have max : Text.Decimal.wordMax = 18446744073709551615 := rfl
  have none : (0 : UInt64).toNat = 0 := rfl
  omega

/-- A work variable is not zero after it has been increased, so the condition of a jump holds. -/
theorem jump_prepared {program : Program} {increment condition : Instruction}
    {work target : String} {state : State}
    (first : program.instructions[state.position]? = some increment)
    (increases : increment.op = .increase work)
    (jumps : condition.op = .jumpNotZero work target) (ready : state.Ready) :
    ∃ middle, program.Execution state [⟨state, increment⟩] middle ∧ middle.Ready ∧
      middle.position = state.position + 1 ∧
        (∃ value, middle.registers = state.registers.store work value) ∧
          condition.op.jump? middle.registers = some target := by
  have stays : increment.op.jump? state.registers = none := by rw [increases]; rfl
  refine ⟨_, Execution.behind ready first stays, ready.standAt increment.op _, rfl, ?_, ?_⟩
  · exact ⟨_, by rw [increases]; rfl⟩
  · have nonzero := successor_ne_zero (state.registers.value work)
    simp [State.apply, State.standAt, increases, jumps, Op.effect, Op.jump?, nonzero]

/-! ## Matching states -/

/-- The second state stands at the block of the instruction that the first one stands at. -/
structure Matches (program : Program) (fresh : Nat → String) (state lowered : State) : Prop where
  position_eq : lowered.position = program.blockStart state.position
  ready : state.Ready
  loweredReady : lowered.Ready
  agrees : program.Agrees fresh state.registers lowered.registers

namespace Matches

variable {program lowered : Program} {fresh : Nat → String}
  (lowers : program.LowersTo lowered fresh)
include lowers

theorem step_basic (wellFormed : program.WellFormed)
    {state after state' : State} {instruction : Instruction}
    (matching : program.Matches fresh state state')
    (place : program.instructions[state.position]? = some instruction)
    (basic : instruction.isBasic = true)
    (stepped : state.step program.labels instruction.op = .ok after) :
    ∃ after', lowered.Execution state' [⟨state', instruction⟩] after' ∧
      program.Matches fresh after after' := by
  have code : lowered.instructions[state'.position]? = some instruction := by
    rw [matching.position_eq]
    exact lowers.kept_code place basic
  have own : ∀ var, instruction.op.var? = some var → ¬ program.IsWork fresh var :=
    fun var operand => not_isWork_of_var place operand
  have same := matching.agrees.jump?_eq own
  obtain ⟨position, rfl, ⟨stays, rfl⟩ | ⟨label, jumps, bound⟩⟩ := State.step_eq_ok stepped
  · refine ⟨_, Execution.behind matching.loweredReady code (same.trans stays), ?_,
      matching.ready.standAt _ _, matching.loweredReady.standAt _ _, matching.agrees.effect own⟩
    show state'.position + 1 = program.blockStart state.nextPosition
    rw [matching.ready.nextPosition_eq, matching.position_eq, blockStart_succ place "" 0,
      Instruction.block_of_isBasic basic]
    rfl
  · have target := lowers.get?_of_bound wellFormed bound
    exact ⟨_, Execution.jump matching.loweredReady code (same.trans jumps) target, rfl,
      matching.ready.standAt _ _, matching.loweredReady.standAt _ _, matching.agrees.effect own⟩

theorem step_zero (wellFormed : program.WellFormed)
    {state after state' : State} {instruction : Instruction} {var : String}
    (matching : program.Matches fresh state state')
    (place : program.instructions[state.position]? = some instruction)
    (zeroes : instruction.op = .zero var)
    (stepped : state.step program.labels instruction.op = .ok after) :
    ∃ trace after', lowered.Execution state' trace after' ∧ program.Matches fresh after after' ∧
      trace.length = 2 * max (state.registers.value var).toNat 1 ∧
        totalCycles trace = 3 * max (state.registers.value var).toNat 1 := by
  have own : ¬ program.IsWork fresh var := not_isWork_of_var place (by rw [zeroes]; rfl)
  have stays : instruction.op.jump? state.registers = none := by rw [zeroes]; rfl
  rw [matching.ready.step_of_not_jump stays] at stepped
  obtain ⟨decrement, condition, first, second, decreases, -, jumps⟩ :=
    lowers.loop_code place zeroes
  obtain ⟨trace, last, executed, ready, lastPlace, registers, length, cost⟩ :=
    loop_execution first second decreases jumps (lowers.get?_loop wellFormed place zeroes)
      matching.position_eq matching.loweredReady rfl
  rw [matching.agrees.value_eq own] at length cost
  refine ⟨trace, last, executed, ?_, length, cost⟩
  rw [← Except.ok.inj stepped]
  refine ⟨?_, matching.ready.standAt _ _, ready, ?_⟩
  · show last.position = program.blockStart (state.position + 1)
    rw [lastPlace, blockStart_succ place "" 0, instruction.block_of_zero zeroes]
    rfl
  · rw [registers]
    show program.Agrees fresh (instruction.op.effect state.registers) _
    rw [zeroes]
    exact matching.agrees.store own 0

/-- A jump prepares its work variable and then jumps or fails as the program does. -/
theorem prepare_goto {state state' : State} {instruction : Instruction}
    {target : String} (matching : program.Matches fresh state state')
    (place : program.instructions[state.position]? = some instruction)
    (jumps : instruction.op = .goto target) :
    ∃ increment condition middle,
      lowered.Execution state' [⟨state', increment⟩] middle ∧ middle.Ready ∧
        middle.position = program.blockStart state.position + 1 ∧
        lowered.instructions[middle.position]? = some condition ∧
        increment.op = .increase (fresh state.position) ∧
        condition.op = .jumpNotZero (fresh state.position) target ∧
        condition.op.jump? middle.registers = some target ∧
        program.Agrees fresh state.registers middle.registers := by
  have work := lowers.isWork place jumps
  obtain ⟨increment, condition, first, second, increases, conditional⟩ :=
    lowers.jump_code place jumps
  rw [← matching.position_eq] at first second
  obtain ⟨middle, executed, ready, middlePlace, ⟨value, registers⟩, holds⟩ :=
    jump_prepared first increases conditional matching.loweredReady
  refine ⟨increment, condition, middle, executed, ready, ?_, ?_, increases, conditional, holds,
    ?_⟩
  · rw [middlePlace, matching.position_eq]
  · rw [middlePlace]
    exact second
  · rw [registers]
    exact matching.agrees.store_work work value

theorem step_goto (wellFormed : program.WellFormed)
    {state after state' : State} {instruction : Instruction} {target : String}
    (matching : program.Matches fresh state state')
    (place : program.instructions[state.position]? = some instruction)
    (jumps : instruction.op = .goto target)
    (stepped : state.step program.labels instruction.op = .ok after) :
    ∃ trace after', lowered.Execution state' trace after' ∧ program.Matches fresh after after' ∧
      trace.length = 2 ∧ totalCycles trace = 3 := by
  obtain ⟨increment, condition, middle, executed, ready, -, code, increases, conditional, holds,
    agrees⟩ := matching.prepare_goto lowers place jumps
  have goes : instruction.op.jump? state.registers = some target := by rw [jumps]; rfl
  obtain ⟨position, rfl, ⟨stays, -⟩ | ⟨label, jumped, bound⟩⟩ := State.step_eq_ok stepped
  · rw [goes] at stays
    cases stays
  · rw [goes, Option.some.injEq] at jumped
    rw [← jumped] at bound
    have arrives := lowers.get?_of_bound wellFormed bound
    refine ⟨_, _, executed.trans (Execution.jump ready code holds arrives),
      ⟨rfl, matching.ready.standAt _ _, ready.standAt _ _, ?_⟩, rfl, ?_⟩
    · show program.Agrees fresh (instruction.op.effect state.registers)
        (condition.op.effect middle.registers)
      rw [jumps, conditional]
      exact agrees.store_work (lowers.isWork place jumps) _
    · simp [totalCycles, Instruction.cycles, increases, conditional, Op.cycles, Op.opcode,
        Opcode.cycles]

/-- Every step of the program is an execution of the lowered code between matching states. -/
theorem step (wellFormed : program.WellFormed)
    {state after state' : State} {instruction : Instruction}
    (matching : program.Matches fresh state state')
    (place : program.instructions[state.position]? = some instruction)
    (stepped : state.step program.labels instruction.op = .ok after) :
    ∃ trace after', lowered.Execution state' trace after' ∧ program.Matches fresh after after' ∧
      trace.length = Visit.loweredSteps ⟨state, instruction⟩ ∧
        totalCycles trace = Visit.loweredCycles ⟨state, instruction⟩ := by
  cases op : instruction.op with
  | zero var =>
      simpa only [Visit.loweredSteps, Visit.loweredCycles, op] using
        matching.step_zero lowers wellFormed place op stepped
  | goto target =>
      simpa only [Visit.loweredSteps, Visit.loweredCycles, op] using
        matching.step_goto lowers wellFormed place op stepped
  | neutral _ | increase _ | decrease _ | jumpNotZero _ _ =>
      obtain ⟨after', executed, matching'⟩ := matching.step_basic lowers wellFormed place
        (by simp [Instruction.isBasic_eq, op]) stepped
      refine ⟨_, after', executed, matching', ?_, ?_⟩
      · simp [Visit.loweredSteps, op]
      · simp [Visit.loweredCycles, totalCycles, op]

/-- Every execution of the program is matched by one of the lowered code. -/
theorem run (wellFormed : program.WellFormed) {state last state' : State} {trace : List Visit}
    (execution : program.Execution state trace last)
    (matching : program.Matches fresh state state') :
    ∃ trace' last', lowered.Execution state' trace' last' ∧ program.Matches fresh last last' ∧
      trace'.length = (trace.map Visit.loweredSteps).sum ∧
        totalCycles trace' = (trace.map Visit.loweredCycles).sum := by
  induction execution generalizing state' with
  | refl => exact ⟨[], state', .refl state', matching, rfl, rfl⟩
  | next fetched stepped _ ih =>
      obtain ⟨first, after', executed, matching', steps, cycles⟩ :=
        matching.step lowers wellFormed (State.getElem?_of_next? fetched) stepped
      obtain ⟨rest, last', executed', matching'', steps', cycles'⟩ := ih matching'
      refine ⟨first ++ rest, last', executed.trans executed', matching'', ?_, ?_⟩
      · rw [List.length_append, steps, steps', List.map_cons, List.sum_cons]
      · rw [totalCycles_append, cycles, cycles', List.map_cons, List.sum_cons]

theorem next?_eq_none {state state' : State}
    (matching : program.Matches fresh state state') (ended : state.next? program = none) :
    state'.next? lowered = none := by
  rw [State.next?_of_running matching.ready.running, List.getElem?_eq_none_iff] at ended
  rw [State.next?_of_running matching.loweredReady.running, matching.position_eq]
  exact lowers.getElem?_of_length_le ended

end Matches

/-- Where the lowered code jumps for the jump at a position: in the second instruction of the
block of an unconditional jump, else in the first. -/
def jumpPlace (program : Program) (position : Nat) : Nat :=
  match program.instructions[position]?.map Instruction.op with
  | some (.goto _) => program.blockStart position + 1
  | _ => program.blockStart position

/-- Where a step of the program fails, the lowered code fails in the same block. -/
theorem Matches.fail {program lowered : Program} {fresh : Nat → String}
    (lowers : program.LowersTo lowered fresh) (wellFormed : program.WellFormed)
    {state state' : State} {instruction : Instruction} {error : RuntimeError}
    (matching : program.Matches fresh state state')
    (place : program.instructions[state.position]? = some instruction)
    (failed : state.step program.labels instruction.op = .error error) :
    ∃ label trace last child, error = .unresolvedLabel label (state.position + 1) ∧
      lowered.Execution state' trace last ∧ last.next? lowered = some child ∧
        last.step lowered.labels child.op =
          .error (.unresolvedLabel label (program.jumpPlace state.position + 1)) := by
  obtain ⟨label, jumps, unbound, rfl⟩ := State.step_eq_error failed
  have mentioned := contains_names_of_target place (Op.target?_of_jump? jumps)
  have unbound' := lowers.get?_of_unbound wellFormed mentioned unbound
  cases op : instruction.op with
  | goto target =>
      obtain ⟨increment, condition, middle, executed, ready, middlePlace, code, -, -, holds, -⟩ :=
        matching.prepare_goto lowers place op
      have same : target = label := by simpa [op, Op.jump?] using jumps
      subst same
      have found : program.jumpPlace state.position = middle.position := by
        simp [jumpPlace, place, op, middlePlace]
      rw [found]
      exact ⟨target, _, middle, condition, rfl, executed,
        (State.next?_of_running ready.running).trans code, State.step_of_unbound holds unbound'⟩
  | neutral _ | increase _ | decrease _ | zero _ => simp [op, Op.jump?] at jumps
  | jumpNotZero var target =>
      have basic : instruction.isBasic = true := by simp [Instruction.isBasic_eq, op]
      have code := lowers.kept_code place basic
      have same := matching.agrees.jump?_eq fun var operand => not_isWork_of_var place operand
      have found : program.jumpPlace state.position = state'.position := by
        simp [jumpPlace, place, op, matching.position_eq]
      rw [← matching.position_eq] at code
      rw [found]
      exact ⟨label, _, state', instruction, rfl, .refl state',
        (State.next?_of_running matching.loweredReady.running).trans code,
        State.step_of_unbound (same.trans jumps) unbound'⟩

theorem matches_initial (program : Program) (fresh : Nat → String) (inputs : List Int64) :
    program.Matches fresh (State.initial inputs) (State.initial inputs) := by
  have ready := State.ready_initial inputs
  refine ⟨?_, ready, ready, fun name _ => rfl, ?_⟩
  · show 0 = program.blockStart 0
    simp [blockStart, expandedBefore]
  · rintro name ⟨-, ⟨number, rfl⟩, -⟩
    refine Registers.findEntry_seedFrom (fun input same => ?_) {} 1 inputs
    have letter := congrArg (startsWith inputLetter) same
    rw [Registers.inputName, startsWith_numbered, startsWith_numbered] at letter
    cases letter

end Program

end RegisterMachine
