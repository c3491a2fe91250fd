import Mathlib.Algebra.Ring.Nat
import RegisterMachine.Machine.Run

/-!
# Executions

An execution is a finite stretch of a run with everything it carries out: from
one state, through a trace of visits, to another state.  A visit is an
instruction together with the state that it finds.  Halting, failing and running
forever are statements about the executions from the initial state, and every
run does exactly one of the three.
-/

namespace RegisterMachine

/-! ## What one step can do -/

theorem Op.target?_of_jump? {op : Op} {registers : Registers} {label : String}
    (jumps : op.jump? registers = some label) : op.target? = some label := by
  cases op with
  | jumpNotZero var target =>
      rw [jump?] at jumps
      split at jumps
      · cases jumps
      · exact jumps
  | goto target => exact jumps
  | neutral _ | increase _ | decrease _ | zero _ => cases jumps

namespace State

/-- Stand at a position with no jump pending. -/
def standAt (state : State) (position : Nat) : State :=
  { state with position, jumped := false }

/-- Ready for the next instruction: no jump is pending, and no stop has been asked for. -/
structure Ready (state : State) : Prop where
  clear : state.jumped = false
  running : state.stopped = false

theorem Ready.nextPosition_eq {state : State} (ready : state.Ready) :
    state.nextPosition = state.position + 1 := by
  rw [nextPosition, ready.clear, ready.running]
  rfl

theorem Ready.standAt {state : State} (ready : state.Ready) (op : Op) (position : Nat) :
    ((state.apply op).standAt position).Ready :=
  ⟨rfl, ready.running⟩

theorem step_of_jump {labels : NameTable Nat} {state : State} {op : Op} {label : String}
    {position : Nat} (jumps : op.jump? state.registers = some label)
    (bound : labels.get? label = some position) :
    state.step labels op = .ok ((state.apply op).standAt position) := by
  simp [step, execute, jumps, jumpToLabel, bound, Except.map, jumpTo, advance, nextPosition,
    standAt]

theorem step_of_unbound {labels : NameTable Nat} {state : State} {op : Op} {label : String}
    (jumps : op.jump? state.registers = some label) (unbound : labels.get? label = none) :
    state.step labels op = .error (.unresolvedLabel label (state.position + 1)) := by
  simp [step, execute, jumps, jumpToLabel, unbound, Except.map, apply, charge]

theorem step_of_not_jump {labels : NameTable Nat} {state : State} {op : Op}
    (stays : op.jump? state.registers = none) :
    state.step labels op = .ok ((state.apply op).standAt state.nextPosition) := by
  rw [step, execute, stays]
  rfl

/-- From a state that is ready, an operation that does not jump is followed by the next one. -/
theorem Ready.step_of_not_jump {labels : NameTable Nat} {state : State} (ready : state.Ready)
    {op : Op} (stays : op.jump? state.registers = none) :
    state.step labels op = .ok ((state.apply op).standAt (state.position + 1)) := by
  rw [State.step_of_not_jump stays, ready.nextPosition_eq]

/-- A step that succeeds applies its operation and goes on behind it or to a bound label. -/
theorem step_eq_ok {labels : NameTable Nat} {state after : State} {op : Op}
    (stepped : state.step labels op = .ok after) :
    ∃ position, after = (state.apply op).standAt position ∧
      (op.jump? state.registers = none ∧ position = state.nextPosition ∨
        ∃ label, op.jump? state.registers = some label ∧ labels.get? label = some position) := by
  cases jumps : op.jump? state.registers with
  | none =>
      rw [step_of_not_jump jumps] at stepped
      exact ⟨_, (Except.ok.inj stepped).symm, Or.inl ⟨rfl, rfl⟩⟩
  | some label =>
      cases found : labels.get? label with
      | none => rw [step_of_unbound jumps found] at stepped; cases stepped
      | some position =>
          rw [step_of_jump jumps found] at stepped
          exact ⟨position, (Except.ok.inj stepped).symm, Or.inr ⟨label, rfl, found⟩⟩

/-- A step fails only at a jump to a label that is not bound. -/
theorem step_eq_error {labels : NameTable Nat} {state : State} {op : Op} {error : RuntimeError}
    (stepped : state.step labels op = .error error) :
    ∃ label, op.jump? state.registers = some label ∧ labels.get? label = none ∧
      error = .unresolvedLabel label (state.position + 1) := by
  cases jumps : op.jump? state.registers with
  | none => rw [step_of_not_jump jumps] at stepped; cases stepped
  | some label =>
      cases found : labels.get? label with
      | some position => rw [step_of_jump jumps found] at stepped; cases stepped
      | none =>
          rw [step_of_unbound jumps found] at stepped
          exact ⟨label, rfl, found, (Except.error.inj stepped).symm⟩

/-- Every step keeps a state ready. -/
theorem Ready.step {labels : NameTable Nat} {state after : State} {op : Op}
    (ready : state.Ready) (stepped : state.step labels op = .ok after) : after.Ready := by
  obtain ⟨position, rfl, -⟩ := step_eq_ok stepped
  exact ready.standAt op position

theorem ready_initial (inputs : List Int64) : (initial inputs).Ready :=
  ⟨rfl, rfl⟩

theorem next?_of_running {program : Program} {state : State} (running : state.stopped = false) :
    state.next? program = program.instructions[state.position]? := by
  simp [next?, running]

theorem getElem?_of_next? {program : Program} {state : State} {instruction : Instruction}
    (fetched : state.next? program = some instruction) :
    program.instructions[state.position]? = some instruction := by
  unfold next? at fetched
  split at fetched
  · cases fetched
  · exact fetched

end State

/-- An instruction that is carried out, with the state it finds. -/
structure Visit where
  state : State
  instruction : Instruction
deriving DecidableEq, Repr

/-- The cycles that the visits of a trace are charged, as a natural number. -/
def totalCycles (trace : List Visit) : Nat :=
  (trace.map fun visit => visit.instruction.cycles).sum

theorem totalCycles_append (first second : List Visit) :
    totalCycles (first ++ second) = totalCycles first + totalCycles second := by
  simp [totalCycles]

namespace Program

/-- The program goes from one state to another and visits the trace on the way. -/
inductive Execution (program : Program) : State → List Visit → State → Prop where
  | refl (state : State) : Execution program state [] state
  | next {state after last : State} {instruction : Instruction} {trace : List Visit}
      (fetched : state.next? program = some instruction)
      (stepped : state.step program.labels instruction.op = .ok after)
      (rest : Execution program after trace last) :
      Execution program state (⟨state, instruction⟩ :: trace) last

theorem add_ofNat_succ (taken : UInt64) (count : Nat) :
    taken + UInt64.ofNat (count + 1) = taken + 1 + UInt64.ofNat count := by
  rw [Nat.add_comm, UInt64.ofNat_add, ← UInt64.add_assoc]
  rfl

namespace Execution

theorem single {program : Program} {state after : State} {instruction : Instruction}
    (fetched : state.next? program = some instruction)
    (stepped : state.step program.labels instruction.op = .ok after) :
    program.Execution state [⟨state, instruction⟩] after :=
  .next fetched stepped (.refl after)

/-- An instruction that does not jump is followed by the one behind it. -/
theorem behind {program : Program} {state : State} {instruction : Instruction}
    (ready : state.Ready)
    (place : program.instructions[state.position]? = some instruction)
    (stays : instruction.op.jump? state.registers = none) :
    program.Execution state [⟨state, instruction⟩]
      ((state.apply instruction.op).standAt (state.position + 1)) :=
  .single ((State.next?_of_running ready.running).trans place) (ready.step_of_not_jump stays)

/-- An instruction that jumps is followed by the one that carries the label. -/
theorem jump {program : Program} {state : State} {instruction : Instruction} {label : String}
    {position : Nat} (ready : state.Ready)
    (place : program.instructions[state.position]? = some instruction)
    (jumps : instruction.op.jump? state.registers = some label)
    (bound : program.labels.get? label = some position) :
    program.Execution state [⟨state, instruction⟩]
      ((state.apply instruction.op).standAt position) :=
  .single ((State.next?_of_running ready.running).trans place) (State.step_of_jump jumps bound)

theorem trans {program : Program} {first middle last : State} {left right : List Visit}
    (start : program.Execution first left middle) (rest : program.Execution middle right last) :
    program.Execution first (left ++ right) last := by
  induction start with
  | refl => exact rest
  | next fetched stepped _ ih => exact .next fetched stepped (ih rest)

/-- The flag of a jump is clear and no stop is pending at every instruction of a run. -/
theorem ready {program : Program} {state last : State} {trace : List Visit}
    (execution : program.Execution state trace last) (ready : state.Ready) : last.Ready := by
  induction execution with
  | refl => exact ready
  | next _ stepped _ ih => exact ih (ready.step stepped)

/-- The counter of a state is the cycles of the trace, taken modulo the word size. -/
theorem cycles_eq {program : Program} {state last : State} {trace : List Visit}
    (execution : program.Execution state trace last) :
    last.cycles = state.cycles + UInt64.ofNat (totalCycles trace) := by
  induction execution with
  | refl state => simp [totalCycles]
  | @next state after last instruction trace _ stepped _ ih =>
      obtain ⟨position, rfl, -⟩ := State.step_eq_ok stepped
      have total : totalCycles (⟨state, instruction⟩ :: trace) =
          instruction.op.cycles + totalCycles trace := by
        simp [totalCycles, Instruction.cycles]
      have charged : ((state.apply instruction.op).standAt position).cycles =
          state.cycles + UInt64.ofNat instruction.op.cycles := rfl
      rw [ih, charged, total, UInt64.ofNat_add, UInt64.add_assoc]

/-- Watching a run past an execution is watching it from where the execution ends. -/
theorem watch_add {program : Program} {state last : State} {trace : List Visit}
    (execution : program.Execution state trace last) (more : Nat) (taken : UInt64) :
    program.watch (trace.length + more) taken state =
      program.watch more (taken + UInt64.ofNat trace.length) last := by
  induction execution generalizing taken with
  | refl => simp
  | @next state after last instruction trace fetched stepped _ ih =>
      rw [List.length_cons, Nat.add_right_comm, watch, add_ofNat_succ, ← ih]
      simp only [fetched, stepped]

/-- A run is still going at every point before the end of an execution. -/
theorem watch_going {program : Program} {state last : State} {trace : List Visit}
    (execution : program.Execution state trace last) {bound : Nat} (taken : UInt64)
    (before : bound < trace.length) :
    ∃ middle, program.watch bound taken state = .going middle := by
  induction execution generalizing bound taken with
  | refl => exact absurd before (Nat.not_lt_zero _)
  | @next state after last instruction trace fetched stepped _ ih =>
      cases bound with
      | zero => exact ⟨state, by simp [watch, fetched]⟩
      | succ bound =>
          rw [List.length_cons, Nat.succ_lt_succ_iff] at before
          obtain ⟨middle, watched⟩ := ih (taken + 1) before
          exact ⟨middle, by simp only [watch, fetched, stepped, watched]⟩

theorem watch_halted {program : Program} {state last : State} {trace : List Visit}
    (execution : program.Execution state trace last) (ended : last.next? program = none)
    (more : Nat) (taken : UInt64) :
    program.watch (trace.length + more) taken state =
      .halted last (taken + UInt64.ofNat trace.length) := by
  rw [execution.watch_add]
  cases more <;> simp [watch, ended]

theorem watch_failed {program : Program} {state last : State} {trace : List Visit}
    {instruction : Instruction} {error : RuntimeError}
    (execution : program.Execution state trace last)
    (fetched : last.next? program = some instruction)
    (failed : last.step program.labels instruction.op = .error error) (taken : UInt64) :
    program.watch (trace.length + 1) taken state = .failed error := by
  rw [execution.watch_add]
  simp [watch, fetched, failed]

end Execution

/-- What watching sees is an execution: it reaches the bound, or the end, or a jump that fails. -/
theorem watch_cases (program : Program) (bound : Nat) (taken : UInt64) (state : State) :
    ∃ trace last, program.Execution state trace last ∧
      (program.watch bound taken state = .going last ∧ trace.length = bound ∨
        program.watch bound taken state = .halted last (taken + UInt64.ofNat trace.length) ∧
          trace.length ≤ bound ∧ last.next? program = none ∨
        ∃ instruction error, program.watch bound taken state = .failed error ∧
          last.next? program = some instruction ∧
            last.step program.labels instruction.op = .error error) := by
  induction bound generalizing taken state with
  | zero =>
      refine ⟨[], state, .refl state, ?_⟩
      cases fetched : state.next? program with
      | none => exact Or.inr (Or.inl ⟨by simp [watch, fetched], Nat.le_refl 0, rfl⟩)
      | some instruction => exact Or.inl ⟨by simp [watch, fetched], rfl⟩
  | succ bound ih =>
      cases fetched : state.next? program with
      | none =>
          exact ⟨[], state, .refl state,
            Or.inr (Or.inl ⟨by simp [watch, fetched], Nat.zero_le _, fetched⟩)⟩
      | some instruction =>
          cases stepped : state.step program.labels instruction.op with
          | error error =>
              exact ⟨[], state, .refl state,
                Or.inr (Or.inr ⟨instruction, error, by simp [watch, fetched, stepped],
                  fetched, stepped⟩)⟩
          | ok after =>
              have unfolded : program.watch (bound + 1) taken state =
                  program.watch bound (taken + 1) after := by
                simp only [watch, fetched, stepped]
              obtain ⟨trace, last, execution, ends⟩ := ih (taken + 1) after
              refine ⟨_, last, .next fetched stepped execution, ?_⟩
              rw [unfolded, List.length_cons, add_ofNat_succ]
              rcases ends with ⟨going, whole⟩ | ⟨halted, short, ended⟩ | failed
              · exact Or.inl ⟨going, congrArg Nat.succ whole⟩
              · exact Or.inr (Or.inl ⟨halted, Nat.succ_le_succ short, ended⟩)
              · exact Or.inr (Or.inr failed)

/-! ## How runs end -/

/-- The run on these inputs visits exactly this trace and ends with this result. -/
def Completes (program : Program) (inputs : List Int64) (trace : List Visit)
    (result : RunResult) : Prop :=
  ∃ last, program.Execution (State.initial inputs) trace last ∧ last.next? program = none ∧
    last.result (UInt64.ofNat trace.length) = result

theorem halts_iff {program : Program} {inputs : List Int64} {result : RunResult} :
    program.Halts inputs result ↔ ∃ trace, program.Completes inputs trace result := by
  constructor
  · rintro ⟨bound, state, steps, watched, same⟩
    obtain ⟨trace, last, execution, ⟨going, -⟩ | ⟨halted, -, ended⟩ | ⟨_, _, failed, -⟩⟩ :=
      program.watch_cases bound 0 (State.initial inputs)
    · rw [watched] at going; cases going
    · rw [watched, UInt64.zero_add] at halted
      cases halted
      exact ⟨trace, state, execution, ended, same⟩
    · rw [watched] at failed; cases failed
  · rintro ⟨trace, last, execution, ended, same⟩
    exact ⟨_, _, _, execution.watch_halted ended 0 0, by rw [UInt64.zero_add]; exact same⟩

/-- A run has one trace. -/
theorem Execution.unique {program : Program} {state last last' : State} {trace trace' : List Visit}
    (execution : program.Execution state trace last) (ended : last.next? program = none)
    (execution' : program.Execution state trace' last') (ended' : last'.next? program = none) :
    trace = trace' ∧ last = last' := by
  induction execution generalizing trace' with
  | refl =>
      cases execution' with
      | refl => exact ⟨rfl, rfl⟩
      | next fetched => rw [ended] at fetched; cases fetched
  | next fetched stepped _ ih =>
      cases execution' with
      | refl => rw [ended'] at fetched; cases fetched
      | next fetched' stepped' rest =>
          rw [fetched] at fetched'
          cases fetched'
          rw [stepped] at stepped'
          cases stepped'
          obtain ⟨sameTrace, sameLast⟩ := ih ended rest
          exact ⟨congrArg _ sameTrace, sameLast⟩

theorem Completes.trace_eq {program : Program} {inputs : List Int64} {trace trace' : List Visit}
    {result result' : RunResult} (completes : program.Completes inputs trace result)
    (completes' : program.Completes inputs trace' result') : trace = trace' := by
  obtain ⟨last, execution, ended, -⟩ := completes
  obtain ⟨last', execution', ended', -⟩ := completes'
  exact (execution.unique ended execution' ended').1

/-- The counters of a result are the totals of its trace while these fit in a word. -/
theorem Completes.counters {program : Program} {inputs : List Int64} {trace : List Visit}
    {result : RunResult} (completes : program.Completes inputs trace result) :
    (totalCycles trace < 2 ^ 64 → result.cycles.toNat = totalCycles trace) ∧
      (trace.length < 2 ^ 64 → result.steps.toNat = trace.length) := by
  obtain ⟨last, execution, -, rfl⟩ := completes
  constructor
  · intro fits
    show last.cycles.toNat = totalCycles trace
    rw [execution.cycles_eq]
    show (0 + UInt64.ofNat (totalCycles trace)).toNat = totalCycles trace
    rw [UInt64.zero_add]
    exact UInt64.toNat_ofNat_of_lt' fits
  · intro fits
    exact UInt64.toNat_ofNat_of_lt' fits

/-- A run within a step limit has a result when it completes in no more steps. -/
theorem runUpTo_eq_ok_iff {program : Program} {limit : UInt64} {inputs : List Int64}
    {result : RunResult} : program.runUpTo limit inputs = .ok result ↔
      ∃ trace, program.Completes inputs trace result ∧ trace.length ≤ limit.toNat := by
  unfold runUpTo
  constructor
  · intro ran
    obtain ⟨trace, last, execution, ⟨going, -⟩ | ⟨halted, short, ended⟩ | ⟨_, _, failed, -⟩⟩ :=
      program.watch_cases limit.toNat 0 (State.initial inputs)
    · rw [going] at ran; cases ran
    · rw [halted, UInt64.zero_add] at ran
      exact ⟨trace, ⟨last, execution, ended, Except.ok.inj ran⟩, short⟩
    · rw [failed] at ran; cases ran
  · rintro ⟨trace, ⟨last, execution, ended, same⟩, short⟩
    obtain ⟨more, long⟩ := Nat.exists_eq_add_of_le short
    rw [long, execution.watch_halted ended more 0, UInt64.zero_add]
    exact congrArg Except.ok same

/-- The steps of a result are those of its trace. -/
theorem exists_trace_of_runUpTo {program : Program} {limit : UInt64} {inputs : List Int64}
    {result : RunResult} (ran : program.runUpTo limit inputs = .ok result) :
    ∃ trace, program.Completes inputs trace result ∧ result.steps.toNat = trace.length := by
  obtain ⟨trace, completes, short⟩ := runUpTo_eq_ok_iff.mp ran
  exact ⟨trace, completes, completes.counters.2 (Nat.lt_of_le_of_lt short limit.toNat_lt)⟩

/-- A result within a limit is the result within every larger one. -/
theorem runUpTo_mono {program : Program} {inputs : List Int64} {limit larger : UInt64}
    {result : RunResult} (ran : program.runUpTo limit inputs = .ok result)
    (le : limit ≤ larger) : program.runUpTo larger inputs = .ok result := by
  obtain ⟨trace, completes, short⟩ := runUpTo_eq_ok_iff.mp ran
  exact runUpTo_eq_ok_iff.mpr
    ⟨trace, completes, Nat.le_trans short (UInt64.le_iff_toNat_le.mp le)⟩

theorem le_largestLimit (limit : UInt64) : limit ≤ largestLimit :=
  UInt64.le_iff_toNat_le.mpr (Nat.le_of_lt_succ limit.toNat_lt)

theorem fails_iff {program : Program} {inputs : List Int64} {error : RuntimeError} :
    program.Fails inputs error ↔ ∃ trace last instruction,
      program.Execution (State.initial inputs) trace last ∧
        last.next? program = some instruction ∧
          last.step program.labels instruction.op = .error error := by
  constructor
  · rintro ⟨bound, watched⟩
    obtain ⟨trace, last, execution, ⟨going, -⟩ | ⟨halted, -⟩ | ⟨_, _, failed, fetched, stepped⟩⟩ :=
      program.watch_cases bound 0 (State.initial inputs)
    · rw [watched] at going; cases going
    · rw [watched] at halted; cases halted
    · rw [watched] at failed
      cases failed
      exact ⟨trace, last, _, execution, fetched, stepped⟩
  · rintro ⟨trace, last, instruction, execution, fetched, stepped⟩
    exact ⟨_, execution.watch_failed fetched stepped 0⟩

theorem runsForever_iff {program : Program} {inputs : List Int64} :
    program.RunsForever inputs ↔ ∀ count, ∃ trace last,
      program.Execution (State.initial inputs) trace last ∧ trace.length = count := by
  constructor
  · intro forever count
    obtain ⟨state, watched⟩ := forever count
    obtain ⟨trace, last, execution, ⟨-, whole⟩ | ⟨halted, -⟩ | ⟨_, _, failed, -⟩⟩ :=
      program.watch_cases count 0 (State.initial inputs)
    · exact ⟨trace, last, execution, whole⟩
    · rw [watched] at halted; cases halted
    · rw [watched] at failed; cases failed
  · intro long bound
    obtain ⟨trace, last, execution, whole⟩ := long (bound + 1)
    exact execution.watch_going 0 (by omega)

/-- A run halts, fails or goes on forever. -/
theorem halts_or_fails_or_runsForever (program : Program) (inputs : List Int64) :
    (∃ result, program.Halts inputs result) ∨ (∃ error, program.Fails inputs error) ∨
      program.RunsForever inputs := by
  by_cases halts : ∃ result, program.Halts inputs result
  · exact Or.inl halts
  by_cases fails : ∃ error, program.Fails inputs error
  · exact Or.inr (Or.inl fails)
  refine Or.inr (Or.inr fun bound => ?_)
  cases watched : program.watch bound 0 (State.initial inputs) with
  | halted state steps => exact absurd ⟨_, bound, state, steps, watched, rfl⟩ halts
  | failed error => exact absurd ⟨error, bound, watched⟩ fails
  | going state => exact ⟨state, rfl⟩

theorem Halts.not_runsForever {program : Program} {inputs : List Int64} {result : RunResult}
    (halts : program.Halts inputs result) : ¬ program.RunsForever inputs := by
  intro forever
  obtain ⟨bound, state, steps, watched, -⟩ := halts
  obtain ⟨middle, going⟩ := forever bound
  rw [watched] at going
  cases going

theorem Fails.not_runsForever {program : Program} {inputs : List Int64} {error : RuntimeError}
    (fails : program.Fails inputs error) : ¬ program.RunsForever inputs := by
  intro forever
  obtain ⟨bound, watched⟩ := fails
  obtain ⟨middle, going⟩ := forever bound
  rw [watched] at going
  cases going

theorem Fails.unique {program : Program} {inputs : List Int64} {first second : RuntimeError}
    (fails : program.Fails inputs first) (fails' : program.Fails inputs second) :
    first = second := by
  obtain ⟨bound, watched⟩ := fails
  obtain ⟨bound', watched'⟩ := fails'
  have longer := watch_failed_add watched bound'
  rw [Nat.add_comm, watch_failed_add watched' bound] at longer
  exact (Progress.failed.inj longer).symm

end Program

end RegisterMachine
