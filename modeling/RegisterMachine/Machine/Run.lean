import RegisterMachine.Machine.State

/-!
# Runs

A run carries out one instruction after another until there is none left.
Watched for a number of steps it has halted, it has failed, or it is still
going.  A run with a step limit is a run watched for that many steps; if it is
still going then, the limit is exceeded.  A run without a limit of its own is
given the largest one.
-/

namespace RegisterMachine

/-- The registers and counters at the end of a run. -/
structure RunResult where
  output : UInt64
  cycles : UInt64
  steps : UInt64
  /-- Every variable touched during the run, in display order. -/
  registers : List (String × UInt64)
deriving DecidableEq, Repr

namespace RunResult

/-- The value of a variable, zero when the run did not touch it. -/
def value (result : RunResult) (name : String) : UInt64 :=
  (findEntry name result.registers).getD 0

end RunResult

/-- The result of ending in a state after some steps. -/
def State.result (state : State) (steps : UInt64) : RunResult where
  output := (findEntry outputVariable state.registers.snapshot).getD 0
  cycles := state.cycles
  steps := steps
  registers := state.registers.snapshot

/-- Where a run stands. -/
inductive Progress where
  /-- There is no instruction left, after this many steps. -/
  | halted (state : State) (steps : UInt64)
  | failed (error : RuntimeError)
  /-- There is an instruction left. -/
  | going (state : State)
deriving DecidableEq, Repr

namespace Program

/-- Watch a run for a number of steps, from a state reached after `taken` steps. -/
def watch (program : Program) : Nat → UInt64 → State → Progress
  | 0, taken, state =>
      match state.next? program with
      | some _ => .going state
      | none => .halted state taken
  | bound + 1, taken, state =>
      match state.next? program with
      | some instruction =>
          match state.step program.labels instruction.op with
          | .ok state => program.watch bound (taken + 1) state
          | .error error => .failed error
      | none => .halted state taken

/-- The result of a run with at most `limit` steps. -/
def runUpTo (program : Program) (limit : UInt64) (inputs : List Int64) :
    Except RuntimeError RunResult :=
  match program.watch limit.toNat 0 (State.initial inputs) with
  | .halted state steps => .ok (state.result steps)
  | .failed error => .error error
  | .going state => .error (.stepLimitExceeded limit state.cycles)

/-- The largest step limit. -/
def largestLimit : UInt64 :=
  UInt64.ofNat Text.Decimal.wordMax

/-- The result of a run, with or without a step limit. -/
def run (program : Program) (limit : Option UInt64) (inputs : List Int64) :
    Except RuntimeError RunResult :=
  program.runUpTo (limit.getD largestLimit) inputs

/-! ## Runs without a limit -/

/-- The run on these inputs comes to an end with this result. -/
def Halts (program : Program) (inputs : List Int64) (result : RunResult) : Prop :=
  ∃ bound state steps, program.watch bound 0 (State.initial inputs) = .halted state steps ∧
    state.result steps = result

/-- The run on these inputs comes to a jump that fails. -/
def Fails (program : Program) (inputs : List Int64) (error : RuntimeError) : Prop :=
  ∃ bound, program.watch bound 0 (State.initial inputs) = .failed error

/-- The run on these inputs goes on, however long it is watched. -/
def RunsForever (program : Program) (inputs : List Int64) : Prop :=
  ∀ bound, ∃ state, program.watch bound 0 (State.initial inputs) = .going state

/-- Once a run has halted, watching it longer changes nothing. -/
theorem watch_halted_add {program : Program} {bound : Nat} {taken steps : UInt64}
    {state last : State} (watched : program.watch bound taken state = .halted last steps)
    (more : Nat) : program.watch (bound + more) taken state = .halted last steps := by
  induction bound generalizing taken state with
  | zero =>
      rw [watch] at watched
      cases fetched : state.next? program with
      | some instruction => simp [fetched] at watched
      | none =>
          cases more with
          | zero => simpa [watch, fetched] using watched
          | succ more => simpa [watch, fetched] using watched
  | succ bound ih =>
      rw [Nat.succ_add]
      rw [watch] at watched ⊢
      cases fetched : state.next? program with
      | none => simpa [fetched] using watched
      | some instruction =>
          simp only [fetched] at watched ⊢
          cases stepped : state.step program.labels instruction.op with
          | error error => simp [stepped] at watched
          | ok after =>
              simp only [stepped] at watched ⊢
              exact ih watched

/-- Once a run has failed, watching it longer changes nothing. -/
theorem watch_failed_add {program : Program} {bound : Nat} {taken : UInt64} {state : State}
    {error : RuntimeError} (watched : program.watch bound taken state = .failed error)
    (more : Nat) : program.watch (bound + more) taken state = .failed error := by
  induction bound generalizing taken state with
  | zero =>
      rw [watch] at watched
      cases fetched : state.next? program with
      | some instruction => simp [fetched] at watched
      | none => simp [fetched] at watched
  | succ bound ih =>
      rw [Nat.succ_add]
      rw [watch] at watched ⊢
      cases fetched : state.next? program with
      | none => simp [fetched] at watched
      | some instruction =>
          simp only [fetched] at watched ⊢
          cases stepped : state.step program.labels instruction.op with
          | error found => simpa [stepped] using watched
          | ok after =>
              simp only [stepped] at watched ⊢
              exact ih watched

/-- A run has at most one result. -/
theorem Halts.unique {program : Program} {inputs : List Int64} {first second : RunResult}
    (halts : program.Halts inputs first) (halts' : program.Halts inputs second) :
    first = second := by
  obtain ⟨bound, state, steps, watched, result⟩ := halts
  obtain ⟨bound', state', steps', watched', result'⟩ := halts'
  have longer := watch_halted_add watched bound'
  rw [Nat.add_comm, watch_halted_add watched' bound] at longer
  injection longer with sameState sameSteps
  rw [← result, ← result', sameState, sameSteps]

/-- A run that halts does not fail. -/
theorem Halts.not_fails {program : Program} {inputs : List Int64} {result : RunResult}
    {error : RuntimeError} (halts : program.Halts inputs result) :
    ¬ program.Fails inputs error := by
  rintro ⟨bound', failed⟩
  obtain ⟨bound, state, steps, watched, -⟩ := halts
  have longer := watch_halted_add watched bound'
  rw [Nat.add_comm, watch_failed_add failed bound] at longer
  cases longer

/-- A result within a step limit is the result of the run without one. -/
theorem halts_of_runUpTo {program : Program} {limit : UInt64} {inputs : List Int64}
    {result : RunResult} (ran : program.runUpTo limit inputs = .ok result) :
    program.Halts inputs result := by
  unfold runUpTo at ran
  split at ran
  · next state steps watched => exact ⟨_, state, steps, watched, Except.ok.inj ran⟩
  · cases ran
  · cases ran

end Program

end RegisterMachine
