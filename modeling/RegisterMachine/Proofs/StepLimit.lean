import RegisterMachine.Proofs.Execution

/-!
# Step limits

A step limit says how long a run is watched and nothing else.  A run that is over
within the limit ends as it does without one; of any other run just as many
instructions are carried out as the limit allows, and their cost is reported.  The
step that fails has to lie within the limit to be seen, so a run that completes in
exactly as many steps as the limit allows has a result, and one that fails right
after them has not failed yet.
-/

namespace RegisterMachine.Program

/-- The run on these inputs visits exactly this trace and then comes to a jump that fails. -/
def FailsAfter (program : Program) (inputs : List Int64) (trace : List Visit)
    (error : RuntimeError) : Prop :=
  ∃ last instruction, program.Execution (State.initial inputs) trace last ∧
    last.next? program = some instruction ∧
      last.step program.labels instruction.op = .error error

/-- Before the step that fails a run is still going. -/
theorem Execution.watch_before_step {program : Program} {state last : State}
    {trace : List Visit} {instruction : Instruction}
    (execution : program.Execution state trace last)
    (fetched : last.next? program = some instruction) {bound : Nat} (taken : UInt64)
    (short : bound ≤ trace.length) :
    ∃ middle, program.watch bound taken state = .going middle := by
  rcases Nat.lt_or_eq_of_le short with before | whole
  · exact execution.watch_going taken before
  · have reached := execution.watch_add 0 taken
    rw [Nat.add_zero, ← whole] at reached
    exact ⟨last, by rw [reached]; simp [watch, fetched]⟩

theorem FailsAfter.runUpTo_eq {program : Program} {inputs : List Int64} {trace : List Visit}
    {error : RuntimeError} (fails : program.FailsAfter inputs trace error) {limit : UInt64}
    (within : trace.length < limit.toNat) : program.runUpTo limit inputs = .error error := by
  obtain ⟨last, instruction, execution, fetched, failed⟩ := fails
  obtain ⟨more, long⟩ := Nat.exists_eq_add_of_le (Nat.succ_le_of_lt within)
  have watched := watch_failed_add (execution.watch_failed fetched failed 0) more
  rw [runUpTo, long, Nat.succ_eq_add_one, watched]

/-- A run that is not over within the limit is cut after as many instructions. -/
theorem runUpTo_eq_limit {program : Program} {inputs : List Int64} {limit : UInt64}
    (endless : ∀ trace result, program.Completes inputs trace result →
      limit.toNat < trace.length)
    (safe : ∀ trace error, program.FailsAfter inputs trace error → limit.toNat ≤ trace.length) :
    ∃ trace last, program.Execution (State.initial inputs) trace last ∧
      trace.length = limit.toNat ∧
        program.runUpTo limit inputs =
          .error (.stepLimitExceeded limit (UInt64.ofNat (totalCycles trace))) := by
  obtain ⟨trace, last, execution, ⟨going, whole⟩ | ⟨-, short, ended⟩ |
    ⟨instruction, error, failed, fetched, stepped⟩⟩ :=
      program.watch_cases limit.toNat 0 (State.initial inputs)
  · have charged : last.cycles = UInt64.ofNat (totalCycles trace) :=
      execution.cycles_eq.trans (UInt64.zero_add _)
    exact ⟨trace, last, execution, whole, by rw [runUpTo, going, ← charged]⟩
  · have long := endless trace _ ⟨last, execution, ended, rfl⟩
    omega
  · have late := safe trace error ⟨last, instruction, execution, fetched, stepped⟩
    obtain ⟨middle, going⟩ := execution.watch_before_step fetched 0 late
    rw [failed] at going
    cases going

/-- The run on these inputs is cut by the limit. -/
def Cut (program : Program) (inputs : List Int64) (limit : UInt64) : Prop :=
  ∃ cycles, program.run (some limit) inputs = .error (.stepLimitExceeded limit cycles)

/-- A run with a limit that is not cut ends as the run does that is watched without a bound. -/
theorem cut_or_ends (program : Program) (inputs : List Int64) (limit : UInt64) :
    program.Cut inputs limit ∨
      (∃ result, program.run (some limit) inputs = .ok result ∧ program.Halts inputs result) ∨
        ∃ error, program.run (some limit) inputs = .error error ∧ program.Fails inputs error := by
  rw [Cut, run, Option.getD_some, runUpTo]
  cases watched : program.watch limit.toNat 0 (State.initial inputs) with
  | halted state steps => exact Or.inr (Or.inl ⟨_, rfl, _, state, steps, watched, rfl⟩)
  | failed error => exact Or.inr (Or.inr ⟨error, rfl, _, watched⟩)
  | going state => exact Or.inl ⟨state.cycles, rfl⟩

/-- A run with a step limit beside the run without one, which completes after some trace, fails
after some trace, or does neither. -/
structure OnlyCuts (program : Program) (inputs : List Int64) (limit : UInt64) : Prop where
  halts_within : ∀ trace result, program.Completes inputs trace result →
    trace.length ≤ limit.toNat →
      program.run (some limit) inputs = .ok result ∧ program.run none inputs = .ok result
  fails_within : ∀ trace error, program.FailsAfter inputs trace error →
    trace.length < limit.toNat →
      program.run (some limit) inputs = .error error ∧ program.run none inputs = .error error
  /-- A run that halts without a limit halts the same way with one, unless it is cut. -/
  halts_or_cut : ∀ result, program.Halts inputs result →
    program.run (some limit) inputs = .ok result ∨ program.Cut inputs limit
  fails_or_cut : ∀ error, program.Fails inputs error →
    program.run (some limit) inputs = .error error ∨ program.Cut inputs limit
  forever_cut : program.RunsForever inputs → program.Cut inputs limit
  /-- In every other case the error carries the cost of as many instructions as are allowed. -/
  otherwise : (∀ trace result, program.Completes inputs trace result →
      limit.toNat < trace.length) →
    (∀ trace error, program.FailsAfter inputs trace error → limit.toNat ≤ trace.length) →
      ∃ trace last cycles, program.Execution (State.initial inputs) trace last ∧
        trace.length = limit.toNat ∧
          program.run (some limit) inputs = .error (.stepLimitExceeded limit cycles) ∧
            cycles = UInt64.ofNat (totalCycles trace) ∧
              (totalCycles trace < 2 ^ 64 → cycles.toNat = totalCycles trace)
  /-- The only failure is a jump to a label that is not bound. -/
  failure_cases : ∀ trace error, program.FailsAfter inputs trace error →
    ∃ label number, error = .unresolvedLabel label number
  /-- A result without a limit is the result with one that is not below its steps. -/
  result_within : ∀ result, program.run none inputs = .ok result → result.steps ≤ limit →
    program.run (some limit) inputs = .ok result
  /-- A result stays the same with a larger limit and without one. -/
  result_kept : ∀ result, program.run (some limit) inputs = .ok result →
    program.Halts inputs result ∧ program.run none inputs = .ok result ∧
      ∀ larger, limit ≤ larger → program.run (some larger) inputs = .ok result
  result_unique : ∀ other result result', program.run (some limit) inputs = .ok result →
    program.run (some other) inputs = .ok result' → result = result'

/-- A step limit cuts runs and does not change them. -/
theorem step_limit_only_cuts (program : Program) (inputs : List Int64) (limit : UInt64) :
    program.OnlyCuts inputs limit := by
  constructor
  case halts_within =>
    intro trace result completes short
    have ran := runUpTo_eq_ok_iff.mpr ⟨trace, completes, short⟩
    exact ⟨ran, runUpTo_mono ran (le_largestLimit limit)⟩
  case fails_within =>
    intro trace error fails within
    have largest := UInt64.le_iff_toNat_le.mp (le_largestLimit limit)
    exact ⟨fails.runUpTo_eq within, fails.runUpTo_eq (Nat.lt_of_lt_of_le within largest)⟩
  case halts_or_cut =>
    intro result halts
    rcases program.cut_or_ends inputs limit with cut | ⟨other, ran, halts'⟩ | ⟨error, -, fails⟩
    · exact Or.inr cut
    · exact Or.inl (halts.unique halts' ▸ ran)
    · exact absurd fails halts.not_fails
  case fails_or_cut =>
    intro error fails
    rcases program.cut_or_ends inputs limit with cut | ⟨result, -, halts⟩ | ⟨other, ran, fails'⟩
    · exact Or.inr cut
    · exact absurd fails halts.not_fails
    · exact Or.inl (fails.unique fails' ▸ ran)
  case forever_cut =>
    intro forever
    rcases program.cut_or_ends inputs limit with cut | ⟨result, -, halts⟩ | ⟨error, -, fails⟩
    · exact cut
    · exact absurd forever halts.not_runsForever
    · exact absurd forever fails.not_runsForever
  case otherwise =>
    intro endless safe
    obtain ⟨trace, last, execution, whole, ran⟩ := runUpTo_eq_limit endless safe
    exact ⟨trace, last, _, execution, whole, ran, rfl, UInt64.toNat_ofNat_of_lt'⟩
  case failure_cases =>
    rintro trace error ⟨last, instruction, -, -, failed⟩
    obtain ⟨label, -, -, same⟩ := State.step_eq_error failed
    exact ⟨label, _, same⟩
  case result_within =>
    intro result ran short
    obtain ⟨trace, completes, steps⟩ := exists_trace_of_runUpTo ran
    exact runUpTo_eq_ok_iff.mpr ⟨trace, completes, steps ▸ UInt64.le_iff_toNat_le.mp short⟩
  case result_kept =>
    intro result ran
    exact ⟨halts_of_runUpTo ran, runUpTo_mono ran (le_largestLimit limit),
      fun larger le => runUpTo_mono ran le⟩
  case result_unique =>
    intro other result result' ran ran'
    exact (halts_of_runUpTo ran).unique (halts_of_runUpTo ran')

end RegisterMachine.Program
