import RegisterMachine.Proofs.Simulation

/-!
# Lowering preserves runs

What one step of a program has to do with the lowered code carries over to whole
runs.  When the program halts, so does the lowered code, with the same registers
and some work variables more; when it fails, the lowered code fails in the block of
the same jump; when it goes on forever, so does the lowered code.  There is no
fourth way for a run, so the other directions follow.
-/

namespace RegisterMachine.Program

/-- The second result is the first one with work variables of jumps added. -/
structure ResultExtends (program lowered : Program) (result result' : RunResult) : Prop where
  output_eq : result'.output = result.output
  kept : ∀ name value, (name, value) ∈ result.registers → (name, value) ∈ result'.registers
  added : ∀ name value, (name, value) ∈ result'.registers →
    (name, value) ∈ result.registers ∨
      program.names.contains name = false ∧ (∃ number, name = numbered workLetter number) ∧
        ∃ position instruction target child,
          program.instructions[position]? = some instruction ∧ instruction.op = .goto target ∧
            lowered.instructions[program.blockStart position]? = some child ∧
              child.op = .increase name

theorem Matches.resultExtends {program lowered : Program} {fresh : Nat → String}
    (lowers : program.LowersTo lowered fresh) {state state' : State}
    (matching : program.Matches fresh state state') (steps steps' : UInt64) :
    ResultExtends program lowered (state.result steps) (state'.result steps') where
  output_eq := by
    rw [State.output_result, State.output_result]
    refine matching.agrees.value_eq ?_
    rintro ⟨-, ⟨number, same⟩, -⟩
    have letter := congrArg (startsWith workLetter) same
    rw [startsWith_numbered] at letter
    revert letter
    decide
  kept name value member := by
    rw [State.result, Registers.mem_snapshot_iff] at member ⊢
    rw [matching.agrees.kept name, member]
    intro work
    rw [matching.agrees.unused name work] at member
    cases member
  added name value member := by
    rw [State.result, Registers.mem_snapshot_iff] at member ⊢
    by_cases work : program.IsWork fresh name
    · obtain ⟨absent, letter, position, instruction, target, place, jumps, rfl⟩ := work
      obtain ⟨increment, -, first, -, increases, -⟩ := lowers.jump_code place jumps
      exact Or.inr ⟨absent, letter, position, instruction, target, increment, place, jumps, first,
        increases⟩
    · rw [matching.agrees.kept name work] at member
      exact Or.inl member

theorem jumpPlace_lt (program : Program) {first second : Nat} (before : first < second) :
    program.jumpPlace first < program.jumpPlace second := by
  have reaches : program.blockStart second ≤ program.jumpPlace second := by
    unfold jumpPlace
    split <;> omega
  refine Nat.lt_of_lt_of_le ?_ reaches
  have start := program.blockStart_lt before
  unfold jumpPlace
  split
  · next target jumps =>
      obtain ⟨instruction, place, op⟩ := Option.map_eq_some_iff.mp jumps
      have next : program.blockStart (first + 1) = program.blockStart first + 2 := by
        rw [blockStart_succ place "" 0, instruction.block_of_goto op]
        rfl
      rcases Nat.lt_or_eq_of_le (show first + 1 ≤ second from before) with far | near
      · have further := program.blockStart_lt far
        omega
      · rw [← near, next]
        omega
  · exact start

theorem jumpPlace_injective (program : Program) {first second : Nat}
    (same : program.jumpPlace first = program.jumpPlace second) : first = second := by
  rcases Nat.lt_trichotomy first second with before | equal | behind
  · exact absurd same (Nat.ne_of_lt (program.jumpPlace_lt before))
  · exact equal
  · exact absurd same.symm (Nat.ne_of_lt (program.jumpPlace_lt behind))

section

variable {program lowered : Program} {fresh : Nat → String}
  (lowers : program.LowersTo lowered fresh) (wellFormed : program.WellFormed)
  {inputs : List Int64}
include lowers wellFormed

/-- The lowered code halts with the program. -/
theorem LowersTo.completes {trace : List Visit} {result : RunResult}
    (completes : program.Completes inputs trace result) :
    ∃ trace' result', lowered.Completes inputs trace' result' ∧
      ResultExtends program lowered result result' ∧
        trace'.length = (trace.map Visit.loweredSteps).sum ∧
          totalCycles trace' = (trace.map Visit.loweredCycles).sum := by
  obtain ⟨last, execution, ended, rfl⟩ := completes
  obtain ⟨trace', last', execution', matching, steps, cycles⟩ :=
    Matches.run lowers wellFormed execution (program.matches_initial fresh inputs)
  exact ⟨trace', _, ⟨last', execution', matching.next?_eq_none lowers ended, rfl⟩,
    matching.resultExtends lowers _ _, steps, cycles⟩

/-- The lowered code fails with the program, on the same label. -/
theorem LowersTo.fails {error : RuntimeError} (fails : program.Fails inputs error) :
    ∃ label position, error = .unresolvedLabel label (position + 1) ∧
      lowered.Fails inputs (.unresolvedLabel label (program.jumpPlace position + 1)) := by
  obtain ⟨trace, last, instruction, execution, fetched, failed⟩ := fails_iff.mp fails
  obtain ⟨trace', last', execution', matching, -⟩ :=
    Matches.run lowers wellFormed execution (program.matches_initial fresh inputs)
  obtain ⟨label, more, final, child, same, executed, fetched', failed'⟩ :=
    matching.fail lowers wellFormed (State.getElem?_of_next? fetched) failed
  exact ⟨label, last.position, same,
    fails_iff.mpr ⟨_, final, child, execution'.trans executed, fetched', failed'⟩⟩

/-- The lowered code takes no fewer steps, so it runs forever with the program. -/
theorem LowersTo.runsForever (forever : program.RunsForever inputs) :
    lowered.RunsForever inputs := by
  intro bound
  obtain ⟨trace, last, execution, whole⟩ := runsForever_iff.mp forever (bound + 1)
  obtain ⟨trace', last', execution', -, steps, -⟩ :=
    Matches.run lowers wellFormed execution (program.matches_initial fresh inputs)
  have longer := Visit.length_le_sum_loweredSteps trace
  exact execution'.watch_going 0 (by omega)

theorem LowersTo.exists_halts {result : RunResult} (halts : program.Halts inputs result) :
    ∃ result', lowered.Halts inputs result' ∧ ResultExtends program lowered result result' := by
  obtain ⟨trace, completes⟩ := halts_iff.mp halts
  obtain ⟨trace', result', completes', extended, -⟩ := lowers.completes wellFormed completes
  exact ⟨result', halts_iff.mpr ⟨trace', completes'⟩, extended⟩

/-- A run of the program ends as that of the lowered code does, since there is no fourth way. -/
theorem LowersTo.halts_of_lowered {result' : RunResult} (halts : lowered.Halts inputs result') :
    ∃ result, program.Halts inputs result := by
  rcases program.halts_or_fails_or_runsForever inputs with done | ⟨error, fails⟩ | forever
  · exact done
  · obtain ⟨label, position, -, fails'⟩ := lowers.fails wellFormed fails
    exact absurd fails' halts.not_fails
  · exact absurd (lowers.runsForever wellFormed forever) halts.not_runsForever

theorem LowersTo.fails_of_lowered {error : RuntimeError} (fails : lowered.Fails inputs error) :
    ∃ label position, error = .unresolvedLabel label (program.jumpPlace position + 1) ∧
      program.Fails inputs (.unresolvedLabel label (position + 1)) := by
  rcases program.halts_or_fails_or_runsForever inputs with
    ⟨result, halts⟩ | ⟨first, fails'⟩ | forever
  · obtain ⟨result', halts', -⟩ := lowers.exists_halts wellFormed halts
    exact absurd fails halts'.not_fails
  · obtain ⟨label, position, rfl, failsLowered⟩ := lowers.fails wellFormed fails'
    exact ⟨label, position, fails.unique failsLowered, fails'⟩
  · exact absurd (lowers.runsForever wellFormed forever) fails.not_runsForever

theorem LowersTo.runsForever_of_lowered (forever : lowered.RunsForever inputs) :
    program.RunsForever inputs := by
  rcases program.halts_or_fails_or_runsForever inputs with ⟨result, halts⟩ | ⟨error, fails⟩ | same
  · obtain ⟨result', halts', -⟩ := lowers.exists_halts wellFormed halts
    exact absurd forever halts'.not_runsForever
  · obtain ⟨label, position, -, fails'⟩ := lowers.fails wellFormed fails
    exact absurd forever fails'.not_runsForever
  · exact same

end

/-- Two programs behave alike on some inputs: both halt, both fail, or both run forever. -/
structure SameRuns (program lowered : Program) (inputs : List Int64) : Prop where
  halts_iff : (∃ result, program.Halts inputs result) ↔ ∃ result, lowered.Halts inputs result
  results : ∀ result result', program.Halts inputs result → lowered.Halts inputs result' →
    ResultExtends program lowered result result'
  /-- A failing jump fails in the block that stands for it, on the same label. -/
  fails_iff : ∀ label position,
    program.Fails inputs (.unresolvedLabel label (position + 1)) ↔
      lowered.Fails inputs (.unresolvedLabel label (program.jumpPlace position + 1))
  /-- The lowered code fails nowhere else. -/
  fails_only : ∀ error, lowered.Fails inputs error →
    ∃ label position, error = .unresolvedLabel label (program.jumpPlace position + 1) ∧
      program.Fails inputs (.unresolvedLabel label (position + 1))
  forever_iff : program.RunsForever inputs ↔ lowered.RunsForever inputs
  otherwise : (¬ ∃ result, program.Halts inputs result) →
    (¬ ∃ error, program.Fails inputs error) →
      program.RunsForever inputs ∧ lowered.RunsForever inputs

/-- Lowering to basic code preserves what a well-formed program does on every input. -/
theorem lowering_preserves_runs {program : Program} (wellFormed : program.WellFormed)
    (inputs : List Int64) :
    ∃ lowered, program.lowerTo 0 = .ok lowered ∧ SameRuns program lowered inputs := by
  obtain ⟨lowered, fresh, lowering, lowers⟩ := exists_lowersTo wellFormed.toConsistent
  refine ⟨lowered, lowering, ?_⟩
  constructor
  case halts_iff =>
    constructor
    · rintro ⟨result, halts⟩
      obtain ⟨result', halts', -⟩ := lowers.exists_halts wellFormed halts
      exact ⟨result', halts'⟩
    · rintro ⟨result', halts'⟩
      exact lowers.halts_of_lowered wellFormed halts'
  case results =>
    intro result result' halts halts'
    obtain ⟨other, same, extended⟩ := lowers.exists_halts wellFormed halts
    exact halts'.unique same ▸ extended
  case fails_iff =>
    intro label position
    constructor
    · intro fails
      obtain ⟨label', position', same, fails'⟩ := lowers.fails wellFormed fails
      cases same
      exact fails'
    · intro fails'
      obtain ⟨label', position', same, fails⟩ := lowers.fails_of_lowered wellFormed fails'
      injection same with sameLabel sameNumber
      have samePosition := program.jumpPlace_injective (Nat.succ.inj sameNumber)
      rw [sameLabel, samePosition]
      exact fails
  case fails_only =>
    intro error fails'
    exact lowers.fails_of_lowered wellFormed fails'
  case forever_iff =>
    exact ⟨lowers.runsForever wellFormed, lowers.runsForever_of_lowered wellFormed⟩
  case otherwise =>
    intro endless safe
    rcases program.halts_or_fails_or_runsForever inputs with halts | fails | forever
    · exact absurd halts endless
    · exact absurd fails safe
    · exact ⟨forever, lowers.runsForever wellFormed forever⟩

theorem lowering_preserves_runs_copy :
    copy.WellFormed ∧ (∃ result, copy.Halts [2] result) ∧
      ∃ lowered, copy.lowerTo 0 = .ok lowered ∧ SameRuns copy lowered [2] :=
  ⟨wellFormed_copy, ⟨_, 20, _, _, rfl, rfl⟩, lowering_preserves_runs wellFormed_copy [2]⟩

end RegisterMachine.Program
