import RegisterMachine.Proofs.Preservation

/-!
# The cost of lowering

Lowered code pays more for exactly two kinds of visits.  A jump costs two cycles
and one step more than before.  Setting a variable to zero costs three cycles and
two steps for every round of its loop, and the variable says how many rounds there
are.  Summed up over the visits of a run this gives the counters of the lowered run.
-/

namespace RegisterMachine

namespace Visit

/-- One for an unconditional jump. -/
def gotos (visit : Visit) : Nat :=
  if visit.instruction.op.opcode = .gotoLabel then 1 else 0

/-- The value that a variable has just before it is set to zero. -/
def zeroed? (visit : Visit) : Option Nat :=
  match visit.instruction.op with
  | .zero var => some (visit.state.registers.value var).toNat
  | .neutral _ | .increase _ | .decrease _ | .jumpNotZero _ _ | .goto _ => none

theorem loweredSteps_eq (visit : Visit) :
    visit.loweredSteps =
      1 + visit.gotos + visit.zeroed?.elim 0 fun value => 2 * max value 1 - 1 := by
  unfold loweredSteps gotos zeroed?
  cases op : visit.instruction.op with
  | zero var =>
      simp only [Op.opcode, reduceCtorEq, if_false, Option.elim_some]
      omega
  | goto target => rfl
  | neutral _ | increase _ | decrease _ | jumpNotZero _ _ => rfl

theorem loweredCycles_eq (visit : Visit) :
    visit.loweredCycles =
      visit.instruction.cycles + 2 * visit.gotos +
        visit.zeroed?.elim 0 fun value => 3 * max value 1 - 1 := by
  unfold loweredCycles gotos zeroed? Instruction.cycles
  cases op : visit.instruction.op with
  | zero var =>
      simp only [Op.cycles, Op.opcode, Opcode.cycles, reduceCtorEq, if_false, Option.elim_some]
      omega
  | goto target => rfl
  | neutral _ | increase _ | decrease _ | jumpNotZero _ _ => rfl

end Visit

/-- The number of unconditional jumps in a trace. -/
def gotoCount (trace : List Visit) : Nat :=
  (trace.map Visit.gotos).sum

/-- The values of the variables just before they are set to zero, in the order of the visits. -/
def zeroedValues (trace : List Visit) : List Nat :=
  trace.filterMap Visit.zeroed?

theorem sum_zeroedValues_cons (weight : Nat → Nat) (visit : Visit) (trace : List Visit) :
    ((zeroedValues (visit :: trace)).map weight).sum =
      visit.zeroed?.elim 0 weight + ((zeroedValues trace).map weight).sum := by
  unfold zeroedValues
  cases found : visit.zeroed? with
  | none => simp [found]
  | some value => simp [found]

theorem sum_loweredSteps (trace : List Visit) :
    (trace.map Visit.loweredSteps).sum =
      trace.length + gotoCount trace +
        ((zeroedValues trace).map fun value => 2 * max value 1 - 1).sum := by
  induction trace with
  | nil => rfl
  | cons visit trace ih =>
      have more : gotoCount (visit :: trace) = visit.gotos + gotoCount trace := rfl
      rw [List.map_cons, List.sum_cons, ih, visit.loweredSteps_eq, sum_zeroedValues_cons, more,
        List.length_cons]
      omega

theorem sum_loweredCycles (trace : List Visit) :
    (trace.map Visit.loweredCycles).sum =
      totalCycles trace + 2 * gotoCount trace +
        ((zeroedValues trace).map fun value => 3 * max value 1 - 1).sum := by
  induction trace with
  | nil => rfl
  | cons visit trace ih =>
      have more : gotoCount (visit :: trace) = visit.gotos + gotoCount trace := rfl
      have charged : totalCycles (visit :: trace) =
          visit.instruction.cycles + totalCycles trace := rfl
      rw [List.map_cons, List.sum_cons, ih, visit.loweredCycles_eq, sum_zeroedValues_cons, more,
        charged]
      omega

namespace Program

/-- What the run of lowered code costs beside that of the program. -/
structure CostAdded (trace trace' : List Visit) (result result' : RunResult) : Prop where
  cycles_eq : totalCycles trace' = totalCycles trace + 2 * gotoCount trace +
    ((zeroedValues trace).map fun value => 3 * max value 1 - 1).sum
  steps_eq : trace'.length = trace.length + gotoCount trace +
    ((zeroedValues trace).map fun value => 2 * max value 1 - 1).sum
  /-- The counters of the two results show these numbers as long as they fit in a word. -/
  cycles_shown : totalCycles trace' < 2 ^ 64 →
    result'.cycles.toNat = result.cycles.toNat + 2 * gotoCount trace +
      ((zeroedValues trace).map fun value => 3 * max value 1 - 1).sum
  steps_shown : trace'.length < 2 ^ 64 →
    result'.steps.toNat = result.steps.toNat + gotoCount trace +
      ((zeroedValues trace).map fun value => 2 * max value 1 - 1).sum
  cycles_le : totalCycles trace ≤ totalCycles trace'
  steps_le : trace.length ≤ trace'.length

theorem LowersTo.costAdded {program lowered : Program} {fresh : Nat → String}
    (lowers : program.LowersTo lowered fresh) (wellFormed : program.WellFormed)
    {inputs : List Int64} {trace : List Visit} {result : RunResult}
    (completes : program.Completes inputs trace result) :
    ∃ trace' result', lowered.Completes inputs trace' result' ∧
      CostAdded trace trace' result result' := by
  obtain ⟨trace', result', completes', -, steps, cycles⟩ := lowers.completes wellFormed completes
  rw [sum_loweredSteps] at steps
  rw [sum_loweredCycles] at cycles
  refine ⟨trace', result', completes', cycles, steps, ?_, ?_, by omega, by omega⟩
  · intro fits
    rw [completes'.counters.1 fits, completes.counters.1 (by omega), cycles]
  · intro fits
    rw [completes'.counters.2 fits, completes.counters.2 (by omega), steps]

/-- The exact cost of lowering: the counters of every run of the lowered code, and with them
that a step limit that is enough for the lowered code is enough for the program. -/
theorem lowering_cost {program : Program} (wellFormed : program.WellFormed)
    (inputs : List Int64) :
    ∃ lowered, program.lowerTo 0 = .ok lowered ∧
      (∀ result, program.Halts inputs result →
        ∃ trace, program.Completes inputs trace result) ∧
      (∀ trace result, program.Completes inputs trace result →
        ∃ trace' result', lowered.Halts inputs result' ∧
          lowered.Completes inputs trace' result' ∧ CostAdded trace trace' result result') ∧
      ∀ limit result', lowered.run limit inputs = .ok result' →
        ∃ result, program.run limit inputs = .ok result := by
  obtain ⟨lowered, fresh, lowering, lowers⟩ := exists_lowersTo wellFormed.toConsistent
  refine ⟨lowered, lowering, fun result => halts_iff.mp, ?_, ?_⟩
  · intro trace result completes
    obtain ⟨trace', result', completes', cost⟩ := lowers.costAdded wellFormed completes
    exact ⟨trace', result', halts_iff.mpr ⟨trace', completes'⟩, completes', cost⟩
  · intro limit result' ran
    obtain ⟨trace', completes', short⟩ := runUpTo_eq_ok_iff.mp ran
    obtain ⟨result, halts⟩ :=
      lowers.halts_of_lowered wellFormed (halts_iff.mpr ⟨trace', completes'⟩)
    obtain ⟨trace, completes⟩ := halts_iff.mp halts
    obtain ⟨trace'', result'', completes'', cost⟩ := lowers.costAdded wellFormed completes
    have same := completes''.trace_eq completes'
    have fewer := cost.steps_le
    rw [same] at fewer
    exact ⟨result, runUpTo_eq_ok_iff.mpr ⟨trace, completes, by omega⟩⟩

theorem lowering_cost_copy :
    copy.WellFormed ∧ ∃ lowered trace trace' result result', copy.lowerTo 0 = .ok lowered ∧
      copy.Completes [2] trace result ∧ lowered.Completes [2] trace' result' ∧
        CostAdded trace trace' result result' := by
  obtain ⟨lowered, lowering, traced, costs, -⟩ := lowering_cost wellFormed_copy [2]
  obtain ⟨trace, completes⟩ := traced _ ⟨20, _, _, rfl, rfl⟩
  obtain ⟨trace', result', -, completes', cost⟩ := costs trace _ completes
  exact ⟨wellFormed_copy, lowered, trace, trace', _, result', lowering, completes, completes',
    cost⟩

end Program

end RegisterMachine
