import Mathlib.Algebra.Order.BigOperators.Group.List
import Mathlib.Algebra.Order.Ring.Nat
import RegisterMachine.Proofs.Preservation
import RegisterMachine.Proofs.ReferenceSemantics

/-!
# Programs that only jump forward

A program whose jumps all go to later instructions cannot come to the same place
twice.  The positions that a run visits increase, so the run ends within the length
of the program and costs no more than every instruction once.  Without jumps it
visits every position and the bounds are reached.  Lowered code goes backward, since
setting a variable to zero becomes a loop, but it halts with the program.
-/

namespace RegisterMachine.Program

/-- Every jump goes to a label that a later instruction carries. -/
def JumpsForward (program : Program) : Prop :=
  ∀ position instruction target, program.instructions[position]? = some instruction →
    instruction.target? = some target → ∃ next, position < next ∧ program.Carries target next

/-- There are no jumps. -/
def Straight (program : Program) : Prop :=
  ∀ instruction ∈ program.instructions, instruction.target? = none

theorem jumpsForward_iff {program : Program} : program.JumpsForward ↔
    ∀ position : Fin program.instructions.length,
      ∀ target ∈ (program.instructions.get position).target?,
        ∃ next : Fin program.instructions.length, position < next ∧
          (program.instructions.get next).label = some target := by
  constructor
  · intro forward position target jumps
    obtain ⟨next, ahead, carrier, found, carried⟩ :=
      forward position _ target (List.getElem?_eq_getElem position.isLt) jumps
    obtain ⟨inside, rfl⟩ := List.getElem?_eq_some_iff.mp found
    exact ⟨⟨next, inside⟩, ahead, carried⟩
  · intro forward position instruction target place jumps
    obtain ⟨inside, rfl⟩ := List.getElem?_eq_some_iff.mp place
    obtain ⟨next, ahead, carried⟩ := forward ⟨position, inside⟩ target jumps
    exact ⟨next, ahead, _, List.getElem?_eq_getElem next.isLt, carried⟩

instance (program : Program) : Decidable program.JumpsForward :=
  decidable_of_iff _ jumpsForward_iff.symm

/-- A run to the end that visits no position twice. -/
structure VisitsOnce (program : Program) (trace : List Visit) : Prop where
  increasing : (positionsOf trace).Pairwise (· < ·)
  length_le : trace.length ≤ program.length
  cycles_le : totalCycles trace ≤ program.staticCycles
  /-- Without jumps every position is visited. -/
  straight : program.Straight →
    trace.length = program.length ∧ totalCycles trace = program.staticCycles

/-! ## One step -/

/-- A step inside the program succeeds and goes further on, to the end at most. -/
theorem JumpsForward.step {program : Program} (forward : program.JumpsForward)
    (wellFormed : program.WellFormed) {state : State} (ready : state.Ready)
    {instruction : Instruction}
    (place : program.instructions[state.position]? = some instruction) :
    ∃ next, state.step program.labels instruction.op =
        .ok ((state.apply instruction.op).standAt next) ∧
      state.position < next ∧ next ≤ program.length := by
  cases jumps : instruction.op.jump? state.registers with
  | none =>
      have inside : state.position < program.length := (List.getElem?_eq_some_iff.mp place).1
      exact ⟨_, ready.step_of_not_jump jumps, Nat.lt_succ_self _, inside⟩
  | some label =>
      obtain ⟨next, ahead, carried⟩ :=
        forward state.position instruction label place (Op.target?_of_jump? jumps)
      have bound := wellFormed.get?_eq_some_iff.mpr carried
      obtain ⟨target, found, -⟩ := carried
      exact ⟨next, State.step_of_jump jumps bound, ahead,
        Nat.le_of_lt (List.getElem?_eq_some_iff.mp found).1⟩

/-! ## Whole runs -/

/-- The positions behind one that are skipped by going further on. -/
theorem range'_sublist {position next stop : Nat} (ahead : position < next) (le : next ≤ stop) :
    (List.range' next (stop - next)).Sublist
      (List.range' (position + 1) (stop - (position + 1))) := by
  have whole := @List.range'_append_1 (position + 1) (next - (position + 1)) (stop - next)
  rw [Nat.add_sub_of_le ahead, show next - (position + 1) + (stop - next) = stop - (position + 1)
    by omega] at whole
  rw [← whole]
  exact List.sublist_append_right _ _

theorem range'_of_lt {position stop : Nat} (inside : position < stop) :
    List.range' position (stop - position) =
      position :: List.range' (position + 1) (stop - (position + 1)) := by
  rw [show stop - position = stop - (position + 1) + 1 by omega, List.range'_succ]

/-- From every position the run goes to the end, over some of the positions ahead. -/
theorem JumpsForward.run {program : Program} (forward : program.JumpsForward)
    (wellFormed : program.WellFormed) (state : State) (ready : state.Ready)
    (inside : state.position ≤ program.length) :
    ∃ trace last, program.Execution state trace last ∧ last.next? program = none ∧
      (positionsOf trace).Sublist
        (List.range' state.position (program.length - state.position)) := by
  -- The positions that are left become fewer with every step.
  generalize left : program.length - state.position = count
  induction count using Nat.strongRecOn generalizing state with
  | ind count ih =>
      rcases Nat.lt_or_eq_of_le inside with before | atEnd
      · have place := List.getElem?_eq_getElem
          (show state.position < program.instructions.length from before)
        obtain ⟨next, stepped, ahead, inside'⟩ := forward.step wellFormed ready place
        have fetched := (State.next?_of_running ready.running).trans place
        obtain ⟨trace, last, execution, ended, visited⟩ :=
          ih (program.length - next) (by omega) _ (ready.step stepped) inside' rfl
        refine ⟨_, last, .next fetched stepped execution, ended, ?_⟩
        rw [← left, range'_of_lt before]
        exact (visited.trans (range'_sublist ahead inside')).cons_cons _
      · refine ⟨[], state, .refl state, ?_, List.nil_sublist _⟩
        rw [State.next?_of_running ready.running, List.getElem?_eq_none_iff, atEnd]
        exact Nat.le_refl _

/-- Without jumps a run to the end visits every position ahead. -/
theorem Straight.positionsOf_eq {program : Program} (straight : program.Straight)
    {state last : State} {trace : List Visit} (execution : program.Execution state trace last)
    (ended : last.next? program = none) (ready : state.Ready)
    (inside : state.position ≤ program.length) :
    positionsOf trace = List.range' state.position (program.length - state.position) := by
  induction execution with
  | refl state =>
      rw [State.next?_of_running ready.running, List.getElem?_eq_none_iff] at ended
      have atEnd : program.length - state.position = 0 := Nat.sub_eq_zero_of_le ended
      rw [atEnd]
      rfl
  | @next state after last instruction trace fetched stepped _ ih =>
      have place := State.getElem?_of_next? fetched
      have before : state.position < program.length := (List.getElem?_eq_some_iff.mp place).1
      have ready' := ready.step stepped
      obtain ⟨position, rfl, ⟨-, rfl⟩ | ⟨label, jumps, -⟩⟩ := State.step_eq_ok stepped
      · rw [ready.nextPosition_eq] at ready' ih
        rw [range'_of_lt before]
        exact congrArg (state.position :: ·) (ih ended ready' before)
      · have target := straight instruction (List.mem_of_getElem? place)
        cases target.symm.trans (Op.target?_of_jump? jumps)

theorem sum_costAt_range' (program : Program) :
    ((List.range' 0 program.length).map program.costAt).sum = program.staticCycles := by
  have costs : (List.range' 0 program.length).map program.costAt =
      program.instructions.map Instruction.cycles := by
    refine List.ext_getElem (by simp [length]) fun index inside inside' => ?_
    rw [List.length_map] at inside'
    simp [costAt, List.getElem?_eq_getElem inside']
  rw [costs, List.sum_eq_foldr, List.foldr_map, staticCycles]

/-- Only a conditional jump costs more than one cycle. -/
theorem cycles_le_one {op : Op} (stays : op.target? = none) : op.cycles ≤ 1 := by
  cases op with
  | neutral var => exact Nat.zero_le 1
  | increase var | decrease var | zero var => exact Nat.le_refl 1
  | jumpNotZero var target | goto target => cases stays

theorem Straight.staticCycles_le {program : Program} (straight : program.Straight) :
    program.staticCycles ≤ program.length := by
  have each : ∀ cost ∈ program.instructions.map Instruction.cycles, cost ≤ 1 := by
    intro cost member
    obtain ⟨instruction, found, rfl⟩ := List.mem_map.mp member
    exact cycles_le_one (straight instruction found)
  have total := List.sum_le_card_nsmul _ 1 each
  rw [List.length_map, Nat.nsmul_eq_mul, Nat.mul_one, List.sum_eq_foldr, List.foldr_map] at total
  exact total

/-- From the first instruction on, a program that only jumps forward visits positions once. -/
theorem JumpsForward.visitsOnce {program : Program} (forward : program.JumpsForward)
    (wellFormed : program.WellFormed) (inputs : List Int64) :
    ∃ trace result, program.Completes inputs trace result ∧ program.VisitsOnce trace := by
  have ready := State.ready_initial inputs
  obtain ⟨trace, last, execution, ended, visited⟩ :=
    forward.run wellFormed (State.initial inputs) ready (Nat.zero_le _)
  refine ⟨trace, _, ⟨last, execution, ended, rfl⟩, ?_⟩
  have positions : (positionsOf trace).length = trace.length := List.length_map _
  constructor
  case increasing => exact List.Pairwise.sublist visited List.pairwise_lt_range'
  case length_le =>
    have short := visited.length_le
    rwa [positions, List.length_range'] at short
  case cycles_le =>
    have cheaper := (visited.map program.costAt).sum_le_sum fun _ _ => Nat.zero_le _
    rwa [execution.sum_costAt, State.initial, Nat.sub_zero, sum_costAt_range'] at cheaper
  case straight =>
    intro straight
    have every := straight.positionsOf_eq execution ended ready (Nat.zero_le _)
    constructor
    · rw [← positions, every, List.length_range']
      rfl
    · rw [← execution.sum_costAt, every]
      exact program.sum_costAt_range'

/-! ## The reported result -/

/-- The end of the runs of a program that only jumps forward, with every limit that is not
below the length of the program. -/
structure EndsWithinLength (program : Program) (inputs : List Int64) (result : RunResult) :
    Prop where
  halts : program.Halts inputs result
  once : ∃ trace, program.Completes inputs trace result ∧ program.VisitsOnce trace
  steps_le : result.steps.toNat ≤ program.length
  cycles_le : result.cycles.toNat ≤ program.staticCycles
  limited : ∀ limit : UInt64, program.length ≤ limit.toNat →
    program.run (some limit) inputs = .ok result
  /-- A run without a limit is one with the largest limit, which counts a word of steps. -/
  unlimited : program.length < 2 ^ 64 → program.run none inputs = .ok result
  /-- The counters are words. -/
  straight : program.Straight → result.steps = UInt64.ofNat program.length ∧
    result.cycles = UInt64.ofNat program.staticCycles
  straight_exact : program.Straight → program.length < 2 ^ 64 →
    result.steps.toNat = program.length ∧ result.cycles.toNat = program.staticCycles

theorem Completes.counters_eq {program : Program} {inputs : List Int64} {trace : List Visit}
    {result : RunResult} (completes : program.Completes inputs trace result) :
    result.steps = UInt64.ofNat trace.length ∧
      result.cycles = UInt64.ofNat (totalCycles trace) := by
  obtain ⟨last, execution, -, rfl⟩ := completes
  exact ⟨rfl, execution.cycles_eq.trans (UInt64.zero_add _)⟩

theorem VisitsOnce.endsWithinLength {program : Program} {inputs : List Int64}
    {trace : List Visit} {result : RunResult} (once : program.VisitsOnce trace)
    (completes : program.Completes inputs trace result) :
    program.EndsWithinLength inputs result := by
  obtain ⟨steps, cycles⟩ := completes.counters_eq
  have limited : ∀ limit : UInt64, program.length ≤ limit.toNat →
      program.runUpTo limit inputs = .ok result := fun limit long =>
    runUpTo_eq_ok_iff.mpr ⟨trace, completes, Nat.le_trans once.length_le long⟩
  have straight : program.Straight → result.steps = UInt64.ofNat program.length ∧
      result.cycles = UInt64.ofNat program.staticCycles := by
    intro straight
    obtain ⟨whole, all⟩ := once.straight straight
    exact ⟨whole ▸ steps, all ▸ cycles⟩
  constructor
  case halts => exact halts_iff.mpr ⟨trace, completes⟩
  case once => exact ⟨trace, completes, once⟩
  case steps_le =>
    rw [steps, UInt64.toNat_ofNat']
    exact Nat.le_trans (Nat.mod_le _ _) once.length_le
  case cycles_le =>
    rw [cycles, UInt64.toNat_ofNat']
    exact Nat.le_trans (Nat.mod_le _ _) once.cycles_le
  case limited => exact limited
  case unlimited =>
    intro fits
    exact limited largestLimit (Nat.le_of_lt_succ fits)
  case straight => exact straight
  case straight_exact =>
    intro noJumps fits
    obtain ⟨whole, all⟩ := straight noJumps
    rw [whole, all]
    exact ⟨UInt64.toNat_ofNat_of_lt' fits,
      UInt64.toNat_ofNat_of_lt' (Nat.lt_of_le_of_lt noJumps.staticCycles_le fits)⟩

/-- A program that only jumps forward halts within its length, and its lowered code halts. -/
theorem forward_programs_halt {program : Program} (wellFormed : program.WellFormed)
    (forward : program.JumpsForward) (inputs : List Int64) :
    ∃ result, program.EndsWithinLength inputs result ∧
      ∃ lowered, program.lowerTo 0 = .ok lowered ∧
        ∃ result', lowered.Halts inputs result' ∧
          ResultExtends program lowered result result' := by
  obtain ⟨trace, result, completes, once⟩ := forward.visitsOnce wellFormed inputs
  have ends := once.endsWithinLength completes
  obtain ⟨lowered, fresh, lowering, lowers⟩ := exists_lowersTo wellFormed.toConsistent
  exact ⟨result, ends, lowered, lowering, lowers.exists_halts wellFormed ends.halts⟩

/-- Sets the output to one unless the input is zero, with a jump over either branch. -/
def nonzero : Program :=
  [ { op := .jumpNotZero "x1" "SET" },
    { op := .zero "y" },
    { op := .goto "END" },
    { op := .increase "y", label := some "SET" },
    { op := .neutral "y", label := some "END" } ].foldl append (named "nonzero")

theorem forward_programs_halt_nonzero :
    nonzero.WellFormed ∧ nonzero.JumpsForward ∧
      ∃ result, nonzero.EndsWithinLength [3] result ∧ nonzero.run (some 5) [3] = .ok result ∧
        result.steps = 3 ∧ result.cycles = 3 ∧
          ∃ lowered, nonzero.lowerTo 0 = .ok lowered ∧
            ∃ result', lowered.Halts [3] result' ∧
              ResultExtends nonzero lowered result result' := by
  have wellFormed : nonzero.WellFormed := wellFormed_foldl_append "nonzero" (by decide)
  have forward : nonzero.JumpsForward := by decide
  obtain ⟨result, ends, lowered⟩ := forward_programs_halt wellFormed forward [3]
  have ran := ends.limited 5 (by decide)
  obtain rfl : _ = result := Except.ok.inj ran
  exact ⟨wellFormed, forward, _, ends, ran, rfl, rfl, lowered⟩

end RegisterMachine.Program
