import Mathlib.Logic.Function.Basic
import RegisterMachine.Proofs.Execution
import RegisterMachine.Proofs.LoweringPass
import RegisterMachine.Proofs.Snapshot

/-!
# The reference semantics

The language by itself, without a machine.  A valuation gives every variable a
natural number, an operation changes the valuation, and which position comes next
depends on the instruction and on the valuation alone.  A path is a sequence of
positions in which each follows from the one before, from the first instruction to
the end of the program.  The machine halts exactly where there is a path, there is
no second path, and the result of the run is read off the path.
-/

namespace RegisterMachine

/-- A number for every variable. -/
abbrev Valuation := String → Nat

/-- The inputs in `x1`, `x2`, and so on, raised to zero, and zero everywhere else. -/
def Valuation.start (inputs : List Int64) : Valuation := fun name =>
  match (inputs.zipIdx 1).find? fun entry => name == Registers.inputName entry.2 with
  | some entry => (max 0 entry.1.toInt).toNat
  | none => 0

/-- What an operation makes of a valuation.  No number goes above the largest word. -/
def Op.meaning (values : Valuation) : Op → Valuation
  | increase var => Function.update values var (min (values var + 1) Text.Decimal.wordMax)
  | decrease var => Function.update values var (values var - 1)
  | zero var => Function.update values var 0
  | neutral _ | jumpNotZero _ _ | goto _ => values

namespace Program

/-- The instruction at a position carries a label. -/
def Carries (program : Program) (label : String) (position : Nat) : Prop :=
  ∃ instruction, program.instructions[position]? = some instruction ∧
    instruction.label = some label

/-- The position that comes after an instruction. -/
def Follows (program : Program) (values : Valuation) (op : Op) (position next : Nat) : Prop :=
  match op with
  | .goto target => program.Carries target next
  | .jumpNotZero var target =>
      if values var = 0 then next = position + 1 else program.Carries target next
  | .neutral _ | .increase _ | .decrease _ | .zero _ => next = position + 1

/-- The valuation after the instruction at a position. -/
def changeAt (program : Program) (values : Valuation) (position : Nat) : Valuation :=
  match program.instructions[position]? with
  | some instruction => instruction.op.meaning values
  | none => values

/-- The valuation after the instructions at some positions, one after another. -/
def valuesAfter (program : Program) (values : Valuation) (positions : List Nat) : Valuation :=
  positions.foldl program.changeAt values

/-- What the instruction at a position costs. -/
def costAt (program : Program) (position : Nat) : Nat :=
  match program.instructions[position]? with
  | some instruction => instruction.cycles
  | none => 0

/-- A sequence of positions, each of which follows from the one before with the valuation that
the instructions up to there have made.  It ends behind the last instruction. -/
structure PathFrom (program : Program) (values : Valuation) (start : Nat)
    (positions : List Nat) : Prop where
  first : positions.head? = some start
  last : positions.getLast? = some program.length
  inside : ∀ position ∈ positions.dropLast, position < program.length
  follows : ∀ index position next, positions[index]? = some position →
    positions[index + 1]? = some next → ∃ instruction,
      program.instructions[position]? = some instruction ∧
        program.Follows (program.valuesAfter values (positions.take index)) instruction.op
          position next

/-- A sequence of positions that begins at the first instruction with the inputs. -/
def Path (program : Program) (inputs : List Int64) (positions : List Nat) : Prop :=
  program.PathFrom (Valuation.start inputs) 0 positions

/-- What a result says is what a path says; its last position is the end and is not carried out. -/
structure Reports (program : Program) (inputs : List Int64) (positions : List Nat)
    (result : RunResult) : Prop where
  steps_eq : positions.length ≤ 2 ^ 64 → result.steps.toNat + 1 = positions.length
  values_eq : ∀ name, (result.value name).toNat =
    program.valuesAfter (Valuation.start inputs) positions.dropLast name
  output_eq : result.output = result.value outputVariable
  cycles_eq : (positions.dropLast.map program.costAt).sum < 2 ^ 64 →
    result.cycles.toNat = (positions.dropLast.map program.costAt).sum
  cycles_le : (positions.dropLast.map program.costAt).sum ≤ 2 * positions.dropLast.length
  names_nodup : (result.registers.map Prod.fst).Nodup
  /-- The result lists the inputs and the variables of the instructions that do something. -/
  names_iff : ∀ name, name ∈ result.registers.map Prod.fst ↔
    (∃ number, 1 ≤ number ∧ number ≤ inputs.length ∧ name = Registers.inputName number) ∨
      ∃ position ∈ positions.dropLast, ∃ instruction,
        program.instructions[position]? = some instruction ∧
          instruction.op.opcode ≠ .neutral ∧ instruction.var? = some name

end Program

/-! ## Registers and valuations -/

namespace Registers

/-- The registers hold the numbers of a valuation. -/
def Holds (registers : Registers) (values : Valuation) : Prop :=
  ∀ name, (registers.value name).toNat = values name

theorem Holds.store {registers : Registers} {values : Valuation} (holds : registers.Holds values)
    (var : String) {word : UInt64} {number : Nat} (same : word.toNat = number) :
    (registers.store var word).Holds (Function.update values var number) := by
  intro name
  rw [value_store, Function.update_apply]
  split
  · exact same
  · exact holds name

theorem Holds.effect {registers : Registers} {values : Valuation}
    (holds : registers.Holds values) (op : Op) :
    (op.effect registers).Holds (op.meaning values) := by
  cases op with
  | increase var => exact holds.store var (by rw [toNat_successor, holds var])
  | decrease var => exact holds.store var (by rw [toNat_predecessor, holds var])
  | zero var => exact holds.store var rfl
  | jumpNotZero var target =>
      intro name
      rw [Op.effect, value_touch]
      exact holds name
  | neutral _ | goto _ => exact holds

/-- The machine jumps where the reference says so. -/
theorem Holds.follows_iff {registers : Registers} {values : Valuation}
    (holds : registers.Holds values) (program : Program) (op : Op) (position next : Nat) :
    program.Follows values op position next ↔
      op.jump? registers = none ∧ next = position + 1 ∨
        ∃ label, op.jump? registers = some label ∧ program.Carries label next := by
  cases op with
  | jumpNotZero var target =>
      have zero_iff : registers.value var = 0 ↔ values var = 0 := by
        rw [← holds var, ← UInt64.toNat_inj]
        rfl
      by_cases empty : values var = 0
      · simp [Program.Follows, Op.jump?, zero_iff, empty]
      · simp [Program.Follows, Op.jump?, zero_iff, empty]
  | goto target => simp [Program.Follows, Op.jump?]
  | neutral _ | increase _ | decrease _ | zero _ => simp [Program.Follows, Op.jump?]

theorem toNat_floorZero (input : Int64) :
    (floorZero input).toNat = (max 0 input.toInt).toNat := by
  have signed : input.toInt = if 2 * input.toUInt64.toNat < 2 ^ 64
      then (input.toUInt64.toNat : Int) else input.toUInt64.toNat - (2 ^ 64 : Nat) :=
    BitVec.toInt_eq_toNat_cond input.toBitVec
  have small := input.toUInt64.toNat_lt
  unfold floorZero
  split
  · next negative =>
      have below : input.toInt < 0 := Int64.lt_iff_toInt_lt.mp negative
      rw [Int.max_eq_left (Int.le_of_lt below)]
      rfl
  · next positive =>
      have above : ¬ input.toInt < 0 := fun below => positive (Int64.lt_iff_toInt_lt.mpr below)
      split at signed <;> omega

theorem inputName_injective {first second : Nat} (same : inputName first = inputName second) :
    first = second :=
  numbered_injective inputLetter same

/-- Seeding lists every input under its number and leaves the rest alone. -/
theorem findEntry_seedFrom_eq (registers : Registers) (first : Nat) (inputs : List Int64)
    (name : String) :
    findEntry name (registers.seedFrom first inputs).entries =
      match (inputs.zipIdx first).find? fun entry => name == inputName entry.2 with
      | some entry => some (floorZero entry.1)
      | none => findEntry name registers.entries := by
  induction inputs generalizing registers first with
  | nil => rfl
  | cons input inputs ih =>
      rw [seedFrom, ih, List.zipIdx_cons, List.find?_cons, findEntry_store]
      by_cases here : name = inputName first
      · have behind : (inputs.zipIdx (first + 1)).find?
            (fun entry => name == inputName entry.2) = none := by
          rw [List.find?_eq_none]
          intro entry member same
          have later := List.le_snd_of_mem_zipIdx member
          have equal := inputName_injective (here.symm.trans (eq_of_beq same))
          omega
        rw [behind]
        simp [here]
      · have differ : (name == inputName first) = false := beq_eq_false_iff_ne.mpr here
        simp only [differ, if_neg here]

theorem holds_seed (inputs : List Int64) :
    (seed {} inputs).Holds (Valuation.start inputs) := by
  intro name
  rw [value, seed, findEntry_seedFrom_eq, Valuation.start]
  cases (inputs.zipIdx 1).find? fun entry => name == inputName entry.2 with
  | none => rfl
  | some entry => exact toNat_floorZero entry.1

theorem touched_seed_iff (inputs : List Int64) (name : String) :
    (seed {} inputs).touched name = true ↔
      ∃ number, 1 ≤ number ∧ number ≤ inputs.length ∧ name = inputName number := by
  rw [touched, seed, findEntry_seedFrom_eq]
  cases found : (inputs.zipIdx 1).find? fun entry => name == inputName entry.2 with
  | none =>
      rw [List.find?_eq_none] at found
      refine ⟨fun listed => absurd listed (by simp [findEntry]), ?_⟩
      rintro ⟨number, low, high, same⟩
      have member : (inputs[number - 1], number) ∈ inputs.zipIdx 1 :=
        List.mk_mem_zipIdx_iff_le_and_getElem?_sub.mpr ⟨low, List.getElem?_eq_getElem (by omega)⟩
      exact absurd (beq_iff_eq.mpr same) (found _ member)
  | some entry =>
      have member := List.mem_of_find?_eq_some found
      have named : name = inputName entry.2 := by simpa using List.find?_some found
      have low := List.le_snd_of_mem_zipIdx member
      have high := List.snd_lt_add_of_mem_zipIdx member
      exact ⟨fun _ => ⟨entry.2, low, by omega, named⟩, fun _ => rfl⟩

theorem touched_effect_iff (registers : Registers) (op : Op) (name : String) :
    (op.effect registers).touched name = true ↔
      registers.touched name = true ∨ op.opcode ≠ .neutral ∧ op.var? = some name := by
  cases op with
  | increase var | decrease var | zero var | jumpNotZero var target =>
      simp only [Op.effect, increment, decrement, touch, touched_store, Op.opcode, Op.var?,
        Bool.or_eq_true, beq_iff_eq, ne_eq, reduceCtorEq, not_false_eq_true, true_and,
        Option.some.injEq]
      rw [or_comm, eq_comm (a := name)]
  | neutral var | goto target => simp [Op.effect, Op.opcode, Op.var?]

end Registers

namespace Program

/-! ## Paths -/

namespace PathFrom

theorem nil_end {program : Program} (values : Valuation) :
    program.PathFrom values program.length [program.length] where
  first := rfl
  last := rfl
  inside position member := by cases member
  follows index position next _ behind := by simp at behind

theorem cons {program : Program} {values : Valuation} {position next : Nat}
    {instruction : Instruction} {positions : List Nat}
    (place : program.instructions[position]? = some instruction)
    (after : program.Follows values instruction.op position next)
    (rest : program.PathFrom (instruction.op.meaning values) next positions) :
    program.PathFrom values position (position :: positions) := by
  have changed : program.changeAt values position = instruction.op.meaning values := by
    simp [changeAt, place]
  obtain ⟨head, tail, rfl⟩ := List.exists_cons_of_ne_nil
    (show positions ≠ [] from fun empty => by simpa [empty] using rest.first)
  constructor
  case first => rfl
  case last => exact rest.last
  case inside =>
    intro other member
    rw [List.dropLast_cons_cons, List.mem_cons] at member
    rcases member with rfl | member
    · exact (List.getElem?_eq_some_iff.mp place).1
    · exact rest.inside other member
  case follows =>
    intro index one other atOne atOther
    cases index with
    | zero =>
        have head_eq : head = next := Option.some.inj rest.first
        simp only [List.getElem?_cons_zero, List.getElem?_cons_succ, Option.some.injEq,
          Nat.zero_add] at atOne atOther
        subst atOne atOther head_eq
        exact ⟨instruction, place, after⟩
    | succ index =>
        rw [List.take_succ_cons, valuesAfter, List.foldl_cons, changed]
        exact rest.follows index one other atOne atOther

/-- A path is at the end, or an instruction and a path from the position that follows it. -/
theorem cases_on {program : Program} {values : Valuation} {start : Nat} {positions : List Nat}
    (path : program.PathFrom values start positions) :
    start = program.length ∧ positions = [program.length] ∨
      ∃ instruction next rest, positions = start :: rest ∧
        program.instructions[start]? = some instruction ∧
          program.Follows values instruction.op start next ∧
            program.PathFrom (instruction.op.meaning values) next rest := by
  obtain ⟨head, tail, rfl⟩ := List.exists_cons_of_ne_nil
    (show positions ≠ [] from fun empty => by simpa [empty] using path.first)
  have head_eq : head = start := Option.some.inj path.first
  subst head_eq
  cases tail with
  | nil =>
      have last : head = program.length := Option.some.inj path.last
      exact Or.inl ⟨last, by rw [last]⟩
  | cons next tail =>
      obtain ⟨instruction, place, after⟩ := path.follows 0 head next rfl rfl
      have changed : program.changeAt values head = instruction.op.meaning values := by
        simp [changeAt, place]
      refine Or.inr ⟨instruction, next, next :: tail, rfl, place, after, rfl, path.last, ?_, ?_⟩
      · intro position member
        exact path.inside position (List.mem_cons_of_mem head member)
      · intro index one other atOne atOther
        have step := path.follows (index + 1) one other atOne atOther
        rw [List.take_succ_cons, valuesAfter, List.foldl_cons, changed] at step
        exact step

end PathFrom

/-! ## Executions and paths -/

/-- The positions of the visits of a trace. -/
def positionsOf (trace : List Visit) : List Nat :=
  trace.map fun visit => visit.state.position

theorem Execution.place_of_mem {program : Program} {state last : State} {trace : List Visit}
    (execution : program.Execution state trace last) {visit : Visit} (member : visit ∈ trace) :
    program.instructions[visit.state.position]? = some visit.instruction := by
  induction execution with
  | refl => cases member
  | next fetched _ _ ih =>
      rcases List.mem_cons.mp member with rfl | behind
      · exact State.getElem?_of_next? fetched
      · exact ih behind

/-- The registers hold what the visited positions make of the valuation at the beginning. -/
theorem Execution.holds {program : Program} {state last : State} {trace : List Visit}
    {values : Valuation} (execution : program.Execution state trace last)
    (holds : state.registers.Holds values) :
    last.registers.Holds (program.valuesAfter values (positionsOf trace)) := by
  induction execution generalizing values with
  | refl => exact holds
  | @next state after last instruction trace fetched stepped _ ih =>
      obtain ⟨position, rfl, -⟩ := State.step_eq_ok stepped
      have changed : program.changeAt values state.position = instruction.op.meaning values := by
        simp [changeAt, State.getElem?_of_next? fetched]
      rw [positionsOf, List.map_cons, valuesAfter, List.foldl_cons, changed]
      exact ih (holds.effect instruction.op)

/-- A run touches the variables of the instructions that it visits, apart from those that do
nothing. -/
theorem Execution.touched_iff {program : Program} {state last : State} {trace : List Visit}
    (execution : program.Execution state trace last) (name : String) :
    last.registers.touched name = true ↔ state.registers.touched name = true ∨
      ∃ visit ∈ trace, visit.instruction.op.opcode ≠ .neutral ∧
        visit.instruction.var? = some name := by
  induction execution with
  | refl => simp
  | @next state after last instruction trace fetched stepped _ ih =>
      obtain ⟨position, rfl, -⟩ := State.step_eq_ok stepped
      have touched : ((state.apply instruction.op).standAt position).registers.touched name =
          (instruction.op.effect state.registers).touched name := rfl
      rw [ih, touched, Registers.touched_effect_iff, or_assoc]
      simp [Instruction.var?]

/-- A step goes to the position that follows, which is not beyond the end. -/
theorem WellFormed.follows_of_step {program : Program} (wellFormed : program.WellFormed)
    {state after : State} {instruction : Instruction} {values : Valuation}
    (ready : state.Ready) (holds : state.registers.Holds values)
    (inside : state.position < program.length)
    (stepped : state.step program.labels instruction.op = .ok after) :
    program.Follows values instruction.op state.position after.position ∧
      after.position ≤ program.length := by
  obtain ⟨position, rfl, ⟨stays, rfl⟩ | ⟨label, jumps, bound⟩⟩ := State.step_eq_ok stepped
  · have behind := ready.nextPosition_eq
    exact ⟨(holds.follows_iff ..).mpr (Or.inl ⟨stays, behind⟩),
      Nat.le_trans (Nat.le_of_eq behind) inside⟩
  · have carried := wellFormed.get?_eq_some_iff.mp bound
    refine ⟨(holds.follows_iff ..).mpr (Or.inr ⟨label, jumps, carried⟩), ?_⟩
    obtain ⟨target, place, -⟩ := carried
    exact Nat.le_of_lt (List.getElem?_eq_some_iff.mp place).1

/-- Where the reference goes on, the machine takes a step to the same position. -/
theorem WellFormed.step_of_follows {program : Program} (wellFormed : program.WellFormed)
    {state : State} {instruction : Instruction} {values : Valuation} {next : Nat}
    (ready : state.Ready) (holds : state.registers.Holds values)
    (follows : program.Follows values instruction.op state.position next) :
    state.step program.labels instruction.op =
      .ok ((state.apply instruction.op).standAt next) := by
  rcases (holds.follows_iff ..).mp follows with ⟨stays, rfl⟩ | ⟨label, jumps, carried⟩
  · exact ready.step_of_not_jump stays
  · exact State.step_of_jump jumps (wellFormed.get?_eq_some_iff.mpr carried)

/-- A run to the end of the program visits a path. -/
theorem Execution.path {program : Program} (wellFormed : program.WellFormed)
    {state last : State} {trace : List Visit} {values : Valuation}
    (execution : program.Execution state trace last) (ended : last.next? program = none)
    (ready : state.Ready) (inside : state.position ≤ program.length)
    (holds : state.registers.Holds values) :
    program.PathFrom values state.position (positionsOf trace ++ [program.length]) := by
  induction execution generalizing values with
  | refl state =>
      rw [State.next?_of_running ready.running, List.getElem?_eq_none_iff] at ended
      have atEnd : state.position = program.length := Nat.le_antisymm inside ended
      rw [atEnd]
      exact PathFrom.nil_end values
  | @next state after last instruction trace fetched stepped _ ih =>
      have place := State.getElem?_of_next? fetched
      have before : state.position < program.length := (List.getElem?_eq_some_iff.mp place).1
      obtain ⟨follows, inside'⟩ := wellFormed.follows_of_step ready holds before stepped
      have ready' := ready.step stepped
      obtain ⟨position, rfl, -⟩ := State.step_eq_ok stepped
      exact .cons place follows (ih ended ready' inside' (holds.effect instruction.op))

/-- Every path is the path of a run. -/
theorem PathFrom.execution {program : Program} (wellFormed : program.WellFormed)
    {values : Valuation} {positions : List Nat} (state : State)
    (path : program.PathFrom values state.position positions)
    (ready : state.Ready) (holds : state.registers.Holds values) :
    ∃ trace last, program.Execution state trace last ∧ last.next? program = none ∧
      positions = positionsOf trace ++ [program.length] := by
  -- The run is built along the path; the valuation and the state change together.
  induction positions generalizing values state with
  | nil => cases path.first
  | cons head positions ih =>
      rcases path.cases_on with ⟨atEnd, whole⟩ |
        ⟨instruction, next, rest, whole, place, follows, path'⟩
      · refine ⟨[], state, .refl state, ?_, whole⟩
        rw [State.next?_of_running ready.running, atEnd, List.getElem?_eq_none_iff]
        exact Nat.le_refl _
      · obtain ⟨rfl, rfl⟩ := List.cons.inj whole
        have stepped := wellFormed.step_of_follows ready holds follows
        have holds' := holds.effect instruction.op
        obtain ⟨trace, last, execution, ended, same⟩ :=
          ih ((state.apply instruction.op).standAt next) path' (ready.standAt _ _) holds'
        have fetched := (State.next?_of_running ready.running).trans place
        exact ⟨_, last, .next fetched stepped execution, ended,
          congrArg (state.position :: ·) same⟩

/-! ## Results of runs -/

theorem Execution.sum_costAt {program : Program} {state last : State} {trace : List Visit}
    (execution : program.Execution state trace last) :
    ((positionsOf trace).map program.costAt).sum = totalCycles trace := by
  rw [positionsOf, List.map_map, totalCycles]
  refine congrArg List.sum (List.map_congr_left fun visit member => ?_)
  simp [costAt, execution.place_of_mem member]

theorem totalCycles_le (trace : List Visit) : totalCycles trace ≤ 2 * trace.length := by
  induction trace with
  | nil => exact Nat.le_refl 0
  | cons visit trace ih =>
      have cost : visit.instruction.cycles ≤ 2 := Opcode.cycles_le_two _
      have total : totalCycles (visit :: trace) =
          visit.instruction.cycles + totalCycles trace := rfl
      rw [total, List.length_cons]
      omega

/-- The result of a run is what its path says. -/
theorem Completes.reports {program : Program} {inputs : List Int64} {trace : List Visit}
    {result : RunResult} (completes : program.Completes inputs trace result) :
    program.Reports inputs (positionsOf trace ++ [program.length]) result := by
  obtain ⟨cycles, steps⟩ := completes.counters
  obtain ⟨last, execution, -, rfl⟩ := completes
  have visited : (positionsOf trace ++ [program.length]).dropLast = positionsOf trace :=
    List.dropLast_concat
  have long : (positionsOf trace).length = trace.length := List.length_map _
  constructor
  case steps_eq =>
    intro fits
    rw [List.length_append, long, List.length_singleton] at fits ⊢
    rw [steps (by omega)]
  case values_eq =>
    intro name
    rw [visited, ← execution.holds (Registers.holds_seed inputs) name, RunResult.value,
      Registers.value]
    exact congrArg (fun found => (Option.getD found 0).toNat)
      (Registers.findEntry_snapshot last.registers name)
  case output_eq => rfl
  case cycles_eq =>
    rw [visited, execution.sum_costAt]
    exact cycles
  case cycles_le =>
    rw [visited, execution.sum_costAt, long]
    exact totalCycles_le trace
  case names_nodup =>
    exact (last.registers.snapshot_perm.map Prod.fst).nodup_iff.mpr last.registers.nodup
  case names_iff =>
    intro name
    have listed : name ∈ (last.result (UInt64.ofNat trace.length)).registers.map Prod.fst ↔
        last.registers.touched name = true := by
      rw [Registers.touched, Option.isSome_iff_exists, List.mem_map]
      constructor
      · rintro ⟨entry, member, rfl⟩
        exact ⟨entry.2, Registers.mem_snapshot_iff.mp member⟩
      · rintro ⟨value, found⟩
        exact ⟨(name, value), Registers.mem_snapshot_iff.mpr found, rfl⟩
    rw [listed, execution.touched_iff, visited, State.initial, Registers.touched_seed_iff]
    refine or_congr_right ⟨?_, ?_⟩
    · rintro ⟨visit, member, acts, operand⟩
      exact ⟨visit.state.position, List.mem_map_of_mem member, visit.instruction,
        execution.place_of_mem member, acts, operand⟩
    · rintro ⟨position, member, instruction, place, acts, operand⟩
      obtain ⟨visit, visited, rfl⟩ := List.mem_map.mp member
      rw [execution.place_of_mem visited] at place
      cases place
      exact ⟨visit, visited, acts, operand⟩

/-- A run that halts has visited a path, and there is no other one. -/
theorem Completes.path {program : Program} (wellFormed : program.WellFormed)
    {inputs : List Int64} {trace : List Visit} {result : RunResult}
    (completes : program.Completes inputs trace result) :
    program.Path inputs (positionsOf trace ++ [program.length]) ∧
      ∀ other, program.Path inputs other → other = positionsOf trace ++ [program.length] := by
  have holds := Registers.holds_seed inputs
  have ready := State.ready_initial inputs
  obtain ⟨last, execution, ended, -⟩ := completes
  refine ⟨execution.path wellFormed ended ready (Nat.zero_le _) holds, fun other path => ?_⟩
  obtain ⟨trace', last', execution', ended', rfl⟩ :=
    PathFrom.execution wellFormed (State.initial inputs) path ready holds
  rw [(execution'.unique ended' execution ended).1]

/-- The machine implements the reference semantics.  A run that has a result has visited the one
path that there is on its inputs, in as many steps as the result says, and the result reports the
path.  The same holds of a run that is watched without any bound.  Where there is a path, the run
halts, with a result unless its steps do not fit in a word, and where there is none, it fails or
goes on forever. -/
theorem runs_follow_paths {program : Program} (wellFormed : program.WellFormed)
    (inputs : List Int64) :
    (∀ result, program.run none inputs = .ok result →
      ∃ positions, program.Path inputs positions ∧
        (∀ other, program.Path inputs other → other = positions) ∧
          result.steps.toNat + 1 = positions.length ∧
            program.Reports inputs positions result) ∧
      (∀ result, program.Halts inputs result →
        ∃ positions, program.Path inputs positions ∧
          (∀ other, program.Path inputs other → other = positions) ∧
            program.Reports inputs positions result) ∧
        (∀ positions, program.Path inputs positions →
          ∃ result, program.Halts inputs result ∧ program.Reports inputs positions result ∧
            (positions.length ≤ 2 ^ 64 → program.run none inputs = .ok result)) ∧
          ((∀ positions, ¬ program.Path inputs positions) →
            (∃ error, program.Fails inputs error) ∨ program.RunsForever inputs) := by
  refine ⟨?_, ?_, ?_, ?_⟩
  · intro result ran
    obtain ⟨trace, completes, steps⟩ := exists_trace_of_runUpTo ran
    obtain ⟨path, unique⟩ := completes.path wellFormed
    refine ⟨_, path, unique, ?_, completes.reports⟩
    rw [List.length_append, positionsOf, List.length_map, steps]
    rfl
  · intro result halts
    obtain ⟨trace, completes⟩ := halts_iff.mp halts
    obtain ⟨path, unique⟩ := completes.path wellFormed
    exact ⟨_, path, unique, completes.reports⟩
  · intro positions path
    obtain ⟨trace, last, execution, ended, rfl⟩ :=
      PathFrom.execution wellFormed (State.initial inputs) path (State.ready_initial inputs)
        (Registers.holds_seed inputs)
    have completes : program.Completes inputs trace _ := ⟨last, execution, ended, rfl⟩
    refine ⟨_, halts_iff.mpr ⟨trace, completes⟩, completes.reports, fun short => ?_⟩
    rw [List.length_append, positionsOf, List.length_map] at short
    exact runUpTo_eq_ok_iff.mpr ⟨trace, completes, Nat.le_of_lt_succ short⟩
  · intro none
    refine (program.halts_or_fails_or_runsForever inputs).resolve_left ?_
    rintro ⟨result, halts⟩
    obtain ⟨trace, completes⟩ := halts_iff.mp halts
    exact none _ (completes.path wellFormed).1

theorem runs_follow_paths_copy :
    copy.WellFormed ∧ ∃ result positions, copy.run none [2] = .ok result ∧
      copy.Path [2] positions ∧ (∀ other, copy.Path [2] other → other = positions) ∧
        result.steps.toNat + 1 = positions.length ∧ copy.Reports [2] positions result := by
  have short : copy.runUpTo 20 [2] = .ok _ := rfl
  have ran : copy.run none [2] = .ok _ := runUpTo_mono short (le_largestLimit 20)
  obtain ⟨positions, visited⟩ := (runs_follow_paths wellFormed_copy [2]).1 _ ran
  exact ⟨wellFormed_copy, _, positions, ran, visited⟩

end Program

end RegisterMachine
