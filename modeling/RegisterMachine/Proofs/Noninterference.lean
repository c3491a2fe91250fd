import RegisterMachine.Proofs.History
import RegisterMachine.Proofs.ReferenceSemantics

/-!
# Inputs that a program does not use

Two runs of a program on different inputs go side by side as long as their
registers agree on every variable that matters: the variables of the instructions,
and those that no input is put into.  No instruction reads or writes another
variable, so agreement at the start is agreement at every step.  A register that no
instruction works on keeps the input it was given.
-/

namespace RegisterMachine

/-- What some inputs put into the input variable with a number, counted from one: a negative
input counts as zero, and so does one that is missing. -/
def seededValue (inputs : List Int64) (number : Nat) : Nat :=
  match inputs[number - 1]? with
  | some input => (max 0 input.toInt).toNat
  | none => 0

theorem Valuation.start_inputName (inputs : List Int64) {number : Nat} (counted : 1 ≤ number) :
    Valuation.start inputs (Registers.inputName number) = seededValue inputs number := by
  rw [start, seededValue]
  cases found : (inputs.zipIdx 1).find? fun entry =>
      Registers.inputName number == Registers.inputName entry.2 with
  | some entry =>
      have named : Registers.inputName number = Registers.inputName entry.2 := by
        simpa using List.find?_some found
      have listed := List.mem_of_find?_eq_some found
      rw [Registers.inputName_injective named]
      rw [(List.mk_mem_zipIdx_iff_le_and_getElem?_sub.mp listed).2]
  | none =>
      cases listed : inputs[number - 1]? with
      | none => rfl
      | some input =>
          have member : (input, number) ∈ inputs.zipIdx 1 :=
            List.mk_mem_zipIdx_iff_le_and_getElem?_sub.mpr ⟨counted, listed⟩
          exact absurd (beq_self_eq_true _) (List.find?_eq_none.mp found _ member)

theorem Valuation.start_other (inputs : List Int64) {name : String}
    (other : ∀ number, 1 ≤ number → name ≠ Registers.inputName number) :
    Valuation.start inputs name = 0 := by
  have absent : (inputs.zipIdx 1).find? (fun entry => name == Registers.inputName entry.2) =
      none := by
    rw [List.find?_eq_none]
    intro entry member same
    exact other entry.2 (List.le_snd_of_mem_zipIdx member) (eq_of_beq same)
  rw [start, absent]

/-! ## Registers that agree -/

namespace Registers

/-- Two register files have the same values as far as some names go. -/
def AgreeOn (names : String → Prop) (first second : Registers) : Prop :=
  ∀ name, names name → first.value name = second.value name

theorem AgreeOn.store {names : String → Prop} {first second : Registers}
    (agree : AgreeOn names first second) (var : String) (value : UInt64) :
    AgreeOn names (first.store var value) (second.store var value) := by
  intro name inside
  rw [value_store, value_store, agree name inside]

/-- An operation on one of the names keeps the registers in agreement. -/
theorem AgreeOn.effect {names : String → Prop} {first second : Registers}
    (agree : AgreeOn names first second) {op : Op}
    (own : ∀ var, op.var? = some var → names var) :
    AgreeOn names (op.effect first) (op.effect second) := by
  cases op with
  | increase var =>
      rw [Op.effect, Op.effect, increment, increment, agree var (own var rfl)]
      exact agree.store var _
  | decrease var =>
      rw [Op.effect, Op.effect, decrement, decrement, agree var (own var rfl)]
      exact agree.store var _
  | jumpNotZero var target =>
      rw [Op.effect, Op.effect, touch, touch, agree var (own var rfl)]
      exact agree.store var _
  | zero var => exact agree.store var 0
  | neutral _ | goto _ => exact agree

theorem AgreeOn.jump?_eq {names : String → Prop} {first second : Registers}
    (agree : AgreeOn names first second) {op : Op}
    (own : ∀ var, op.var? = some var → names var) : op.jump? first = op.jump? second := by
  cases op with
  | jumpNotZero var target => rw [Op.jump?, Op.jump?, agree var (own var rfl)]
  | neutral _ | increase _ | decrease _ | zero _ | goto _ => rfl

/-- An operation leaves every variable alone that is not its own. -/
theorem value_effect_of_ne (registers : Registers) {op : Op} {name : String}
    (other : op.var? ≠ some name) : (op.effect registers).value name = registers.value name := by
  have differs : ∀ var, op.var? = some var → name ≠ var := by
    rintro var operand rfl
    exact other operand
  cases op with
  | increase var => rw [Op.effect, value_increment, if_neg (differs var rfl)]
  | decrease var => rw [Op.effect, value_decrement, if_neg (differs var rfl)]
  | zero var => rw [Op.effect, value_store, if_neg (differs var rfl)]
  | jumpNotZero var target => rw [Op.effect, value_touch]
  | neutral _ | goto _ => rfl

end Registers

/-! ## States and runs side by side -/

namespace State

/-- Two states that differ at most in registers that are not among some names. -/
structure AgreeOn (names : String → Prop) (first second : State) : Prop where
  registers : Registers.AgreeOn names first.registers second.registers
  position : first.position = second.position
  cycles : first.cycles = second.cycles
  jumped : first.jumped = second.jumped
  stopped : first.stopped = second.stopped

variable {names : String → Prop} {first second : State}

theorem AgreeOn.apply (agree : AgreeOn names first second) {op : Op}
    (own : ∀ var, op.var? = some var → names var) :
    AgreeOn names (first.apply op) (second.apply op) where
  registers := agree.registers.effect own
  position := agree.position
  cycles := congrArg (· + UInt64.ofNat op.cycles) agree.cycles
  jumped := agree.jumped
  stopped := agree.stopped

theorem AgreeOn.standAt (agree : AgreeOn names first second) (position : Nat) :
    AgreeOn names (first.standAt position) (second.standAt position) where
  registers := agree.registers
  position := rfl
  cycles := agree.cycles
  jumped := rfl
  stopped := agree.stopped

theorem AgreeOn.nextPosition_eq (agree : AgreeOn names first second) :
    first.nextPosition = second.nextPosition := by
  rw [nextPosition, nextPosition, agree.jumped, agree.stopped, agree.position]

theorem AgreeOn.next?_eq (agree : AgreeOn names first second) (program : Program) :
    first.next? program = second.next? program := by
  rw [next?, next?, agree.stopped, agree.position]

/-- Two states in agreement take the same step: both fail alike, or they stay in agreement. -/
theorem AgreeOn.step (agree : AgreeOn names first second) {op : Op}
    (own : ∀ var, op.var? = some var → names var) (labels : NameTable Nat) :
    (∃ error, first.step labels op = .error error ∧ second.step labels op = .error error) ∨
      ∃ after after', first.step labels op = .ok after ∧ second.step labels op = .ok after' ∧
        AgreeOn names after after' := by
  have same := agree.registers.jump?_eq own
  cases jumps : op.jump? first.registers with
  | none =>
      refine Or.inr ⟨_, _, step_of_not_jump jumps, step_of_not_jump (same ▸ jumps), ?_⟩
      rw [agree.nextPosition_eq]
      exact (agree.apply own).standAt _
  | some label =>
      cases found : labels.get? label with
      | none =>
          refine Or.inl ⟨_, step_of_unbound jumps found, ?_⟩
          rw [agree.position]
          exact step_of_unbound (same ▸ jumps) found
      | some position =>
          exact Or.inr ⟨_, _, step_of_jump jumps found, step_of_jump (same ▸ jumps) found,
            (agree.apply own).standAt position⟩

end State

namespace Progress

/-- Two runs stand at the same point, with states in agreement. -/
inductive AgreeOn (names : String → Prop) : Progress → Progress → Prop where
  | halted {first second : State} (steps : UInt64) (states : first.AgreeOn names second) :
      AgreeOn names (.halted first steps) (.halted second steps)
  | failed (error : RuntimeError) : AgreeOn names (.failed error) (.failed error)
  | going {first second : State} (states : first.AgreeOn names second) :
      AgreeOn names (.going first) (.going second)

theorem AgreeOn.of_halted {names : String → Prop} {state : State} {steps : UInt64}
    {other : Progress} (agree : AgreeOn names (.halted state steps) other) :
    ∃ state', other = .halted state' steps ∧ state.AgreeOn names state' := by
  cases agree with
  | halted steps states => exact ⟨_, rfl, states⟩

theorem AgreeOn.of_failed {names : String → Prop} {error : RuntimeError} {other : Progress}
    (agree : AgreeOn names (.failed error) other) : other = .failed error := by
  cases agree
  rfl

theorem AgreeOn.of_going {names : String → Prop} {state : State} {other : Progress}
    (agree : AgreeOn names (.going state) other) :
    ∃ state', other = .going state' ∧ state.AgreeOn names state' := by
  cases agree with
  | going states => exact ⟨_, rfl, states⟩

end Progress

namespace Program

/-- Some instruction works on a variable. -/
def Uses (program : Program) (name : String) : Prop :=
  ∃ instruction ∈ program.instructions, instruction.var? = some name

/-- Two runs watched for the same time stand at the same point. -/
theorem watch_agreeOn {program : Program} {names : String → Prop}
    (own : ∀ name, program.Uses name → names name) (bound : Nat) (taken : UInt64)
    {first second : State} (agree : first.AgreeOn names second) :
    Progress.AgreeOn names (program.watch bound taken first)
      (program.watch bound taken second) := by
  induction bound generalizing taken first second with
  | zero =>
      rw [watch, watch, agree.next?_eq program]
      cases second.next? program with
      | none => exact .halted taken agree
      | some instruction => exact .going agree
  | succ bound ih =>
      rw [watch, watch, agree.next?_eq program]
      cases fetched : second.next? program with
      | none => exact .halted taken agree
      | some instruction =>
          have member := List.mem_of_getElem? (State.getElem?_of_next? fetched)
          have operand : ∀ var, instruction.op.var? = some var → names var := fun var found =>
            own var ⟨instruction, member, found⟩
          rcases agree.step operand program.labels with
            ⟨error, failed, failed'⟩ | ⟨after, after', stepped, stepped', agree'⟩
          · simp only [failed, failed']
            exact .failed error
          · simp only [stepped, stepped']
            exact ih (taken + 1) agree'

/-- A run leaves every variable alone that no instruction works on. -/
theorem Execution.value_of_not_uses {program : Program} {state last : State}
    {trace : List Visit} (execution : program.Execution state trace last) {name : String}
    (unused : ¬ program.Uses name) :
    last.registers.value name = state.registers.value name := by
  induction execution with
  | refl => rfl
  | @next state after last instruction trace fetched stepped _ ih =>
      obtain ⟨position, rfl, -⟩ := State.step_eq_ok stepped
      have other : instruction.op.var? ≠ some name := fun operand =>
        unused ⟨instruction, List.mem_of_getElem? (State.getElem?_of_next? fetched), operand⟩
      exact ih.trans (state.registers.value_effect_of_ne other)

/-! ## Inputs -/

/-- A variable that an instruction works on, or that no input is put into. -/
def Matters (program : Program) (name : String) : Prop :=
  program.Uses name ∨ ∀ number, 1 ≤ number → name ≠ Registers.inputName number

/-- Two lists of inputs put the same values into the input variables of a program. -/
def SameInputs (program : Program) (first second : List Int64) : Prop :=
  ∀ number, 1 ≤ number → Registers.inputName number ∈ program.inputs.keys →
    seededValue first number = seededValue second number

/-- Inputs that are the same to a program are so in every register that matters. -/
theorem Consistent.initial_agreeOn {program : Program} (consistent : program.Consistent)
    {first second : List Int64} (same : program.SameInputs first second) :
    (State.initial first).AgreeOn program.Matters (State.initial second) where
  registers name matters := by
    rw [← UInt64.toNat_inj, State.initial, State.initial, Registers.holds_seed,
      Registers.holds_seed]
    by_cases input : ∃ number, 1 ≤ number ∧ name = Registers.inputName number
    · obtain ⟨number, counted, rfl⟩ := input
      have used : program.Uses (Registers.inputName number) :=
        matters.resolve_right fun other => other number counted rfl
      have letter : startsWith inputLetter (Registers.inputName number) = true :=
        (startsWith_numbered ..).trans (beq_self_eq_true _)
      rw [Valuation.start_inputName first counted, Valuation.start_inputName second counted]
      exact same number counted (consistent.mem_keys_inputs_iff.mpr ⟨letter, used⟩)
    · have other : ∀ number, 1 ≤ number → name ≠ Registers.inputName number :=
        fun number counted named => input ⟨number, counted, named⟩
      rw [Valuation.start_other first other, Valuation.start_other second other]
  position := rfl
  cycles := rfl
  jumped := rfl
  stopped := rfl

theorem matters_outputVariable (program : Program) : program.Matters outputVariable := by
  refine Or.inr fun number _ same => ?_
  have letter : startsWith inputLetter (Registers.inputName number) = true :=
    (startsWith_numbered ..).trans (beq_self_eq_true _)
  rw [← same] at letter
  exact absurd letter (by decide)

/-! ## Outcomes -/

/-- Two results that are equal as far as a program goes. -/
structure ResultsAgree (program : Program) (first second : RunResult) : Prop where
  output_eq : first.output = second.output
  cycles_eq : first.cycles = second.cycles
  steps_eq : first.steps = second.steps
  values_eq : ∀ name, program.Uses name → first.value name = second.value name

/-- Two answers of a run that are both results and equal as far as a program goes, or both the
same error. -/
inductive AnswersAgree (program : Program) :
    Except RuntimeError RunResult → Except RuntimeError RunResult → Prop where
  | ok {first second : RunResult} (results : program.ResultsAgree first second) :
      AnswersAgree program (.ok first) (.ok second)
  | error (error : RuntimeError) : AnswersAgree program (.error error) (.error error)

theorem resultsAgree_of_agreeOn {program : Program} {first second : State}
    (agree : first.AgreeOn program.Matters second) (steps : UInt64) :
    program.ResultsAgree (first.result steps) (second.result steps) where
  output_eq := by
    rw [State.output_result, State.output_result]
    exact agree.registers _ program.matters_outputVariable
  cycles_eq := agree.cycles
  steps_eq := rfl
  values_eq name used := by
    rw [State.value_result, State.value_result]
    exact agree.registers name (Or.inl used)

/-- Runs on two lists of inputs come to the same end, or neither comes to one. -/
structure SameOutcome (program : Program) (first second : List Int64) : Prop where
  /-- With a step limit both have a result, or both fail with one error. -/
  limited : ∀ limit, program.AnswersAgree (program.run limit first) (program.run limit second)
  /-- Without one both halt, both fail, or both go on forever. -/
  unlimited :
    (∃ result result', program.Halts first result ∧ program.Halts second result' ∧
        program.ResultsAgree result result') ∨
      (∃ error, program.Fails first error ∧ program.Fails second error) ∨
        program.RunsForever first ∧ program.RunsForever second

/-- Every input that no instruction works on is still there when a run has a result. -/
def KeepsUnused (program : Program) (inputs : List Int64) : Prop :=
  ∀ result, (program.Halts inputs result ∨ ∃ limit, program.run limit inputs = .ok result) →
    ∀ number, 1 ≤ number → ¬ program.Uses (Registers.inputName number) →
      (result.value (Registers.inputName number)).toNat = seededValue inputs number

theorem sameOutcome_of_agreeOn {program : Program} {first second : List Int64}
    (agree : (State.initial first).AgreeOn program.Matters (State.initial second)) :
    program.SameOutcome first second := by
  have watched : ∀ bound, Progress.AgreeOn program.Matters
      (program.watch bound 0 (State.initial first))
      (program.watch bound 0 (State.initial second)) :=
    fun bound => watch_agreeOn (fun _ => Or.inl) bound 0 agree
  constructor
  case limited =>
    intro limit
    have beside := watched (limit.getD largestLimit).toNat
    rw [run, run, runUpTo, runUpTo]
    cases own : program.watch (limit.getD largestLimit).toNat 0 (State.initial first) with
    | halted state steps =>
        rw [own] at beside
        obtain ⟨state', same, states⟩ := beside.of_halted
        rw [same]
        exact .ok (resultsAgree_of_agreeOn states steps)
    | failed error =>
        rw [own] at beside
        rw [beside.of_failed]
        exact .error error
    | going state =>
        rw [own] at beside
        obtain ⟨state', same, states⟩ := beside.of_going
        simp only [same, states.cycles]
        exact .error _
  case unlimited =>
    rcases program.halts_or_fails_or_runsForever first with
      ⟨result, bound, state, steps, halted, rfl⟩ | ⟨error, bound, failed⟩ | forever
    · obtain ⟨state', same, states⟩ := (halted ▸ watched bound).of_halted
      exact Or.inl ⟨_, _, ⟨bound, state, steps, halted, rfl⟩,
        ⟨bound, state', steps, same, rfl⟩, resultsAgree_of_agreeOn states steps⟩
    · have same := (failed ▸ watched bound).of_failed
      exact Or.inr (Or.inl ⟨error, ⟨bound, failed⟩, ⟨bound, same⟩⟩)
    · refine Or.inr (Or.inr ⟨forever, fun bound => ?_⟩)
      obtain ⟨state, going⟩ := forever bound
      obtain ⟨state', same, -⟩ := (going ▸ watched bound).of_going
      exact ⟨state', same⟩

theorem keepsUnused (program : Program) (inputs : List Int64) : program.KeepsUnused inputs := by
  intro result ended number counted unused
  have halts : program.Halts inputs result := by
    rcases ended with halts | ⟨limit, ran⟩
    · exact halts
    · exact halts_of_runUpTo ran
  obtain ⟨trace, last, execution, -, rfl⟩ := halts_iff.mp halts
  rw [State.value_result, execution.value_of_not_uses unused, State.initial,
    Registers.holds_seed, Valuation.start_inputName inputs counted]

/-- The inputs that a program does not use have no influence on its runs, and its runs have none
on them. -/
theorem unused_inputs_do_not_interfere {program : Program} (consistent : program.Consistent)
    {first second : List Int64} (same : program.SameInputs first second) :
    program.SameOutcome first second ∧ program.KeepsUnused first ∧
      program.KeepsUnused second :=
  ⟨sameOutcome_of_agreeOn (consistent.initial_agreeOn same), program.keepsUnused first,
    program.keepsUnused second⟩

/-- Counts its first input down.  The variable `x01` is not the first input, and `x2` is not
used. -/
def countdown : Program :=
  [ { op := .jumpNotZero "x1" "LOOP" },
    { op := .jumpNotZero "x01" "MISSING" },
    { op := .goto "END" },
    { op := .decrease "x1", label := some "LOOP" },
    { op := .increase "y" },
    { op := .jumpNotZero "x1" "LOOP" },
    { op := .neutral "z1", label := some "END" } ].foldl append (named "countdown")

theorem unused_inputs_do_not_interfere_countdown :
    countdown.Consistent ∧ countdown.SameInputs [2, 7] [2] ∧
      countdown.SameOutcome [2, 7] [2] ∧ countdown.KeepsUnused [2, 7] ∧
        countdown.KeepsUnused [2] := by
  have consistent : countdown.Consistent := (consistent_named _).foldl_append _
  have same : countdown.SameInputs [2, 7] [2] := by
    intro number counted used
    have first : number = 1 := by
      have written : ∀ digits, Registers.inputName number = String.ofList ('x' :: digits) →
          number = Nat.ofDigitChars 10 digits 0 := by
        intro digits same
        rw [Registers.inputName, numbered, String.ofList_inj, List.cons.injEq] at same
        rw [← same.2, Nat.ofDigitChars_toDigits (by decide) (by decide)]
      have listed : countdown.inputs.keys = ["x01", "x1"] := by decide
      simp only [listed, List.mem_cons, List.not_mem_nil, or_false] at used
      rcases used with named | named
      · exact written ['0', '1'] named
      · exact written ['1'] named
    rw [first]
    decide
  exact ⟨consistent, same, unused_inputs_do_not_interfere consistent same⟩

end Program

end RegisterMachine
