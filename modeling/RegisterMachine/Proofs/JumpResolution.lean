import RegisterMachine.Diagnostic.Basic
import RegisterMachine.Proofs.Execution
import RegisterMachine.Proofs.LoweringPass

/-!
# Jumps that resolve

Two checks look for jumps without a bound target, validation among the conditional
jumps and the warnings among the unconditional ones.  Lowering makes conditional
jumps of the unconditional ones and adds loops, whose heads it binds itself.  So
the lowered code is valid exactly when neither check finds anything in the program,
and then no run comes to a jump that fails.  When only validation finds nothing, a
run can still fail, but only at a jump with a warning.
-/

namespace RegisterMachine

namespace Op

theorem target?_eq_some_iff {op : Op} {label : String} :
    op.target? = some label ↔ op.conditionalTarget? = some label ∨ op.gotoTarget? = some label := by
  cases op <;> simp [target?, conditionalTarget?, gotoTarget?]

theorem gotoTarget?_eq_some_iff {op : Op} {label : String} :
    op.gotoTarget? = some label ↔ op = .goto label := by
  cases op <;> simp [gotoTarget?]

end Op

namespace Instruction

/-- A block jumps where its instruction does, or back to its own start. -/
theorem target?_of_mem_block {instruction child : Instruction} {fresh label : String}
    {origin : Nat} (member : child ∈ instruction.block fresh origin)
    (jump : child.op.target? = some label) :
    instruction.op.target? = some label ∨ instruction.blockLabel fresh = some label := by
  rcases mem_block_cases member with ⟨-, rfl⟩ | ⟨var, zeroes, code⟩ | ⟨target, jumps, code⟩
  · exact Or.inl jump
  · rcases code with same | same <;> rw [same] at jump
    · cases jump
    · rw [blockLabel, zeroes]
      exact Or.inr jump
  · rcases code with same | same <;> rw [same] at jump
    · cases jump
    · rw [jumps]
      exact Or.inl jump

theorem exists_target_block {instruction : Instruction} {label : String}
    (jump : instruction.op.target? = some label) (fresh : String) (origin : Nat) :
    ∃ child ∈ instruction.block fresh origin, child.op.target? = some label := by
  unfold block
  cases op : instruction.op with
  | goto target =>
      rw [op] at jump
      exact ⟨_, List.mem_cons_of_mem _ (List.mem_singleton_self _), jump⟩
  | jumpNotZero var target =>
      exact ⟨instruction, List.mem_singleton_self _, jump⟩
  | neutral _ | increase _ | decrease _ | zero _ =>
      rw [op] at jump
      cases jump

end Instruction

namespace Program

/-! ## What the checks find -/

theorem mem_unboundJumps_iff {program : Program} {target? : Op → Option String}
    {jump : UnboundJump} : jump ∈ program.unboundJumps target? ↔
      ∃ instruction, program.instructions[jump.position]? = some instruction ∧
        target? instruction.op = some jump.label ∧
          program.labels.contains jump.label = false := by
  unfold unboundJumps
  rw [List.mem_filterMap]
  constructor
  · rintro ⟨⟨instruction, position⟩, member, found⟩
    have place := List.mem_zipIdx_iff_getElem?.mp member
    cases target : target? instruction.op with
    | none => simp [target] at found
    | some label =>
        cases bound : program.labels.contains label with
        | true => simp [target, bound] at found
        | false =>
            simp only [target, bound, Bool.false_eq_true, if_false, Option.some.injEq] at found
            subst found
            exact ⟨instruction, place, target, bound⟩
  · rintro ⟨instruction, place, target, unbound⟩
    refine ⟨(instruction, jump.position), List.mem_zipIdx_iff_getElem?.mpr place, ?_⟩
    simp [target, unbound]

/-- Every target that `target?` gives is bound. -/
def TargetsBound (program : Program) (target? : Op → Option String) : Prop :=
  ∀ instruction ∈ program.instructions, ∀ label, target? instruction.op = some label →
    program.labels.contains label = true

theorem unboundJumps_eq_nil_iff {program : Program} {target? : Op → Option String} :
    program.unboundJumps target? = [] ↔ program.TargetsBound target? := by
  constructor
  · intro none instruction member label target
    obtain ⟨position, place⟩ := List.mem_iff_getElem?.mp member
    cases bound : program.labels.contains label with
    | true => rfl
    | false =>
        have found : ⟨position, label⟩ ∈ program.unboundJumps target? :=
          mem_unboundJumps_iff.mpr ⟨instruction, place, target, bound⟩
        rw [none] at found
        cases found
  · intro resolved
    refine List.eq_nil_iff_forall_not_mem.mpr fun jump found => ?_
    obtain ⟨instruction, place, target, unbound⟩ := mem_unboundJumps_iff.mp found
    rw [resolved instruction (List.mem_of_getElem? place) _ target] at unbound
    cases unbound

/-- Neither check finds anything exactly when the target of every jump is bound. -/
theorem checked_iff_targetsBound (program : Program) :
    program.validate = .ok () ∧ program.gotoWarnings = [] ↔
      program.TargetsBound Op.target? := by
  rw [validate_eq_ok_iff, gotoWarnings, List.map_eq_nil_iff, unboundConditions, unboundGotos,
    unboundJumps_eq_nil_iff, unboundJumps_eq_nil_iff]
  constructor
  · rintro ⟨conditions, gotos⟩ instruction member label target
    rcases Op.target?_eq_some_iff.mp target with conditional | unconditional
    · exact conditions instruction member label conditional
    · exact gotos instruction member label unconditional
  · intro resolved
    constructor
    · intro instruction member label conditional
      exact resolved instruction member label (Op.target?_eq_some_iff.mpr (Or.inl conditional))
    · intro instruction member label unconditional
      exact resolved instruction member label (Op.target?_eq_some_iff.mpr (Or.inr unconditional))

/-- Basic code has no unconditional jumps to warn about. -/
theorem gotoWarnings_of_isBasic {program : Program}
    (basic : ∀ instruction ∈ program.instructions, instruction.isBasic = true) :
    program.gotoWarnings = [] := by
  rw [gotoWarnings, List.map_eq_nil_iff, unboundGotos, unboundJumps_eq_nil_iff]
  intro instruction member label unconditional
  have kept := basic instruction member
  rw [Instruction.isBasic_eq, Op.gotoTarget?_eq_some_iff.mp unconditional] at kept
  cases kept

/-- Lowering leaves no jump without a target and makes none. -/
theorem LowersTo.targetsBound_iff {program lowered : Program} {fresh : Nat → String}
    (lowers : program.LowersTo lowered fresh) (wellFormed : program.WellFormed) :
    lowered.TargetsBound Op.target? ↔ program.TargetsBound Op.target? := by
  constructor
  · intro resolved instruction member label target
    obtain ⟨position, place⟩ := List.mem_iff_getElem?.mp member
    obtain ⟨child, inBlock, jump⟩ := Instruction.exists_target_block target (fresh position)
      (program.origins.length + program.expandedBefore position)
    have present : child ∈ lowered.instructions := by
      rw [lowers.instructions_eq, List.mem_flatMap]
      exact ⟨(instruction, position), List.mem_zipIdx_iff_getElem?.mpr place, inBlock⟩
    rw [← lowers.contains_iff wellFormed (contains_names_of_target place target)]
    exact resolved child present label jump
  · intro resolved child member label jump
    obtain ⟨place, found⟩ := List.mem_iff_getElem?.mp member
    obtain ⟨position, instruction, offset, origin, inBlock, -⟩ := lowers.exists_block found
    rcases Instruction.target?_of_mem_block (List.mem_of_getElem? inBlock) jump with own | head
    · rw [lowers.contains_iff wellFormed (contains_names_of_target origin own)]
      exact resolved instruction (List.mem_of_getElem? origin) label own
    · have bound := (lowers.get?_eq_some_iff wellFormed).mpr
        ⟨position, instruction, origin, head, rfl⟩
      rw [NameTable.contains, bound]
      rfl

/-- The lowered code is valid when neither check finds anything in the program. -/
theorem LowersTo.validate_iff {program lowered : Program} {fresh : Nat → String}
    (lowers : program.LowersTo lowered fresh) (wellFormed : program.WellFormed) :
    lowered.validate = .ok () ↔ program.validate = .ok () ∧ program.gotoWarnings = [] := by
  have quiet := gotoWarnings_of_isBasic lowers.isBasic
  rw [checked_iff_targetsBound, ← lowers.targetsBound_iff wellFormed, ← checked_iff_targetsBound]
  exact ⟨fun valid => ⟨valid, quiet⟩, fun checked => checked.1⟩

/-! ## What runs meet -/

/-- A run fails at an instruction that jumps to a label without a place. -/
theorem Fails.exists_unbound {program : Program} {inputs : List Int64} {error : RuntimeError}
    (fails : program.Fails inputs error) :
    ∃ position instruction label, program.instructions[position]? = some instruction ∧
      instruction.op.target? = some label ∧ program.labels.contains label = false ∧
        error = .unresolvedLabel label (position + 1) := by
  obtain ⟨trace, last, instruction, -, fetched, failed⟩ := fails_iff.mp fails
  obtain ⟨label, jumps, unbound, rfl⟩ := State.step_eq_error failed
  refine ⟨last.position, instruction, label, State.getElem?_of_next? fetched,
    Op.target?_of_jump? jumps, ?_, rfl⟩
  rw [NameTable.contains, unbound]
  rfl

/-- A run with a step limit that meets an unbound label fails without the limit too. -/
theorem fails_of_run {program : Program} {limit : Option UInt64} {inputs : List Int64}
    {label : String} {number : Nat}
    (ran : program.run limit inputs = .error (.unresolvedLabel label number)) :
    program.Fails inputs (.unresolvedLabel label number) := by
  unfold run runUpTo at ran
  split at ran
  · cases ran
  · next error watched =>
      cases ran
      exact ⟨_, watched⟩
  · cases ran

/-- No run of the program meets an unbound label, whatever its inputs and its step limit. -/
def NeverUnresolved (program : Program) : Prop :=
  ∀ inputs label number, ¬ program.Fails inputs (.unresolvedLabel label number) ∧
    ∀ limit, program.run limit inputs ≠ .error (.unresolvedLabel label number)

theorem TargetsBound.neverUnresolved {program : Program}
    (resolved : program.TargetsBound Op.target?) : program.NeverUnresolved := by
  intro inputs label number
  have safe : ¬ program.Fails inputs (.unresolvedLabel label number) := by
    intro fails
    obtain ⟨position, instruction, target, place, jump, unbound, -⟩ := fails.exists_unbound
    rw [resolved instruction (List.mem_of_getElem? place) target jump] at unbound
    cases unbound
  exact ⟨safe, fun limit ran => safe (fails_of_run ran)⟩

theorem TargetsBound.lowerTo {program lowered : Program} (wellFormed : program.WellFormed)
    (resolved : program.TargetsBound Op.target?) {degree : Nat}
    (lowering : program.lowerTo degree = .ok lowered) : lowered.TargetsBound Op.target? := by
  rcases lowersTo_or_rename wellFormed.toConsistent lowering with ⟨fresh, lowers⟩ | ⟨name, rfl⟩
  · exact (lowers.targetsBound_iff wellFormed).mpr resolved
  · exact resolved

/-- At this position there is an unconditional jump to this label, and among the warnings there
is exactly one about it. -/
structure Warned (program : Program) (label : String) (position : Nat) : Prop where
  jumps : ∃ instruction, program.instructions[position]? = some instruction ∧
    instruction.op = .goto label
  warns : ∃ warning ∈ program.gotoWarnings, warning = UnboundJump.warning ⟨position, label⟩ ∧
    warning.instruction = some (position + 1) ∧
      ∀ other ∈ program.gotoWarnings, other.instruction = some (position + 1) → other = warning

/-- In a valid program only jumps with a warning fail. -/
theorem Fails.warned {program : Program} {inputs : List Int64} {label : String} {number : Nat}
    (valid : program.validate = .ok ())
    (fails : program.Fails inputs (.unresolvedLabel label number)) :
    ∃ position, number = position + 1 ∧ program.Warned label position := by
  obtain ⟨position, instruction, target, place, jump, unbound, same⟩ := fails.exists_unbound
  cases same
  refine ⟨position, rfl, ?_⟩
  have conditions := unboundJumps_eq_nil_iff.mp ((validate_eq_ok_iff program).mp valid)
  have unconditional : instruction.op.gotoTarget? = some label := by
    rcases Op.target?_eq_some_iff.mp jump with conditional | unconditional
    · rw [conditions instruction (List.mem_of_getElem? place) label conditional] at unbound
      cases unbound
    · exact unconditional
  constructor
  case jumps => exact ⟨instruction, place, Op.gotoTarget?_eq_some_iff.mp unconditional⟩
  case warns =>
    refine ⟨_, List.mem_map_of_mem (mem_unboundJumps_iff.mpr
      ⟨instruction, place, unconditional, unbound⟩), rfl, rfl, ?_⟩
    intro other member about
    obtain ⟨⟨position', label'⟩, found, rfl⟩ := List.mem_map.mp member
    cases about
    obtain ⟨instruction', place', target', -⟩ := mem_unboundJumps_iff.mp found
    rw [place] at place'
    cases place'
    rw [unconditional] at target'
    cases target'
    rfl

/-- The two checks together decide whether lowered code is valid; a program that passes both
never meets an unbound label, in any run or lowered to any degree, and one that passes
validation alone meets it only at a jump with a warning. -/
theorem checks_decide_resolution {program : Program} (wellFormed : program.WellFormed) :
    ∃ lowered, program.lowerTo 0 = .ok lowered ∧
      (lowered.validate = .ok () ↔
        program.validate = .ok () ∧ program.gotoWarnings = []) ∧
      (program.validate = .ok () → program.gotoWarnings = [] →
        program.NeverUnresolved ∧
          ∀ degree other, program.lowerTo degree = .ok other → other.NeverUnresolved) ∧
      (program.validate = .ok () → ∀ inputs label number,
        (program.Fails inputs (.unresolvedLabel label number) ∨
          ∃ limit, program.run limit inputs = .error (.unresolvedLabel label number)) →
        ∃ position, number = position + 1 ∧ program.Warned label position) := by
  obtain ⟨lowered, fresh, lowering, lowers⟩ := exists_lowersTo wellFormed.toConsistent
  refine ⟨lowered, lowering, lowers.validate_iff wellFormed, ?_, ?_⟩
  · intro valid quiet
    have resolved := program.checked_iff_targetsBound.mp ⟨valid, quiet⟩
    refine ⟨resolved.neverUnresolved, fun degree other lowering' => ?_⟩
    exact (resolved.lowerTo wellFormed lowering').neverUnresolved
  · rintro valid inputs label number (fails | ⟨limit, ran⟩)
    · exact fails.warned valid
    · exact (fails_of_run ran).warned valid

/-- Jumps to a label that is nowhere. -/
def dangling : Program :=
  [ { op := .increase "y" }, { op := .goto "EXIT" } ].foldl append (named "dangling")

theorem wellFormed_dangling : dangling.WellFormed :=
  wellFormed_foldl_append "dangling" (by decide)

theorem checks_decide_resolution_dangling :
    dangling.WellFormed ∧ dangling.validate = .ok () ∧
      dangling.run none [] = .error (.unresolvedLabel "EXIT" 2) ∧
        ∃ position, 2 = position + 1 ∧ dangling.Warned "EXIT" position := by
  have ran : dangling.run none [] = .error (.unresolvedLabel "EXIT" 2) := rfl
  obtain ⟨lowered, -, -, -, warned⟩ := checks_decide_resolution wellFormed_dangling
  exact ⟨wellFormed_dangling, rfl, ran, warned rfl [] "EXIT" 2 (Or.inr ⟨none, ran⟩)⟩

end Program

end RegisterMachine
