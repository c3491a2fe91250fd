import RegisterMachine.Proofs.LoweringPass

/-!
# Histories of a program

A program comes about by pushing instructions, by lowering, and by building anew
from copies of its own instructions, in any order and any number of times.  What
fails leaves the program as it is.  After every such history the tables say exactly
what the instructions say, although lowering appends without looking, and pushing
fails exactly on a label that some instruction carries already.
-/

namespace RegisterMachine

/-- One thing to do to a program. -/
inductive Edit where
  | push (instruction : Instruction)
  | lower (degree : Nat)
  /-- Build a program of copies of the instructions at some positions. -/
  | rebuild (name : String) (positions : List Nat)
deriving DecidableEq, Repr

namespace Program

/-- Copies of the instructions at some positions, in the order of the positions. -/
def copies (program : Program) (positions : List Nat) : List Instruction :=
  positions.filterMap fun position => program.instructions[position]?

/-- The new program, or the old one after a failure. -/
def orKeep {ε : Type} (program : Program) : Except ε Program → Program
  | .ok next => next
  | .error _ => program

/-- The program that a change leaves, whether or not it fails. -/
def left {α : Type} (program : Program) (change : ProgramM α) : Program :=
  match change.run program with
  | .ok _ next => next
  | .error _ next => next

/-- The program after an edit. -/
def edit (program : Program) : Edit → Program
  | .push instruction => program.left (push instruction)
  | .lower degree => program.orKeep (program.lowerTo degree)
  | .rebuild name positions => program.orKeep (ofInstructions name (program.copies positions))

/-- The program after some edits of the empty one. -/
def afterEdits (name : String) (edits : List Edit) : Program :=
  edits.foldl edit (named name)

theorem filterMap_range_getElem? {α : Type} (entries : List α) :
    ((List.range entries.length).filterMap fun index => entries[index]?) = entries := by
  induction entries with
  | nil => rfl
  | cons entry entries ih =>
      simp only [List.length_cons, List.range_succ_eq_map, List.filterMap_cons,
        List.getElem?_cons_zero, List.filterMap_map]
      exact congrArg (entry :: ·) ih

/-- The copies at all positions are the instructions themselves. -/
theorem copies_range (program : Program) :
    program.copies (List.range program.length) = program.instructions :=
  filterMap_range_getElem? program.instructions

theorem left_push (program : Program) (instruction : Instruction) :
    program.left (push instruction) = program.orKeep (program.pushed instruction) := by
  rw [left]
  cases pushed : program.pushed instruction with
  | ok next => rw [push_of_pushed pushed]; rfl
  | error error => rw [push_of_refused pushed]; rfl

theorem WellFormed.edit {program : Program} (wellFormed : program.WellFormed) (edit : Edit) :
    (program.edit edit).WellFormed := by
  cases edit with
  | push instruction =>
      rw [Program.edit, left_push]
      cases pushed : program.pushed instruction with
      | error error => exact wellFormed
      | ok next => exact wellFormed.push pushed
  | lower degree =>
      rw [Program.edit]
      cases lowering : program.lowerTo degree with
      | error error => exact wellFormed
      | ok lowered => exact wellFormed.lowerTo lowering
  | rebuild name positions =>
      rw [Program.edit]
      cases built : ofInstructions name (program.copies positions) with
      | error error => exact wellFormed
      | ok next => exact wellFormed_ofInstructions built

theorem WellFormed.foldl_edit {program : Program} (wellFormed : program.WellFormed)
    (edits : List Edit) : (edits.foldl Program.edit program).WellFormed := by
  induction edits generalizing program with
  | nil => exact wellFormed
  | cons edit edits ih => exact ih (wellFormed.edit edit)

/-- Every history of edits leaves a well-formed program. -/
theorem wellFormed_afterEdits (name : String) (edits : List Edit) :
    (afterEdits name edits).WellFormed :=
  (wellFormed_named name).foldl_edit edits

/-- A program can be built anew from all its instructions. -/
theorem WellFormed.ofInstructions_copies {program : Program} (wellFormed : program.WellFormed)
    (name : String) :
    ∃ rebuilt, ofInstructions name (program.copies (List.range program.length)) = .ok rebuilt ∧
      rebuilt.instructions = program.instructions := by
  have built := (wellFormed_named name).foldlM_push_of_nodup wellFormed.unique
  rw [copies_range]
  exact ⟨_, built, instructions_foldl_append _ _⟩

theorem Consistent.maxDegree_eq_max? {program : Program} (consistent : program.Consistent) :
    program.maxDegree = (program.instructions.map Instruction.degree).max?.getD 0 := by
  rw [consistent.degree_eq, List.foldl_max, Nat.zero_max]

theorem Consistent.mem_keys_inputs_iff {program : Program} (consistent : program.Consistent)
    {var : String} : var ∈ program.inputs.keys ↔
      startsWith inputLetter var = true ∧
        ∃ instruction ∈ program.instructions, instruction.var? = some var := by
  have listed : var ∈ program.inputs.keys ↔ program.inputs.contains var = true := by
    rw [NameTable.contains, Option.isSome_iff_exists, NameTable.keys, List.mem_map]
    constructor
    · rintro ⟨entry, member, rfl⟩
      exact ⟨entry.2, NameTable.mem_entries_iff.mp member⟩
    · rintro ⟨value, found⟩
      exact ⟨(var, value), NameTable.mem_entries_iff.mpr found, rfl⟩
  rw [listed, consistent.inputs_eq, Bool.and_eq_true, List.any_eq_true]
  simp only [beq_iff_eq]

theorem clash?_eq_some_iff {program : Program} {carried : Option String} {label : String}
    {position : Nat} : program.clash? carried = some (label, position) ↔
      carried = some label ∧ program.labels.get? label = some position := by
  cases carried with
  | none => simp [clash?]
  | some first =>
      simp only [clash?, Option.bind_eq_bind, Option.bind_some, Option.pure_def,
        Option.bind_eq_some_iff, Option.some.injEq, Prod.mk.injEq]
      constructor
      · rintro ⟨found, bound, rfl, rfl⟩
        exact ⟨rfl, bound⟩
      · rintro ⟨rfl, bound⟩
        exact ⟨position, bound, rfl, rfl⟩

/-- A push fails exactly when an instruction carries the label already, and its error numbers
the two instructions from one. -/
theorem WellFormed.pushed_eq_error_iff {program : Program} (wellFormed : program.WellFormed)
    {instruction : Instruction} {error : InstructionError} :
    program.pushed instruction = .error error ↔
      ∃ label position earlier, instruction.label = some label ∧
        program.instructions[position]? = some earlier ∧ earlier.label = some label ∧
          error = .duplicateLabel label (position + 1) (program.length + 1) := by
  constructor
  · intro failed
    cases clash : program.clash? instruction.label with
    | none => cases failed.symm.trans (pushed_eq_ok_iff.mpr ⟨clash, rfl⟩)
    | some found =>
        rw [pushed_of_clash clash] at failed
        obtain ⟨carried, bound⟩ := clash?_eq_some_iff.mp clash
        obtain ⟨earlier, place, same⟩ := wellFormed.get?_eq_some_iff.mp bound
        exact ⟨found.1, found.2, earlier, carried, place, same, (Except.error.inj failed).symm⟩
  · rintro ⟨label, position, earlier, carried, place, same, rfl⟩
    have bound := wellFormed.get?_eq_some_iff.mpr ⟨earlier, place, same⟩
    exact pushed_of_clash (clash?_eq_some_iff.mpr ⟨carried, bound⟩)

/-- The tables of a program say what its instructions say, and no label is carried twice. -/
structure TablesExact (program : Program) : Prop where
  labels_iff : ∀ label position, (label, position) ∈ program.labels.entries ↔
    ∃ instruction, program.instructions[position]? = some instruction ∧
      instruction.label = some label
  label_once : ∀ label (first second : Nat) (one other : Instruction),
    program.instructions[first]? = some one → program.instructions[second]? = some other →
      one.label = some label → other.label = some label → first = second
  inputs_iff : ∀ var, var ∈ program.inputs.keys ↔ startsWith inputLetter var = true ∧
    ∃ instruction ∈ program.instructions, instruction.var? = some var
  maxDegree_eq : program.maxDegree =
    (program.instructions.map Instruction.degree).max?.getD 0

/-- What pushing an instruction comes to. -/
structure PushExact (program : Program) (instruction : Instruction) : Prop where
  fails_iff : (∃ error left, (push instruction).run program = .error error left) ↔
    ∃ label, instruction.label = some label ∧
      ∃ earlier ∈ program.instructions, earlier.label = some label
  /-- The error numbers the two instructions with the label from one. -/
  error_eq : ∀ error left, (push instruction).run program = .error error left →
    ∃ label position earlier, instruction.label = some label ∧
      program.instructions[position]? = some earlier ∧ earlier.label = some label ∧
        error = .duplicateLabel label (position + 1) (program.length + 1)
  kept : ∀ error left, (push instruction).run program = .error error left →
    left = program ∧ program.edit (.push instruction) = program
  /-- A push that succeeds adds the instruction at the end and gives its position. -/
  added : ∀ position next, (push instruction).run program = .ok position next →
    position = program.length ∧ next.instructions = program.instructions ++ [instruction]

theorem WellFormed.tablesExact {program : Program} (wellFormed : program.WellFormed) :
    program.TablesExact where
  labels_iff _ _ := NameTable.mem_entries_iff.trans wellFormed.get?_eq_some_iff
  label_once _ _ _ _ _ atFirst atSecond carriedFirst carriedSecond :=
    position_unique wellFormed.unique atFirst atSecond carriedFirst carriedSecond
  inputs_iff _ := wellFormed.toConsistent.mem_keys_inputs_iff
  maxDegree_eq := wellFormed.toConsistent.maxDegree_eq_max?

theorem WellFormed.pushExact {program : Program} (wellFormed : program.WellFormed)
    (instruction : Instruction) : program.PushExact instruction where
  fails_iff := by
    constructor
    · rintro ⟨error, left, failed⟩
      obtain ⟨label, position, earlier, carried, place, same, -⟩ :=
        wellFormed.pushed_eq_error_iff.mp (refused_of_push failed)
      exact ⟨label, carried, earlier, List.mem_of_getElem? place, same⟩
    · rintro ⟨label, carried, earlier, member, same⟩
      obtain ⟨position, place⟩ := List.mem_iff_getElem?.mp member
      exact ⟨_, _, push_of_refused (wellFormed.pushed_eq_error_iff.mpr
        ⟨label, position, earlier, carried, place, same, rfl⟩)⟩
  error_eq _ _ failed := wellFormed.pushed_eq_error_iff.mp (refused_of_push failed)
  kept error left failed := by
    have refused := refused_of_push failed
    rw [push_of_refused refused] at failed
    cases failed
    exact ⟨rfl, by rw [Program.edit, left_push, refused]; rfl⟩
  added position next done := by
    obtain ⟨free, rfl⟩ := pushed_eq_ok_iff.mp (pushed_of_push done)
    rw [push_of_free free] at done
    cases done
    exact ⟨rfl, instructions_append _ _⟩

/-- After every history of edits the tables are exact, the next push fails exactly on a label
that is carried, and building anew from all instructions does not fail. -/
theorem tables_exact_after_edits (name : String) (edits : List Edit) :
    (afterEdits name edits).TablesExact ∧
      (∀ instruction, (afterEdits name edits).PushExact instruction) ∧
        ∀ other, ∃ rebuilt,
          ofInstructions other ((afterEdits name edits).copies
            (List.range (afterEdits name edits).length)) = .ok rebuilt ∧
          rebuilt.instructions = (afterEdits name edits).instructions :=
  have wellFormed := wellFormed_afterEdits name edits
  ⟨wellFormed.tablesExact, wellFormed.pushExact, wellFormed.ofInstructions_copies⟩

end Program

end RegisterMachine
