import Mathlib.Order.Monotone.Basic
import RegisterMachine.Proofs.Provenance

/-!
# Parents stay

The record of origins is only ever added to at its end, so a number that finds an
instruction finds the same one for good.  One lowering records the synthetic
instructions behind what was there: what it keeps has the parent it had, and what it
emits has the replaced instruction for a parent.  Along every history that pushes new
instructions and lowers, and does not build anew, no parent changes.
-/

namespace RegisterMachine

/-- An edit that only adds to the record: a lowering, or a push of a new instruction. -/
def Edit.Extends : Edit → Prop
  | .push instruction => instruction.parent = none
  | .lower _ => True
  | .rebuild _ _ => False

instance : DecidablePred Edit.Extends
  | .push instruction => inferInstanceAs (Decidable (instruction.parent = none))
  | .lower _ => inferInstanceAs (Decidable True)
  | .rebuild _ _ => inferInstanceAs (Decidable False)

namespace Program

/-- Every number that a recorded instruction holds is one of the record. -/
def RecordCloses (program : Program) : Prop :=
  ∀ origin ∈ program.origins, ∀ number, origin.parent = some number →
    number < program.origins.length

/-- Lowered code beside the program, with the parents on both sides. -/
structure RecordsParents (program lowered : Program) : Prop where
  origins_eq : lowered.origins = program.origins ++ program.synthetic
  kept : ∀ position instruction, program.instructions[position]? = some instruction →
    instruction.isBasic = true →
      lowered.instructions[program.blockStart position]? = some instruction ∧
        lowered.parent? instruction = program.parent? instruction
  replaced : ∀ position instruction, program.instructions[position]? = some instruction →
    instruction.isBasic = false → ∀ offset < 2, ∃ child,
      lowered.instructions[program.blockStart position + offset]? = some child ∧
        instruction.Emits child ∧ lowered.parent? child = some instruction
  /-- There is no other code. -/
  covered : ∀ place child, lowered.instructions[place]? = some child →
    ∃ position instruction, program.instructions[position]? = some instruction ∧
      (place = program.blockStart position ∨
        instruction.isBasic = false ∧ place = program.blockStart position + 1)
  resolves : lowered.Resolves
  closes : program.RecordCloses → lowered.RecordCloses

/-- The basic instructions of a program stand in a later one, in the same order. -/
def CodeStays (program later : Program) : Prop :=
  ∃ moved : Nat → Nat, StrictMono moved ∧
    ∀ position instruction, program.instructions[position]? = some instruction →
      instruction.isBasic = true → later.instructions[moved position]? = some instruction

/-- What a later program keeps of an earlier one. -/
structure ParentsStay (program later : Program) : Prop where
  record_grows : program.origins <+: later.origins
  record_closes : program.RecordCloses → later.RecordCloses
  /-- A parent that is set stays, whether or not the instruction is still in the program. -/
  parent_stays : ∀ instruction source, program.parent? instruction = some source →
    later.parent? instruction = some source
  /-- An instruction of the program that has no parent gets none. -/
  parent_eq : ∀ instruction ∈ program.instructions,
    later.parent? instruction = program.parent? instruction
  code_stays : program.CodeStays later

/-! ## A longer record -/

theorem parent?_of_grows {program later : Program} (grows : program.origins <+: later.origins)
    {instruction source : Instruction} (found : program.parent? instruction = some source) :
    later.parent? instruction = some source := by
  obtain ⟨number, held, recorded⟩ := parent?_eq_some_iff.mp found
  obtain ⟨rest, whole⟩ := grows
  have inside := (List.getElem?_eq_some_iff.mp recorded).1
  refine parent?_eq_some_iff.mpr ⟨number, held, ?_⟩
  rw [← whole, List.getElem?_append_left inside, recorded]

/-- A number of the record finds the same in a longer one. -/
theorem Resolves.parent?_eq {program later : Program} (resolves : program.Resolves)
    (grows : program.origins <+: later.origins) {instruction : Instruction}
    (member : instruction ∈ program.instructions) :
    later.parent? instruction = program.parent? instruction := by
  cases held : instruction.parent with
  | none => rw [Traced.parent?_of_parent_none held, Traced.parent?_of_parent_none held]
  | some number =>
      have inside := resolves instruction member number held
      have found : program.parent? instruction = some program.origins[number] :=
        parent?_eq_some_iff.mpr ⟨number, held, List.getElem?_eq_getElem inside⟩
      rw [found, parent?_of_grows grows found]

/-- What is recorded by a lowering holds numbers of the program. -/
theorem Resolves.recordCloses {program lowered : Program} (resolves : program.Resolves)
    (recorded : lowered.origins = program.origins ++ program.synthetic)
    (closes : program.RecordCloses) : lowered.RecordCloses := by
  intro origin member number held
  have earlier : number < program.origins.length := by
    rw [recorded, List.mem_append] at member
    rcases member with old | new
    · exact closes origin old number held
    · exact resolves origin (List.mem_of_mem_filter new) number held
  rw [recorded, List.length_append]
  omega

theorem ParentsStay.of_grows {program later : Program} (resolves : program.Resolves)
    (grows : program.origins <+: later.origins)
    (closes : program.RecordCloses → later.RecordCloses)
    (code : program.CodeStays later) : program.ParentsStay later where
  record_grows := grows
  record_closes := closes
  parent_stays _ _ := parent?_of_grows grows
  parent_eq _ member := resolves.parent?_eq grows member
  code_stays := code

/-- Code that is added behind the program leaves the record alone. -/
theorem ParentsStay.of_same_record {program later : Program} (resolves : program.Resolves)
    (same : later.origins = program.origins)
    (code : program.instructions <+: later.instructions) : program.ParentsStay later := by
  refine .of_grows resolves (same ▸ List.prefix_refl _) ?_ ⟨id, strictMono_id, ?_⟩
  · unfold RecordCloses
    rw [same]
    exact id
  · intro position instruction place _
    obtain ⟨rest, whole⟩ := code
    have inside := (List.getElem?_eq_some_iff.mp place).1
    rw [← whole, id, List.getElem?_append_left inside, place]

/-! ## One lowering -/

/-- Lowering to basic code is the layout together with the record, also when there is nothing
to replace. -/
theorem Consistent.exists_recorded {program : Program} (consistent : program.Consistent) :
    ∃ lowered fresh, program.lowerTo 0 = .ok lowered ∧ program.LowersTo lowered fresh ∧
      lowered.origins = program.origins ++ program.synthetic := by
  obtain ⟨lowered, fresh, lowering, lowers⟩ := exists_lowersTo consistent
  refine ⟨lowered, fresh, lowering, lowers, ?_⟩
  rcases consistent.lowerTo_cases lowering with ⟨-, recorded, -⟩ | ⟨flat, name, rfl⟩
  · exact recorded
  · have basic := consistent.maxDegree_eq_zero_iff.mp (Nat.le_zero.mp flat)
    have none : program.synthetic = [] := by
      rw [synthetic, List.filter_eq_nil_iff]
      intro instruction member
      simp [basic instruction member]
    rw [none, List.append_nil]

/-- The code of a block finds the replaced instruction in the record. -/
theorem parent?_of_mem_blockAt {program lowered : Program}
    (recorded : lowered.origins = program.origins ++ program.synthetic)
    {position : Nat} {instruction child : Instruction} {fresh : Nat → String}
    (place : program.instructions[position]? = some instruction)
    (replaced : instruction.isBasic = false)
    (member : child ∈ program.blockAt fresh (instruction, position)) :
    lowered.parent? child = some instruction := by
  refine parent?_eq_some_iff.mpr ⟨_, parent_of_mem_block replaced member, ?_⟩
  rw [recorded, List.getElem?_append_right (Nat.le_add_right _ _), Nat.add_sub_cancel_left]
  exact getElem?_synthetic place replaced

theorem LowersTo.recordsParents {program lowered : Program} {fresh : Nat → String}
    (lowers : program.LowersTo lowered fresh)
    (recorded : lowered.origins = program.origins ++ program.synthetic)
    (resolves : program.Resolves) (resolves' : lowered.Resolves) :
    program.RecordsParents lowered := by
  have grows : program.origins <+: lowered.origins := recorded ▸ List.prefix_append _ _
  constructor
  case origins_eq => exact recorded
  case kept =>
    intro position instruction place basic
    exact ⟨lowers.kept_code place basic, resolves.parent?_eq grows (List.mem_of_getElem? place)⟩
  case replaced =>
    intro position instruction place replaced offset short
    have inside : offset < (program.blockAt fresh (instruction, position)).length := by
      rw [blockAt, Instruction.length_block, replaced]
      exact short
    have member := List.getElem_mem inside
    refine ⟨_, ?_, Traced.emits_of_mem_block replaced member,
      parent?_of_mem_blockAt recorded place replaced member⟩
    rw [lowers.getElem?_block place inside, List.getElem?_eq_getElem inside]
  case covered =>
    intro place child found
    obtain ⟨position, instruction, offset, origin, inBlock, rfl⟩ := lowers.exists_block found
    refine ⟨position, instruction, origin, ?_⟩
    have inside := (List.getElem?_eq_some_iff.mp inBlock).1
    rw [Instruction.length_block] at inside
    cases basic : instruction.isBasic with
    | true =>
        rw [basic, if_pos rfl] at inside
        exact Or.inl (by omega)
    | false =>
        rw [basic, if_neg Bool.false_ne_true] at inside
        rcases Nat.lt_or_eq_of_le (Nat.le_of_lt_succ inside) with first | rfl
        · exact Or.inl (by omega)
        · exact Or.inr ⟨rfl, rfl⟩
  case resolves => exact resolves'
  case closes => exact resolves.recordCloses recorded

theorem Resolves.lowered {program lowered : Program} (resolves : program.Resolves)
    (consistent : program.Consistent) {degree : Nat}
    (lowering : program.lowerTo degree = .ok lowered) : lowered.Resolves := by
  have edited := resolves.lower consistent degree
  rwa [Program.edit, lowering, orKeep] at edited

/-! ## Histories -/

theorem ParentsStay.refl {program : Program} (resolves : program.Resolves) :
    program.ParentsStay program :=
  .of_same_record resolves rfl (List.prefix_refl _)

theorem ParentsStay.trans {program middle later : Program} (resolves : program.Resolves)
    (first : program.ParentsStay middle) (second : middle.ParentsStay later) :
    program.ParentsStay later := by
  obtain ⟨moved, increasing, there⟩ := first.code_stays
  obtain ⟨moved', increasing', there'⟩ := second.code_stays
  refine .of_grows resolves (first.record_grows.trans second.record_grows)
    (second.record_closes ∘ first.record_closes) ⟨moved' ∘ moved, increasing'.comp increasing, ?_⟩
  intro position instruction place basic
  exact there' _ instruction (there position instruction place basic) basic

/-- Lowering changes no parent. -/
theorem ParentsStay.lowerTo {program lowered : Program} (consistent : program.Consistent)
    (resolves : program.Resolves) {degree : Nat}
    (lowering : program.lowerTo degree = .ok lowered) : program.ParentsStay lowered := by
  rcases consistent.lowerTo_cases lowering with ⟨-, recorded, fresh, lowers⟩ | ⟨-, name, rfl⟩
  · refine .of_grows resolves (recorded ▸ List.prefix_append _ _)
      (resolves.recordCloses recorded) ⟨program.blockStart, fun _ _ => program.blockStart_lt, ?_⟩
    intro position instruction place basic
    exact lowers.kept_code place basic
  · exact .of_same_record resolves rfl (List.prefix_refl _)

/-- One edit that extends the record changes no parent, and its numbers find something. -/
theorem ParentsStay.edit {program : Program} (consistent : program.Consistent)
    (resolves : program.Resolves) {edit : Edit} (adds : edit.Extends) :
    (program.edit edit).Resolves ∧ program.ParentsStay (program.edit edit) := by
  cases edit with
  | push instruction =>
      refine ⟨resolves.push adds, ?_⟩
      rw [Program.edit, left_push]
      cases pushed : program.pushed instruction with
      | error error => exact .refl resolves
      | ok next =>
          obtain ⟨-, rfl⟩ := pushed_eq_ok_iff.mp pushed
          exact .of_same_record resolves rfl (List.prefix_append _ _)
  | lower degree =>
      refine ⟨resolves.lower consistent degree, ?_⟩
      rw [Program.edit]
      cases lowering : program.lowerTo degree with
      | error error => exact .refl resolves
      | ok lowered => exact .lowerTo consistent resolves lowering
  | rebuild name positions => exact adds.elim

theorem ParentsStay.foldl_edit {program : Program} (wellFormed : program.WellFormed)
    (resolves : program.Resolves) {edits : List Edit} (adds : ∀ edit ∈ edits, edit.Extends) :
    (edits.foldl Program.edit program).Resolves ∧
      program.ParentsStay (edits.foldl Program.edit program) := by
  -- A number outside the record could find something later, so both parts go together.
  induction edits generalizing program with
  | nil => exact ⟨resolves, .refl resolves⟩
  | cons first edits ih =>
      obtain ⟨resolves', stay⟩ :=
        ParentsStay.edit wellFormed.toConsistent resolves (adds first List.mem_cons_self)
      obtain ⟨resolved, stay'⟩ := ih (wellFormed.edit first) resolves'
        fun edit member => adds edit (List.mem_cons_of_mem _ member)
      exact ⟨resolved, stay.trans resolves stay'⟩

/-- Lowering records and keeps parents, and from then on they stay: whatever two moments of a
history of pushes and lowerings are compared, the later program has the parents of the
earlier one. -/
theorem lowering_keeps_parents {program : Program} (wellFormed : program.WellFormed)
    (resolves : program.Resolves) :
    (∃ lowered, program.lowerTo 0 = .ok lowered ∧ program.RecordsParents lowered) ∧
      ∀ before after : List Edit, (∀ edit ∈ before ++ after, edit.Extends) →
        ((before ++ after).foldl Program.edit program).Resolves ∧
          (before.foldl Program.edit program).ParentsStay
            ((before ++ after).foldl Program.edit program) := by
  constructor
  · obtain ⟨lowered, fresh, lowering, lowers, recorded⟩ :=
      wellFormed.toConsistent.exists_recorded
    have resolves' := resolves.lowered wellFormed.toConsistent lowering
    exact ⟨lowered, lowering, lowers.recordsParents recorded resolves resolves'⟩
  · intro before after adds
    obtain ⟨resolves', -⟩ := ParentsStay.foldl_edit wellFormed resolves
      fun edit member => adds edit (List.mem_append_left _ member)
    rw [List.foldl_append]
    exact ParentsStay.foldl_edit (wellFormed.foldl_edit before) resolves'
      fun edit member => adds edit (List.mem_append_right _ member)

/-- A loop that has been lowered, with a jump behind it that has not. -/
def halfLowered : Program :=
  afterEdits "half" [.push { op := .zero "y", label := some "A" }, .lower 0,
    .push { op := .goto "A" }]

theorem lowering_keeps_parents_halfLowered :
    halfLowered.WellFormed ∧ halfLowered.Resolves ∧
      halfLowered.origins = [{ op := .zero "y", label := some "A" }] ∧
        (∃ lowered, halfLowered.lowerTo 0 = .ok lowered ∧
          halfLowered.RecordsParents lowered) ∧
            halfLowered.ParentsStay ([.lower 0, .push { op := .zero "x1" }, .lower 0].foldl
              Program.edit halfLowered) := by
  have wellFormed : halfLowered.WellFormed := wellFormed_afterEdits _ _
  have resolves : halfLowered.Resolves :=
    (ParentsStay.foldl_edit (wellFormed_named "half") (fun _ => nofun) (by decide)).1
  obtain ⟨lowered, histories⟩ := lowering_keeps_parents wellFormed resolves
  exact ⟨wellFormed, resolves, by decide, lowered, (histories [] _ (by decide)).2⟩

end Program

end RegisterMachine
