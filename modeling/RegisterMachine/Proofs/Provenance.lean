import Mathlib.Data.List.Forall2
import Mathlib.Data.List.Induction
import RegisterMachine.Proofs.History

/-!
# Where instructions come from

An instruction that lowering has emitted holds the number of the instruction it
replaces in the record of origins.  The record belongs to the program, the number
to the instruction, and a program that is built anew from copies has the numbers
without the record.  Such a number finds nothing, until a later lowering records
another instruction under it.  To say when this goes wrong, every instruction is
traced back to the one whose expansion emitted it, beside the program and without
the numbers: the parents are right throughout a history exactly when no lowering
in it captures a number that was left over.
-/

namespace RegisterMachine

/-! ## The record of origins -/

namespace Program

/-- The instructions that lowering to basic code replaces, in order. -/
def synthetic (program : Program) : List Instruction :=
  program.instructions.filter fun instruction => !instruction.isBasic

theorem origins_passAfter (program : Program) {count : Nat} (short : count ≤ program.length) :
    (program.passAfter count).lowered.origins = program.origins ++
      (program.instructions.take count).filter fun instruction => !instruction.isBasic := by
  induction count with
  | zero => simp [passAfter, restart]
  | succ count ih =>
      have place := List.getElem?_eq_getElem (show count < program.instructions.length from short)
      rw [passAfter_succ place, Pass.origins_step, ih (Nat.le_of_succ_le short),
        List.take_add_one, place, List.filter_append, List.append_assoc]
      split
      · next basic => simp [basic]
      · next basic => simp [basic]

/-- A pass adds the instructions that it replaces to the record. -/
theorem origins_lowerOnce (program : Program) :
    (program.lowerOnce 0).origins = program.origins ++ program.synthetic := by
  have whole : program.instructions.length ≤ program.length := Nat.le_refl _
  rw [lowerOnce_eq, origins_passAfter program (Nat.le_refl _), List.take_of_length_le whole]
  rfl

/-- Lowering replaces the synthetic instructions and records them, or it only renames. -/
theorem Consistent.lowerTo_cases {program lowered : Program} (consistent : program.Consistent)
    {degree : Nat} (lowering : program.lowerTo degree = .ok lowered) :
    (degree < program.maxDegree ∧ lowered.origins = program.origins ++ program.synthetic ∧
        ∃ fresh, program.LowersTo lowered fresh) ∨
      program.maxDegree ≤ degree ∧ ∃ name, lowered = { program with name } := by
  have bound := consistent.maxDegree_le_one
  unfold lowerTo at lowering
  split at lowering
  · cases lowering
  · obtain rfl := Except.ok.inj lowering
    rcases Nat.lt_or_ge degree program.maxDegree with above | below
    · obtain rfl : degree = 0 := by omega
      have passes : lowerPasses 0 program.maxDegree program = program.lowerOnce 0 := by
        rw [show program.maxDegree = 1 by omega, lowerPasses, if_pos above]
        rfl
      refine Or.inl ⟨above, ?_, program.freshName, ?_⟩
      · rw [passes]
        exact program.origins_lowerOnce
      · rw [passes]
        exact program.lowersTo_lowerOnce.rename _
    · have kept : ∀ count, lowerPasses degree count program = program := by
        intro count
        cases count with
        | zero => rfl
        | succ count => rw [lowerPasses, if_neg (Nat.not_lt.mpr below)]
      rw [kept]
      exact Or.inr ⟨below, _, rfl⟩

/-- The number in a block is the place of its instruction in the record. -/
theorem getElem?_synthetic {program : Program} {position : Nat} {instruction : Instruction}
    (place : program.instructions[position]? = some instruction)
    (replaced : instruction.isBasic = false) :
    program.synthetic[program.expandedBefore position]? = some instruction := by
  obtain ⟨inside, same⟩ := List.getElem?_eq_some_iff.mp place
  have split : program.instructions = program.instructions.take position ++
      instruction :: program.instructions.drop (position + 1) := by
    rw [← same, List.getElem_cons_drop, List.take_append_drop]
  have before : program.expandedBefore position =
      ((program.instructions.take position).filter fun other => !other.isBasic).length :=
    List.countP_eq_length_filter
  have filtered : program.synthetic =
      ((program.instructions.take position).filter fun other => !other.isBasic) ++
        instruction :: (program.instructions.drop (position + 1)).filter fun other =>
          !other.isBasic := by
    rw [synthetic]
    conv_lhs => rw [split]
    simp [replaced]
  rw [filtered, before, List.getElem?_append_right (Nat.le_refl _), Nat.sub_self]
  rfl

theorem parent_of_mem_block {instruction child : Instruction} {fresh : String} {origin : Nat}
    (replaced : instruction.isBasic = false) (member : child ∈ instruction.block fresh origin) :
    child.parent = some origin := by
  rw [Instruction.isBasic_eq] at replaced
  cases op : instruction.op with
  | zero var =>
      rw [instruction.block_of_zero op] at member
      rcases List.mem_pair.mp member with rfl | rfl <;> rfl
  | goto target =>
      rw [instruction.block_of_goto op] at member
      rcases List.mem_pair.mp member with rfl | rfl <;> rfl
  | neutral _ | increase _ | decrease _ | jumpNotZero _ _ => simp [op] at replaced

theorem parent?_eq_some_iff {program : Program} {instruction source : Instruction} :
    program.parent? instruction = some source ↔
      ∃ number, instruction.parent = some number ∧ program.origins[number]? = some source :=
  Option.bind_eq_some_iff

/-- Every number that an instruction holds is one of the record. -/
def Resolves (program : Program) : Prop :=
  ∀ instruction ∈ program.instructions, ∀ number, instruction.parent = some number →
    number < program.origins.length

theorem Resolves.push {program : Program} (resolves : program.Resolves)
    {instruction : Instruction} (orphan : instruction.parent = none) :
    (program.edit (.push instruction)).Resolves := by
  rw [Program.edit, left_push]
  cases pushed : program.pushed instruction with
  | error error => exact resolves
  | ok next =>
      obtain ⟨-, rfl⟩ := pushed_eq_ok_iff.mp pushed
      intro other member number held
      rw [orKeep, instructions_append, List.mem_append, List.mem_singleton] at member
      rcases member with member | rfl
      · exact resolves other member number held
      · rw [orphan] at held
        cases held

theorem Resolves.lower {program : Program} (resolves : program.Resolves)
    (consistent : program.Consistent) (degree : Nat) :
    (program.edit (.lower degree)).Resolves := by
  rw [Program.edit]
  cases lowering : program.lowerTo degree with
  | error error => exact resolves
  | ok lowered =>
      rcases consistent.lowerTo_cases lowering with
        ⟨-, recorded, fresh, lowers⟩ | ⟨-, name, rfl⟩
      · intro child member number held
        obtain ⟨place, found⟩ := List.mem_iff_getElem?.mp member
        obtain ⟨position, instruction, offset, origin, inBlock, -⟩ := lowers.exists_block found
        rw [orKeep, recorded, List.length_append]
        have inside := List.mem_of_getElem? inBlock
        cases basic : instruction.isBasic with
        | true =>
            rw [Instruction.block_of_isBasic basic, List.mem_singleton] at inside
            have earlier := resolves instruction (List.mem_of_getElem? origin) number
              (inside ▸ held)
            omega
        | false =>
            rw [parent_of_mem_block basic inside] at held
            obtain rfl := Option.some.inj held
            have later := (List.getElem?_eq_some_iff.mp (getElem?_synthetic origin basic)).1
            omega
      · exact resolves

end Program

/-! ## Tracing instructions -/

/-- One instruction stands in the expansion of another. -/
def Instruction.Emits (source instruction : Instruction) : Prop :=
  (∃ var, source.op = .zero var ∧
      (instruction.op = .decrease var ∨ ∃ target, instruction.op = .jumpNotZero var target)) ∨
    ∃ target, source.op = .goto target ∧
      ((∃ var, instruction.op = .increase var) ∨ ∃ var, instruction.op = .jumpNotZero var target)

/-- A program, and for each of its instructions the one whose expansion emitted it, if any. -/
structure Traced where
  program : Program
  emitters : List (Option Instruction) := []

namespace Traced

/-- The emitters of the code in the place of an instruction that has an emitter itself. -/
def emittersOf (entry : Instruction × Option Instruction) : List (Option Instruction) :=
  match entry.1.expand {} with
  | some (body, _) => body.map fun _ => some entry.1
  | none => [entry.2]

/-- The emitters after lowering to a degree. -/
def emittersBelow (traced : Traced) (degree : Nat) : List (Option Instruction) :=
  if degree < traced.program.maxDegree then
    (traced.program.instructions.zip traced.emitters).flatMap emittersOf
  else traced.emitters

/-- The program after an edit, traced on.  A copy has the emitter of what it is a copy of. -/
def edit (traced : Traced) : Edit → Traced
  | .push instruction =>
      match traced.program.pushed instruction with
      | .ok next => ⟨next, traced.emitters ++ [none]⟩
      | .error _ => traced
  | .lower degree =>
      match traced.program.lowerTo degree with
      | .ok lowered => ⟨lowered, traced.emittersBelow degree⟩
      | .error _ => traced
  | .rebuild name positions =>
      match Program.ofInstructions name (traced.program.copies positions) with
      | .ok next => ⟨next, positions.filterMap fun position => traced.emitters[position]?⟩
      | .error _ => traced

theorem program_edit (traced : Traced) (edit : Edit) :
    (traced.edit edit).program = traced.program.edit edit := by
  cases edit with
  | push instruction =>
      rw [Traced.edit, Program.edit, Program.left_push]
      cases traced.program.pushed instruction <;> rfl
  | lower degree =>
      rw [Traced.edit, Program.edit]
      cases traced.program.lowerTo degree <;> rfl
  | rebuild name positions =>
      rw [Traced.edit, Program.edit]
      cases Program.ofInstructions name (traced.program.copies positions) <;> rfl

/-- The program after some edits of the empty one, traced. -/
def afterEdits (name : String) (edits : List Edit) : Traced :=
  edits.foldl edit ⟨Program.named name, []⟩

theorem program_foldl_edit (traced : Traced) (edits : List Edit) :
    (edits.foldl edit traced).program = edits.foldl Program.edit traced.program := by
  induction edits generalizing traced with
  | nil => rfl
  | cons first edits ih => rw [List.foldl_cons, ih, program_edit, List.foldl_cons]

/-- Tracing changes nothing about the program. -/
theorem program_afterEdits (name : String) (edits : List Edit) :
    (afterEdits name edits).program = Program.afterEdits name edits :=
  program_foldl_edit _ edits

/-- Something holds of every instruction with its emitter. -/
def Each (traced : Traced) (holds : Instruction → Option Instruction → Prop) : Prop :=
  List.Forall₂ holds traced.program.instructions traced.emitters

/-- Every instruction has the shape of something that its emitter expands to. -/
def EmittersEmit (traced : Traced) : Prop :=
  traced.Each fun instruction emitter => ∀ source, emitter = some source →
    source.Emits instruction

/-- The parent of an instruction, if it has one, is its emitter. -/
def ParentsRight (traced : Traced) : Prop :=
  traced.Each fun instruction emitter => ∀ source,
    traced.program.parent? instruction = some source → emitter = some source

/-- Lowering records an instruction under a number that a basic instruction holds already,
although nothing was recorded under it, and that other instruction was emitted by another one or
by none. -/
def Captures (traced : Traced) (degree : Nat) : Prop :=
  degree < traced.program.maxDegree ∧
    ∃ entry ∈ traced.program.instructions.zip traced.emitters, ∃ number source,
      entry.1.isBasic = true ∧ entry.1.parent = some number ∧
        traced.program.origins[number]? = none ∧
          (traced.program.origins ++ traced.program.synthetic)[number]? = some source ∧
            entry.2 ≠ some source

/-! ## Lowering and emitters -/

theorem emittersOf_of_isBasic {instruction : Instruction} (basic : instruction.isBasic = true)
    (emitter : Option Instruction) : emittersOf (instruction, emitter) = [emitter] := by
  have kept : instruction.expand {} = none :=
    (instruction.expand_eq_none_iff {}).mpr (eq_of_beq basic)
  rw [emittersOf, kept]

theorem emittersOf_of_synthetic {instruction : Instruction}
    (replaced : instruction.isBasic = false) (emitter : Option Instruction) :
    emittersOf (instruction, emitter) = [some instruction, some instruction] := by
  rw [Instruction.isBasic_eq] at replaced
  unfold emittersOf Instruction.expand
  cases op : instruction.op with
  | zero var => rfl
  | goto target => rfl
  | neutral _ | increase _ | decrease _ | jumpNotZero _ _ => simp [op] at replaced

theorem length_emittersOf (instruction : Instruction) (emitter : Option Instruction) :
    (emittersOf (instruction, emitter)).length = if instruction.isBasic then 1 else 2 := by
  cases basic : instruction.isBasic with
  | true => rw [emittersOf_of_isBasic basic]; rfl
  | false => rw [emittersOf_of_synthetic basic]; rfl

theorem forall₂_append_iff {α β : Type} {related : α → β → Prop} {first second : List α}
    {first' second' : List β} (same : first.length = first'.length) :
    List.Forall₂ related (first ++ second) (first' ++ second') ↔
      List.Forall₂ related first first' ∧ List.Forall₂ related second second' := by
  induction first generalizing first' with
  | nil =>
      obtain rfl := List.eq_nil_of_length_eq_zero same.symm
      simp
  | cons entry first ih =>
      cases first' with
      | nil => cases same
      | cons entry' first' =>
          rw [List.cons_append, List.cons_append, List.forall₂_cons, List.forall₂_cons,
            ih (Nat.succ.inj same), and_assoc]

/-- Two lists of blocks of the same lengths are related when the blocks are. -/
theorem forall₂_flatMap_iff {related : Instruction → Option Instruction → Prop}
    {block : Instruction × Nat → List Instruction} {instructions : List Instruction}
    {emitters : List (Option Instruction)} (start : Nat)
    (long : ∀ entry, (block entry).length = if entry.1.isBasic then 1 else 2)
    (same : instructions.length = emitters.length) :
    List.Forall₂ related ((instructions.zipIdx start).flatMap block)
        ((instructions.zip emitters).flatMap emittersOf) ↔
      ∀ position instruction emitter, instructions[position]? = some instruction →
        emitters[position]? = some emitter →
          List.Forall₂ related (block (instruction, start + position))
            (emittersOf (instruction, emitter)) := by
  induction instructions generalizing emitters start with
  | nil => simp
  | cons first instructions ih =>
      cases emitters with
      | nil => cases same
      | cons emitter emitters =>
          have aligned : (block (first, start)).length = (emittersOf (first, emitter)).length :=
            (long (first, start)).trans (length_emittersOf first emitter).symm
          rw [List.zipIdx_cons, List.zip_cons_cons, List.flatMap_cons, List.flatMap_cons,
            forall₂_append_iff aligned, ih (start + 1) (Nat.succ.inj same)]
          constructor
          · rintro ⟨head, tail⟩ position instruction emitter' place traced
            cases position with
            | zero =>
                obtain rfl := Option.some.inj place
                obtain rfl := Option.some.inj traced
                exact head
            | succ position =>
                rw [Nat.add_comm position 1, ← Nat.add_assoc]
                exact tail position instruction emitter' place traced
          · intro each
            refine ⟨each 0 first emitter rfl rfl, fun position instruction emitter' => ?_⟩
            rw [Nat.add_assoc, Nat.add_comm 1 position]
            exact each (position + 1) instruction emitter'

theorem forall₂_block {related : Instruction → Option Instruction → Prop}
    {instruction : Instruction} (replaced : instruction.isBasic = false) {fresh : String}
    {origin : Nat} (emitter : Option Instruction)
    (emitted : ∀ child ∈ instruction.block fresh origin, related child (some instruction)) :
    List.Forall₂ related (instruction.block fresh origin)
      (emittersOf (instruction, emitter)) := by
  have two : (instruction.block fresh origin).length = 2 := by
    rw [Instruction.length_block, replaced]
    rfl
  obtain ⟨first, second, code⟩ := List.length_eq_two.mp two
  rw [code] at emitted ⊢
  rw [emittersOf_of_synthetic replaced]
  exact .cons (emitted first List.mem_cons_self) (.cons (emitted second (by simp)) .nil)

/-- A relation that holds of every new instruction and what it replaces holds throughout the
lowered code when it holds of the instructions that are kept. -/
theorem forall₂_lowered_iff {program lowered : Program} {fresh : Nat → String}
    (lowers : program.LowersTo lowered fresh) {emitters : List (Option Instruction)}
    (same : program.instructions.length = emitters.length)
    {related : Instruction → Option Instruction → Prop}
    (emitted : ∀ position instruction, program.instructions[position]? = some instruction →
      instruction.isBasic = false →
        ∀ child ∈ program.blockAt fresh (instruction, position),
          related child (some instruction)) :
    List.Forall₂ related lowered.instructions
        ((program.instructions.zip emitters).flatMap emittersOf) ↔
      ∀ (position : Nat) instruction emitter,
        program.instructions[position]? = some instruction →
          emitters[position]? = some emitter → instruction.isBasic = true →
          related instruction emitter := by
  have long : ∀ entry, (program.blockAt fresh entry).length =
      if entry.1.isBasic then 1 else 2 := fun entry => Instruction.length_block ..
  rw [lowers.instructions_eq, forall₂_flatMap_iff 0 long same]
  simp only [Nat.zero_add]
  refine forall₃_congr fun position instruction emitter => forall₂_congr fun place traced => ?_
  cases basic : instruction.isBasic with
  | true =>
      rw [Program.blockAt, Instruction.block_of_isBasic basic, emittersOf_of_isBasic basic]
      simp
  | false =>
      simp only [Bool.false_eq_true, false_implies, iff_true]
      exact forall₂_block basic emitter (emitted position instruction place basic)

/-- What relates two lists relates their entries at every position. -/
theorem forall₂_iff_getElem? {related : Instruction → Option Instruction → Prop}
    {instructions : List Instruction} {emitters : List (Option Instruction)}
    (same : instructions.length = emitters.length) :
    List.Forall₂ related instructions emitters ↔
      ∀ (position : Nat) instruction emitter, instructions[position]? = some instruction →
        emitters[position]? = some emitter → related instruction emitter := by
  rw [List.forall₂_iff_get]
  constructor
  · rintro ⟨-, each⟩ position instruction emitter place traced
    obtain ⟨inside, rfl⟩ := List.getElem?_eq_some_iff.mp place
    obtain ⟨inside', rfl⟩ := List.getElem?_eq_some_iff.mp traced
    exact each position inside inside'
  · intro each
    refine ⟨same, fun position inside inside' => ?_⟩
    exact each position _ _ (List.getElem?_eq_getElem inside) (List.getElem?_eq_getElem inside')

theorem forall₂_copies {related : Instruction → Option Instruction → Prop}
    {instructions : List Instruction} {emitters : List (Option Instruction)}
    (each : List.Forall₂ related instructions emitters) (positions : List Nat) :
    List.Forall₂ related (positions.filterMap fun position => instructions[position]?)
      (positions.filterMap fun position => emitters[position]?) := by
  have same := each.length_eq
  induction positions with
  | nil => exact .nil
  | cons position positions ih =>
      rcases Nat.lt_or_ge position instructions.length with inside | outside
      · have inside' := same ▸ inside
        rw [List.filterMap_cons_some (List.getElem?_eq_getElem inside),
          List.filterMap_cons_some (List.getElem?_eq_getElem inside')]
        exact .cons (each.get inside inside') ih
      · rw [List.filterMap_cons_none (List.getElem?_eq_none outside),
          List.filterMap_cons_none (List.getElem?_eq_none (same ▸ outside))]
        exact ih

/-! ## What edits do to emitters -/

theorem emits_of_mem_block {instruction child : Instruction} {fresh : String} {origin : Nat}
    (replaced : instruction.isBasic = false) (member : child ∈ instruction.block fresh origin) :
    instruction.Emits child := by
  rcases Instruction.mem_block_cases member with ⟨basic, -⟩ | ⟨var, zeroes, code⟩ |
    ⟨target, jumps, code⟩
  · rw [replaced] at basic
    cases basic
  · exact Or.inl ⟨var, zeroes, code.imp id fun condition => ⟨_, condition⟩⟩
  · exact Or.inr ⟨target, jumps, code.imp (fun increment => ⟨_, increment⟩)
      fun condition => ⟨_, condition⟩⟩

/-- Emitters are traced rightly through every edit. -/
theorem EmittersEmit.edit {traced : Traced} (consistent : traced.program.Consistent)
    (emit : traced.EmittersEmit) (edit : Edit) : (traced.edit edit).EmittersEmit := by
  cases edit with
  | push instruction =>
      rw [Traced.edit]
      cases pushed : traced.program.pushed instruction with
      | error error => exact emit
      | ok next =>
          obtain ⟨-, rfl⟩ := Program.pushed_eq_ok_iff.mp pushed
          refine List.rel_append emit (.cons ?_ .nil)
          rintro source ⟨⟩
  | lower degree =>
      rw [Traced.edit]
      cases lowering : traced.program.lowerTo degree with
      | error error => exact emit
      | ok lowered =>
          unfold EmittersEmit Each emittersBelow
          rcases consistent.lowerTo_cases lowering with
            ⟨above, -, fresh, lowers⟩ | ⟨below, name, rfl⟩
          · rw [if_pos above, forall₂_lowered_iff lowers emit.length_eq]
            · intro position instruction emitter place traced' _
              exact (forall₂_iff_getElem? emit.length_eq).mp emit position _ _ place traced'
            · rintro position instruction place replaced child member source ⟨⟩
              exact emits_of_mem_block replaced member
          · rw [if_neg (Nat.not_lt.mpr below)]
            exact emit
  | rebuild name positions =>
      rw [Traced.edit]
      cases built : Program.ofInstructions name (traced.program.copies positions) with
      | error error => exact emit
      | ok next =>
          have whole := Program.foldlM_push_eq_ok built
          unfold EmittersEmit Each
          rw [whole, Program.instructions_foldl_append]
          exact forall₂_copies emit positions

/-! ## What edits do to parents -/

theorem parent?_of_parent_none {program : Program} {instruction : Instruction}
    (orphan : instruction.parent = none) : program.parent? instruction = none := by
  rw [Program.parent?, orphan]
  rfl

/-- Pushing an instruction without a parent keeps the parents right. -/
theorem ParentsRight.push {traced : Traced} (right : traced.ParentsRight)
    {instruction : Instruction} (orphan : instruction.parent = none) :
    (traced.edit (.push instruction)).ParentsRight := by
  rw [Traced.edit]
  cases pushed : traced.program.pushed instruction with
  | error error => exact right
  | ok next =>
      obtain ⟨-, rfl⟩ := Program.pushed_eq_ok_iff.mp pushed
      refine List.rel_append right (.cons ?_ .nil)
      intro source found
      rw [parent?_of_parent_none orphan] at found
      cases found

/-- In a program that is built anew no number finds anything. -/
theorem ParentsRight.rebuild {traced : Traced} (right : traced.ParentsRight) (name : String)
    (positions : List Nat) : (traced.edit (.rebuild name positions)).ParentsRight := by
  rw [Traced.edit]
  cases built : Program.ofInstructions name (traced.program.copies positions) with
  | error error => exact right
  | ok next =>
      have whole := Program.foldlM_push_eq_ok built
      have empty : next.origins = [] := by rw [whole, Program.origins_foldl_append]; rfl
      unfold ParentsRight Each
      have copied := forall₂_copies right positions
      have code : next.instructions = positions.filterMap fun position =>
          traced.program.instructions[position]? := by
        rw [whole, Program.instructions_foldl_append]
        rfl
      rw [code]
      refine copied.imp fun instruction emitter _ source found => ?_
      simp [Program.parent?, empty] at found

/-- Lowering keeps the parents right exactly when it captures no number. -/
theorem ParentsRight.lower_iff {traced : Traced} (consistent : traced.program.Consistent)
    (right : traced.ParentsRight) (degree : Nat) :
    (traced.edit (.lower degree)).ParentsRight ↔ ¬ traced.Captures degree := by
  rw [Traced.edit]
  cases lowering : traced.program.lowerTo degree with
  | error error =>
      have below : ¬ degree < traced.program.maxDegree := by
        intro above
        rw [Program.lowerTo, if_neg (Nat.lt_asymm above)] at lowering
        cases lowering
      exact iff_of_true right fun captures => below captures.1
  | ok lowered =>
      unfold ParentsRight Each emittersBelow
      rcases consistent.lowerTo_cases lowering with
        ⟨above, recorded, fresh, lowers⟩ | ⟨below, name, rfl⟩
      · rw [if_pos above, forall₂_lowered_iff lowers right.length_eq]
        · constructor
          · rintro each ⟨-, ⟨instruction, emitter⟩, member, number, source, basic, held, -, found,
              differs⟩
            obtain ⟨position, pair⟩ := List.mem_iff_getElem?.mp member
            obtain ⟨place, traced'⟩ := List.getElem?_zip_eq_some.mp pair
            refine differs (each position instruction emitter place traced' basic source ?_)
            exact Program.parent?_eq_some_iff.mpr ⟨number, held, recorded ▸ found⟩
          · intro free position instruction emitter place traced' basic source found
            obtain ⟨number, held, found⟩ := Program.parent?_eq_some_iff.mp found
            rw [recorded] at found
            cases earlier : traced.program.origins[number]? with
            | some other =>
                rw [List.getElem?_append_left (List.getElem?_eq_some_iff.mp earlier).1,
                  earlier] at found
                obtain rfl := Option.some.inj found
                exact (forall₂_iff_getElem? right.length_eq).mp right position _ _ place traced'
                  other (Program.parent?_eq_some_iff.mpr ⟨number, held, earlier⟩)
            | none =>
                refine Decidable.byContradiction fun differs => free ⟨above, ?_⟩
                have pair : (traced.program.instructions.zip traced.emitters)[position]? =
                    some (instruction, emitter) := List.getElem?_zip_eq_some.mpr ⟨place, traced'⟩
                exact ⟨(instruction, emitter), List.mem_of_getElem? pair, number, source, basic,
                  held, earlier, found, differs⟩
        · intro position instruction place replaced child member source found
          obtain ⟨number, held, found⟩ := Program.parent?_eq_some_iff.mp found
          rw [Program.parent_of_mem_block replaced member] at held
          obtain rfl := Option.some.inj held
          rw [recorded, List.getElem?_append_right (Nat.le_add_right _ _), Nat.add_sub_cancel_left,
            Program.getElem?_synthetic place replaced] at found
          exact found
      · rw [if_neg (Nat.not_lt.mpr below)]
        exact iff_of_true right fun captures => Nat.not_lt.mpr below captures.1

/-! ## Histories -/

/-- Every instruction that is pushed in a history is new: it has no parent. -/
def FreshPushes (edits : List Edit) : Prop :=
  ∀ instruction, .push instruction ∈ edits → instruction.parent = none

theorem EmittersEmit.foldl_edit {traced : Traced} (wellFormed : traced.program.WellFormed)
    (emit : traced.EmittersEmit) (edits : List Edit) :
    (edits.foldl Traced.edit traced).EmittersEmit := by
  induction edits generalizing traced with
  | nil => exact emit
  | cons first edits ih =>
      exact ih (program_edit traced first ▸ wellFormed.edit first)
        (emit.edit wellFormed.toConsistent first)

/-- The parents stay right through a history exactly when none of its lowerings captures a
number. -/
theorem ParentsRight.foldl_edit_iff {traced : Traced} (wellFormed : traced.program.WellFormed)
    (right : traced.ParentsRight) {edits : List Edit} (fresh : FreshPushes edits) :
    (∀ before, before <+: edits → (before.foldl Traced.edit traced).ParentsRight) ↔
      ∀ before degree, before ++ [.lower degree] <+: edits →
        ¬ (before.foldl Traced.edit traced).Captures degree := by
  have consistent : ∀ before : List Edit,
      (before.foldl Traced.edit traced).program.Consistent := by
    intro before
    rw [program_foldl_edit]
    exact (wellFormed.foldl_edit before).toConsistent
  constructor
  · intro throughout before degree within
    have here := throughout before ((List.prefix_append _ _).trans within)
    have behind := throughout _ within
    rw [List.foldl_append] at behind
    exact (here.lower_iff (consistent before) degree).mp behind
  · intro free before
    induction before using List.reverseRecOn with
    | nil => exact fun _ => right
    | append_singleton before last ih =>
        intro within
        have here := ih ((List.prefix_append _ _).trans within)
        rw [List.foldl_append]
        cases last with
        | push instruction =>
            exact here.push (fresh instruction (within.subset (by simp)))
        | lower degree =>
            exact (here.lower_iff (consistent before) degree).mpr (free before degree within)
        | rebuild name positions => exact here.rebuild name positions

/-! ## Numbers that find something -/

theorem not_captures_of_resolves {traced : Traced} (resolves : traced.program.Resolves)
    (degree : Nat) : ¬ traced.Captures degree := by
  rintro ⟨-, entry, member, number, source, -, held, absent, -⟩
  have inside := resolves entry.1 (List.of_mem_zip member).1 number held
  exact absurd (List.getElem?_eq_none_iff.mp absent) (Nat.not_le.mpr inside)

/-- Without building anew every number finds something. -/
theorem resolves_foldl_edit {program : Program} (wellFormed : program.WellFormed)
    (resolves : program.Resolves) {edits : List Edit} (fresh : FreshPushes edits)
    (kept : ∀ name positions, .rebuild name positions ∉ edits) :
    (edits.foldl Program.edit program).Resolves := by
  induction edits generalizing program with
  | nil => exact resolves
  | cons first edits ih =>
      refine ih (wellFormed.edit first) ?_
        (fun instruction member => fresh instruction (List.mem_cons_of_mem _ member))
        fun name positions member => kept name positions (List.mem_cons_of_mem _ member)
      cases first with
      | push instruction => exact resolves.push (fresh instruction List.mem_cons_self)
      | lower degree => exact resolves.lower wellFormed.toConsistent degree
      | rebuild name positions => exact absurd List.mem_cons_self (kept name positions)

/-- Provenance along a history. -/
structure ProvenanceExact (name : String) (edits : List Edit) : Prop where
  /-- Tracing follows the program. -/
  program_eq : (afterEdits name edits).program = Program.afterEdits name edits
  /-- An emitter is a synthetic instruction that expands to what it is said to have emitted. -/
  emitters_emit : (afterEdits name edits).EmittersEmit
  /-- The parents have been right all the time exactly when no lowering has captured a number. -/
  right_iff :
    (∀ before, before <+: edits → (afterEdits name before).ParentsRight) ↔
      ∀ before degree, before ++ [.lower degree] <+: edits →
        ¬ (afterEdits name before).Captures degree
  /-- Pushing and lowering alone leave no number that could be captured. -/
  right_of_kept : (∀ other positions, .rebuild other positions ∉ edits) →
    (afterEdits name edits).ParentsRight

/-- The parent of an instruction is the one that emitted it, unless a lowering records another
instruction under a number that was left over from before the program was built anew. -/
theorem parents_right_unless_captured {name : String} {edits : List Edit}
    (fresh : FreshPushes edits) : ProvenanceExact name edits := by
  have wellFormed := Program.wellFormed_named name
  have right : ParentsRight ⟨Program.named name, []⟩ := .nil
  have right_iff := right.foldl_edit_iff wellFormed fresh
  constructor
  case program_eq => exact program_afterEdits name edits
  case emitters_emit =>
    exact @EmittersEmit.foldl_edit ⟨Program.named name, []⟩ wellFormed .nil edits
  case right_iff => exact right_iff
  case right_of_kept =>
    intro kept
    refine right_iff.mpr (fun before degree within => ?_) edits (List.prefix_refl _)
    have part : before <+: edits := (List.prefix_append _ _).trans within
    refine not_captures_of_resolves ?_ degree
    rw [program_foldl_edit]
    exact resolves_foldl_edit wellFormed (fun _ => nofun)
      (fun instruction member => fresh instruction (part.subset member))
      fun other positions member => kept other positions (part.subset member)

/-- Builds anew from the code of a jump, whose number the second lowering does not reach. -/
def rebuiltEdits : List Edit :=
  [ .push { op := .zero "y" }, .push { op := .goto "END" }, .lower 0, .rebuild "again" [2, 3],
    .push { op := .zero "x1", label := some "END" }, .lower 0 ]

theorem parents_right_unless_captured_rebuilt :
    FreshPushes rebuiltEdits ∧ ProvenanceExact "program" rebuiltEdits := by
  have fresh : FreshPushes rebuiltEdits := by
    intro instruction member
    simp only [rebuiltEdits, List.mem_cons, reduceCtorEq, Edit.push.injEq, false_or, or_false,
      List.not_mem_nil] at member
    rcases member with rfl | rfl | rfl <;> rfl
  exact ⟨fresh, parents_right_unless_captured fresh⟩

/-- Builds anew from the code of a loop, whose number the second lowering gives to a jump. -/
def capturingEdits : List Edit :=
  [ .push { op := .zero "y" }, .lower 0, .rebuild "again" [0, 1],
    .push { op := .goto "END" }, .lower 0 ]

/-- A decrement that a loop has been expanded to has a jump for its parent. -/
theorem captured_parent_wrong :
    FreshPushes capturingEdits ∧ ∃ instruction source,
      (Program.afterEdits "program" capturingEdits).instructions[0]? = some instruction ∧
        instruction.op = .decrease "y" ∧
          (Program.afterEdits "program" capturingEdits).parent? instruction = some source ∧
            source.op = .goto "END" ∧ ¬ source.Emits instruction ∧
              (afterEdits "program" capturingEdits).emitters[0]? =
                some (some { op := .zero "y" }) := by
  refine ⟨?_, { op := .decrease "y", label := some "L1", parent := some 0 },
    { op := .goto "END" }, by decide, rfl, by decide, rfl, ?_, by decide⟩
  · intro instruction member
    simp only [capturingEdits, List.mem_cons, reduceCtorEq, Edit.push.injEq, false_or, or_false,
      List.not_mem_nil] at member
    rcases member with rfl | rfl <;> rfl
  · rintro (⟨var, zeroes, -⟩ | ⟨target, -, ⟨var, increases⟩ | ⟨var, jumps⟩⟩)
    · cases zeroes
    · cases increases
    · cases jumps

end Traced

end RegisterMachine
