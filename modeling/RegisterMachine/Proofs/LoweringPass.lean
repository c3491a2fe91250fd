import RegisterMachine.Proofs.Layout

/-!
# The lowering pass

A pass goes through the instructions once and appends one block for each of them.
The state of the pass after some instructions says which names the next block may
introduce.  One pass is enough: what it leaves is basic, and what it leaves is the
layout of the program for the names that the pass handed out.
-/

namespace RegisterMachine

theorem NameSet.eq_of_contains_eq {first second : NameSet}
    (same : ∀ name, first.contains name = second.contains name) : first = second := by
  refine NameTable.eq_of_get?_eq fun name => ?_
  have found := same name
  unfold NameTable.contains at found
  cases one : first.get? name <;> cases other : second.get? name <;> simp_all

theorem startsWith_numbered (letter other : Char) (number : Nat) :
    startsWith letter (numbered other number) = (other == letter) := by
  simp [startsWith, numbered]

namespace NameSupply

/-- The name that a supply has ready for the replacement of an instruction. -/
def nameFor (supply : NameSupply) (instruction : Instruction) : String :=
  match instruction.op with
  | .goto _ => supply.freshWork.1
  | .neutral _ | .increase _ | .decrease _ | .jumpNotZero _ _ | .zero _ => supply.freshLabel.1

theorem contains_nameFor (supply : NameSupply) (instruction : Instruction) :
    supply.taken.contains (supply.nameFor instruction) = false := by
  unfold nameFor
  cases instruction.op with
  | goto target => exact supply.contains_freshWork
  | neutral _ | increase _ | decrease _ | jumpNotZero _ _ | zero _ =>
      exact supply.contains_freshLabel

end NameSupply

namespace Instruction

theorem degree_eq (instruction : Instruction) :
    instruction.degree = if instruction.isBasic then 0 else 1 := by
  unfold degree Op.degree isBasic Op.family
  cases instruction.op <;> rfl

theorem needsName_of_isBasic {instruction : Instruction} (basic : instruction.isBasic = true) :
    instruction.needsName = false := by
  rw [isBasic_eq] at basic
  unfold needsName
  cases op : instruction.op <;> simp_all

theorem needsName_of_goto {instruction : Instruction} {target : String}
    (jumps : instruction.op = .goto target) : instruction.needsName = true := by
  simp [needsName, jumps]

/-- The instructions of a block work on the variable of the instruction that it stands for, or
on the name of a jump. -/
theorem var?_of_mem_block {instruction child : Instruction} {fresh : String} {origin : Nat}
    (member : child ∈ instruction.block fresh origin) :
    child.var? = instruction.var? ∨
      ∃ target, instruction.op = .goto target ∧ child.var? = some fresh := by
  rcases mem_block_cases member with ⟨-, rfl⟩ | ⟨var, zeroes, code⟩ | ⟨target, jumps, code⟩
  · exact Or.inl rfl
  · rcases code with same | same <;> exact Or.inl (by rw [var?, var?, same, zeroes]; rfl)
  · rcases code with same | same <;> exact Or.inr ⟨target, jumps, by rw [var?, same]; rfl⟩

/-- A synthetic instruction expands to its block, for which the supply gives away one name. -/
theorem expand_spec {instruction : Instruction} (synthetic : instruction.isBasic = false)
    (supply : NameSupply) :
    ∃ body rest, instruction.expand supply = some (body, rest) ∧
      (∀ origin, body.map (fun child => { child with parent := some origin }) =
        instruction.block (supply.nameFor instruction) origin) ∧
      ∀ name, rest.taken.contains name =
        (instruction.needsName && name == supply.nameFor instruction ||
          supply.taken.contains name) := by
  rw [isBasic_eq] at synthetic
  unfold expand block needsName NameSupply.nameFor
  cases op : instruction.op with
  | zero var =>
      cases carried : instruction.label with
      | some label => exact ⟨_, _, rfl, fun origin => rfl, fun name => by simp⟩
      | none =>
          exact ⟨_, _, rfl, fun origin => rfl, fun name => by
            simp [NameSupply.freshLabel, NameSupply.reserve]⟩
  | goto target =>
      exact ⟨_, _, rfl, fun origin => rfl, fun name => by
        simp [NameSupply.freshWork, NameSupply.reserve]⟩
  | neutral _ | increase _ | decrease _ | jumpNotZero _ _ => simp [op] at synthetic

end Instruction

namespace Program

theorem origins_foldl_append (program : Program) (more : List Instruction) :
    (more.foldl append program).origins = program.origins := by
  induction more generalizing program with
  | nil => rfl
  | cons instruction more ih => rw [List.foldl_cons, ih, origins_append]

/-- Replacing an instruction appends its replacement, marked with the number of the origin. -/
theorem appendExpansion_eq (program : Program) (replaced : Instruction) (body : List Instruction) :
    program.appendExpansion replaced body =
      (body.map fun child => { child with parent := some program.origins.length }).foldl append
        (program.recordOrigin replaced) := by
  rw [appendExpansion, List.foldl_map]

namespace Pass

theorem step_of_isBasic {instruction : Instruction} (basic : instruction.isBasic = true)
    (pass : Pass) : pass.step 0 instruction = ⟨pass.supply, pass.lowered.append instruction⟩ := by
  have kept : ¬ 0 < instruction.degree := by rw [Instruction.degree_eq, basic]; decide
  simp [step, kept]

theorem step_of_expand {pass : Pass} {instruction : Instruction} {body : List Instruction}
    {rest : NameSupply} (synthetic : instruction.isBasic = false)
    (expanded : instruction.expand pass.supply = some (body, rest)) :
    pass.step 0 instruction = ⟨rest, pass.lowered.appendExpansion instruction body⟩ := by
  have replaced : 0 < instruction.degree := by rw [Instruction.degree_eq, synthetic]; decide
  simp [step, replaced, expanded]

/-- After an instruction the supply has given away the name of its block and nothing else. -/
theorem taken_step (pass : Pass) (instruction : Instruction) (name : String) :
    (pass.step 0 instruction).supply.taken.contains name =
      (instruction.needsName && name == pass.supply.nameFor instruction ||
        pass.supply.taken.contains name) := by
  cases basic : instruction.isBasic with
  | true => simp [step_of_isBasic basic, Instruction.needsName_of_isBasic basic]
  | false =>
      obtain ⟨body, rest, expanded, -, taken⟩ := Instruction.expand_spec basic pass.supply
      rw [step_of_expand basic expanded]
      exact taken name

/-- The block of an instruction is what a pass appends for it. -/
theorem lowered_step (pass : Pass) (instruction : Instruction) :
    (pass.step 0 instruction).lowered =
      (instruction.block (pass.supply.nameFor instruction) pass.lowered.origins.length).foldl
        append (if instruction.isBasic then pass.lowered
          else pass.lowered.recordOrigin instruction) := by
  cases basic : instruction.isBasic with
  | true =>
      rw [step_of_isBasic basic, Instruction.block_of_isBasic basic]
      rfl
  | false =>
      obtain ⟨body, rest, expanded, marked, -⟩ := Instruction.expand_spec basic pass.supply
      rw [step_of_expand basic expanded, ← marked]
      exact appendExpansion_eq pass.lowered instruction body

theorem instructions_step (pass : Pass) (instruction : Instruction) :
    (pass.step 0 instruction).lowered.instructions = pass.lowered.instructions ++
      instruction.block (pass.supply.nameFor instruction) pass.lowered.origins.length := by
  rw [lowered_step, instructions_foldl_append]
  split <;> rfl

theorem origins_step (pass : Pass) (instruction : Instruction) :
    (pass.step 0 instruction).lowered.origins =
      pass.lowered.origins ++ if instruction.isBasic then [] else [instruction] := by
  rw [lowered_step, origins_foldl_append]
  split
  · exact (List.append_nil _).symm
  · rfl

theorem consistent_step {pass : Pass} (consistent : pass.lowered.Consistent)
    (instruction : Instruction) : (pass.step 0 instruction).lowered.Consistent := by
  rw [lowered_step]
  refine Consistent.foldl_append ?_ _
  split
  · exact consistent
  · exact consistent.congr rfl rfl rfl rfl

end Pass

/-! ## A whole pass -/

/-- The pass after the first `count` instructions. -/
def passAfter (program : Program) (count : Nat) : Pass :=
  (program.instructions.take count).foldl (Pass.step 0)
    ⟨NameSupply.forProgram program, program.restart⟩

/-- The name that the pass has ready when it comes to a position. -/
def freshName (program : Program) (position : Nat) : String :=
  match program.instructions[position]? with
  | some instruction => (program.passAfter position).supply.nameFor instruction
  | none => ""

theorem freshName_eq {program : Program} {position : Nat} {instruction : Instruction}
    (place : program.instructions[position]? = some instruction) :
    program.freshName position = (program.passAfter position).supply.nameFor instruction := by
  simp [freshName, place]

theorem passAfter_succ {program : Program} {position : Nat} {instruction : Instruction}
    (place : program.instructions[position]? = some instruction) :
    program.passAfter (position + 1) = (program.passAfter position).step 0 instruction := by
  simp [passAfter, List.take_add_one, place]

theorem lowerOnce_eq (program : Program) :
    program.lowerOnce 0 = (program.passAfter program.length).lowered := by
  have whole : program.instructions.length ≤ program.length := Nat.le_refl _
  rw [lowerOnce, passAfter, List.take_of_length_le whole]

theorem consistent_passAfter (program : Program) {count : Nat} (short : count ≤ program.length) :
    (program.passAfter count).lowered.Consistent := by
  induction count with
  | zero => exact program.consistent_restart
  | succ count ih =>
      rw [passAfter_succ (List.getElem?_eq_getElem short)]
      exact Pass.consistent_step (ih (Nat.le_of_succ_le short)) _

theorem length_origins_passAfter (program : Program) {count : Nat}
    (short : count ≤ program.length) :
    (program.passAfter count).lowered.origins.length =
      program.origins.length + program.expandedBefore count := by
  induction count with
  | zero => simp [passAfter, restart, expandedBefore]
  | succ count ih =>
      have place := List.getElem?_eq_getElem (show count < program.instructions.length from short)
      rw [passAfter_succ place, Pass.origins_step, List.length_append,
        ih (Nat.le_of_succ_le short), expandedBefore_succ place, Nat.add_assoc]
      split <;> rfl

/-- What a pass has emitted so far is the layout of what it has read. -/
theorem instructions_passAfter (program : Program) {count : Nat} (short : count ≤ program.length) :
    (program.passAfter count).lowered.instructions =
      program.layout program.freshName count := by
  induction count with
  | zero => simp [passAfter, restart, layout]
  | succ count ih =>
      have place := List.getElem?_eq_getElem (show count < program.instructions.length from short)
      have earlier := Nat.le_of_succ_le short
      rw [passAfter_succ place, Pass.instructions_step, ih earlier, layout_succ place, blockAt,
        length_origins_passAfter program earlier, freshName_eq place]

theorem taken_passAfter_mono {program : Program} {first second : Nat} {name : String}
    (le : first ≤ second) (taken : (program.passAfter first).supply.taken.contains name = true) :
    (program.passAfter second).supply.taken.contains name = true := by
  induction le with
  | refl => exact taken
  | @step second _ ih =>
      cases place : program.instructions[second]? with
      | some instruction => rw [passAfter_succ place, Pass.taken_step, ih, Bool.or_true]
      | none =>
          have same : program.passAfter (second + 1) = program.passAfter second := by
            simp [passAfter, List.take_add_one, place]
          rw [same]
          exact ih

theorem taken_of_contains_names {program : Program} {name : String}
    (mentioned : program.names.contains name = true) (count : Nat) :
    (program.passAfter count).supply.taken.contains name = true :=
  taken_passAfter_mono (Nat.zero_le count) mentioned

/-- The name of a block is taken from the block on. -/
theorem taken_freshName {program : Program} {position count : Nat} {instruction : Instruction}
    (place : program.instructions[position]? = some instruction)
    (needs : instruction.needsName = true) (behind : position < count) :
    (program.passAfter count).supply.taken.contains (program.freshName position) = true := by
  refine taken_passAfter_mono (Nat.succ_le_of_lt behind) ?_
  rw [Nat.succ_eq_add_one, passAfter_succ place, Pass.taken_step, needs, freshName_eq place]
  simp

theorem not_taken_freshName {program : Program} {position : Nat} {instruction : Instruction}
    (place : program.instructions[position]? = some instruction) :
    (program.passAfter position).supply.taken.contains (program.freshName position) = false := by
  rw [freshName_eq place]
  exact NameSupply.contains_nameFor _ instruction

theorem freshName_ne_of_lt {program : Program} {first second : Nat} {one other : Instruction}
    (atFirst : program.instructions[first]? = some one)
    (atSecond : program.instructions[second]? = some other)
    (needs : one.needsName = true) (before : first < second) :
    program.freshName first ≠ program.freshName second := by
  intro same
  have taken := taken_freshName atFirst needs before
  rw [same, not_taken_freshName atSecond] at taken
  cases taken

/-- A pass down to basic code lays the program out. -/
theorem lowersTo_lowerOnce (program : Program) :
    program.LowersTo (program.lowerOnce 0) program.freshName where
  instructions_eq := by
    rw [lowerOnce_eq, instructions_passAfter program (Nat.le_refl _),
      layout_of_length_le (Nat.le_refl _)]
  consistent := by
    rw [lowerOnce_eq]
    exact program.consistent_passAfter (Nat.le_refl _)
  fresh_absent position instruction place needs := by
    cases mentioned : program.names.contains (program.freshName position) with
    | false => rfl
    | true =>
        have taken := taken_of_contains_names mentioned position
        rw [not_taken_freshName place] at taken
        cases taken
  work_numbered position instruction target place jumps := by
    rw [freshName_eq place, NameSupply.nameFor, jumps]
    exact ⟨_, rfl⟩
  fresh_ne first second one other atFirst atSecond needs needs' differ := by
    rcases Nat.lt_or_gt_of_ne differ with before | behind
    · exact freshName_ne_of_lt atFirst atSecond needs before
    · exact (freshName_ne_of_lt atSecond atFirst needs' behind).symm

/-- Basic code is its own layout. -/
theorem lowersTo_self {program : Program} (consistent : program.Consistent)
    (basic : ∀ instruction ∈ program.instructions, instruction.isBasic = true)
    (fresh : Nat → String) : program.LowersTo program fresh where
  instructions_eq := by
    have blocks : ∀ entry ∈ program.instructions.zipIdx,
        program.blockAt fresh entry = [entry.1] := by
      intro entry member
      exact Instruction.block_of_isBasic (basic _ (List.fst_mem_of_mem_zipIdx member)) _ _
    rw [List.flatMap_def, List.map_congr_left blocks, ← List.flatMap_def, ← List.map_eq_flatMap,
      List.zipIdx_map_fst]
  consistent := consistent
  fresh_absent position instruction place needs := by
    rw [Instruction.needsName_of_isBasic (basic _ (List.mem_of_getElem? place))] at needs
    cases needs
  work_numbered position instruction target place jumps := by
    have kept := basic _ (List.mem_of_getElem? place)
    rw [Instruction.isBasic_eq, jumps] at kept
    cases kept
  fresh_ne first second one other atFirst atSecond needs := by
    rw [Instruction.needsName_of_isBasic (basic _ (List.mem_of_getElem? atFirst))] at needs
    cases needs

theorem LowersTo.rename {program lowered : Program} {fresh : Nat → String}
    (lowers : program.LowersTo lowered fresh) (name : String) :
    program.LowersTo { lowered with name } fresh where
  instructions_eq := lowers.instructions_eq
  consistent := lowers.consistent.congr rfl rfl rfl rfl
  fresh_absent := lowers.fresh_absent
  work_numbered := lowers.work_numbered
  fresh_ne := lowers.fresh_ne

theorem Consistent.maxDegree_le_one {program : Program} (consistent : program.Consistent) :
    program.maxDegree ≤ 1 :=
  consistent.maxDegree_le_iff.mpr fun _ _ => Family.degree_le_one _

theorem Consistent.maxDegree_eq_zero_iff {program : Program} (consistent : program.Consistent) :
    program.maxDegree = 0 ↔ ∀ instruction ∈ program.instructions, instruction.isBasic = true := by
  rw [← Nat.le_zero, consistent.maxDegree_le_iff]
  refine forall_congr' fun instruction => imp_congr_right fun _ => ?_
  rw [Instruction.degree_eq]
  cases instruction.isBasic <;> decide

/-- Lowering to basic code succeeds and lays the program out. -/
theorem exists_lowersTo {program : Program} (consistent : program.Consistent) :
    ∃ lowered fresh, program.lowerTo 0 = .ok lowered ∧ program.LowersTo lowered fresh := by
  have bound := consistent.maxDegree_le_one
  unfold lowerTo
  cases degree : program.maxDegree with
  | zero =>
      have basic := consistent.maxDegree_eq_zero_iff.mp degree
      exact ⟨_, fun _ => "", rfl, (lowersTo_self consistent basic _).rename _⟩
  | succ rest =>
      have one : rest = 0 := by omega
      subst one
      have passes : lowerPasses 0 1 program = program.lowerOnce 0 := by
        simp [lowerPasses, degree]
      rw [if_neg (Nat.not_lt_zero _), passes]
      exact ⟨_, program.freshName, rfl, program.lowersTo_lowerOnce.rename _⟩

/-- A program that is lowered to any degree it allows is laid out or only renamed. -/
theorem lowersTo_or_rename {program lowered : Program} (consistent : program.Consistent)
    {degree : Nat} (lowering : program.lowerTo degree = .ok lowered) :
    (∃ fresh, program.LowersTo lowered fresh) ∨ ∃ name, lowered = { program with name } := by
  cases degree with
  | zero =>
      obtain ⟨result, fresh, lowering', lowers⟩ := exists_lowersTo consistent
      rw [lowering] at lowering'
      cases lowering'
      exact Or.inl ⟨fresh, lowers⟩
  | succ degree =>
      have bound := consistent.maxDegree_le_one
      unfold lowerTo at lowering
      split at lowering
      · cases lowering
      · have kept : ∀ count, lowerPasses (degree + 1) count program = program := by
          intro count
          cases count with
          | zero => rfl
          | succ count => rw [lowerPasses, if_neg (by omega)]
        rw [kept] at lowering
        cases lowering
        exact Or.inr ⟨_, rfl⟩

/-- Lowering to any degree keeps a program well-formed. -/
theorem WellFormed.lowerTo {program lowered : Program} (wellFormed : program.WellFormed)
    {degree : Nat} (lowering : program.lowerTo degree = .ok lowered) : lowered.WellFormed := by
  rcases lowersTo_or_rename wellFormed.toConsistent lowering with ⟨fresh, lowers⟩ | ⟨name, rfl⟩
  · exact lowers.wellFormed wellFormed
  · exact wellFormed.congr rfl rfl rfl rfl

/-! ## The shape of lowered code -/

theorem blockStart_lt (program : Program) {first second : Nat} (before : first < second) :
    program.blockStart first < program.blockStart second := by
  have fewer : program.expandedBefore first ≤ program.expandedBefore second :=
    List.Sublist.countP_le (List.take_sublist_take_left (Nat.le_of_lt before))
  unfold blockStart
  omega

namespace LowersTo

variable {program lowered : Program} {fresh : Nat → String}
  (lowers : program.LowersTo lowered fresh)
include lowers

theorem isBasic :
    ∀ instruction ∈ lowered.instructions, instruction.isBasic = true := by
  intro child member
  obtain ⟨place, found⟩ := List.mem_iff_getElem?.mp member
  obtain ⟨position, instruction, offset, -, inBlock, -⟩ := lowers.exists_block found
  exact Instruction.isBasic_of_mem_block (List.mem_of_getElem? inBlock)

/-- Lowered code works on the variables of the program and on the work variables of its jumps. -/
theorem contains_inputs (consistent : program.Consistent) (var : String) :
    lowered.inputs.contains var = program.inputs.contains var := by
  rw [lowers.consistent.inputs_eq, consistent.inputs_eq]
  cases input : startsWith inputLetter var with
  | false => rfl
  | true =>
      rw [Bool.true_and, Bool.true_and, Bool.eq_iff_iff, List.any_eq_true, List.any_eq_true]
      simp only [beq_iff_eq]
      constructor
      · rintro ⟨child, member, operand⟩
        obtain ⟨place, found⟩ := List.mem_iff_getElem?.mp member
        obtain ⟨position, instruction, offset, origin, inBlock, -⟩ := lowers.exists_block found
        rcases Instruction.var?_of_mem_block (List.mem_of_getElem? inBlock) with
          own | ⟨target, jumps, work⟩
        · exact ⟨instruction, List.mem_of_getElem? origin, own ▸ operand⟩
        · obtain ⟨number, name⟩ := lowers.work_numbered position instruction target origin jumps
          rw [operand, Option.some.injEq] at work
          rw [work, name, startsWith_numbered] at input
          cases input
      · rintro ⟨instruction, member, operand⟩
        obtain ⟨position, origin⟩ := List.mem_iff_getElem?.mp member
        obtain ⟨child, first, -⟩ := instruction.exists_first_block (fresh position)
          (program.origins.length + program.expandedBefore position)
        refine ⟨child, List.mem_of_getElem? ((lowers.getElem?_start origin).trans first), ?_⟩
        rcases Instruction.var?_of_mem_block (List.mem_of_getElem? first) with
          own | ⟨target, jumps, -⟩
        · exact own.trans operand
        · simp [Instruction.var?, Op.var?, jumps] at operand

/-- The work variable of a jump is used in the block of the jump and nowhere else. -/
theorem work_own {position place : Nat} {instruction child : Instruction} {target : String}
    (origin : program.instructions[position]? = some instruction)
    (jumps : instruction.op = .goto target)
    (found : lowered.instructions[place]? = some child)
    (operand : child.var? = some (fresh position)) :
    place = program.blockStart position ∨ place = program.blockStart position + 1 := by
  have needs := Instruction.needsName_of_goto jumps
  have absent := lowers.fresh_absent position instruction origin needs
  obtain ⟨other, holder, offset, atOther, inBlock, rfl⟩ := lowers.exists_block found
  rcases Instruction.var?_of_mem_block (List.mem_of_getElem? inBlock) with
    own | ⟨target', jumps', work⟩
  · have mentioned := contains_names_of_var atOther (own.symm.trans operand)
    rw [absent] at mentioned
    cases mentioned
  · have same : position = other := by
      refine Decidable.byContradiction fun differ => ?_
      have needs' := Instruction.needsName_of_goto jumps'
      rw [operand, Option.some.injEq] at work
      exact lowers.fresh_ne position other instruction holder origin atOther needs needs' differ
        work
    subst same
    have short := (List.getElem?_eq_some_iff.mp inBlock).1
    rw [Instruction.length_block] at short
    split at short <;> omega

end LowersTo

/-- Lowered code in full: its blocks, its labels and its variables. -/
structure LoweredShape (program lowered : Program) (fresh : Nat → String) : Prop where
  /-- There is one block for each instruction, in order. -/
  blocks : lowered.instructions = program.instructions.zipIdx.flatMap (program.blockAt fresh)
  /-- A label stays on its instruction and so moves to the start of a block. -/
  label_moves : ∀ label position, program.labels.get? label = some position →
    lowered.labels.get? label = some (program.blockStart position)
  /-- A loop without a label gets a new one, which is bound to its decrement. -/
  label_of_loop : ∀ position instruction var,
    program.instructions[position]? = some instruction → instruction.op = .zero var →
      instruction.label = none →
        program.names.contains (fresh position) = false ∧
          lowered.labels.get? (fresh position) = some (program.blockStart position) ∧
            ∃ child, lowered.instructions[program.blockStart position]? = some child ∧
              child.op = .decrease var ∧ child.label = some (fresh position)
  /-- There are no other labels. -/
  label_cases : ∀ label place, lowered.labels.get? label = some place →
    (∃ position, program.labels.get? label = some position ∧
        place = program.blockStart position) ∨
      ∃ position instruction var, program.instructions[position]? = some instruction ∧
        instruction.op = .zero var ∧ instruction.label = none ∧ label = fresh position ∧
          place = program.blockStart position
  labels_distinct : (lowered.instructions.filterMap Instruction.label).Nodup
  /-- The tables of the lowered code are those of its instructions. -/
  consistent : lowered.Consistent
  /-- A jump gets a work variable that the program does not have. -/
  work_absent : ∀ position instruction target,
    program.instructions[position]? = some instruction → instruction.op = .goto target →
      program.names.contains (fresh position) = false
  work_distinct : ∀ first second one other target target',
    program.instructions[first]? = some one → program.instructions[second]? = some other →
      one.op = .goto target → other.op = .goto target' → first ≠ second →
        fresh first ≠ fresh second
  /-- No other block uses the work variable of a jump. -/
  work_own : ∀ position instruction target,
    program.instructions[position]? = some instruction → instruction.op = .goto target →
      ∀ place child, lowered.instructions[place]? = some child →
        child.var? = some (fresh position) →
          place = program.blockStart position ∨ place = program.blockStart position + 1
  basic : ∀ instruction ∈ lowered.instructions, instruction.isBasic = true
  maxDegree_eq : lowered.maxDegree = 0
  inputs_eq : lowered.inputs = program.inputs

/-- Lowering a well-formed program to basic code ends, and the code has this shape. -/
theorem lowerTo_zero_shape {program : Program} (wellFormed : program.WellFormed) :
    ∃ lowered fresh, program.lowerTo 0 = .ok lowered ∧ LoweredShape program lowered fresh := by
  obtain ⟨lowered, fresh, lowering, lowers⟩ := exists_lowersTo wellFormed.toConsistent
  refine ⟨lowered, fresh, lowering, ?_⟩
  constructor
  case blocks => exact lowers.instructions_eq
  case label_moves =>
    intro label position bound
    exact lowers.get?_of_bound wellFormed bound
  case label_of_loop =>
    intro position instruction var place zeroes unlabelled
    have needs : instruction.needsName = true := by
      simp [Instruction.needsName, zeroes, unlabelled]
    have bound := lowers.get?_loop wellFormed place zeroes
    obtain ⟨decrement, -, first, -, decreases, carried, -⟩ := lowers.loop_code place zeroes
    rw [unlabelled] at bound carried
    exact ⟨lowers.fresh_absent position instruction place needs, bound, decrement, first,
      decreases, carried⟩
  case label_cases =>
    intro label place bound
    obtain ⟨position, instruction, origin, labelled, start⟩ :=
      (lowers.get?_eq_some_iff wellFormed).mp bound
    rcases Instruction.blockLabel_eq_some labelled with own | ⟨unlabelled, ⟨var, zeroes⟩, -, name⟩
    · exact Or.inl ⟨position, wellFormed.get?_eq_some_iff.mpr ⟨instruction, origin, own⟩, start⟩
    · exact Or.inr ⟨position, instruction, var, origin, zeroes, unlabelled, name, start⟩
  case labels_distinct => exact (lowers.wellFormed wellFormed).unique
  case consistent => exact lowers.consistent
  case work_absent =>
    intro position instruction target place jumps
    exact lowers.fresh_absent position instruction place (Instruction.needsName_of_goto jumps)
  case work_distinct =>
    intro first second one other target target' atFirst atSecond jumps jumps' differ
    exact lowers.fresh_ne first second one other atFirst atSecond
      (Instruction.needsName_of_goto jumps) (Instruction.needsName_of_goto jumps') differ
  case work_own =>
    intro position instruction target origin jumps place child found operand
    exact lowers.work_own origin jumps found operand
  case basic => exact lowers.isBasic
  case maxDegree_eq => exact lowers.consistent.maxDegree_eq_zero_iff.mpr lowers.isBasic
  case inputs_eq => exact NameSet.eq_of_contains_eq (lowers.contains_inputs wellFormed.toConsistent)

/-- Copies the input to the output.  It has synthetic instructions with and without labels, and
names of the kind that lowering hands out. -/
def copy : Program :=
  [ { op := .zero "z1" },
    { op := .jumpNotZero "x1" "L2", label := some "L1" },
    { op := .goto "EXIT" },
    { op := .decrease "x1", label := some "L2" },
    { op := .increase "y" },
    { op := .goto "L1" },
    { op := .zero "x1", label := some "EXIT" } ].foldl append (named "copy")

theorem wellFormed_copy : copy.WellFormed :=
  wellFormed_foldl_append "copy" (by decide)

theorem lowerTo_zero_shape_copy :
    copy.WellFormed ∧ 0 < copy.maxDegree ∧
      ∃ lowered fresh, copy.lowerTo 0 = .ok lowered ∧ LoweredShape copy lowered fresh :=
  ⟨wellFormed_copy, by decide, lowerTo_zero_shape wellFormed_copy⟩

end Program

end RegisterMachine
