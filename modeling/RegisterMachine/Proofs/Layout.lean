import RegisterMachine.Lowering.Basic
import RegisterMachine.Proofs.WellFormed

/-!
# The layout of lowered code

Lowering puts a block in the place of every instruction: the instruction itself
when it is basic, two basic instructions when it is synthetic.  A block may need
one name that the program does not have, a label for the head of a loop or a work
variable for a jump.  Given these names the lowered code is the blocks one after
another, so the block of the instruction at a position starts at that position
moved on by the number of synthetic instructions before it.
-/

namespace RegisterMachine

namespace Instruction

/-- Whether the replacement of an instruction introduces a name. -/
def needsName (instruction : Instruction) : Bool :=
  match instruction.op with
  | .zero _ => instruction.label.isNone
  | .goto _ => true
  | .neutral _ | .increase _ | .decrease _ | .jumpNotZero _ _ => false

/-- The code in the place of an instruction, given a name for it and the number of its origin. -/
def block (instruction : Instruction) (fresh : String) (origin : Nat) : List Instruction :=
  match instruction.op with
  | .zero var =>
      let head := instruction.label.getD fresh
      [{ op := .decrease var, label := some head, parent := some origin },
        { op := .jumpNotZero var head, parent := some origin }]
  | .goto target =>
      [{ op := .increase fresh, label := instruction.label, parent := some origin },
        { op := .jumpNotZero fresh target, parent := some origin }]
  | .neutral _ | .increase _ | .decrease _ | .jumpNotZero _ _ => [instruction]

/-- The label at the start of a block; behind the start there is none. -/
def blockLabel (instruction : Instruction) (fresh : String) : Option String :=
  match instruction.op with
  | .zero _ => some (instruction.label.getD fresh)
  | .neutral _ | .increase _ | .decrease _ | .jumpNotZero _ _ | .goto _ => instruction.label

theorem isBasic_eq (instruction : Instruction) :
    instruction.isBasic =
      match instruction.op with
      | .zero _ | .goto _ => false
      | .neutral _ | .increase _ | .decrease _ | .jumpNotZero _ _ => true := by
  unfold isBasic Op.family
  cases instruction.op <;> rfl

theorem block_of_isBasic {instruction : Instruction} (basic : instruction.isBasic = true)
    (fresh : String) (origin : Nat) : instruction.block fresh origin = [instruction] := by
  unfold block
  cases op : instruction.op with
  | zero var => simp [isBasic, Op.family, Op.opcode, Opcode.family, op] at basic
  | goto target => simp [isBasic, Op.family, Op.opcode, Opcode.family, op] at basic
  | neutral _ | increase _ | decrease _ | jumpNotZero _ _ => rfl

theorem block_of_zero (instruction : Instruction) {var : String}
    (zeroes : instruction.op = .zero var) (fresh : String) (origin : Nat) :
    instruction.block fresh origin =
      [{ op := .decrease var, label := some (instruction.label.getD fresh),
         parent := some origin },
        { op := .jumpNotZero var (instruction.label.getD fresh), parent := some origin }] := by
  simp [block, zeroes]

theorem block_of_goto (instruction : Instruction) {target : String}
    (jumps : instruction.op = .goto target) (fresh : String) (origin : Nat) :
    instruction.block fresh origin =
      [{ op := .increase fresh, label := instruction.label, parent := some origin },
        { op := .jumpNotZero fresh target, parent := some origin }] := by
  simp [block, jumps]

theorem length_block (instruction : Instruction) (fresh : String) (origin : Nat) :
    (instruction.block fresh origin).length = if instruction.isBasic then 1 else 2 := by
  unfold block isBasic Op.family
  cases instruction.op <;> rfl

theorem block_ne_nil (instruction : Instruction) (fresh : String) (origin : Nat) :
    0 < (instruction.block fresh origin).length := by
  rw [length_block]
  split <;> decide

/-- What can stand in a block. -/
theorem mem_block_cases {instruction child : Instruction} {fresh : String} {origin : Nat}
    (member : child ∈ instruction.block fresh origin) :
    instruction.isBasic = true ∧ child = instruction ∨
      (∃ var, instruction.op = .zero var ∧
        (child.op = .decrease var ∨
          child.op = .jumpNotZero var (instruction.label.getD fresh))) ∨
        ∃ target, instruction.op = .goto target ∧
          (child.op = .increase fresh ∨ child.op = .jumpNotZero fresh target) := by
  cases op : instruction.op with
  | zero var =>
      simp only [block, op, List.mem_cons, List.not_mem_nil, or_false] at member
      refine Or.inr (Or.inl ⟨var, rfl, ?_⟩)
      rcases member with rfl | rfl
      · exact Or.inl rfl
      · exact Or.inr rfl
  | goto target =>
      simp only [block, op, List.mem_cons, List.not_mem_nil, or_false] at member
      refine Or.inr (Or.inr ⟨target, rfl, ?_⟩)
      rcases member with rfl | rfl
      · exact Or.inl rfl
      · exact Or.inr rfl
  | neutral _ | increase _ | decrease _ | jumpNotZero _ _ =>
      simp only [block, op, List.mem_singleton] at member
      exact Or.inl ⟨by rw [isBasic_eq, op], member⟩

theorem isBasic_of_mem_block {instruction child : Instruction} {fresh : String} {origin : Nat}
    (member : child ∈ instruction.block fresh origin) : child.isBasic = true := by
  rcases mem_block_cases member with ⟨basic, rfl⟩ | ⟨var, -, code⟩ | ⟨target, -, code⟩
  · exact basic
  · rcases code with same | same <;> rw [isBasic_eq, same]
  · rcases code with same | same <;> rw [isBasic_eq, same]

/-- The labels of a block, listed. -/
theorem filterMap_label_block (instruction : Instruction) (fresh : String) (origin : Nat) :
    (instruction.block fresh origin).filterMap label = (instruction.blockLabel fresh).toList := by
  unfold block blockLabel
  cases op : instruction.op with
  | zero var => rfl
  | goto target => cases carried : instruction.label <;> rfl
  | neutral _ | increase _ | decrease _ | jumpNotZero _ _ =>
      cases carried : instruction.label <;> simp [carried]

theorem exists_first_block (instruction : Instruction) (fresh : String) (origin : Nat) :
    ∃ child, (instruction.block fresh origin)[0]? = some child ∧
      child.label = instruction.blockLabel fresh := by
  unfold block blockLabel
  cases instruction.op <;> exact ⟨_, rfl, rfl⟩

/-- Only the first instruction of a block is labelled. -/
theorem label_of_getElem?_block {instruction child : Instruction} {fresh label : String}
    {origin offset : Nat} (found : (instruction.block fresh origin)[offset]? = some child)
    (carried : child.label = some label) :
    offset = 0 ∧ instruction.blockLabel fresh = some label := by
  have member : label ∈ (instruction.blockLabel fresh).toList := by
    rw [← filterMap_label_block]
    exact List.mem_filterMap.mpr ⟨child, List.mem_of_getElem? found, carried⟩
  refine ⟨?_, by simpa using member⟩
  match offset with
  | 0 => rfl
  | offset + 1 =>
      unfold block at found
      cases op : instruction.op with
      | zero var | goto target =>
          simp only [op, List.getElem?_cons_succ] at found
          cases offset with
          | zero =>
              rw [← Option.some.inj found] at carried
              cases carried
          | succ offset => cases found
      | neutral _ | increase _ | decrease _ | jumpNotZero _ _ =>
          simp only [op, List.getElem?_cons_succ] at found
          cases found

theorem blockLabel_of_label {instruction : Instruction} {label : String}
    (carried : instruction.label = some label) (fresh : String) :
    instruction.blockLabel fresh = some label := by
  unfold blockLabel
  cases instruction.op <;> simp [carried]

/-- The label of a block is that of its instruction, or the name of a loop without one. -/
theorem blockLabel_eq_some {instruction : Instruction} {fresh label : String}
    (found : instruction.blockLabel fresh = some label) :
    instruction.label = some label ∨
      instruction.label = none ∧ (∃ var, instruction.op = .zero var) ∧
        instruction.needsName = true ∧ label = fresh := by
  cases carried : instruction.label with
  | some own =>
      rw [blockLabel_of_label carried] at found
      exact Or.inl found
  | none =>
      unfold blockLabel at found
      cases op : instruction.op with
      | zero var =>
          simp only [op, carried, Option.getD_none, Option.some.injEq] at found
          exact Or.inr ⟨rfl, ⟨var, rfl⟩, by simp [needsName, op, carried], found.symm⟩
      | neutral _ | increase _ | decrease _ | jumpNotZero _ _ | goto _ =>
          simp [op, carried] at found

end Instruction

namespace Program

/-- The number of instructions before a position that lowering replaces. -/
def expandedBefore (program : Program) (position : Nat) : Nat :=
  (program.instructions.take position).countP fun instruction => !instruction.isBasic

/-- Where the block of the instruction at a position starts. -/
def blockStart (program : Program) (position : Nat) : Nat :=
  position + program.expandedBefore position

/-- The block of an instruction with its position. -/
def blockAt (program : Program) (fresh : Nat → String) (entry : Instruction × Nat) :
    List Instruction :=
  entry.1.block (fresh entry.2) (program.origins.length + program.expandedBefore entry.2)

/-- The blocks of the first `count` instructions. -/
def layout (program : Program) (fresh : Nat → String) (count : Nat) : List Instruction :=
  (program.instructions.take count).zipIdx.flatMap (program.blockAt fresh)

theorem expandedBefore_succ {program : Program} {position : Nat} {instruction : Instruction}
    (place : program.instructions[position]? = some instruction) :
    program.expandedBefore (position + 1) =
      program.expandedBefore position + if instruction.isBasic then 0 else 1 := by
  unfold expandedBefore
  rw [List.take_add_one, place, List.countP_append]
  cases basic : instruction.isBasic <;> simp [basic]

theorem blockStart_succ {program : Program} {position : Nat} {instruction : Instruction}
    (place : program.instructions[position]? = some instruction) (fresh : String) (origin : Nat) :
    program.blockStart (position + 1) =
      program.blockStart position + (instruction.block fresh origin).length := by
  unfold blockStart
  rw [expandedBefore_succ place, Instruction.length_block]
  split <;> omega

theorem layout_succ {program : Program} {position : Nat} {instruction : Instruction}
    (place : program.instructions[position]? = some instruction) (fresh : Nat → String) :
    program.layout fresh (position + 1) =
      program.layout fresh position ++ program.blockAt fresh (instruction, position) := by
  have bound : position < program.instructions.length :=
    (List.getElem?_eq_some_iff.mp place).1
  unfold layout
  rw [List.take_add_one, place, List.zipIdx_append, List.flatMap_append]
  simp [Nat.min_eq_left (Nat.le_of_lt bound)]

theorem layout_of_length_le {program : Program} {count : Nat}
    (long : program.length ≤ count) (fresh : Nat → String) :
    program.layout fresh count = program.instructions.zipIdx.flatMap (program.blockAt fresh) := by
  unfold layout
  rw [List.take_of_length_le long]

/-- The blocks of the first instructions reach up to the start of the next block. -/
theorem length_layout (program : Program) (fresh : Nat → String) {count : Nat}
    (short : count ≤ program.length) :
    (program.layout fresh count).length = program.blockStart count := by
  induction count with
  | zero => simp [layout, blockStart, expandedBefore]
  | succ count ih =>
      have place : program.instructions[count]? = some program.instructions[count] :=
        List.getElem?_eq_getElem short
      rw [layout_succ place, List.length_append, ih (Nat.le_of_succ_le short),
        blockStart_succ place (fresh count)
          (program.origins.length + program.expandedBefore count)]
      rfl

theorem layout_mono (program : Program) (fresh : Nat → String) {first second : Nat}
    (le : first ≤ second) : program.layout fresh first <+: program.layout fresh second := by
  induction le with
  | refl => exact List.prefix_refl _
  | @step second _ ih =>
      cases place : program.instructions[second]? with
      | some instruction =>
          rw [layout_succ place]
          exact ih.trans (List.prefix_append _ _)
      | none =>
          have long := List.getElem?_eq_none_iff.mp place
          rw [layout_of_length_le (Nat.le_succ_of_le long), ← layout_of_length_le long]
          exact ih

/-- Every position of the blocks lies in one of them. -/
theorem exists_of_lt_length_layout (program : Program) (fresh : Nat → String) {count place : Nat}
    (short : count ≤ program.length) (inside : place < (program.layout fresh count).length) :
    ∃ position instruction offset, program.instructions[position]? = some instruction ∧
      offset < (program.blockAt fresh (instruction, position)).length ∧
        place = program.blockStart position + offset := by
  induction count with
  | zero => simp [layout] at inside
  | succ count ih =>
      have found : program.instructions[count]? = some program.instructions[count] :=
        List.getElem?_eq_getElem short
      have start := program.length_layout fresh (Nat.le_of_succ_le short)
      by_cases earlier : place < (program.layout fresh count).length
      · exact ih (Nat.le_of_succ_le short) earlier
      · rw [layout_succ found, List.length_append] at inside
        exact ⟨count, _, place - program.blockStart count, found, by omega, by omega⟩

/-! ## Lowered programs -/

theorem contains_names_iff {program : Program} {name : String} :
    program.names.contains name = true ↔
      ∃ instruction ∈ program.instructions, name ∈ instruction.names := by
  simp [names, List.mem_flatMap]

theorem contains_names_of_label {program : Program} {position : Nat} {instruction : Instruction}
    {label : String} (place : program.instructions[position]? = some instruction)
    (carried : instruction.label = some label) : program.names.contains label = true :=
  contains_names_iff.mpr
    ⟨instruction, List.mem_of_getElem? place, by simp [Instruction.names, carried]⟩

theorem contains_names_of_var {program : Program} {position : Nat} {instruction : Instruction}
    {var : String} (place : program.instructions[position]? = some instruction)
    (operand : instruction.op.var? = some var) : program.names.contains var = true :=
  contains_names_iff.mpr ⟨instruction, List.mem_of_getElem? place,
    by simp [Instruction.names, Instruction.var?, operand]⟩

theorem contains_names_of_target {program : Program} {position : Nat} {instruction : Instruction}
    {target : String} (place : program.instructions[position]? = some instruction)
    (jump : instruction.op.target? = some target) : program.names.contains target = true :=
  contains_names_iff.mpr ⟨instruction, List.mem_of_getElem? place,
    by simp [Instruction.names, Instruction.target?, jump]⟩

/-- The second program is the first with blocks in place of its instructions.  The names that
the blocks introduce are not in the first program and differ from each other. -/
structure LowersTo (program lowered : Program) (fresh : Nat → String) : Prop where
  instructions_eq :
    lowered.instructions = program.instructions.zipIdx.flatMap (program.blockAt fresh)
  consistent : lowered.Consistent
  fresh_absent : ∀ position instruction, program.instructions[position]? = some instruction →
    instruction.needsName = true → program.names.contains (fresh position) = false
  work_numbered : ∀ position instruction target,
    program.instructions[position]? = some instruction → instruction.op = .goto target →
      ∃ number, fresh position = numbered workLetter number
  fresh_ne : ∀ first second one other, program.instructions[first]? = some one →
    program.instructions[second]? = some other → one.needsName = true →
      other.needsName = true → first ≠ second → fresh first ≠ fresh second

namespace LowersTo

variable {program lowered : Program} {fresh : Nat → String}
  (lowers : program.LowersTo lowered fresh)
include lowers

theorem instructions_eq_layout :
    lowered.instructions = program.layout fresh program.length :=
  lowers.instructions_eq.trans (layout_of_length_le (Nat.le_refl _) fresh).symm

/-- The code found inside a block. -/
theorem getElem?_block {position offset : Nat} {instruction : Instruction}
    (place : program.instructions[position]? = some instruction)
    (inside : offset < (program.blockAt fresh (instruction, position)).length) :
    lowered.instructions[program.blockStart position + offset]? =
      (program.blockAt fresh (instruction, position))[offset]? := by
  have bound : position < program.length := (List.getElem?_eq_some_iff.mp place).1
  have start := program.length_layout fresh (Nat.le_of_lt bound)
  obtain ⟨rest, whole⟩ := program.layout_mono fresh (Nat.succ_le_of_lt bound)
  rw [lowers.instructions_eq_layout, ← whole, layout_succ place, List.append_assoc,
    List.getElem?_append_right (by omega), start, Nat.add_sub_cancel_left,
    List.getElem?_append_left inside]

theorem getElem?_start {position : Nat} {instruction : Instruction}
    (place : program.instructions[position]? = some instruction) :
    lowered.instructions[program.blockStart position]? =
      (program.blockAt fresh (instruction, position))[0]? :=
  lowers.getElem?_block place (Instruction.block_ne_nil _ _ _)

/-- A basic instruction stands at the start of its block as it is. -/
theorem kept_code {position : Nat} {instruction : Instruction}
    (place : program.instructions[position]? = some instruction)
    (basic : instruction.isBasic = true) :
    lowered.instructions[program.blockStart position]? = some instruction := by
  rw [lowers.getElem?_start place, blockAt, Instruction.block_of_isBasic basic]
  rfl

/-- Setting a variable to zero is a loop of two instructions. -/
theorem loop_code {position : Nat} {instruction : Instruction}
    {var : String} (place : program.instructions[position]? = some instruction)
    (zeroes : instruction.op = .zero var) :
    ∃ decrement condition, lowered.instructions[program.blockStart position]? = some decrement ∧
      lowered.instructions[program.blockStart position + 1]? = some condition ∧
        decrement.op = .decrease var ∧
          decrement.label = some (instruction.label.getD (fresh position)) ∧
            condition.op = .jumpNotZero var (instruction.label.getD (fresh position)) := by
  have code := instruction.block_of_zero zeroes (fresh position)
    (program.origins.length + program.expandedBefore position)
  have long : 1 < (program.blockAt fresh (instruction, position)).length := by
    rw [blockAt, code]
    exact Nat.lt_succ_self 1
  have first := lowers.getElem?_start place
  have second := lowers.getElem?_block place long
  rw [blockAt, code] at first second
  exact ⟨_, _, first, second, rfl, rfl, rfl⟩

/-- A jump increases its work variable and then jumps because it is not zero. -/
theorem jump_code {position : Nat} {instruction : Instruction}
    {target : String} (place : program.instructions[position]? = some instruction)
    (jumps : instruction.op = .goto target) :
    ∃ increment condition, lowered.instructions[program.blockStart position]? = some increment ∧
      lowered.instructions[program.blockStart position + 1]? = some condition ∧
        increment.op = .increase (fresh position) ∧
          condition.op = .jumpNotZero (fresh position) target := by
  have code := instruction.block_of_goto jumps (fresh position)
    (program.origins.length + program.expandedBefore position)
  have long : 1 < (program.blockAt fresh (instruction, position)).length := by
    rw [blockAt, code]
    exact Nat.lt_succ_self 1
  have first := lowers.getElem?_start place
  have second := lowers.getElem?_block place long
  rw [blockAt, code] at first second
  exact ⟨_, _, first, second, rfl, rfl⟩

theorem length_eq :
    lowered.instructions.length = program.blockStart program.length := by
  rw [lowers.instructions_eq_layout, program.length_layout fresh (Nat.le_refl _)]

/-- Behind the last instruction there is no block. -/
theorem getElem?_of_length_le {position : Nat} (behind : program.length ≤ position) :
    lowered.instructions[program.blockStart position]? = none := by
  have same : program.expandedBefore position = program.expandedBefore program.length := by
    have whole : program.instructions.length ≤ program.length := Nat.le_refl _
    rw [expandedBefore, expandedBefore, List.take_of_length_le behind,
      List.take_of_length_le whole]
  rw [List.getElem?_eq_none_iff, lowers.length_eq, blockStart, blockStart, same]
  omega

/-- Every place of lowered code lies in a block. -/
theorem exists_block {place : Nat} {child : Instruction}
    (found : lowered.instructions[place]? = some child) :
    ∃ position instruction offset, program.instructions[position]? = some instruction ∧
      (instruction.block (fresh position)
        (program.origins.length + program.expandedBefore position))[offset]? = some child ∧
        place = program.blockStart position + offset := by
  have inside := (List.getElem?_eq_some_iff.mp found).1
  rw [lowers.instructions_eq_layout] at inside
  obtain ⟨position, instruction, offset, origin, offsetBound, rfl⟩ :=
    program.exists_of_lt_length_layout fresh (Nat.le_refl _) inside
  rw [lowers.getElem?_block origin offsetBound] at found
  exact ⟨position, instruction, offset, origin, found, rfl⟩

/-- A label stands at the start of a block and is the label of that block. -/
theorem label_in_block {place : Nat} {child : Instruction} {label : String}
    (found : lowered.instructions[place]? = some child) (carried : child.label = some label) :
    ∃ position instruction, program.instructions[position]? = some instruction ∧
      instruction.blockLabel (fresh position) = some label ∧
        place = program.blockStart position := by
  obtain ⟨position, instruction, offset, origin, inBlock, rfl⟩ := lowers.exists_block found
  obtain ⟨rfl, same⟩ := Instruction.label_of_getElem?_block inBlock carried
  exact ⟨position, instruction, origin, same, rfl⟩

/-- Two blocks never start with the same label. -/
theorem blockLabel_ne (wellFormed : program.WellFormed)
    {first second : Nat} {one other : Instruction} {label : String}
    (atFirst : program.instructions[first]? = some one)
    (atSecond : program.instructions[second]? = some other)
    (differ : first ≠ second) (labelled : one.blockLabel (fresh first) = some label) :
    other.blockLabel (fresh second) ≠ some label := by
  intro again
  rcases Instruction.blockLabel_eq_some labelled with own | ⟨-, -, needs, rfl⟩
  · rcases Instruction.blockLabel_eq_some again with own' | ⟨-, -, needs', same⟩
    · exact differ (position_unique wellFormed.unique atFirst atSecond own own')
    · have taken := contains_names_of_label atFirst own
      rw [same, lowers.fresh_absent second other atSecond needs'] at taken
      cases taken
  · rcases Instruction.blockLabel_eq_some again with own' | ⟨-, -, needs', same⟩
    · have taken := contains_names_of_label atSecond own'
      rw [lowers.fresh_absent first one atFirst needs] at taken
      cases taken
    · exact lowers.fresh_ne first second one other atFirst atSecond needs needs' differ same

theorem wellFormed (wellFormed : program.WellFormed) :
    lowered.WellFormed where
  toConsistent := lowers.consistent
  unique := by
    rw [lowers.instructions_eq, List.filterMap_flatMap, List.Nodup, List.pairwise_flatMap]
    constructor
    · rintro ⟨instruction, position⟩ -
      rw [blockAt, Instruction.filterMap_label_block]
      cases instruction.blockLabel (fresh position) <;> simp
    · rw [List.pairwise_iff_getElem]
      intro first second firstBound secondBound before
      simp only [List.getElem_zipIdx, Nat.zero_add, blockAt, Instruction.filterMap_label_block,
        Option.mem_toList]
      rintro label labelled _ again rfl
      rw [List.length_zipIdx] at firstBound secondBound
      exact lowers.blockLabel_ne wellFormed (List.getElem?_eq_getElem firstBound)
        (List.getElem?_eq_getElem secondBound) (Nat.ne_of_lt before) labelled again

/-- The label table of lowered code: the labels of the blocks, each at the start of its block. -/
theorem get?_eq_some_iff (wellFormed : program.WellFormed) {label : String} {place : Nat} :
    lowered.labels.get? label = some place ↔
      ∃ position instruction, program.instructions[position]? = some instruction ∧
        instruction.blockLabel (fresh position) = some label ∧
          place = program.blockStart position := by
  rw [(lowers.wellFormed wellFormed).get?_eq_some_iff]
  constructor
  · rintro ⟨child, found, carried⟩
    exact lowers.label_in_block found carried
  · rintro ⟨position, instruction, origin, labelled, rfl⟩
    obtain ⟨child, first, carried⟩ := instruction.exists_first_block (fresh position)
      (program.origins.length + program.expandedBefore position)
    exact ⟨child, (lowers.getElem?_start origin).trans first, carried.trans labelled⟩

/-- A label of the program is bound at the start of the block of its instruction. -/
theorem get?_of_bound (wellFormed : program.WellFormed)
    {label : String} {position : Nat} (bound : program.labels.get? label = some position) :
    lowered.labels.get? label = some (program.blockStart position) := by
  obtain ⟨instruction, place, carried⟩ := wellFormed.get?_eq_some_iff.mp bound
  exact (lowers.get?_eq_some_iff wellFormed).mpr
    ⟨position, instruction, place, Instruction.blockLabel_of_label carried _, rfl⟩

/-- No block binds a label that the program mentions and does not bind. -/
theorem get?_of_unbound (wellFormed : program.WellFormed)
    {label : String} (mentioned : program.names.contains label = true)
    (unbound : program.labels.get? label = none) : lowered.labels.get? label = none := by
  cases found : lowered.labels.get? label with
  | none => rfl
  | some place =>
      obtain ⟨position, instruction, origin, labelled, -⟩ :=
        (lowers.get?_eq_some_iff wellFormed).mp found
      rcases Instruction.blockLabel_eq_some labelled with own | ⟨-, -, needs, rfl⟩
      · rw [wellFormed.get?_eq_some_iff.mpr ⟨instruction, origin, own⟩] at unbound
        cases unbound
      · rw [lowers.fresh_absent position instruction origin needs] at mentioned
        cases mentioned

/-- A label that the program mentions is bound in the lowered code when the program binds it. -/
theorem contains_iff (wellFormed : program.WellFormed)
    {label : String} (mentioned : program.names.contains label = true) :
    lowered.labels.contains label = program.labels.contains label := by
  unfold NameTable.contains
  cases found : program.labels.get? label with
  | none => rw [lowers.get?_of_unbound wellFormed mentioned found]
  | some position => rw [lowers.get?_of_bound wellFormed found]; rfl

/-- The head of a loop is bound where the loop starts. -/
theorem get?_loop (wellFormed : program.WellFormed)
    {position : Nat} {instruction : Instruction} {var : String}
    (place : program.instructions[position]? = some instruction)
    (zeroes : instruction.op = .zero var) :
    lowered.labels.get? (instruction.label.getD (fresh position)) =
      some (program.blockStart position) :=
  (lowers.get?_eq_some_iff wellFormed).mpr
    ⟨position, instruction, place, by simp [Instruction.blockLabel, zeroes], rfl⟩

end LowersTo

end Program

end RegisterMachine
