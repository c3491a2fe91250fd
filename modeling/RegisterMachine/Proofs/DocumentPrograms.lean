import Mathlib.Data.List.Forall2
import RegisterMachine.Proofs.SourceRoundTrip

/-!
# Programs as documents

A document gives the parts of each instruction, and these are trimmed and checked
one by one.  A well-formed program with a name, whose other names have the right
shapes, is described by its document: the document builds it again, and only its
origins are lost.  Programs from a text, programs from a document and what these
are lowered to are such programs.

Source text is narrower than documents.  A label in a document may be any
identifier, but a text takes `IF` and `GOTO` for keywords.  So the text of a program
from a document can be read exactly when no label and no target is one of the two.
-/

namespace RegisterMachine

/-! ## Blank characters and names -/

/-- A text that trims to nothing has only blank characters. -/
theorem Text.isBlank_of_trim_eq_empty {text : String} (empty : trim text = "") {c : Char}
    (member : c ∈ text.toList) : isBlank c = true := by
  obtain ⟨front, back, parts, frontBlank, backBlank⟩ := trimChars_split text.toList
  have nothing : trimChars text.toList = [] := String.ofList_injective empty
  rw [nothing, List.append_nil] at parts
  rw [parts, List.mem_append] at member
  rcases member with inFront | inBack
  · exact List.all_eq_true.mp frontBlank c inFront
  · exact List.all_eq_true.mp backBlank c inBack

theorem isBlank_of_isNameChar {c : Char} (inside : isNameChar c = true) :
    Text.isBlank c = false := by
  rw [Bool.eq_false_iff]
  intro blank
  simp only [Text.isBlank, Text.blankRanges, List.any_cons, List.any_nil, Bool.or_eq_true,
    Bool.and_eq_true, decide_eq_true_eq, Bool.or_false] at blank
  have range := Token.toNat_of_isNameChar inside
  omega

/-- Trimming leaves an identifier alone. -/
theorem trim_of_isIdentifier {name : String} (identifier : isIdentifier name.toList = true) :
    Text.trim name = name := by
  have inside : ∀ c ∈ name.toList, Text.isBlank c = false := by
    cases chars : name.toList with
    | nil => exact List.forall_mem_nil _
    | cons c cs =>
        rw [chars, isIdentifier, Bool.and_eq_true, List.all_eq_true] at identifier
        refine List.forall_mem_cons.mpr ⟨?_, fun d member => ?_⟩
        · exact isBlank_of_isNameChar (isNameChar_of_isNameStart identifier.1)
        · exact isBlank_of_isNameChar (identifier.2 d member)
  rw [Text.trim, Text.trimChars_of_no_blank inside, String.ofList_toList]

theorem present_of_isLabelName {name : String} (named : isLabelName name = true) :
    Text.present (some name) = some name := by
  have nonempty : name ≠ "" := by
    rintro rfl
    cases named
  simp [Text.present, trim_of_isIdentifier named, nonempty]

theorem present_of_isVariableName {name : String} (named : isVariableName name = true) :
    Text.present (some name) = some name :=
  present_of_isLabelName (isIdentifier_of_isVariable named)

/-! ## Instructions from their parts -/

namespace Operands

/-- A part that has to be there is read when it is there and passes its check. -/
theorem required_eq_ok_iff {found : Option String} {isGood : String → Bool}
    {missing : InstructionError} {malformed : String → InstructionError} {name : String} :
    (match found with
      | none => .error missing
      | some part => if isGood part then .ok part else .error (malformed part) :
        Except InstructionError String) = .ok name ↔ found = some name ∧ isGood name = true := by
  cases found with
  | none => exact ⟨nofun, nofun⟩
  | some part => by_cases good : isGood part = true <;> grind

theorem readVariable_eq_ok_iff {operands : Operands} {opcode : Opcode} {var : String} :
    operands.readVariable opcode = .ok var ↔
      Text.present operands.var = some var ∧ isVariableName var = true :=
  required_eq_ok_iff

theorem readArgument_eq_ok_iff {operands : Operands} {opcode : Opcode}
    {argument target : String} :
    operands.readArgument opcode argument = .ok target ↔
      Text.present (operands.arguments.get? argument) = some target ∧
        isLabelName target = true :=
  required_eq_ok_iff

/-- A label may be missing. -/
theorem readLabel_eq_ok_iff {operands : Operands} {label : Option String} :
    operands.readLabel = .ok label ↔
      Text.present operands.label = label ∧
        ∀ name, label = some name → isLabelName name = true := by
  unfold readLabel
  cases Text.present operands.label with
  | none =>
      constructor
      · rintro ⟨⟩
        exact ⟨rfl, nofun⟩
      · rintro ⟨rfl, -⟩
        rfl
  | some part => by_cases good : isLabelName part = true <;> grind

/-- The operands that are read have the shape of their kind. -/
theorem named_of_readOp {operands : Operands} {opcode : Opcode} {op : Op}
    (read : operands.readOp opcode = .ok op) :
    (∀ var, op.var? = some var → isVariableName var = true) ∧
      ∀ target, op.target? = some target → isLabelName target = true := by
  cases opcode with
  | neutral | increase | decrease | zeroVariable =>
      obtain ⟨var, readVar, same⟩ := Line.bind_eq_ok_iff.mp read
      cases same
      exact ⟨by rintro _ ⟨⟩; exact (readVariable_eq_ok_iff.mp readVar).2, nofun⟩
  | jumpNotZero =>
      obtain ⟨var, readVar, read⟩ := Line.bind_eq_ok_iff.mp read
      obtain ⟨target, readTarget, same⟩ := Line.bind_eq_ok_iff.mp read
      cases same
      exact ⟨by rintro _ ⟨⟩; exact (readVariable_eq_ok_iff.mp readVar).2,
        by rintro _ ⟨⟩; exact (readArgument_eq_ok_iff.mp readTarget).2⟩
  | gotoLabel =>
      obtain ⟨target, readTarget, same⟩ := Line.bind_eq_ok_iff.mp read
      cases same
      exact ⟨nofun, by rintro _ ⟨⟩; exact (readArgument_eq_ok_iff.mp readTarget).2⟩

theorem readOp_ofInstruction {instruction : Instruction}
    (named : instruction.NamedBy isLabelName) :
    (ofInstruction instruction).readOp instruction.op.opcode = .ok instruction.op := by
  obtain ⟨op, label, parent⟩ := instruction
  obtain ⟨-, var, target⟩ := named
  have readVar : ∀ opcode name, op.var? = some name →
      (ofInstruction ⟨op, label, parent⟩).readVariable opcode = .ok name := by
    intro opcode name found
    refine readVariable_eq_ok_iff.mpr ⟨?_, var name found⟩
    exact (congrArg Text.present found).trans (present_of_isVariableName (var name found))
  have readTarget : ∀ opcode argument name, op.target? = some name →
      (ofInstruction ⟨op, label, parent⟩).arguments = NameTable.empty.insert argument name →
        (ofInstruction ⟨op, label, parent⟩).readArgument opcode argument = .ok name := by
    intro opcode argument name found given
    refine readArgument_eq_ok_iff.mpr ⟨?_, target name found⟩
    rw [given, NameTable.get?_insert, if_pos rfl, present_of_isLabelName (target name found)]
  cases op with
  | neutral name | increase name | decrease name | zero name =>
      exact Line.bind_eq_ok_iff.mpr ⟨name, readVar _ name rfl, rfl⟩
  | jumpNotZero name goal =>
      exact Line.bind_eq_ok_iff.mpr ⟨name, readVar _ name rfl,
        Line.bind_eq_ok_iff.mpr ⟨goal, readTarget _ _ goal rfl rfl, rfl⟩⟩
  | goto goal => exact Line.bind_eq_ok_iff.mpr ⟨goal, readTarget _ _ goal rfl rfl, rfl⟩

end Operands

theorem Opcode.read_name (opcode : Opcode) : Opcode.read opcode.name = .ok opcode := by
  have trimmed : Text.trim opcode.name = opcode.name :=
    trim_of_isIdentifier (by cases opcode <;> decide)
  rw [read, trimmed, ofName?_name]

namespace Instruction

/-- What is read from parts has names of the right shapes and no parent. -/
theorem namedBy_of_read {name : String} {operands : Operands} {instruction : Instruction}
    (read : Instruction.read name operands = .ok instruction) :
    instruction.NamedBy isLabelName ∧ instruction.parent = none := by
  obtain ⟨opcode, -, constructed⟩ := Line.bind_eq_ok_iff.mp read
  obtain ⟨label, readLabel, constructed⟩ := Line.bind_eq_ok_iff.mp constructed
  obtain ⟨op, readOp, same⟩ := Line.bind_eq_ok_iff.mp constructed
  cases same
  obtain ⟨var, target⟩ := Operands.named_of_readOp readOp
  exact ⟨⟨(Operands.readLabel_eq_ok_iff.mp readLabel).2, var, target⟩, rfl⟩

/-- The parts of an instruction are read as the instruction without its parent. -/
theorem NamedBy.read_ofInstruction {instruction : Instruction}
    (named : instruction.NamedBy isLabelName) :
    Instruction.read instruction.op.opcode.name (Operands.ofInstruction instruction) =
      .ok instruction.orphan := by
  have label : (Operands.ofInstruction instruction).readLabel = .ok instruction.label := by
    refine Operands.readLabel_eq_ok_iff.mpr ⟨?_, named.label_named⟩
    show Text.present instruction.label = instruction.label
    cases carried : instruction.label with
    | none => rfl
    | some label => exact present_of_isLabelName (named.label_named label carried)
  exact Line.bind_eq_ok_iff.mpr ⟨_, Opcode.read_name _,
    Line.bind_eq_ok_iff.mpr ⟨_, label,
      Line.bind_eq_ok_iff.mpr ⟨_, Operands.readOp_ofInstruction named, rfl⟩⟩⟩

end Instruction

/-! ## Building programs -/

namespace Document

theorem addEntries_cons_eq_ok_iff {program result : Program} {number : Nat}
    {entry : DocumentEntry} {entries : List DocumentEntry} :
    addEntries program number (entry :: entries) = .ok result ↔
      ∃ instruction, Instruction.read entry.name entry.operands = .ok instruction ∧
        ∃ next, program.pushed instruction = .ok next ∧
          addEntries next (number + 1) entries = .ok result := by
  have added : ∀ next, addEntry program entry = .ok next ↔
      ∃ instruction, Instruction.read entry.name entry.operands = .ok instruction ∧
        program.pushed instruction = .ok next := fun next => Line.bind_eq_ok_iff
  rw [addEntries]
  constructor
  · intro built
    cases first : addEntry program entry with
    | error error =>
        rw [first] at built
        cases built
    | ok next =>
        rw [first] at built
        obtain ⟨instruction, read, pushed⟩ := (added next).mp first
        exact ⟨instruction, read, next, pushed, built⟩
  · rintro ⟨instruction, read, next, pushed, built⟩
    rw [(added next).mpr ⟨instruction, read, pushed⟩]
    exact built

/-- Entries are added exactly when each is read as an instruction and these can be pushed. -/
theorem addEntries_eq_ok_iff {program result : Program} {number : Nat}
    {entries : List DocumentEntry} :
    addEntries program number entries = .ok result ↔
      ∃ instructions, List.Forall₂ (fun entry instruction =>
          Instruction.read entry.name entry.operands = .ok instruction) entries instructions ∧
        instructions.foldlM Program.pushed program = .ok result := by
  induction entries generalizing program number with
  | nil =>
      constructor
      · rintro ⟨⟩
        exact ⟨[], .nil, List.foldlM_nil⟩
      · rintro ⟨_, ⟨⟩, pushed⟩
        obtain rfl := Except.ok.inj pushed
        rfl
  | cons entry entries ih =>
      rw [addEntries_cons_eq_ok_iff]
      constructor
      · rintro ⟨instruction, read, next, pushed, built⟩
        obtain ⟨instructions, reads, rest⟩ := ih.mp built
        refine ⟨instruction :: instructions, .cons read reads, ?_⟩
        rw [List.foldlM_cons]
        exact Line.bind_eq_ok_iff.mpr ⟨next, pushed, rest⟩
      · rintro ⟨_, ⟨⟩ | ⟨read, reads⟩, pushed⟩
        rw [List.foldlM_cons] at pushed
        obtain ⟨next, first, rest⟩ := Line.bind_eq_ok_iff.mp pushed
        exact ⟨_, read, next, first, ih.mpr ⟨_, reads, rest⟩⟩

/-- A program from a document is made of instructions with names of the right shapes and without
parents. -/
theorem exists_instructions_of_build {document : Document} {fallback : Option String}
    {program : Program} (built : document.build fallback = .ok program) :
    ∃ instructions : List Instruction,
      program = instructions.foldl Program.append (Program.named program.name) ∧
        ∀ instruction ∈ instructions,
          instruction.NamedBy isLabelName ∧ instruction.parent = none := by
  unfold build at built
  cases named : document.programName fallback with
  | none =>
      rw [named] at built
      cases built
  | some name =>
      rw [named] at built
      obtain ⟨instructions, reads, pushed⟩ := addEntries_eq_ok_iff.mp built
      have whole := Program.foldlM_push_eq_ok pushed
      refine ⟨instructions, ?_, fun instruction member => ?_⟩
      · rw [whole, Program.name_foldl_append]
        rfl
      · obtain ⟨place, bound, rfl⟩ := List.mem_iff_getElem.mp member
        have inside : place < document.entries.length := reads.length_eq ▸ bound
        exact Instruction.namedBy_of_read (reads.get inside bound)

end Document

/-! ## Programs that documents describe -/

attribute [ext] Program

namespace Program

/-- A well-formed program with a name, whose instructions have names of the right shapes. -/
structure Describable (program : Program) : Prop extends WellFormed program where
  name_present : Text.trim program.name ≠ ""
  named : ∀ instruction ∈ program.instructions, instruction.NamedBy isLabelName

/-- A program that nothing in it says is the result of lowering. -/
structure Unlowered (program : Program) : Prop where
  parent_eq : ∀ instruction ∈ program.instructions, instruction.parent = none
  origins_eq : program.origins = []

theorem unlowered_foldl_append (name : String) {instructions : List Instruction}
    (orphans : ∀ instruction ∈ instructions, instruction.parent = none) :
    (instructions.foldl append (named name)).Unlowered where
  parent_eq := forall_mem_foldl_append (List.forall_mem_nil _) orphans
  origins_eq := origins_foldl_append _ _

/-- The copy without parents of a program that was not lowered is the program. -/
theorem Unlowered.orphaned_eq {program : Program} (unlowered : program.Unlowered)
    (consistent : program.Consistent) : program.orphaned program.name = program := by
  have copy := consistent.orphanedCopy program.name
  have same : program.instructions.map Instruction.orphan = program.instructions := by
    refine (List.map_congr_left fun instruction member => ?_).trans (List.map_id _)
    have orphan := unlowered.parent_eq instruction member
    cases instruction
    cases orphan
    rfl
  exact Program.ext (program.name_orphaned program.name) (copy.instructions_eq.trans same)
    copy.labels_eq copy.inputs_eq copy.maxDegree_eq
    (copy.origins_eq.trans unlowered.origins_eq.symm)

theorem Describable.lowerTo {program lowered : Program} (describable : program.Describable)
    {degree : Nat} (lowering : program.lowerTo degree = .ok lowered) : lowered.Describable where
  toWellFormed := describable.toWellFormed.lowerTo lowering
  name_present := by
    intro blank
    unfold Program.lowerTo at lowering
    split at lowering
    · cases lowering
    · rw [← Except.ok.inj lowering] at blank
      exact absurd (@Text.isBlank_of_trim_eq_empty _ blank '@' (by simp)) (by decide)
  named := by
    refine namedBy_lowerTo (fun number => ?_) lowering describable.named
    exact (isWord_iff.mp (isWord_numbered_label number)).1

end Program

namespace Source

theorem unlowered_of_parse {name source : String} {program : Program}
    (parsed : parse name source = .ok program) : program.Unlowered := by
  obtain ⟨instructions, rfl, each⟩ := exists_instructions_of_parse parsed
  exact Program.unlowered_foldl_append name fun instruction member => (each instruction member).2

theorem describable_of_parse {name source : String} {program : Program}
    (parsed : parse name source = .ok program) (present : Text.trim program.name ≠ "") :
    program.Describable where
  toWellFormed := wellFormed_of_parse parsed
  name_present := present
  named instruction member :=
    (Instruction.writable_iff.mp (writable_of_parse parsed instruction member)).mono
      fun _ word => (isWord_iff.mp word).1

end Source

namespace Document

theorem named_of_build {document : Document} {fallback : Option String} {program : Program}
    (built : document.build fallback = .ok program) :
    ∀ instruction ∈ program.instructions, instruction.NamedBy isLabelName := by
  obtain ⟨instructions, whole, each⟩ := exists_instructions_of_build built
  rw [whole]
  exact Program.forall_mem_foldl_append (List.forall_mem_nil _) fun instruction member =>
    (each instruction member).1

theorem unlowered_of_build {document : Document} {fallback : Option String} {program : Program}
    (built : document.build fallback = .ok program) : program.Unlowered := by
  obtain ⟨instructions, whole, each⟩ := exists_instructions_of_build built
  rw [whole]
  exact Program.unlowered_foldl_append _ fun instruction member => (each instruction member).2

theorem describable_of_build {document : Document} {fallback : Option String} {program : Program}
    (built : document.build fallback = .ok program) (present : Text.trim program.name ≠ "") :
    program.Describable where
  toWellFormed := wellFormed_of_build built
  name_present := present
  named := named_of_build built

/-! ## Documents of programs -/

/-- The document of a program builds the copy of the program without parents.  The fallback for
the name does not matter. -/
theorem build_ofProgram {program : Program} (describable : program.Describable)
    (fallback : Option String) :
    (ofProgram program).build fallback = .ok (program.orphaned program.name) := by
  have name : (ofProgram program).programName fallback = some program.name := by
    simp [programName, ofProgram, describable.name_present]
  have reads : List.Forall₂ (fun entry instruction =>
      Instruction.read entry.name entry.operands = .ok instruction)
        (ofProgram program).entries (program.instructions.map Instruction.orphan) := by
    rw [ofProgram, List.forall₂_map_left_iff, List.forall₂_map_right_iff, List.forall₂_same]
    exact fun instruction member => (describable.named instruction member).read_ofInstruction
  have pushed := describable.toWellFormed.ofInstructions_orphan program.name
  rw [build, name]
  exact addEntries_eq_ok_iff.mpr ⟨_, reads, pushed⟩

theorem build_ofProgram_of_unlowered {program : Program} (describable : program.Describable)
    (unlowered : program.Unlowered) (fallback : Option String) :
    (ofProgram program).build fallback = .ok program := by
  rw [build_ofProgram describable, unlowered.orphaned_eq describable.toConsistent]

/-- The document of the program that a document builds. -/
def normalize (document : Document) (fallback : Option String) : Except DocumentError Document :=
  (document.build fallback).map ofProgram

/-- A program with a name that is well-formed and well named is built again from its document,
but for its origins.  Programs from a text or a document and what they are lowered to are such
programs, and so the document of a program that was built is a normal form. -/
theorem export_rebuilds :
    (∀ program : Program, program.Describable → ∀ fallback, ∃ rebuilt,
      (ofProgram program).build fallback = .ok rebuilt ∧ rebuilt.name = program.name ∧
        rebuilt.OrphanedCopy program ∧ (program.Unlowered → rebuilt = program)) ∧
    (∀ name source program, Source.parse name source = .ok program →
      Text.trim program.name ≠ "" → program.Describable ∧ program.Unlowered) ∧
    (∀ (document : Document) fallback program, document.build fallback = .ok program →
      Text.trim program.name ≠ "" → program.Describable ∧ program.Unlowered) ∧
    (∀ (program : Program) degree lowered, program.Describable →
      program.lowerTo degree = .ok lowered → lowered.Describable) ∧
    (∀ (document : Document) fallback program, document.build fallback = .ok program →
      Text.trim program.name ≠ "" → ∃ normal, document.normalize fallback = .ok normal ∧
        ∀ other, normal.build other = .ok program ∧ normal.normalize other = .ok normal) := by
  refine ⟨?rebuilt, ?parsed, ?built, ?lowered, ?normal⟩
  case rebuilt =>
    intro program describable fallback
    refine ⟨_, build_ofProgram describable fallback, program.name_orphaned _,
      describable.toConsistent.orphanedCopy _, fun unlowered => ?_⟩
    exact unlowered.orphaned_eq describable.toConsistent
  case parsed =>
    intro name source program parsed present
    exact ⟨Source.describable_of_parse parsed present, Source.unlowered_of_parse parsed⟩
  case built =>
    intro document fallback program built present
    exact ⟨describable_of_build built present, unlowered_of_build built⟩
  case lowered =>
    intro program degree lowered describable lowering
    exact describable.lowerTo lowering
  case normal =>
    intro document fallback program built present
    have again := build_ofProgram_of_unlowered (describable_of_build built present)
      (unlowered_of_build built)
    refine ⟨ofProgram program, by rw [normalize, built]; rfl, fun other => ⟨again other, ?_⟩⟩
    rw [normalize, again other]
    rfl

/-- Empties the input and counts what it held.  Names stand between blanks, a label is blank, an
operand is not used, and labels are almost keywords. -/
def drainDocument : Document where
  name := some "\t "
  entries :=
    [ { name := " GOTO_LABEL", operands :=
          { var := some "unused", label := some " ",
            arguments := NameTable.empty.insert gotoArgument "\nIF_ANY " } },
      { name := "DECREASE", operands := { var := some " x1 ", label := some "goto" } },
      { name := "INCREASE", operands := { var := some "y" } },
      { name := "JUMP_NOT_ZERO\r", operands :=
          { var := some "x1", label := some "IF_ANY ",
            arguments := NameTable.empty.insert jumpArgument "goto" } } ]

/-- What the document builds under the name `drain`. -/
def drainProgram : Program :=
  [ { op := .goto "IF_ANY" },
    { op := .decrease "x1", label := some "goto" },
    { op := .increase "y" },
    { op := .jumpNotZero "x1" "goto", label := some "IF_ANY" } ].foldl Program.append
      (Program.named "drain")

theorem build_drain : drainDocument.build (some "drain") = .ok drainProgram :=
  rfl

/-- The document and the lowered program rebuild, though the name was the fallback. -/
theorem export_rebuilds_drain :
    (∃ normal, drainDocument.normalize (some "drain") = .ok normal ∧
      ∀ other, normal.build other = .ok drainProgram ∧ normal.normalize other = .ok normal) ∧
    ∃ lowered rebuilt, drainProgram.lowerTo 0 = .ok lowered ∧
      (ofProgram lowered).build none = .ok rebuilt ∧ rebuilt.name = "drain@0" ∧
        rebuilt.OrphanedCopy lowered := by
  obtain ⟨rebuilds, -, built, lowers, normal⟩ := export_rebuilds
  have present : Text.trim drainProgram.name ≠ "" := by decide
  refine ⟨normal _ _ _ build_drain present, ?_⟩
  obtain ⟨lowered, lowering, name⟩ : ∃ lowered, drainProgram.lowerTo 0 = .ok lowered ∧
      lowered.name = "drain@0" := ⟨_, rfl, rfl⟩
  have describable := lowers _ _ _ (built _ _ _ build_drain present).1 lowering
  obtain ⟨rebuilt, again, same, copy, -⟩ := rebuilds lowered describable none
  exact ⟨lowered, rebuilt, lowering, again, same.trans name, copy⟩

end Document

/-! ## Documents as source text -/

namespace Program

/-- No label and no target is a keyword of the source text. -/
def KeywordFree (program : Program) : Prop :=
  ∀ instruction ∈ program.instructions,
    ∀ name ∈ instruction.label.toList ++ instruction.target?.toList, name ≠ "IF" ∧ name ≠ "GOTO"

instance (program : Program) : Decidable program.KeywordFree :=
  inferInstanceAs (Decidable (∀ instruction ∈ program.instructions, ∀ name ∈ _, _))

/-- With names of the right shapes, keywords are all that keeps a program from being written. -/
theorem writable_iff_keywordFree {program : Program}
    (named : ∀ instruction ∈ program.instructions, instruction.NamedBy isLabelName) :
    program.Writable ↔ program.KeywordFree := by
  constructor
  · intro writable instruction member name found
    rw [List.mem_append, Option.mem_toList, Option.mem_toList] at found
    rcases found with carried | jumps
    · exact (isWord_iff.mp ((writable instruction member).label_word name carried)).2
    · exact (isWord_iff.mp ((writable instruction member).target_word name jumps)).2
  · intro free instruction member
    obtain ⟨label, var, target⟩ := named instruction member
    refine ⟨fun name carried => ?_, var, fun name jumps => ?_⟩
    · exact isWord_iff.mpr ⟨label name carried, free instruction member name (by simp [carried])⟩
    · exact isWord_iff.mpr ⟨target name jumps, free instruction member name (by simp [jumps])⟩

end Program

namespace Document

/-- The source text of a program from a document is read as instructions of the program exactly
when no label and no target is a keyword, and then it is read as the program. -/
theorem source_reads_back_iff {document : Document} {fallback : Option String}
    {program : Program} (built : document.build fallback = .ok program) :
    ((∃ copy, Source.parse program.name program.sourceText = .ok copy ∧
      copy.instructions = program.instructions) ↔ program.KeywordFree) ∧
    (program.KeywordFree → Source.parse program.name program.sourceText = .ok program) := by
  have wellFormed := wellFormed_of_build built
  have writable_iff := Program.writable_iff_keywordFree (named_of_build built)
  have reads : program.KeywordFree →
      Source.parse program.name program.sourceText = .ok program := by
    intro free
    rw [Source.parse_sourceText wellFormed (writable_iff.mpr free),
      (unlowered_of_build built).orphaned_eq wellFormed.toConsistent]
  refine ⟨⟨?_, fun free => ⟨program, reads free, rfl⟩⟩, reads⟩
  rintro ⟨copy, parsed, same⟩
  -- What comes from a text can be written, and the program has the same instructions.
  have writable := Source.writable_of_parse parsed
  rw [Program.Writable, same] at writable
  exact writable_iff.mp writable

/-- Labels that only look like keywords are read back. -/
theorem source_reads_back_iff_drain :
    drainDocument.build (some "drain") = .ok drainProgram ∧
      Source.parse "drain" drainProgram.sourceText = .ok drainProgram :=
  ⟨build_drain, (source_reads_back_iff build_drain).2 (by decide)⟩

/-- One instruction whose label is a keyword. -/
def keywordDocument : Document where
  name := some "p"
  entries := [{ name := "INCREASE", operands := { var := some "y", label := some "IF" } }]

/-- A document can build a program whose source text is refused: where the label stands, the text
has a keyword. -/
theorem keyword_label_refused :
    ∃ program, keywordDocument.build none = .ok program ∧
      Source.parse program.name program.sourceText =
        .error (.lines [⟨.unexpected .label .ifWord, ⟨1, 3⟩⟩]) := by
  refine ⟨(Program.named "p").append { op := .increase "y", label := some "IF" }, rfl, ?_⟩
  decide +kernel

end Document

end RegisterMachine
