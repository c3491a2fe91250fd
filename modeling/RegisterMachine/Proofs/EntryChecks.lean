import RegisterMachine.Proofs.DocumentPrograms
import RegisterMachine.Proofs.History

/-!
# Which documents build

What a document has to look like, said of its entries and without building anything.
An entry is sound for a kind of operation when its trimmed parts have the shapes that
the kind asks for; a document builds exactly when it has a name, every entry is sound
and no label stands on two entries.  Otherwise the error is about the first entry that
breaks a rule, whichever of the two it breaks, and an error about a label numbers the
two entries that carry it.
-/

namespace RegisterMachine

/-- The argument that an operation of a kind takes its target from. -/
def Opcode.argument? : Opcode → Option String
  | jumpNotZero => some jumpArgument
  | gotoLabel => some gotoArgument
  | neutral | increase | decrease | zeroVariable => none

/-! ## Shapes of names -/

/-- An identifier: a letter or an underscore, and then letters, digits and underscores. -/
def HasLabelShape (name : String) : Prop :=
  ∃ first rest, name.toList = first :: rest ∧ (first.isAlpha = true ∨ first = '_') ∧
    ∀ c ∈ rest, c.isAlphanum = true ∨ c = '_'

/-- A variable: the letter `y` alone, or `x` or `z` and at least one digit. -/
def HasVariableShape (name : String) : Prop :=
  name.toList = ['y'] ∨ ∃ letter digits, name.toList = letter :: digits ∧
    (letter = 'x' ∨ letter = 'z') ∧ digits ≠ [] ∧ ∀ c ∈ digits, c.isDigit = true

theorem isLabelName_iff {name : String} : isLabelName name = true ↔ HasLabelShape name := by
  unfold isLabelName HasLabelShape
  cases name.toList with
  | nil => simp [isIdentifier]
  | cons first rest => simp [isIdentifier, isNameStart, isNameChar]

theorem isVariableName_iff {name : String} :
    isVariableName name = true ↔ HasVariableShape name := by
  unfold isVariableName HasVariableShape
  cases name.toList with
  | nil => simp [isVariable]
  | cons letter digits => simp [isVariable, inputLetter, workLetter, and_assoc]

/-! ## Trimmed parts -/

/-- An optional text without the blanks around it; a missing one is empty. -/
def Text.trimmed (text : Option String) : String :=
  trim (text.getD "")

namespace Operands

/-- The label without blanks around it, empty when there is none. -/
def labelText (operands : Operands) : String :=
  Text.trimmed operands.label

/-- The label of the instruction, if there is one. -/
def ownLabel? (operands : Operands) : Option String :=
  if operands.labelText = "" then none else some operands.labelText

/-- The variable without blanks around it, empty when there is none. -/
def varText (operands : Operands) : String :=
  Text.trimmed operands.var

/-- An argument without blanks around it, empty when there is none. -/
def argumentText (operands : Operands) (argument : String) : String :=
  Text.trimmed (operands.arguments.get? argument)

/-- The operation of a kind on the trimmed parts.  Parts that the kind does not use are ignored. -/
def op (operands : Operands) : Opcode → Op
  | .neutral => .neutral operands.varText
  | .increase => .increase operands.varText
  | .decrease => .decrease operands.varText
  | .jumpNotZero => .jumpNotZero operands.varText (operands.argumentText jumpArgument)
  | .zeroVariable => .zero operands.varText
  | .gotoLabel => .goto (operands.argumentText gotoArgument)

end Operands

namespace DocumentEntry

/-- An entry has what an instruction of a kind needs. -/
structure Sound (entry : DocumentEntry) (opcode : Opcode) : Prop where
  name_eq : Text.trim entry.name = opcode.name
  label : entry.operands.labelText = "" ∨ HasLabelShape entry.operands.labelText
  var : opcode ≠ .gotoLabel → HasVariableShape entry.operands.varText
  argument : ∀ argument, opcode.argument? = some argument →
    HasLabelShape (entry.operands.argumentText argument)

/-- The instruction of a kind with the trimmed parts of an entry. -/
def instruction (entry : DocumentEntry) (opcode : Opcode) : Instruction where
  op := entry.operands.op opcode
  label := entry.operands.ownLabel?

theorem label_instruction (entry : DocumentEntry) (opcode : Opcode) :
    (entry.instruction opcode).label = entry.operands.ownLabel? := by
  rw [instruction]

end DocumentEntry

namespace Document

/-- The entry at a place breaks a rule: it is sound for no kind of operation, or it carries the
label of an earlier entry. -/
inductive Breaks (entries : List DocumentEntry) (place : Nat) : Prop
  | unsound {entry : DocumentEntry} (found : entries[place]? = some entry)
      (refused : ∀ opcode, ¬ entry.Sound opcode)
  | repeated {entry other : DocumentEntry} {earlier : Nat}
      (found : entries[place]? = some entry) (present : entry.operands.labelText ≠ "")
      (above : earlier < place) (found' : entries[earlier]? = some other)
      (same : other.operands.labelText = entry.operands.labelText)

/-- The first entry that carries a label stands at a place. -/
structure CarriesFirst (entries : List DocumentEntry) (place : Nat) (label : String) : Prop where
  carries : ∃ entry, entries[place]? = some entry ∧ entry.operands.labelText = label
  first : ∀ earlier < place, ∀ entry, entries[earlier]? = some entry →
    entry.operands.labelText ≠ label

/-- The first entry that breaks a rule stands at a place, with the error that tells which rule. -/
structure FirstBroken (entries : List DocumentEntry) (place : Nat) (error : InstructionError) :
    Prop where
  breaks : Breaks entries place
  first : ∀ earlier < place, ¬ Breaks entries earlier
  /-- A sound entry repeats a label, and the error numbers the two entries from one. -/
  repeated : ∀ entry opcode, entries[place]? = some entry → entry.Sound opcode →
    ∃ earlier < place, CarriesFirst entries earlier entry.operands.labelText ∧
      error = .duplicateLabel entry.operands.labelText (earlier + 1) (place + 1)
  /-- An entry that is not sound has an error of its own. -/
  unsound : ∀ entry, entries[place]? = some entry → (∀ opcode, ¬ entry.Sound opcode) →
    ∀ label one other, error ≠ .duplicateLabel label one other

/-- There is a name for the program: the document has one that is not blank, or there is a
fallback. -/
def HasName (document : Document) (fallback : Option String) : Prop :=
  (∃ name, document.name = some name ∧ Text.trim name ≠ "") ∨ ∃ name, fallback = some name

/-- Instructions are some entries with their parts trimmed. -/
def Describes (entries : List DocumentEntry) (instructions : List Instruction) : Prop :=
  List.Forall₂ (fun entry instruction => ∃ opcode, entry.Sound opcode ∧
    instruction = entry.instruction opcode) entries instructions

/-- What building a document comes to. -/
structure BuildExact (document : Document) (fallback : Option String) : Prop where
  missing_iff : document.build fallback = .error .missingName ↔ ¬ document.HasName fallback
  accepts_iff : (∃ program, document.build fallback = .ok program) ↔
    document.HasName fallback ∧ ∀ place, ¬ Breaks document.entries place
  described : ∀ program, document.build fallback = .ok program →
    Describes document.entries program.instructions
  error_eq : ∀ error, document.build fallback = .error error → document.HasName fallback →
    ∃ place detail, error = .instruction (place + 1) detail ∧
      FirstBroken document.entries place detail

end Document

/-! ## Reading an entry -/

theorem Text.present_eq (text : Option String) :
    present text = if trimmed text = "" then none else some (trimmed text) := by
  cases text with
  | none => rfl
  | some text =>
      by_cases blank : trim text = ""
      · simp [present, trimmed, blank]
      · simp [present, trimmed, blank]

theorem Text.present_eq_some_iff {text : Option String} {part : String} :
    present text = some part ↔ trimmed text = part ∧ part ≠ "" := by
  rw [present_eq]
  split
  · next blank => exact ⟨nofun, fun ⟨same, present⟩ => absurd (same ▸ blank) present⟩
  · next present =>
      constructor
      · rintro ⟨⟩
        exact ⟨rfl, present⟩
      · rintro ⟨rfl, -⟩
        rfl

/-- A part that passes a check is there and is the trimmed text, when the empty text fails. -/
theorem Text.present_and_iff {text : Option String} {part : String} {isGood : String → Bool}
    (empty : isGood "" = false) :
    present text = some part ∧ isGood part = true ↔
      isGood (trimmed text) = true ∧ part = trimmed text := by
  rw [present_eq_some_iff]
  constructor
  · rintro ⟨⟨rfl, -⟩, good⟩
    exact ⟨good, rfl⟩
  · rintro ⟨good, rfl⟩
    refine ⟨⟨rfl, fun nothing => ?_⟩, good⟩
    rw [nothing, empty] at good
    cases good

theorem Opcode.read_eq_ok_iff {name : String} {opcode : Opcode} :
    Opcode.read name = .ok opcode ↔ Text.trim name = opcode.name := by
  unfold Opcode.read
  constructor
  · intro read
    split at read
    · next found =>
        cases read
        unfold ofName? at found
        have same := List.find?_some found
        exact (eq_of_beq same).symm
    · cases read
  · intro same
    rw [same, ofName?_name]

namespace Operands

theorem readVariable_eq_ok_iff_trimmed {operands : Operands} {opcode : Opcode} {var : String} :
    operands.readVariable opcode = .ok var ↔
      HasVariableShape operands.varText ∧ var = operands.varText := by
  rw [← isVariableName_iff]
  exact readVariable_eq_ok_iff.trans (Text.present_and_iff rfl)

theorem readArgument_eq_ok_iff_trimmed {operands : Operands} {opcode : Opcode}
    {argument target : String} :
    operands.readArgument opcode argument = .ok target ↔
      HasLabelShape (operands.argumentText argument) ∧
        target = operands.argumentText argument := by
  rw [← isLabelName_iff]
  exact readArgument_eq_ok_iff.trans (Text.present_and_iff rfl)

theorem ownLabel?_eq_some_iff {operands : Operands} {label : String} :
    operands.ownLabel? = some label ↔ operands.labelText = label ∧ label ≠ "" := by
  unfold ownLabel?
  split
  · next blank => exact ⟨nofun, fun ⟨same, present⟩ => absurd (same ▸ blank) present⟩
  · next present =>
      constructor
      · rintro ⟨⟩
        exact ⟨rfl, present⟩
      · rintro ⟨rfl, -⟩
        rfl

theorem readLabel_eq_ok_iff_trimmed {operands : Operands} {label : Option String} :
    operands.readLabel = .ok label ↔
      (operands.labelText = "" ∨ HasLabelShape operands.labelText) ∧
        label = operands.ownLabel? := by
  have text : Text.present operands.label = operands.ownLabel? := Text.present_eq _
  rw [readLabel_eq_ok_iff, text, eq_comm, and_comm]
  refine and_congr_left ?_
  rintro rfl
  constructor
  · intro shape
    by_cases blank : operands.labelText = ""
    · exact .inl blank
    · exact .inr (isLabelName_iff.mp (shape _ (ownLabel?_eq_some_iff.mpr ⟨rfl, blank⟩)))
  · intro shape name carried
    obtain ⟨rfl, present⟩ := ownLabel?_eq_some_iff.mp carried
    exact isLabelName_iff.mpr (shape.resolve_left present)

/-- An operation is read when the parts of its kind have the right shapes. -/
theorem readOp_eq_ok_iff {operands : Operands} {opcode : Opcode} {op : Op} :
    operands.readOp opcode = .ok op ↔
      (opcode ≠ .gotoLabel → HasVariableShape operands.varText) ∧
        (∀ argument, opcode.argument? = some argument →
          HasLabelShape (operands.argumentText argument)) ∧ op = operands.op opcode := by
  cases opcode with
  | neutral | increase | decrease | zeroVariable =>
      refine Line.bind_eq_ok_iff.trans ⟨?_, ?_⟩
      · rintro ⟨var, read, ⟨⟩⟩
        obtain ⟨shape, rfl⟩ := readVariable_eq_ok_iff_trimmed.mp read
        exact ⟨fun _ => shape, nofun, rfl⟩
      · rintro ⟨shape, -, rfl⟩
        exact ⟨_, readVariable_eq_ok_iff_trimmed.mpr ⟨shape nofun, rfl⟩, rfl⟩
  | jumpNotZero =>
      refine Line.bind_eq_ok_iff.trans ⟨?_, ?_⟩
      · rintro ⟨var, readVar, read⟩
        obtain ⟨target, readTarget, ⟨⟩⟩ := Line.bind_eq_ok_iff.mp read
        obtain ⟨shape, rfl⟩ := readVariable_eq_ok_iff_trimmed.mp readVar
        obtain ⟨shape', rfl⟩ := readArgument_eq_ok_iff_trimmed.mp readTarget
        refine ⟨fun _ => shape, ?_, rfl⟩
        rintro _ ⟨⟩
        exact shape'
      · rintro ⟨shape, shape', rfl⟩
        refine ⟨_, readVariable_eq_ok_iff_trimmed.mpr ⟨shape nofun, rfl⟩, ?_⟩
        exact Line.bind_eq_ok_iff.mpr
          ⟨_, readArgument_eq_ok_iff_trimmed.mpr ⟨shape' _ rfl, rfl⟩, rfl⟩
  | gotoLabel =>
      refine Line.bind_eq_ok_iff.trans ⟨?_, ?_⟩
      · rintro ⟨target, read, ⟨⟩⟩
        obtain ⟨shape, rfl⟩ := readArgument_eq_ok_iff_trimmed.mp read
        refine ⟨fun other => absurd rfl other, ?_, rfl⟩
        rintro _ ⟨⟩
        exact shape
      · rintro ⟨-, shape, rfl⟩
        exact ⟨_, readArgument_eq_ok_iff_trimmed.mpr ⟨shape _ rfl, rfl⟩, rfl⟩

end Operands

/-- An entry is read exactly when it is sound, as the instruction with its parts trimmed. -/
theorem DocumentEntry.read_eq_ok_iff {entry : DocumentEntry} {instruction : Instruction} :
    Instruction.read entry.name entry.operands = .ok instruction ↔
      ∃ opcode, entry.Sound opcode ∧ instruction = entry.instruction opcode := by
  refine Line.bind_eq_ok_iff.trans (exists_congr fun opcode => ?_)
  rw [Opcode.read_eq_ok_iff]
  constructor
  · rintro ⟨name, constructed⟩
    obtain ⟨label, readLabel, constructed⟩ := Line.bind_eq_ok_iff.mp constructed
    obtain ⟨op, readOp, ⟨⟩⟩ := Line.bind_eq_ok_iff.mp constructed
    obtain ⟨labelShape, rfl⟩ := Operands.readLabel_eq_ok_iff_trimmed.mp readLabel
    obtain ⟨varShape, argumentShape, rfl⟩ := Operands.readOp_eq_ok_iff.mp readOp
    exact ⟨⟨name, labelShape, varShape, argumentShape⟩, rfl⟩
  · rintro ⟨sound, rfl⟩
    refine ⟨sound.name_eq, ?_⟩
    refine Line.bind_eq_ok_iff.mpr
      ⟨_, Operands.readLabel_eq_ok_iff_trimmed.mpr ⟨sound.label, rfl⟩, ?_⟩
    exact Line.bind_eq_ok_iff.mpr
      ⟨_, Operands.readOp_eq_ok_iff.mpr ⟨sound.var, sound.argument, rfl⟩, rfl⟩

/-! ## Errors of entries -/

/-- The error is about one instruction alone and not about two with one label. -/
def InstructionError.OfOne (error : InstructionError) : Prop :=
  ∀ label one other, error ≠ .duplicateLabel label one other

/-- A reading has no error about two instructions. -/
def ReadsOne {α : Type} (reading : Except InstructionError α) : Prop :=
  ∀ error, reading = .error error → error.OfOne

namespace ReadsOne

theorem ok {α : Type} (value : α) : ReadsOne (.ok value) := nofun

theorem error {α : Type} {error : InstructionError} (one : error.OfOne) :
    ReadsOne (.error error : Except InstructionError α) := by
  rintro _ ⟨⟩
  exact one

theorem bind {α β : Type} {first : Except InstructionError α}
    {next : α → Except InstructionError β} (one : ReadsOne first)
    (rest : ∀ value, ReadsOne (next value)) : ReadsOne (first >>= next) := by
  cases first with
  | error error => exact .error (one error rfl)
  | ok value => exact rest value

/-- A part that has to be there is missing or malformed. -/
theorem required {found : Option String} {isGood : String → Bool} {missing : InstructionError}
    {malformed : String → InstructionError} (absent : missing.OfOne)
    (bad : ∀ part, (malformed part).OfOne) :
    ReadsOne (match found with
      | none => .error missing
      | some part => if isGood part then .ok part else .error (malformed part)) := by
  cases found with
  | none => exact .error absent
  | some part =>
      show ReadsOne (if isGood part then _ else _)
      split
      · exact .ok part
      · exact .error (bad part)

theorem readVariable (operands : Operands) (opcode : Opcode) :
    ReadsOne (operands.readVariable opcode) :=
  required nofun fun _ => nofun

theorem readArgument (operands : Operands) (opcode : Opcode) (argument : String) :
    ReadsOne (operands.readArgument opcode argument) :=
  required nofun fun _ => nofun

theorem readLabel (operands : Operands) : ReadsOne operands.readLabel := by
  unfold Operands.readLabel
  split
  · exact .ok none
  · split
    · exact .ok _
    · exact .error nofun

theorem readOp (operands : Operands) (opcode : Opcode) : ReadsOne (operands.readOp opcode) := by
  cases opcode with
  | neutral | increase | decrease | zeroVariable =>
      exact (readVariable operands _).bind fun _ => .ok _
  | jumpNotZero =>
      exact (readVariable operands _).bind fun _ => (readArgument operands _ _).bind fun _ => .ok _
  | gotoLabel => exact (readArgument operands _ _).bind fun _ => .ok _

/-- An entry that is no instruction has an error of its own. -/
theorem read (name : String) (operands : Operands) :
    ReadsOne (Instruction.read name operands) := by
  refine bind ?_ fun opcode => (readLabel operands).bind fun _ => (readOp operands opcode).bind
    fun _ => .ok _
  unfold Opcode.read
  split
  · exact .ok _
  · exact .error nofun

end ReadsOne

/-! ## Adding entries -/

namespace Document

/-- Adding entries fails exactly at an entry that cannot be added behind those before it. -/
theorem addEntries_eq_error_iff {program : Program} {number : Nat}
    {entries : List DocumentEntry} {error : DocumentError} :
    addEntries program number entries = .error error ↔
      ∃ before entry behind next detail, entries = before ++ entry :: behind ∧
        addEntries program number before = .ok next ∧ addEntry next entry = .error detail ∧
          error = .instruction (number + before.length) detail := by
  induction entries generalizing program number with
  | nil =>
      constructor
      · rintro ⟨⟩
      · rintro ⟨before, entry, behind, next, detail, split, -⟩
        simp at split
  | cons entry entries ih =>
      rw [addEntries]
      cases added : addEntry program entry with
      | error detail =>
          constructor
          · rintro ⟨⟩
            exact ⟨[], entry, entries, program, detail, rfl, rfl, added, rfl⟩
          · rintro ⟨before, failing, behind, next, detail', split, built, failed, rfl⟩
            cases before with
            | nil =>
                cases split
                cases built
                cases added.symm.trans failed
                rfl
            | cons first before =>
                cases split
                rw [addEntries, added] at built
                cases built
      | ok second =>
          refine ih.trans ⟨?_, ?_⟩
          · rintro ⟨before, failing, behind, next, detail, rfl, built, failed, rfl⟩
            refine ⟨entry :: before, failing, behind, next, detail, rfl, ?_, failed, ?_⟩
            · rw [addEntries, added]
              exact built
            · rw [List.length_cons, Nat.add_right_comm, Nat.add_assoc]
          · rintro ⟨before, failing, behind, next, detail, split, built, failed, rfl⟩
            cases before with
            | nil =>
                cases split
                cases built
                cases added.symm.trans failed
            | cons first before =>
                cases split
                rw [addEntries, added] at built
                refine ⟨before, failing, behind, next, detail, rfl, built, failed, ?_⟩
                rw [List.length_cons, Nat.add_right_comm, Nat.add_assoc]

/-- Entries that can be added are described by the instructions that they become. -/
theorem described_of_addEntries {name : String} {number : Nat} {entries : List DocumentEntry}
    {program : Program} (built : addEntries (Program.named name) number entries = .ok program) :
    program.WellFormed ∧ Describes entries program.instructions := by
  obtain ⟨instructions, reads, pushed⟩ := addEntries_eq_ok_iff.mp built
  have whole : program.instructions = instructions := by
    rw [Program.foldlM_push_eq_ok pushed, Program.instructions_foldl_append]
    rfl
  refine ⟨(Program.wellFormed_named name).foldlM_push pushed, ?_⟩
  rw [whole]
  exact reads.imp fun _ _ => DocumentEntry.read_eq_ok_iff.mp

theorem label_instruction_eq_some_iff {entry : DocumentEntry} {opcode : Opcode} {label : String} :
    (entry.instruction opcode).label = some label ↔
      entry.operands.labelText = label ∧ label ≠ "" := by
  rw [DocumentEntry.label_instruction, Operands.ownLabel?_eq_some_iff]

namespace Describes

variable {entries : List DocumentEntry} {instructions : List Instruction}

theorem exists_instruction (described : Describes entries instructions) {place : Nat}
    {entry : DocumentEntry} (found : entries[place]? = some entry) :
    ∃ opcode, entry.Sound opcode ∧ instructions[place]? = some (entry.instruction opcode) := by
  obtain ⟨inside, rfl⟩ := List.getElem?_eq_some_iff.mp found
  have inside' : place < instructions.length := described.length_eq ▸ inside
  obtain ⟨opcode, sound, same⟩ := described.get inside inside'
  exact ⟨opcode, sound, (List.getElem?_eq_getElem inside').trans (congrArg some same)⟩

/-- An entry with a label stands where the instruction with the label stands. -/
theorem labelText_iff (described : Describes entries instructions) {place : Nat} {label : String}
    (present : label ≠ "") :
    (∃ entry, entries[place]? = some entry ∧ entry.operands.labelText = label) ↔
      ∃ instruction, instructions[place]? = some instruction ∧
        instruction.label = some label := by
  constructor
  · rintro ⟨entry, found, carried⟩
    obtain ⟨opcode, -, place'⟩ := described.exists_instruction found
    exact ⟨_, place', label_instruction_eq_some_iff.mpr ⟨carried, present⟩⟩
  · rintro ⟨instruction, found, carried⟩
    have inside : place < entries.length := by
      rw [described.length_eq]
      exact (List.getElem?_eq_some_iff.mp found).1
    obtain ⟨opcode, -, place'⟩ :=
      described.exists_instruction (List.getElem?_eq_getElem inside)
    cases found.symm.trans place'
    exact ⟨_, List.getElem?_eq_getElem inside, (label_instruction_eq_some_iff.mp carried).1⟩

/-- Entries that have become a program break no rule, whatever stands behind them. -/
theorem not_breaks {program : Program} (described : Describes entries program.instructions)
    (wellFormed : program.WellFormed) (behind : List DocumentEntry) {place : Nat}
    (inside : place < entries.length) : ¬ Breaks (entries ++ behind) place := by
  intro breaks
  cases breaks with
  | unsound found refused =>
      rw [List.getElem?_append_left inside] at found
      obtain ⟨opcode, sound, -⟩ := described.exists_instruction found
      exact refused opcode sound
  | repeated found present above found' same =>
      rw [List.getElem?_append_left inside] at found
      rw [List.getElem?_append_left (Nat.lt_trans above inside)] at found'
      obtain ⟨second, atSecond, carriedSecond⟩ :=
        (described.labelText_iff present).mp ⟨_, found, rfl⟩
      obtain ⟨first, atFirst, carriedFirst⟩ :=
        (described.labelText_iff present).mp ⟨_, found', same⟩
      exact Nat.ne_of_lt above (Program.position_unique wellFormed.unique atFirst atSecond
        carriedFirst carriedSecond)

/-- The first entry that cannot be added is the first that breaks a rule. -/
theorem firstBroken {program : Program} (described : Describes entries program.instructions)
    (wellFormed : program.WellFormed) {entry : DocumentEntry} {error : InstructionError}
    (failed : addEntry program entry = .error error) (behind : List DocumentEntry) :
    FirstBroken (entries ++ entry :: behind) entries.length error := by
  have here : (entries ++ entry :: behind)[entries.length]? = some entry := by simp
  have first : ∀ earlier < entries.length, ¬ Breaks (entries ++ entry :: behind) earlier :=
    fun earlier => described.not_breaks wellFormed _
  unfold addEntry at failed
  cases read : Instruction.read entry.name entry.operands with
  | error own =>
      rw [read] at failed
      cases failed
      have refused : ∀ opcode, ¬ entry.Sound opcode := by
        intro opcode sound
        cases read.symm.trans (DocumentEntry.read_eq_ok_iff.mpr ⟨opcode, sound, rfl⟩)
      refine ⟨.unsound here refused, first, ?_, ?_⟩
      · intro other opcode found sound
        cases here.symm.trans found
        exact absurd sound (refused opcode)
      · intro other _ _
        exact ReadsOne.read entry.name entry.operands error read
  | ok instruction =>
      rw [read] at failed
      obtain ⟨label, position, holder, carried, place, same, rfl⟩ :=
        wellFormed.pushed_eq_error_iff.mp failed
      obtain ⟨opcode, sound, rfl⟩ := DocumentEntry.read_eq_ok_iff.mp read
      obtain ⟨rfl, present⟩ := label_instruction_eq_some_iff.mp carried
      obtain ⟨other, found, carried'⟩ := (described.labelText_iff present).mpr ⟨holder, place, same⟩
      have above : position < entries.length := (List.getElem?_eq_some_iff.mp found).1
      have found' : (entries ++ entry :: behind)[position]? = some other :=
        (List.getElem?_append_left above).trans found
      refine ⟨.repeated here present above found' carried', first, ?_, ?_⟩
      · intro entry' _ atPlace _
        cases here.symm.trans atPlace
        refine ⟨position, above, ⟨⟨other, found', carried'⟩, ?_⟩, ?_⟩
        · intro earlier before entry' atEarlier carriedEarlier
          rw [List.getElem?_append_left (Nat.lt_trans before above)] at atEarlier
          obtain ⟨holder', place', same'⟩ :=
            (described.labelText_iff present).mp ⟨entry', atEarlier, carriedEarlier⟩
          exact Nat.ne_of_lt before
            (Program.position_unique wellFormed.unique place' place same' same)
        · rw [described.length_eq]
          rfl
      · intro entry' atPlace refused
        cases here.symm.trans atPlace
        exact absurd sound (refused opcode)

end Describes

/-! ## Building documents -/

theorem programName_eq_none_iff {document : Document} {fallback : Option String} :
    document.programName fallback = none ↔ ¬ document.HasName fallback := by
  rw [programName, Option.or_eq_none_iff, Option.filter_eq_none_iff, HasName, not_or,
    Option.eq_none_iff_forall_ne_some, not_exists, not_exists]
  refine and_congr_left fun _ => forall_congr' fun name => ?_
  simp

theorem hasName_of_programName {document : Document} {fallback : Option String} {name : String}
    (named : document.programName fallback = some name) : document.HasName fallback := by
  by_contra nameless
  cases named.symm.trans (programName_eq_none_iff.mpr nameless)

/-- A document that builds has a name, and its entries break no rule. -/
theorem described_of_build {document : Document} {fallback : Option String} {program : Program}
    (built : document.build fallback = .ok program) :
    document.HasName fallback ∧ Describes document.entries program.instructions ∧
      ∀ place, ¬ Breaks document.entries place := by
  unfold build at built
  cases named : document.programName fallback with
  | none =>
      rw [named] at built
      cases built
  | some name =>
      rw [named] at built
      obtain ⟨wellFormed, described⟩ := described_of_addEntries built
      refine ⟨hasName_of_programName named, described, fun place breaks => ?_⟩
      have inside : place < document.entries.length := by
        cases breaks with
        | unsound found => exact (List.getElem?_eq_some_iff.mp found).1
        | repeated found => exact (List.getElem?_eq_some_iff.mp found).1
      refine described.not_breaks wellFormed [] inside ?_
      rw [List.append_nil]
      exact breaks

/-- A document that does not build has no name, or an entry of it breaks a rule. -/
theorem broken_of_build {document : Document} {fallback : Option String} {error : DocumentError}
    (failed : document.build fallback = .error error) :
    ¬ document.HasName fallback ∧ error = .missingName ∨
      document.HasName fallback ∧ ∃ place detail, error = .instruction (place + 1) detail ∧
        FirstBroken document.entries place detail := by
  unfold build at failed
  cases named : document.programName fallback with
  | none =>
      rw [named] at failed
      cases failed
      exact .inl ⟨programName_eq_none_iff.mp named, rfl⟩
  | some name =>
      rw [named] at failed
      obtain ⟨before, entry, behind, program, detail, split, built, refused, rfl⟩ :=
        addEntries_eq_error_iff.mp failed
      obtain ⟨wellFormed, described⟩ := described_of_addEntries built
      refine .inr ⟨hasName_of_programName named, before.length, detail, ?_, ?_⟩
      · rw [Nat.add_comm]
      · rw [split]
        exact described.firstBroken wellFormed refused behind

/-- A document builds exactly when it has a name and no entry breaks a rule, and then it builds
its entries with their parts trimmed.  Without a name that is the error, and otherwise the error
is about the first entry that breaks a rule. -/
theorem builds_unless_broken (document : Document) (fallback : Option String) :
    document.BuildExact fallback := by
  constructor
  case missing_iff =>
    constructor
    · intro failed
      rcases broken_of_build failed with ⟨nameless, -⟩ | ⟨-, place, detail, other, -⟩
      · exact nameless
      · cases other
    · intro nameless
      cases result : document.build fallback with
      | ok program => exact absurd (described_of_build result).1 nameless
      | error error =>
          rcases broken_of_build result with ⟨-, rfl⟩ | ⟨hasName, -⟩
          · rfl
          · exact absurd hasName nameless
  case accepts_iff =>
    constructor
    · rintro ⟨program, built⟩
      obtain ⟨hasName, -, clean⟩ := described_of_build built
      exact ⟨hasName, clean⟩
    · rintro ⟨hasName, clean⟩
      cases result : document.build fallback with
      | ok program => exact ⟨program, rfl⟩
      | error error =>
          rcases broken_of_build result with ⟨nameless, -⟩ | ⟨-, place, detail, -, broken⟩
          · exact absurd hasName nameless
          · exact absurd broken.breaks (clean place)
  case described =>
    intro program built
    exact (described_of_build built).2.1
  case error_eq =>
    intro error failed hasName
    rcases broken_of_build failed with ⟨nameless, -⟩ | ⟨-, broken⟩
    · exact absurd hasName nameless
    · exact broken

end Document

end RegisterMachine
