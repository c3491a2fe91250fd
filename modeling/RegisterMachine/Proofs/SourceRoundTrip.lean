import Mathlib.Order.Basic
import RegisterMachine.Program.Listing
import RegisterMachine.Proofs.LineGrammar
import RegisterMachine.Proofs.LoweredNames

/-!
# Source text written and read again

The source text of a program holds one instruction on each line, written in full.
An instruction can be written when its names are words: then its line is read as
the same instruction.  What comes from a text can be written again, and lowering
keeps it so, because the names that it hands out are words.  So every program from
a text can be lowered, written and read again, and only its origins are lost.
-/

namespace RegisterMachine

/-! ## Writing an instruction -/

/-- A variable is a word: the keywords do not look like variables. -/
theorem isWord_of_isVariableName {name : String} (named : isVariableName name = true) :
    isWord name = true := by
  simp only [isWord, Bool.and_eq_true, bne_iff_ne]
  refine ⟨⟨isIdentifier_of_isVariable named, ?_⟩, ?_⟩
  · rintro rfl
    exact absurd named (by decide)
  · rintro rfl
    exact absurd named (by decide)

namespace Instruction

/-- An instruction that a text can hold. -/
structure Writable (instruction : Instruction) : Prop where
  label_word : ∀ label, instruction.label = some label → isWord label = true
  var_named : ∀ var, instruction.var? = some var → isVariableName var = true
  target_word : ∀ target, instruction.target? = some target → isWord target = true

theorem writable_iff {instruction : Instruction} :
    instruction.Writable ↔ instruction.NamedBy isWord :=
  ⟨fun ⟨label, var, target⟩ => ⟨label, var, target⟩,
    fun ⟨label, var, target⟩ => ⟨label, var, target⟩⟩

/-- Every token of the operation of a writable instruction can be read. -/
theorem Writable.isReadable {instruction : Instruction} (writable : instruction.Writable) :
    ∀ token ∈ instruction.op.tokens, token.isReadable = true := by
  obtain ⟨-, var, target⟩ := writable
  unfold var? at var
  unfold target? at target
  have operand : ∀ name, instruction.op.var? = some name → isWord name = true := fun name found =>
    isWord_of_isVariableName (var name found)
  cases op : instruction.op with
  | neutral name | increase name | decrease name | zero name =>
      simp [Op.tokens, Token.isReadable, operand name (by rw [op]; rfl)]
  | jumpNotZero name label =>
      simp [Op.tokens, Token.isReadable, operand name (by rw [op]; rfl),
        target label (by rw [op]; rfl)]
  | goto label => simp [Op.tokens, Token.isReadable, target label (by rw [op]; rfl)]

end Instruction

/-- The text of an operation is its tokens with spaces between them. -/
theorem Op.toList_render (op : Op) :
    op.render.toList = (" ".intercalate (op.tokens.map Token.text)).toList := by
  have zero : (Text.Decimal.written 0).toList = ['0'] := by decide
  have one : (Text.Decimal.written 1).toList = ['1'] := by decide
  cases op <;> simp [render, tokens, Token.text, zero, one]

namespace Instruction

theorem lineEnd_not_mem_tokens (instruction : Instruction) :
    .lineEnd ∉ instruction.tokens := by
  cases op : instruction.op <;> simp [tokens, Op.tokens, op]

/-- The label column is read as the label, whether or not it fills the column. -/
theorem Writable.tokens_labelColumn {instruction : Instruction} (writable : instruction.Writable)
    (rest : List Char) :
    Token.tokens ((padTo labelWidth (instruction.label.getD "")).toList ++ ']' :: rest) =
      (Token.tokens (']' :: rest)).map fun behind =>
        instruction.label.toList.map .name ++ behind := by
  have apart : ∀ count d, (List.replicate count ' ' ++ ']' :: rest).head? = some d →
      isNameChar d = false := by
    intro count d head
    cases count with
    | zero => cases head; rfl
    | succ count => cases head; rfl
  simp only [padTo, String.toList_append, String.toList_ofList, List.append_assoc]
  cases carried : instruction.label with
  | none => simp [Token.tokens_spaces]
  | some label =>
      have word := writable.label_word label carried
      rw [Option.getD_some, Token.tokens_word word (apart _), Token.tokens_spaces]
      rfl

/-- The text of an instruction is read as its tokens. -/
theorem Writable.tokens_render {instruction : Instruction} (writable : instruction.Writable)
    (rest : List Char) :
    Token.tokens (instruction.render.toList ++ '\n' :: rest) =
      (Token.tokens rest).map fun behind => instruction.tokens ++ .lineEnd :: behind := by
  have parts : instruction.render.toList ++ '\n' :: rest =
      '[' :: ((padTo labelWidth (instruction.label.getD "")).toList ++
        ']' :: ' ' :: (instruction.op.render.toList ++
          ' ' :: '(' :: ((Text.Decimal.written instruction.cycles).toList ++
            ')' :: '\n' :: rest))) := by
    simp [render]
  have bracket := fun cs => @Token.tokens_of_piece '[' cs _ cs _ rfl
  have bracket' := fun cs => @Token.tokens_of_piece ']' cs _ cs _ rfl
  have paren := fun cs => @Token.tokens_of_piece '(' cs _ cs _ rfl
  have paren' := fun cs => @Token.tokens_of_piece ')' cs _ cs _ rfl
  have lineEnd := @Token.tokens_of_piece '\n' rest _ rest _ rfl
  have count : Text.Decimal.written instruction.cycles =
      (Token.number (UInt64.ofNat instruction.cycles)).text :=
    congrArg Text.Decimal.written instruction.op.toNat_ofNat_cycles.symm
  -- Behind every word and number comes a character that cannot go on with it.
  rw [parts, bracket, writable.tokens_labelColumn, bracket', Token.tokens_gap rfl,
    Op.toList_render, Token.tokens_joined writable.isReadable (by rintro d ⟨⟩; rfl),
    Token.tokens_gap rfl, paren, count, Token.tokens_text rfl (by rintro d ⟨⟩; rfl), paren',
    lineEnd]
  simp only [Option.map_map]
  refine congrArg (Option.map · (Token.tokens rest)) (funext fun behind => ?_)
  simp [tokens]

end Instruction

/-- The tokens of the lines of some instructions. -/
def lineTokens (instructions : List Instruction) : List Token :=
  instructions.flatMap fun instruction => instruction.tokens ++ [.lineEnd]

theorem tokens_lines {instructions : List Instruction}
    (writable : ∀ instruction ∈ instructions, instruction.Writable) :
    Token.tokens (String.join (instructions.map fun instruction =>
      instruction.render ++ "\n")).toList = some (lineTokens instructions) := by
  induction instructions with
  | nil => exact Token.tokens_nil
  | cons instruction instructions ih =>
      rw [List.forall_mem_cons] at writable
      have lineBreak : "\n".toList = ['\n'] := rfl
      rw [List.map_cons, String.join_cons, String.toList_append, String.toList_append,
        List.append_assoc, lineBreak, List.singleton_append, writable.1.tokens_render,
        ih writable.2]
      simp [lineTokens]

namespace Source

/-! ## Reading lines -/

/-- The tokens up to the end of a line are the line. -/
theorem tokenLines_append (stop : Nat) {line : List Lexeme} (span : Span) (rest : List Lexeme)
    (inside : .lineEnd ∉ line.map Lexeme.token) :
    tokenLines stop (line ++ ⟨.lineEnd, span⟩ :: rest) =
      ⟨line, span, true⟩ :: tokenLines stop rest := by
  induction line with
  | nil => simp [tokenLines]
  | cons lexeme line ih =>
      rw [List.map_cons, List.mem_cons, not_or] at inside
      rw [List.cons_append, tokenLines, if_neg (Ne.symm inside.1), ih inside.2]

/-- A line that holds an instruction in full is read as that instruction. -/
theorem read?_of_tokens {line : TokenLine} {instruction : Instruction}
    (named : ∀ var, instruction.var? = some var → isVariableName var = true)
    (written : line.lexemes.map Lexeme.token = instruction.tokens) :
    ∃ span, Line.read? line = some (.ok ⟨instruction.orphan, span⟩) := by
  cases lexemes : line.lexemes with
  | nil => simp [lexemes, Instruction.tokens] at written
  | cons first rest =>
      refine ⟨Line.wholeSpan line first.span, ?_⟩
      rw [Line.read?, lexemes]
      refine congrArg some (Line.readFrom_eq_ok_iff.mpr ⟨?_, rfl, named, rfl⟩)
      rw [written]
      exact Line.writes_tokens instruction.orphan

/-- Lines that hold instructions in full are read as those instructions. -/
theorem readLines_of_tokens (stop : Nat) {instructions : List Instruction}
    {lexemes : List Lexeme}
    (named : ∀ instruction ∈ instructions, ∀ var, instruction.var? = some var →
      isVariableName var = true)
    (written : lexemes.map Lexeme.token = lineTokens instructions) :
    ∃ lines : List Line, readLines stop lexemes = lines.map .ok ∧
      lines.map Line.instruction = instructions.map Instruction.orphan := by
  induction instructions generalizing lexemes with
  | nil =>
      obtain rfl := List.map_eq_nil_iff.mp written
      exact ⟨[], rfl, rfl⟩
  | cons instruction instructions ih =>
      rw [List.forall_mem_cons] at named
      rw [lineTokens, List.flatMap_cons, List.append_assoc] at written
      obtain ⟨line, behind, rfl, atLine, atEnd⟩ := List.map_eq_append_iff.mp written
      obtain ⟨⟨_, span⟩, rest, rfl, rfl, below⟩ := List.map_eq_cons_iff.mp atEnd
      obtain ⟨lines, read, same⟩ := ih named.2 below
      have inside : .lineEnd ∉ line.map Lexeme.token :=
        atLine ▸ instruction.lineEnd_not_mem_tokens
      obtain ⟨whole, first⟩ := @read?_of_tokens ⟨line, span, true⟩ instruction named.1 atLine
      refine ⟨⟨instruction.orphan, whole⟩ :: lines, ?_, congrArg (_ :: ·) same⟩
      rw [readLines, tokenLines_append stop span rest inside, List.filterMap_cons, first]
      exact congrArg (_ :: ·) read

theorem untilFault_map_ok (count : Nat) (lines : List Line) :
    untilFault (count + 1) (lines.map .ok) = lines.map .ok := by
  induction lines with
  | nil => rfl
  | cons line lines ih => exact congrArg (_ :: ·) ih

theorem Assembly.foldl_add_ok {assembly : Assembly} {lines : List Line} {program : Program}
    (pushed : (lines.map Line.instruction).foldlM Program.pushed assembly.program = .ok program) :
    (lines.map Except.ok).foldl add assembly = { assembly with program } := by
  induction lines generalizing assembly with
  | nil => rw [← Except.ok.inj pushed]; rfl
  | cons line lines ih =>
      rw [List.map_cons, List.foldlM_cons, Line.bind_eq_ok_iff] at pushed
      obtain ⟨next, first, rest⟩ := pushed
      rw [List.map_cons, List.foldl_cons, add_of_pushed first]
      exact @ih { assembly with program := next } rest

/-- Lines that can all be read become the program of their instructions. -/
theorem assemble_map_ok {name : String} {lines : List Line} {program : Program}
    (built : Program.ofInstructions name (lines.map Line.instruction) = .ok program) :
    assemble name (lines.map .ok) = .ok program := by
  have whole := @Assembly.foldl_add_ok { program := Program.named name } lines program built
  rw [assemble, whole]
  rfl

end Source

namespace Program

/-! ## Copies without parents -/

/-- The program with these instructions that knows nothing of their origins. -/
def orphaned (program : Program) (name : String) : Program :=
  (program.instructions.map Instruction.orphan).foldl append (named name)

/-- A program that has the code of another one and knows nothing of its origins. -/
structure OrphanedCopy (copy program : Program) : Prop where
  instructions_eq : copy.instructions = program.instructions.map Instruction.orphan
  labels_eq : copy.labels = program.labels
  inputs_eq : copy.inputs = program.inputs
  maxDegree_eq : copy.maxDegree = program.maxDegree
  origins_eq : copy.origins = []

theorem instructions_orphaned (program : Program) (name : String) :
    (program.orphaned name).instructions = program.instructions.map Instruction.orphan :=
  instructions_foldl_append (named name) _

theorem name_foldl_append (program : Program) (more : List Instruction) :
    (more.foldl append program).name = program.name := by
  induction more generalizing program with
  | nil => rfl
  | cons instruction more ih => exact ih (program.append instruction)

theorem name_orphaned (program : Program) (name : String) :
    (program.orphaned name).name = name :=
  name_foldl_append (named name) _

/-- The tables of a program do not depend on parents. -/
theorem Consistent.orphanedCopy {program : Program} (consistent : program.Consistent)
    (name : String) : (program.orphaned name).OrphanedCopy program := by
  have consistent' : (program.orphaned name).Consistent := (consistent_named name).foldl_append _
  constructor
  case instructions_eq => exact program.instructions_orphaned name
  case labels_eq =>
    refine NameTable.eq_of_get?_eq fun label => ?_
    rw [consistent'.labels_eq, consistent.labels_eq, instructions_orphaned, List.findIdx?_map]
    rfl
  case inputs_eq =>
    refine NameSet.eq_of_contains_eq fun var => ?_
    rw [consistent'.inputs_eq, consistent.inputs_eq, instructions_orphaned, List.any_map]
    rfl
  case maxDegree_eq =>
    rw [consistent'.degree_eq, consistent.degree_eq, instructions_orphaned, List.map_map]
    rfl
  case origins_eq => exact origins_foldl_append _ _

/-- The instructions of a well-formed program make up a program again without their parents. -/
theorem WellFormed.ofInstructions_orphan {program : Program} (wellFormed : program.WellFormed)
    (name : String) :
    ofInstructions name (program.instructions.map Instruction.orphan) =
      .ok (program.orphaned name) := by
  refine (wellFormed_named name).foldlM_push_of_nodup ?_
  rw [instructions_named, List.nil_append, List.filterMap_map]
  exact wellFormed.unique

/-- Parents are not written. -/
theorem sourceText_orphaned (program : Program) (name : String) :
    (program.orphaned name).sourceText = program.sourceText := by
  rw [sourceText, instructions_orphaned, List.map_map]
  rfl

/-- A program that a text can hold. -/
def Writable (program : Program) : Prop :=
  ∀ instruction ∈ program.instructions, instruction.Writable

end Program

/-- The source text of a program that can be written is read as a copy of the program. -/
theorem Source.parse_sourceText {program : Program} (wellFormed : program.WellFormed)
    (writable : program.Writable) (name : String) :
    parse name program.sourceText = .ok (program.orphaned name) := by
  obtain ⟨lexemes, lexed, written⟩ := @Token.lex_eq_ok_of_tokens program.sourceText _
    (tokens_lines writable)
  obtain ⟨lines, read, same⟩ := readLines_of_tokens program.sourceText.utf8ByteSize
    (fun instruction member => (writable instruction member).var_named) written
  have built := wellFormed.ofInstructions_orphan name
  rw [← same] at built
  rw [parse, lexed]
  show assemble name (untilFault maxFaults (readLines _ _)) = _
  rw [read, maxFaults, untilFault_map_ok, assemble_map_ok built]

/-! ## Programs from a text -/

namespace Source

theorem mem_of_mem_tokenLines {stop : Nat} {lexemes : List Lexeme} {line : TokenLine}
    {lexeme : Lexeme} (found : line ∈ tokenLines stop lexemes) (member : lexeme ∈ line.lexemes) :
    lexeme ∈ lexemes := by
  induction lexemes generalizing line with
  | nil =>
      obtain rfl := List.mem_singleton.mp found
      cases member
  | cons first rest ih =>
      rw [tokenLines] at found
      split at found
      · rcases List.mem_cons.mp found with rfl | below
        · cases member
        · exact List.mem_cons_of_mem _ (ih below member)
      · split at found
        · obtain rfl := List.mem_singleton.mp found
          exact List.mem_singleton.mp member ▸ List.mem_cons_self
        · next second lines after =>
            rcases List.mem_cons.mp found with rfl | below
            · rcases List.mem_cons.mp member with rfl | behind
              · exact List.mem_cons_self
              · exact List.mem_cons_of_mem _ (ih (after ▸ List.mem_cons_self) behind)
            · exact List.mem_cons_of_mem _ (ih (after ▸ List.mem_cons_of_mem _ below) member)

theorem mem_of_mem_untilFault {count : Nat} {results : List (Except LineError Line)}
    {result : Except LineError Line} (member : result ∈ untilFault count results) :
    result ∈ results := by
  fun_induction untilFault count results with
  | case1 => cases member
  | case2 => cases member
  | case3 count line rest ih =>
      rcases List.mem_cons.mp member with rfl | behind
      · exact List.mem_cons_self
      · exact List.mem_cons_of_mem _ (ih behind)
  | case4 count error rest ih =>
      rcases List.mem_cons.mp member with rfl | behind
      · exact List.mem_cons_self
      · exact List.mem_cons_of_mem _ (ih behind)

end Source

theorem Op.mem_tokens_of_target {op : Op} {target : String} (jumps : op.target? = some target) :
    .name target ∈ op.tokens := by
  cases op with
  | jumpNotZero var label | goto label =>
      obtain rfl := Option.some.inj jumps
      simp [tokens]
  | neutral _ | increase _ | decrease _ | zero _ => cases jumps

/-- An instruction is writable when some tokens with proper names write it. -/
theorem Line.Writes.writable {stream : List Token} {instruction : Instruction}
    (writes : Writes stream instruction)
    (words : ∀ name, .name name ∈ stream → isWord name = true)
    (named : ∀ var, instruction.var? = some var → isVariableName var = true) :
    instruction.Writable where
  label_word label carried := by
    obtain ⟨form, member, cycles, -, rfl⟩ := writes
    rw [carried, labelForms, List.mem_singleton] at member
    exact words label (by simp [member])
  var_named := named
  target_word target jumps := by
    obtain ⟨form, -, cycles, -, rfl⟩ := writes
    exact words target (by simp [Op.mem_tokens_of_target jumps])

namespace Source

/-- What is read from the tokens of a text can be written and has no parent. -/
theorem writable_of_mem_readings {source : String} {lexemes : List Lexeme} {stop : Nat}
    {line : Line} (lexed : Token.lex source = .ok lexemes)
    (member : .ok line ∈ readings stop lexemes) :
    line.instruction.Writable ∧ line.instruction.parent = none := by
  obtain ⟨tokenLine, found, read⟩ := List.mem_filterMap.mp (mem_of_mem_untilFault member)
  unfold Line.read? at read
  split at read
  · cases read
  · obtain ⟨writes, orphan, named, -⟩ := Line.readFrom_eq_ok_iff.mp (Option.some.inj read)
    refine ⟨writes.writable (fun name inside => ?_) named, orphan⟩
    obtain ⟨lexeme, inLine, same⟩ := List.mem_map.mp inside
    have inText : .name name ∈ lexemes.map Lexeme.token :=
      List.mem_map.mpr ⟨lexeme, mem_of_mem_tokenLines found inLine, same⟩
    exact Token.isWord_of_mem_tokens (Token.tokens_of_lex lexed) inText

/-- Readings add instructions of their lines to a program and do nothing else to it. -/
theorem Assembly.exists_foldl_append (assembly : Assembly)
    (readings : List (Except LineError Line)) :
    ∃ more : List Instruction,
      (readings.foldl add assembly).program = more.foldl Program.append assembly.program ∧
        ∀ instruction ∈ more, ∃ line, .ok line ∈ readings ∧ line.instruction = instruction := by
  induction readings generalizing assembly with
  | nil => exact ⟨[], rfl, List.forall_mem_nil _⟩
  | cons reading readings ih =>
      obtain ⟨more, same, lines⟩ := ih (assembly.add reading)
      have behind : ∀ instruction ∈ more, ∃ line, .ok line ∈ reading :: readings ∧
          line.instruction = instruction := by
        intro instruction member
        obtain ⟨line, found, carried⟩ := lines instruction member
        exact ⟨line, List.mem_cons_of_mem _ found, carried⟩
      rw [List.foldl_cons, same]
      cases reading with
      | error error => exact ⟨more, rfl, behind⟩
      | ok line =>
          cases pushed : assembly.program.pushed line.instruction with
          | error error => exact ⟨more, by rw [add_of_refused pushed], behind⟩
          | ok next =>
              rw [add_of_pushed pushed]
              obtain ⟨-, rfl⟩ := Program.pushed_eq_ok_iff.mp pushed
              refine ⟨line.instruction :: more, rfl, List.forall_mem_cons.mpr ⟨?_, behind⟩⟩
              exact ⟨line, List.mem_cons_self, rfl⟩

/-- A program from a text is made of writable instructions without parents. -/
theorem exists_instructions_of_parse {name source : String} {program : Program}
    (parsed : parse name source = .ok program) :
    ∃ instructions : List Instruction,
      program = instructions.foldl Program.append (Program.named name) ∧
        ∀ instruction ∈ instructions, instruction.Writable ∧ instruction.parent = none := by
  obtain ⟨lexemes, lexed, rfl⟩ := exists_assembly_of_parse parsed
  obtain ⟨more, same, lines⟩ := Assembly.exists_foldl_append { program := Program.named name }
    (readings source.utf8ByteSize lexemes)
  refine ⟨more, same, fun instruction member => ?_⟩
  obtain ⟨line, found, rfl⟩ := lines instruction member
  exact writable_of_mem_readings lexed found

/-- A program from a text can be written. -/
theorem writable_of_parse {name source : String} {program : Program}
    (parsed : parse name source = .ok program) : program.Writable := by
  obtain ⟨instructions, rfl, each⟩ := exists_instructions_of_parse parsed
  exact Program.forall_mem_foldl_append (List.forall_mem_nil _) fun instruction member =>
    (each instruction member).1

end Source

/-! ## Lowering -/

/-- The names that label loops are words. -/
theorem isWord_numbered_label (number : Nat) : isWord (numbered labelLetter number) = true := by
  have identifier : isLabelName (numbered labelLetter number) = true := by
    have digits := Token.isNumeral_toDigits number
    rw [Text.Decimal.isNumeral, Bool.and_eq_true, List.all_eq_true] at digits
    rw [isLabelName, numbered, String.toList_ofList, isIdentifier, Bool.and_eq_true,
      List.all_eq_true]
    exact ⟨rfl, fun c member => by simp [isNameChar, Char.isAlphanum, digits.2 c member]⟩
  have other : ∀ keyword : String, keyword.toList.head? ≠ some labelLetter →
      numbered labelLetter number ≠ keyword := by
    rintro keyword differs rfl
    exact differs (by rw [numbered, String.toList_ofList]; rfl)
  simp only [isWord, Bool.and_eq_true, bne_iff_ne]
  exact ⟨⟨identifier, other _ (by decide)⟩, other _ (by decide)⟩

/-- Lowering to any degree keeps a program writable. -/
theorem Program.Writable.lowerTo {program lowered : Program} (writable : program.Writable)
    {degree : Nat} (lowering : program.lowerTo degree = .ok lowered) : lowered.Writable := by
  have named := namedBy_lowerTo isWord_numbered_label lowering fun instruction member =>
    Instruction.writable_iff.mp (writable instruction member)
  exact fun instruction member => Instruction.writable_iff.mpr (named instruction member)

/-- A program from a text can be lowered to every degree up to its own.  The source text of the
result is read as a copy of the result, and the copy has the same text. -/
theorem Source.lowered_text_reads_back {name source : String} {program : Program}
    (parsed : parse name source = .ok program) {degree : Nat}
    (within : degree ≤ program.maxDegree) (again : String) :
    ∃ lowered copy, program.lowerTo degree = .ok lowered ∧
      parse again lowered.sourceText = .ok copy ∧ copy.name = again ∧
        copy.OrphanedCopy lowered ∧ copy.sourceText = lowered.sourceText := by
  obtain ⟨lowered, lowering⟩ : ∃ lowered, program.lowerTo degree = .ok lowered := by
    rw [Program.lowerTo, if_neg (Nat.not_lt.mpr within)]
    exact ⟨_, rfl⟩
  have wellFormed := (wellFormed_of_parse parsed).lowerTo lowering
  have writable := (writable_of_parse parsed).lowerTo lowering
  exact ⟨lowered, lowered.orphaned again, lowering, parse_sourceText wellFormed writable again,
    lowered.name_orphaned again, wellFormed.toConsistent.orphanedCopy again,
    lowered.sourceText_orphaned again⟩

namespace Source

/-- Moves the input to the output.  One label is longer than its column, one looks like a
variable, and the names `L1` and `z1` are taken. -/
def moveText : String :=
  "# moves x1 to y\n[] z1 <- 0\nGOTO LAST_LINE (1)\n[y] x1 <- x1 - 1\r\n" ++
    "\t[L1] y <- y + 1 (1)\n\n[LAST_LINE] IF x1 != 0 GOTO y"

/-- What the text is read as. -/
def moveProgram : Program :=
  [ { op := .zero "z1" },
    { op := .goto "LAST_LINE" },
    { op := .decrease "x1", label := some "y" },
    { op := .increase "y", label := some "L1" },
    { op := .jumpNotZero "x1" "y", label := some "LAST_LINE" } ].foldl Program.append
      (Program.named "move")

theorem lowered_text_reads_back_move :
    parse "move" moveText = .ok moveProgram ∧ moveProgram.maxDegree = 1 ∧
      ∃ lowered copy, moveProgram.lowerTo 0 = .ok lowered ∧
        parse "again" lowered.sourceText = .ok copy ∧ copy.name = "again" ∧
          copy.OrphanedCopy lowered ∧ copy.sourceText = lowered.sourceText := by
  have parsed : parse "move" moveText = .ok moveProgram := by decide +kernel
  exact ⟨parsed, rfl, lowered_text_reads_back parsed (Nat.zero_le _) "again"⟩

end Source

end RegisterMachine
