import Mathlib.Data.List.Induction
import Mathlib.Data.List.Pairwise
import Mathlib.Data.List.ReduceOption
import RegisterMachine.Proofs.History
import RegisterMachine.Proofs.LineReading
import RegisterMachine.Proofs.LineTable

/-!
# Texts read line by line

Every line of a text comes to nothing, to an instruction or to a fault, and to the
same as when it is a text of its own.  A line with the label of an earlier line is
an error too.  A text without an error is the program of its instructions; of any
other text the first twenty errors are reported, in the order of the lines.  That
reading stops at the twentieth fault cannot be seen.  The span of every error lies
in the text and begins on the line of the error.
-/

namespace RegisterMachine

namespace Source

/-- What a line comes to: nothing, an instruction or a fault. -/
abbrev LineResult := Option (Except LineError Line)

/-- The readings of a line that is a text of its own. -/
def readAlone (line : List Char) : Except LexError (List (Except LineError Line)) :=
  (Token.lex (String.ofList line)).map (readings (String.ofList line).utf8ByteSize)

/-- What some lines come to when each is a text of its own, with the results moved to where the
lines stand.  The first line begins at byte `offset`. -/
inductive ReadAlone : Nat → List (List Char) → List LineResult → Prop
  | nil {offset : Nat} : ReadAlone offset [] []
  | cons {offset : Nat} {line : List Char} {lines : List (List Char)} {result : LineResult}
      {results : List LineResult} (alone : readAlone line = .ok result.toList)
      (below : ReadAlone (offset + Text.byteLength line) lines results) :
      ReadAlone offset (line :: lines) (result.map (Line.shiftResult offset) :: results)

/-- A line is read and carries this label. -/
def LabelAt (results : List LineResult) (index : Nat) (label : String) : Prop :=
  ∃ line, results[index]? = some (some (.ok line)) ∧ line.instruction.label = some label

/-- A line has this error: it has a fault, or it carries the label of an earlier line. -/
inductive ErrorAt (results : List LineResult) (index : Nat) : LineError → Prop
  | fault {error : LineError} (found : results[index]? = some (some (.error error))) :
      ErrorAt results index error
  | repeated {line : Line} {label : String} {earlier first second : Nat}
      (found : results[index]? = some (some (.ok line)))
      (carried : line.instruction.label = some label) (above : earlier < index)
      (bound : LabelAt results earlier label) :
      ErrorAt results index ⟨.instruction (.duplicateLabel label first second), line.span⟩

/-- A span lies in a text and begins on the line with this index. -/
structure BeginsOn (source : String) (index : Nat) (span : Span) : Prop where
  start_le_stop : span.start ≤ span.stop
  stop_le : span.stop ≤ source.utf8ByteSize
  line_eq : ((LineMap.ofString source).lookup span.start).line = index + 1

/-- The instructions of the lines that are read. -/
def instructionsOf (results : List LineResult) : List Instruction :=
  (goodLines results.reduceOption).map Line.instruction

/-- The lines that have an error, in order, with an error for each of them. -/
structure AllErrors (results : List LineResult) (failing : List Nat) (errors : List LineError) :
    Prop where
  increasing : failing.Pairwise (· < ·)
  mem_iff : ∀ index, index ∈ failing ↔ ∃ error, ErrorAt results index error
  errors_at : List.Forall₂ (ErrorAt results) failing errors

/-- The results of its lines decide what a text is read as. -/
structure LineByLine (name source : String) (results : List LineResult) : Prop where
  accepts_iff : (∃ program, parse name source = .ok program) ↔
    ∀ index error, ¬ ErrorAt results index error
  program_eq : ∀ program, parse name source = .ok program →
    Program.ofInstructions name (instructionsOf results) = .ok program ∧
      program.instructions = instructionsOf results
  errors_eq : ∀ error, parse name source = .error error → ∃ failing errors,
    AllErrors results failing errors ∧ error = .lines (errors.take 20) ∧
      errors.Pairwise fun one other => one.span.start < other.span.start
  error_placed : ∀ index error, ErrorAt results index error → BeginsOn source index error.span

/-! ## Every line by itself -/

/-- A line that is a text of its own is read once. -/
theorem readAlone_of_readLines {line : List Char} {lexemes : List Lexeme} {result : LineResult}
    (scans : Token.Scans 0 line lexemes)
    (read : readLines (Text.byteLength line) lexemes = result.toList) :
    readAlone line = .ok result.toList := by
  have lexed : Token.lex (String.ofList line) = .ok lexemes := by
    rw [Token.lex, String.toList_ofList]
    exact Token.scan_eq_ok_iff.mpr scans
  rw [readAlone, lexed, Text.utf8ByteSize_ofList, Except.map, readings, read, maxFaults,
    untilFault_toList]

theorem readLines_append (stop : Nat) {line : List Lexeme} (span : Span) (rest : List Lexeme)
    (single : .lineEnd ∉ line.map Lexeme.token) :
    readLines stop (line ++ ⟨.lineEnd, span⟩ :: rest) =
      (Line.read? ⟨line, span, true⟩).toList ++ readLines stop rest := by
  rw [readLines, tokenLines_append stop span rest single, List.filterMap_cons]
  cases Line.read? ⟨line, span, true⟩ <;> rfl

/-- The last line of a text comes to what it comes to alone. -/
theorem readAlone_last {offset : Nat} {line : List Char} {lexemes : List Lexeme}
    (scans : Token.Scans offset line lexemes) (single : '\n' ∉ line) :
    ∃ result : LineResult, readAlone line = .ok result.toList ∧
      Line.read? ⟨lexemes, Span.point (offset + Text.byteLength line), false⟩ =
        result.map (Line.shiftResult offset) := by
  obtain ⟨alone, scanned, rfl⟩ := @Token.Scans.exists_of_shift offset 0 line lexemes scans
  have read := @readLines_of_single (Text.byteLength line) alone
    (scanned.lineEnd_not_mem single)
  exact ⟨_, readAlone_of_readLines scanned read,
    Line.read?_shift offset ⟨alone, Span.point (Text.byteLength line), false⟩⟩

/-- A line with its newline comes to what it comes to alone. -/
theorem readAlone_newline {offset : Nat} {line : List Char} {lexemes : List Lexeme}
    (scans : Token.Scans offset line lexemes) (single : '\n' ∉ line) :
    ∃ result : LineResult, readAlone (line ++ ['\n']) = .ok result.toList ∧
      Line.read? ⟨lexemes, (Token.newlineAt (offset + Text.byteLength line)).span, true⟩ =
        result.map (Line.shiftResult offset) := by
  obtain ⟨alone, scanned, rfl⟩ := @Token.Scans.exists_of_shift offset 0 line lexemes scans
  have whole := scanned.join_at_newline .nil
  rw [Nat.zero_add] at whole
  have read := readLines_append (Text.byteLength (line ++ ['\n']))
    (Token.newlineAt (Text.byteLength line)).span [] (scanned.lineEnd_not_mem single)
  exact ⟨_, readAlone_of_readLines whole (read.trans (List.append_nil _)),
    Line.read?_shift offset ⟨alone, (Token.newlineAt (Text.byteLength line)).span, true⟩⟩

/-- The result of each line lies on its line of the text `cs`, which begins at byte `offset`. -/
def Placed (offset : Nat) (cs : List Char) (results : List LineResult) : Prop :=
  ∀ index result, results[index]? = some (some result) →
    offset ≤ (Line.spanOf result).start ∧
      (Line.spanOf result).start ≤ (Line.spanOf result).stop ∧
        (Line.spanOf result).stop ≤ offset + Text.byteLength cs ∧
          (Text.locate (Text.lines cs) ((Line.spanOf result).start - offset)).1 = index

/-- A span begins in a line that begins at byte `offset`, or right behind it, and ends at `stop`
at the latest. -/
def BeginsIn (offset : Nat) (line : List Char) (stop : Nat) (span : Span) : Prop :=
  offset ≤ span.start ∧ span.start ≤ offset + Text.byteLength line ∧ span.start ≤ span.stop ∧
    span.stop ≤ stop

theorem BeginsIn.merge {offset stop : Nat} {line : List Char} (a b : Span)
    (first : BeginsIn offset line stop a) (second : BeginsIn offset line stop b) :
    BeginsIn offset line stop (a.merge b) := by
  simp only [BeginsIn, Span.merge] at *
  omega

/-- The result of a line begins in it. -/
theorem beginsIn_of_read? {offset stop : Nat} {line : List Char} {tokens : TokenLine}
    {result : Except LineError Line} (scans : Token.Scans offset line tokens.lexemes)
    (long : offset + Text.byteLength line ≤ stop) (ends : BeginsIn offset line stop tokens.ending)
    (read : Line.read? tokens = some result) :
    BeginsIn offset line stop (Line.spanOf result) := by
  refine Line.read?_within BeginsIn.merge (fun lexeme member => ?_) ends read
  have inside := scans.span_within lexeme member
  unfold BeginsIn
  omega

theorem placed_last {offset : Nat} {line : List Char} {result : LineResult}
    (single : '\n' ∉ line) (inside : ∀ found, result = some found →
      BeginsIn offset line (offset + Text.byteLength line) (Line.spanOf found)) :
    Placed offset line [result] := by
  intro index found place
  cases index with
  | zero =>
      obtain ⟨start, near, order, stop⟩ := inside found (Option.some.inj place)
      refine ⟨start, order, stop, ?_⟩
      rw [Text.lines_of_single single]
      exact Text.locate_first (by omega)
  | succ index => cases place

theorem placed_next {offset : Nat} {line rest : List Char} {result : LineResult}
    {results : List LineResult} (single : '\n' ∉ line) (inside : ∀ found, result = some found →
      BeginsIn offset line (offset + Text.byteLength line + 1) (Line.spanOf found))
    (below : Placed (offset + Text.byteLength line + 1) rest results) :
    Placed offset (line ++ '\n' :: rest) (result :: results) := by
  intro index found place
  rw [Text.lines_append single, Text.byteLength_append_newline]
  cases index with
  | zero =>
      obtain ⟨start, near, order, stop⟩ := inside found (Option.some.inj place)
      exact ⟨start, order, by omega, Text.locate_first (by omega)⟩
  | succ index =>
      obtain ⟨start, order, stop, located⟩ := below index found place
      refine ⟨by omega, order, by omega, ?_⟩
      have distance : (Line.spanOf found).start - offset = Text.byteLength line + 1 +
          ((Line.spanOf found).start - (offset + Text.byteLength line + 1)) := by omega
      rw [distance, Text.locate_behind (Text.lines_ne_nil rest), located]

/-- The lines of a text are read one by one, each as if it were alone, and the results lie
on their lines. -/
theorem exists_results {offset : Nat} {cs : List Char} {lexemes : List Lexeme}
    (scans : Token.Scans offset cs lexemes) :
    ∃ results, ReadAlone offset (Text.physicalLines cs) results ∧
      readLines (offset + Text.byteLength cs) lexemes = results.reduceOption ∧
        Placed offset cs results := by
  -- The text is taken line by line, so the offset is general.
  induction cs using Text.line_induction generalizing offset lexemes with
  | last line single =>
      obtain ⟨result, alone, read⟩ := readAlone_last scans single
      refine ⟨[result.map (Line.shiftResult offset)], ?_, ?_, ?_⟩
      · rw [Text.physicalLines_of_single single]
        exact .cons alone .nil
      · rw [readLines_of_single (scans.lineEnd_not_mem single), read, List.reduceOption_singleton]
      · rw [← read]
        refine placed_last single fun found => ?_
        exact beginsIn_of_read? scans (Nat.le_refl _)
          ⟨Nat.le_add_right _ _, Nat.le_refl _, Nat.le_refl _, Nat.le_refl _⟩
  | next line rest single ih =>
      obtain ⟨front, back, first, second, rfl⟩ := scans.split_at_newline
      obtain ⟨result, alone, read⟩ := readAlone_newline first single
      obtain ⟨results, below, readBelow, placed⟩ := ih second
      refine ⟨result.map (Line.shiftResult offset) :: results, ?_, ?_, ?_⟩
      · rw [Text.physicalLines_append single]
        refine .cons alone ?_
        rw [Text.byteLength_append, ← Nat.add_assoc]
        exact below
      · have size : offset + Text.byteLength (line ++ '\n' :: rest) =
            offset + Text.byteLength line + 1 + Text.byteLength rest := by
          rw [Text.byteLength_append_newline]
          omega
        rw [size, Token.newlineAt, readLines_append _ _ back (first.lineEnd_not_mem single),
          readBelow, ← List.singleton_append, List.reduceOption_append,
          List.reduceOption_singleton, ← read]
        rfl
      · rw [← read]
        refine placed_next single (fun found => ?_) placed
        exact beginsIn_of_read? first (Nat.le_succ _)
          ⟨Nat.le_add_right _ _, Nat.le_refl _, Nat.le_succ _, Nat.le_refl _⟩

/-! ## Errors of more lines -/

theorem ErrorAt.lt_length {results : List LineResult} {index : Nat} {error : LineError}
    (failed : ErrorAt results index error) : index < results.length := by
  cases failed with
  | fault found => exact (List.getElem?_eq_some_iff.mp found).1
  | repeated found => exact (List.getElem?_eq_some_iff.mp found).1

/-- The errors of a line depend on the lines up to it. -/
theorem ErrorAt.of_same {results results' : List LineResult} {index : Nat} {error : LineError}
    (same : ∀ earlier ≤ index, results[earlier]? = results'[earlier]?)
    (failed : ErrorAt results index error) : ErrorAt results' index error := by
  cases failed with
  | fault found => exact .fault ((same index (Nat.le_refl _)).symm.trans found)
  | repeated found carried above bound =>
      obtain ⟨line, found', carried'⟩ := bound
      exact .repeated ((same index (Nat.le_refl _)).symm.trans found) carried above
        ⟨line, (same _ (Nat.le_of_lt above)).symm.trans found', carried'⟩

theorem errorAt_append_iff {results : List LineResult} {result : LineResult} {index : Nat}
    {error : LineError} (inside : index < results.length) :
    ErrorAt (results ++ [result]) index error ↔ ErrorAt results index error := by
  have same : ∀ earlier ≤ index, (results ++ [result])[earlier]? = results[earlier]? :=
    fun earlier above => List.getElem?_append_left (Nat.lt_of_le_of_lt above inside)
  exact ⟨.of_same same, .of_same fun earlier above => (same earlier above).symm⟩

/-- A line behind the others has a fault, or a label that one of them carries. -/
theorem errorAt_length_iff {results : List LineResult} {result : LineResult}
    {error : LineError} : ErrorAt (results ++ [result]) results.length error ↔
      result = some (.error error) ∨
        ∃ line label first second, result = some (.ok line) ∧
          line.instruction.label = some label ∧
          (∃ earlier, some (.ok earlier) ∈ results ∧ earlier.instruction.label = some label) ∧
            error = ⟨.instruction (.duplicateLabel label first second), line.span⟩ := by
  have last : (results ++ [result])[results.length]? = some result := List.getElem?_concat_length
  constructor
  · intro failed
    cases failed with
    | fault found => exact .inl (Option.some.inj (last.symm.trans found))
    | repeated found carried above bound =>
        obtain ⟨earlier, found', carried'⟩ := bound
        rw [List.getElem?_append_left above] at found'
        exact .inr ⟨_, _, _, _, Option.some.inj (last.symm.trans found), carried,
          ⟨earlier, List.mem_of_getElem? found', carried'⟩, rfl⟩
  · rintro (rfl | ⟨line, label, first, second, rfl, carried, ⟨earlier, member, carried'⟩, rfl⟩)
    · exact .fault last
    · obtain ⟨index, found⟩ := List.mem_iff_getElem?.mp member
      have above := (List.getElem?_eq_some_iff.mp found).1
      exact .repeated last carried above
        ⟨earlier, (List.getElem?_append_left above).trans found, carried'⟩

theorem errorAt_append_cases {results : List LineResult} {result : LineResult} {index : Nat}
    {error : LineError} (failed : ErrorAt (results ++ [result]) index error) :
    ErrorAt results index error ∨ index = results.length := by
  have inside := failed.lt_length
  rw [List.length_append, List.length_singleton] at inside
  rcases Nat.lt_succ_iff_lt_or_eq.mp inside with above | last
  · exact .inl ((errorAt_append_iff above).mp failed)
  · exact .inr last

namespace AllErrors

variable {results : List LineResult} {failing : List Nat} {errors : List LineError}
  {result : LineResult}

theorem errors_at_append (all : AllErrors results failing errors) :
    List.Forall₂ (ErrorAt (results ++ [result])) failing errors :=
  all.errors_at.imp fun _ _ failed => (errorAt_append_iff failed.lt_length).mpr failed

theorem lt_length (all : AllErrors results failing errors) :
    ∀ index ∈ failing, index < results.length := by
  intro index member
  obtain ⟨error, failed⟩ := (all.mem_iff index).mp member
  exact failed.lt_length

theorem errors_eq_nil_iff (all : AllErrors results failing errors) :
    errors = [] ↔ ∀ index error, ¬ ErrorAt results index error := by
  rw [← List.length_eq_zero_iff, ← all.errors_at.length_eq, List.length_eq_zero_iff,
    List.eq_nil_iff_forall_not_mem]
  refine forall_congr' fun index => ?_
  rw [all.mem_iff, not_exists]

/-- A line without an error adds nothing. -/
theorem keep (all : AllErrors results failing errors)
    (clean : ∀ error, ¬ ErrorAt (results ++ [result]) results.length error) :
    AllErrors (results ++ [result]) failing errors := by
  refine ⟨all.increasing, fun index => ?_, all.errors_at_append⟩
  rw [all.mem_iff]
  constructor
  · rintro ⟨error, failed⟩
    exact ⟨error, (errorAt_append_iff failed.lt_length).mpr failed⟩
  · rintro ⟨error, failed⟩
    rcases errorAt_append_cases failed with above | rfl
    · exact ⟨error, above⟩
    · exact absurd failed (clean error)

/-- A line with an error comes last. -/
theorem add (all : AllErrors results failing errors) {error : LineError}
    (failed : ErrorAt (results ++ [result]) results.length error) :
    AllErrors (results ++ [result]) (failing ++ [results.length]) (errors ++ [error]) := by
  refine ⟨?_, fun index => ?_, List.rel_append all.errors_at_append (.cons failed .nil)⟩
  · refine List.pairwise_append.mpr ⟨all.increasing, List.pairwise_singleton _ _, ?_⟩
    intro index member last isLast
    rw [List.mem_singleton.mp isLast]
    exact all.lt_length index member
  · rw [List.mem_append, List.mem_singleton, all.mem_iff]
    constructor
    · rintro (⟨error, above⟩ | rfl)
      · exact ⟨error, (errorAt_append_iff above.lt_length).mpr above⟩
      · exact ⟨error, failed⟩
    · rintro ⟨error, failed⟩
      exact (errorAt_append_cases failed).imp_left fun above => ⟨error, above⟩

end AllErrors

/-! ## Assembling the lines -/

theorem instructionsOf_concat (results : List LineResult) (result : LineResult) :
    instructionsOf (results ++ [result]) = instructionsOf results ++ instructionsOf [result] := by
  simp only [instructionsOf, goodLines, List.reduceOption_append, List.filterMap_append,
    List.map_append]

/-- What is known of an assembly of some lines. -/
structure Assembled (name : String) (results : List LineResult) (assembly : Assembly) : Prop where
  wellFormed : assembly.program.WellFormed
  carried_iff : ∀ label,
    (∃ instruction ∈ assembly.program.instructions, instruction.label = some label) ↔
      ∃ line, some (.ok line) ∈ results ∧ line.instruction.label = some label
  built : assembly.faults = [] →
    Program.ofInstructions name (instructionsOf results) = .ok assembly.program
  all_errors : ∃ failing, AllErrors results failing assembly.faults.reverse

namespace Assembled

variable {name : String} {results : List LineResult} {assembly : Assembly}

theorem empty (name : String) : Assembled name [] { program := Program.named name } where
  wellFormed := Program.wellFormed_named name
  carried_iff label := by simp
  built _ := rfl
  all_errors := by
    refine ⟨[], List.Pairwise.nil, fun index => iff_of_false List.not_mem_nil ?_, .nil⟩
    rintro ⟨error, failed⟩
    exact Nat.not_lt_zero _ failed.lt_length

/-- One more line that holds nothing. -/
theorem add_nothing (assembled : Assembled name results assembly) :
    Assembled name (results ++ [none]) assembly where
  wellFormed := assembled.wellFormed
  carried_iff label := by simp [assembled.carried_iff]
  built clean := by
    rw [instructionsOf_concat]
    exact (congrArg _ (List.append_nil _)).trans (assembled.built clean)
  all_errors := by
    obtain ⟨failing, all⟩ := assembled.all_errors
    refine ⟨failing, all.keep fun error failed => ?_⟩
    obtain fault | ⟨_, _, _, _, line, -⟩ := errorAt_length_iff.mp failed
    · cases fault
    · cases line

/-- One more line with a fault. -/
theorem add_fault (assembled : Assembled name results assembly) (error : LineError) :
    Assembled name (results ++ [some (.error error)]) (assembly.add (.error error)) where
  wellFormed := assembled.wellFormed
  carried_iff label := by simp [Assembly.add, assembled.carried_iff]
  built clean := by cases clean
  all_errors := by
    obtain ⟨failing, all⟩ := assembled.all_errors
    rw [Assembly.add, List.reverse_cons]
    exact ⟨_, all.add (errorAt_length_iff.mpr (.inl rfl))⟩

/-- One more line that is read and whose instruction can be pushed. -/
theorem add_line (assembled : Assembled name results assembly) {line : Line} {next : Program}
    (pushed : assembly.program.pushed line.instruction = .ok next) :
    Assembled name (results ++ [some (.ok line)]) { assembly with program := next } := by
  have appended := (Program.pushed_eq_ok_iff.mp pushed).2
  constructor
  case wellFormed => exact assembled.wellFormed.push pushed
  case carried_iff =>
    intro label
    simp [appended, or_and_right, exists_or, assembled.carried_iff]
  case built =>
    intro clean
    have before := assembled.built clean
    rw [Program.ofInstructions] at before
    rw [instructionsOf_concat, Program.ofInstructions, List.foldlM_append, before]
    exact Line.bind_eq_ok_iff.mpr
      ⟨assembly.program, rfl, Line.bind_eq_ok_iff.mpr ⟨next, pushed, rfl⟩⟩
  case all_errors =>
    obtain ⟨failing, all⟩ := assembled.all_errors
    refine ⟨failing, all.keep fun error failed => ?_⟩
    obtain fault | ⟨_, label, _, _, read, carried, earlier, -⟩ := errorAt_length_iff.mp failed
    · cases fault
    · cases read
      obtain ⟨instruction, member, same⟩ := (assembled.carried_iff label).mpr earlier
      obtain ⟨position, place⟩ := List.mem_iff_getElem?.mp member
      have refused := assembled.wellFormed.pushed_eq_error_iff.mpr
        ⟨label, position, instruction, carried, place, same, rfl⟩
      rw [pushed] at refused
      cases refused

/-- One more line that is read, with the label of an earlier one. -/
theorem add_repeated (assembled : Assembled name results assembly) {line : Line}
    {error : InstructionError} (refused : assembly.program.pushed line.instruction = .error error) :
    Assembled name (results ++ [some (.ok line)])
      { assembly with faults := ⟨.instruction error, line.span⟩ :: assembly.faults } := by
  obtain ⟨label, position, instruction, carried, place, same, rfl⟩ :=
    assembled.wellFormed.pushed_eq_error_iff.mp refused
  have earlier := (assembled.carried_iff label).mp
    ⟨instruction, List.mem_of_getElem? place, same⟩
  constructor
  case wellFormed => exact assembled.wellFormed
  case carried_iff =>
    intro other
    rw [assembled.carried_iff]
    constructor
    · rintro ⟨found, member, carried⟩
      exact ⟨found, List.mem_append_left _ member, carried⟩
    · rintro ⟨found, member, carried'⟩
      rcases List.mem_append.mp member with above | last
      · exact ⟨found, above, carried'⟩
      · cases List.mem_singleton.mp last
        cases carried.symm.trans carried'
        exact earlier
  case built => exact nofun
  case all_errors =>
    obtain ⟨failing, all⟩ := assembled.all_errors
    rw [List.reverse_cons]
    exact ⟨_, all.add (errorAt_length_iff.mpr
      (.inr ⟨line, label, _, _, rfl, carried, earlier, rfl⟩))⟩

/-- One more line, whatever it comes to. -/
theorem add (assembled : Assembled name results assembly) (result : LineResult) :
    Assembled name (results ++ [result]) (result.toList.foldl Assembly.add assembly) := by
  rcases result with _ | error | line
  · exact assembled.add_nothing
  · exact assembled.add_fault error
  · show Assembled name _ (assembly.add (.ok line))
    cases pushed : assembly.program.pushed line.instruction with
    | ok next => exact Assembly.add_of_pushed pushed ▸ assembled.add_line pushed
    | error error => exact Assembly.add_of_refused pushed ▸ assembled.add_repeated pushed

/-- All lines together. -/
theorem foldl (name : String) (results : List LineResult) :
    Assembled name results
      (results.reduceOption.foldl Assembly.add { program := Program.named name }) := by
  induction results using List.reverseRecOn with
  | nil => exact .empty name
  | append_singleton results result ih =>
      rw [List.reduceOption_append, List.reduceOption_singleton, List.foldl_append]
      exact ih.add result

end Assembled

/-! ## Stopping early -/

/-- Readings are cut off only behind so many faults. -/
theorem untilFault_split (count : Nat) (results : List (Except LineError Line)) :
    ∃ tail, results = untilFault count results ++ tail ∧
      (tail = [] ∨ (faults (untilFault count results)).length = count) := by
  fun_induction untilFault count results with
  | case1 results => exact ⟨results, rfl, .inr rfl⟩
  | case2 count => exact ⟨[], rfl, .inl rfl⟩
  | case3 count line results ih =>
      obtain ⟨tail, split, full⟩ := ih
      exact ⟨tail, congrArg (_ :: ·) split, full⟩
  | case4 count error results ih =>
      obtain ⟨tail, split, full⟩ := ih
      exact ⟨tail, congrArg (_ :: ·) split, full.imp_right (congrArg (· + 1))⟩

/-- Adding readings adds at least one fault for each that is one. -/
theorem foldl_add_faults (assembly : Assembly) (results : List (Except LineError Line)) :
    ∃ more, (results.foldl Assembly.add assembly).faults = more ++ assembly.faults ∧
      (faults results).length ≤ more.length := by
  induction results generalizing assembly with
  | nil => exact ⟨[], rfl, Nat.le_refl _⟩
  | cons result results ih =>
      obtain ⟨more, same, enough⟩ := ih (assembly.add result)
      rw [List.foldl_cons, same]
      cases result with
      | error error =>
          refine ⟨more ++ [error], ?_, ?_⟩
          · rw [Assembly.add, List.append_assoc, List.singleton_append]
          · rw [List.length_append]
            exact Nat.add_le_add_right enough 1
      | ok line =>
          cases pushed : assembly.program.pushed line.instruction with
          | ok next => exact ⟨more, by rw [Assembly.add_of_pushed pushed], enough⟩
          | error error =>
              refine ⟨more ++ [⟨.instruction error, line.span⟩], ?_, ?_⟩
              · rw [Assembly.add_of_refused pushed, List.append_assoc, List.singleton_append]
              · rw [List.length_append]
                exact Nat.le_add_right_of_le enough

theorem assemble_eq_lines {name : String} {results : List (Except LineError Line)}
    (failed : 0 < (results.foldl Assembly.add { program := Program.named name }).faults.length) :
    assemble name results = .error (.lines
      ((results.foldl Assembly.add { program := Program.named name }).faults.reverse.take
        maxFaults)) := by
  rw [assemble, if_neg]
  rw [List.isEmpty_iff, ← List.length_eq_zero_iff]
  omega

/-- What is behind the last fault that is looked at does not matter. -/
theorem assemble_untilFault (name : String) (results : List (Except LineError Line)) :
    assemble name (untilFault maxFaults results) = assemble name results := by
  obtain ⟨tail, split, full⟩ := untilFault_split maxFaults results
  rcases full with rfl | full
  · rw [List.append_nil] at split
    exact congrArg (assemble name) split.symm
  · -- The faults in front are enough, and the tail only adds faults behind them.
    generalize untilFault maxFaults results = front at split full ⊢
    subst split
    obtain ⟨first, same, enough⟩ := foldl_add_faults { program := Program.named name } front
    obtain ⟨more, same', -⟩ :=
      foldl_add_faults (front.foldl Assembly.add { program := Program.named name }) tail
    rw [← List.foldl_append] at same'
    have many : maxFaults ≤
        (front.foldl Assembly.add { program := Program.named name }).faults.length := by
      rw [same, List.length_append, ← full]
      omega
    have positive : 0 < maxFaults := by decide
    rw [assemble_eq_lines (by omega), assemble_eq_lines (by rw [same', List.length_append]; omega),
      same', List.reverse_append, List.take_append_of_le_length (by rwa [List.length_reverse])]

/-! ## Texts -/

theorem ErrorAt.exists_result {results : List LineResult} {index : Nat} {error : LineError}
    (failed : ErrorAt results index error) :
    ∃ result, results[index]? = some (some result) ∧ Line.spanOf result = error.span := by
  cases failed with
  | fault found => exact ⟨_, found, rfl⟩
  | repeated found => exact ⟨_, found, rfl⟩

/-- The error of a line begins on it. -/
theorem Placed.beginsOn {source : String} {results : List LineResult}
    (placed : Placed 0 source.toList results) {index : Nat} {error : LineError}
    (failed : ErrorAt results index error) : BeginsOn source index error.span := by
  obtain ⟨result, found, same⟩ := failed.exists_result
  obtain ⟨-, order, stop, located⟩ := placed index result found
  rw [same] at order stop located
  constructor
  case start_le_stop => exact order
  case stop_le =>
    rw [Nat.zero_add, ← Text.utf8ByteSize_ofList, String.ofList_toList] at stop
    exact stop
  case line_eq =>
    rw [LineMap.lookup_eq_locate]
    exact congrArg (· + 1) located

/-- A span that begins on a later line begins later. -/
theorem BeginsOn.start_lt {source : String} {first second : Nat} {one other : Span}
    (above : first < second) (begins : BeginsOn source first one)
    (begins' : BeginsOn source second other) : one.start < other.start := by
  refine Nat.lt_of_not_le fun order => ?_
  have located := Text.locate_mono (Text.lines source.toList) order
  have line := begins.line_eq
  have line' := begins'.line_eq
  rw [LineMap.lookup_eq_locate] at line line'
  dsimp only at line line'
  omega

/-- The errors of a text come in the order of their places. -/
theorem AllErrors.starts_increase {source : String} {results : List LineResult}
    {failing : List Nat} {errors : List LineError} (all : AllErrors results failing errors)
    (placed : Placed 0 source.toList results) :
    errors.Pairwise fun one other => one.span.start < other.span.start := by
  have increasing := all.increasing
  rw [List.pairwise_iff_get] at increasing ⊢
  intro first second above
  have same := all.errors_at.length_eq
  have failed := fun (place : Fin errors.length) =>
    all.errors_at.get (by rw [same]; exact place.isLt) place.isLt
  refine BeginsOn.start_lt ?_ (placed.beginsOn (failed first)) (placed.beginsOn (failed second))
  exact increasing ⟨first, _⟩ ⟨second, _⟩ above

/-- Lines without an error become the program of their instructions, and otherwise there are
the first twenty errors. -/
theorem assemble_cases (name : String) (results : List LineResult) :
    (∃ program, assemble name results.reduceOption = .ok program ∧
      Program.ofInstructions name (instructionsOf results) = .ok program ∧
        ∀ index error, ¬ ErrorAt results index error) ∨
      ∃ failing errors, assemble name results.reduceOption = .error (.lines (errors.take 20)) ∧
        AllErrors results failing errors ∧ errors ≠ [] := by
  have assembled := Assembled.foldl name results
  obtain ⟨failing, all⟩ := assembled.all_errors
  by_cases clean :
      (results.reduceOption.foldl Assembly.add { program := Program.named name }).faults = []
  · refine .inl ⟨_, ?_, assembled.built clean, ?_⟩
    · rw [assemble, clean]
      rfl
    · exact all.errors_eq_nil_iff.mp (List.reverse_eq_nil_iff.mpr clean)
  · exact .inr ⟨failing, _, assemble_eq_lines (List.length_pos_iff.mpr clean), all,
      mt List.reverse_eq_nil_iff.mp clean⟩

theorem parse_eq_assemble {source : String} {lexemes : List Lexeme} {results : List LineResult}
    (lexed : Token.lex source = .ok lexemes)
    (read : readLines source.utf8ByteSize lexemes = results.reduceOption) (name : String) :
    parse name source = assemble name results.reduceOption := by
  rw [parse, lexed, ← read, ← assemble_untilFault]
  rfl

/-- A text is read line by line: each line counts as if it were alone, a text without an error
is the program of its instructions, and otherwise the first twenty errors are reported. -/
theorem parse_line_by_line {source : String} {lexemes : List Lexeme}
    (lexed : Token.lex source = .ok lexemes) (name : String) :
    ∃ results, ReadAlone 0 (Text.physicalLines source.toList) results ∧
      LineByLine name source results := by
  obtain ⟨results, alone, read, placed⟩ := exists_results (Token.scan_eq_ok_iff.mp lexed)
  rw [Nat.zero_add, ← Text.utf8ByteSize_ofList, String.ofList_toList] at read
  have parsed := parse_eq_assemble lexed read name
  refine ⟨results, alone, ?_⟩
  obtain ⟨program, accepted, built, clean⟩ | ⟨failing, errors, refused, all, failed⟩ :=
    assemble_cases name results
  · rw [← parsed] at accepted
    constructor
    case accepts_iff => exact iff_of_true ⟨program, accepted⟩ clean
    case program_eq =>
      intro other accepted'
      obtain rfl := Except.ok.inj (accepted.symm.trans accepted')
      refine ⟨built, ?_⟩
      rw [Program.foldlM_push_eq_ok built, Program.instructions_foldl_append]
      rfl
    case errors_eq =>
      intro error refused
      cases accepted.symm.trans refused
    case error_placed => exact fun index error => placed.beginsOn
  · rw [← parsed] at refused
    constructor
    case accepts_iff =>
      refine iff_of_false ?_ (mt all.errors_eq_nil_iff.mpr failed)
      rintro ⟨program, accepted⟩
      cases refused.symm.trans accepted
    case program_eq =>
      intro program accepted
      cases refused.symm.trans accepted
    case errors_eq =>
      intro error refused'
      obtain rfl := Except.error.inj (refused.symm.trans refused')
      exact ⟨failing, errors, all, rfl, all.starts_increase placed⟩
    case error_placed => exact fun index error => placed.beginsOn

/-- A text with a label, a comment, the label again and a wrong number, on four lines. -/
theorem parse_line_by_line_four :
    let source := "[A] y <- 0\n# on\n[A] GOTO A\ny <- 1"
    (∃ lexemes, Token.lex source = .ok lexemes) ∧
      ∃ results, ReadAlone 0 (Text.physicalLines source.toList) results ∧
        LineByLine "demo" source results ∧
          ∃ failing errors, AllErrors results failing errors ∧
            errors.take 20 = [⟨.instruction (.duplicateLabel "A" 1 2), ⟨16, 27⟩⟩,
              ⟨.unexpected .variableOrZero (.number 1), ⟨32, 33⟩⟩] := by
  intro source
  have refused : parse "demo" source =
      .error (.lines [⟨.instruction (.duplicateLabel "A" 1 2), ⟨16, 27⟩⟩,
        ⟨.unexpected .variableOrZero (.number 1), ⟨32, 33⟩⟩]) := by decide +kernel
  have lexed : ∃ lexemes, Token.lex source = .ok lexemes := by
    cases read : Token.lex source with
    | ok lexemes => exact ⟨lexemes, rfl⟩
    | error error =>
        rw [parse, read] at refused
        cases refused
  obtain ⟨results, alone, byLine⟩ := parse_line_by_line lexed.choose_spec "demo"
  obtain ⟨failing, errors, all, same, -⟩ := byLine.errors_eq _ refused
  exact ⟨lexed, results, alone, byLine, failing, errors, all, (SourceError.lines.inj same).symm⟩

end Source

end RegisterMachine
