import Mathlib.Data.Nat.Count
import RegisterMachine.Proofs.LineByLine

/-!
# The numbers in errors about labels

A line that carries the label of an earlier line is left out of the program, and its
error numbers two instructions: the one that has the label, and the one that would
have been added.  Both are counted in the program as it is then, so a line that was
left out before is not counted.  In the first error about a label the numbers are
therefore those of the lines, and in every later one the second number is too small
by the number of errors before it.
-/

namespace RegisterMachine

namespace Source

/-- The label of the line at a place. -/
def labelAt? (lines : List Line) (place : Nat) : Option String :=
  lines[place]?.bind fun line => line.instruction.label

/-- The first line that carries a label stands at a place. -/
def FirstAt (lines : List Line) (place : Nat) (label : String) : Prop :=
  labelAt? lines place = some label ∧
    ∀ earlier < place, labelAt? lines earlier ≠ some label

instance (lines : List Line) (place : Nat) (label : String) :
    Decidable (FirstAt lines place label) :=
  inferInstanceAs (Decidable (_ ∧ ∀ earlier < place, labelAt? lines earlier ≠ some label))

/-- The line at a place carries the label of an earlier line. -/
def Repeats (lines : List Line) (place : Nat) : Prop :=
  ∃ label ∈ labelAt? lines place, ∃ earlier < place, labelAt? lines earlier = some label

instance (lines : List Line) (place : Nat) : Decidable (Repeats lines place) :=
  inferInstanceAs
    (Decidable (∃ label ∈ labelAt? lines place, ∃ earlier < place, _ = some label))

/-- The number of lines before a place that carry the label of an earlier line. -/
def leftOut (lines : List Line) (place : Nat) : Nat :=
  Nat.count (Repeats lines) place

/-- The error with some index is about the line at `second`, which carries the label of the line
at `first`. -/
structure LabelError (lines : List Line) (index : Nat) (error : LineError) (label : String)
    (first second : Nat) : Prop where
  firstAt : FirstAt lines first label
  carried : labelAt? lines second = some label
  above : first < second
  /-- Every earlier line that repeats a label has an error of its own. -/
  index_eq : leftOut lines second = index
  span_eq : ∃ line, lines[second]? = some line ∧ error.span = line.span
  /-- The two lines are numbered from one, without the lines that were left out before. -/
  fault_eq : error.fault = .instruction
    (.duplicateLabel label (first + 1 - leftOut lines first) (second + 1 - index))

/-- The two numbers of an error about a label are those of the lines at two places. -/
def NumbersLines (error : LineError) (label : String) (first second : Nat) : Prop :=
  error.fault = .instruction (.duplicateLabel label (first + 1) (second + 1))

/-- The errors of lines that can all be read. -/
structure LabelErrors (lines : List Line) (errors : List LineError) : Prop where
  length_eq : errors.length = min 20 (leftOut lines lines.length)
  each : ∀ index error, errors[index]? = some error → ∃ label first second,
    LabelError lines index error label first second ∧
      (NumbersLines error label first second ↔ index = 0)

/-! ## First places -/

theorem exists_firstAt {lines : List Line} {place : Nat} {label : String}
    (carried : labelAt? lines place = some label) :
    ∃ first ≤ place, FirstAt lines first label := by
  have found : ∃ place, labelAt? lines place = some label := ⟨place, carried⟩
  exact ⟨Nat.find found, Nat.find_min' found carried, Nat.find_spec found,
    fun earlier before => Nat.find_min found before⟩

theorem labelAt?_of_getElem? {lines : List Line} {place : Nat} {line : Line}
    (found : lines[place]? = some line) :
    labelAt? lines place = line.instruction.label := by
  rw [labelAt?, found, Option.bind_some]

theorem repeats_of_carried {lines : List Line} {place first : Nat} {label : String}
    (firstAt : FirstAt lines first label) (above : first < place)
    (carried : labelAt? lines place = some label) : Repeats lines place :=
  ⟨label, carried, first, above, firstAt.1⟩

theorem leftOut_succ_of_repeats {lines : List Line} {place : Nat}
    (repeats : Repeats lines place) : leftOut lines (place + 1) = leftOut lines place + 1 :=
  Nat.count_succ_eq_succ_count_iff.mpr repeats

theorem leftOut_succ_of_not_repeats {lines : List Line} {place : Nat}
    (new : ¬ Repeats lines place) : leftOut lines (place + 1) = leftOut lines place :=
  Nat.count_succ_eq_count_iff.mpr new

/-! ## Assembling lines that can all be read -/

/-- The assembly of the first `count` lines. -/
def assemblyAfter (name : String) (lines : List Line) (count : Nat) : Assembly :=
  ((lines.take count).map Except.ok).foldl Assembly.add { program := Program.named name }

theorem assemblyAfter_succ {name : String} {lines : List Line} {count : Nat} {line : Line}
    (found : lines[count]? = some line) :
    assemblyAfter name lines (count + 1) = (assemblyAfter name lines count).add (.ok line) := by
  rw [assemblyAfter, List.take_add_one, found, List.map_append, List.foldl_append]
  rfl

/-- What is known of the assembly of the first `count` lines. -/
structure Counted (lines : List Line) (count : Nat) (assembly : Assembly) : Prop where
  /-- A line is in the program or left out. -/
  length_eq : assembly.program.length + leftOut lines count = count
  /-- A label is bound where its first line is, without the lines that were left out. -/
  bound : ∀ label first, FirstAt lines first label → first < count →
    ∃ position, assembly.program.labels.get? label = some position ∧
      position + leftOut lines first = first
  unbound : ∀ label, (∀ place < count, labelAt? lines place ≠ some label) →
    assembly.program.labels.get? label = none
  faults_length : assembly.faults.length = leftOut lines count
  each : ∀ index error, assembly.faults.reverse[index]? = some error →
    ∃ label first second, LabelError lines index error label first second

namespace Counted

variable {lines : List Line} {count : Nat} {assembly : Assembly}

theorem empty (name : String) (lines : List Line) :
    Counted lines 0 { program := Program.named name } where
  length_eq := rfl
  bound _ _ _ before := absurd before (Nat.not_lt_zero _)
  unbound _ _ := rfl
  faults_length := rfl
  each _ _ found := by cases found

/-- One more line, with a label that is not carried yet or without a label. -/
theorem add_new (counted : Counted lines count assembly) {line : Line}
    (found : lines[count]? = some line) (new : ¬ Repeats lines count) :
    Counted lines (count + 1) (assembly.add (.ok line)) := by
  have carried := labelAt?_of_getElem? found
  have absent : ∀ label, line.instruction.label = some label →
      assembly.program.labels.get? label = none := by
    intro label labelled
    refine counted.unbound label fun place before same => new ?_
    exact ⟨label, carried.trans labelled, place, before, same⟩
  have pushed : assembly.program.pushed line.instruction =
      .ok (assembly.program.append line.instruction) := by
    refine Program.pushed_eq_ok_iff.mpr ⟨?_, rfl⟩
    cases labelled : line.instruction.label with
    | none => rfl
    | some label => simp [Program.clash?, absent label labelled]
  have table : ∀ label, (assembly.program.append line.instruction).labels.get? label =
      (assembly.program.labels.get? label).or
        (if line.instruction.label = some label then some assembly.program.length else none) :=
    Program.get?_bindLabel assembly.program.labels assembly.program.length line.instruction.label
  have same := leftOut_succ_of_not_repeats new
  rw [Assembly.add_of_pushed pushed]
  constructor
  case length_eq =>
    have before := counted.length_eq
    rw [Program.length_append, same]
    omega
  case bound =>
    intro label first firstAt below
    rw [table]
    rcases Nat.lt_succ_iff_lt_or_eq.mp below with before | rfl
    · obtain ⟨position, bound, counts⟩ := counted.bound label first firstAt before
      exact ⟨position, by rw [bound, Option.some_or], counts⟩
    · have labelled := carried.symm.trans firstAt.1
      refine ⟨assembly.program.length, ?_, counted.length_eq⟩
      rw [absent label labelled, if_pos labelled, Option.none_or]
  case unbound =>
    intro label free
    have other : line.instruction.label ≠ some label :=
      fun labelled => free count (Nat.lt_succ_self _) (carried.trans labelled)
    rw [table, if_neg other, Option.or_none]
    exact counted.unbound label fun place before => free place (Nat.lt_succ_of_lt before)
  case faults_length => exact counted.faults_length.trans same.symm
  case each => exact counted.each

/-- One more line, with the label of an earlier one: it is left out. -/
theorem add_repeated (counted : Counted lines count assembly) {line : Line}
    (found : lines[count]? = some line) (repeats : Repeats lines count) :
    Counted lines (count + 1) (assembly.add (.ok line)) := by
  have carried := labelAt?_of_getElem? found
  obtain ⟨label, labelled, earlier, before, same⟩ := repeats
  obtain ⟨first, near, firstAt⟩ := exists_firstAt same
  have above : first < count := Nat.lt_of_le_of_lt near before
  obtain ⟨position, bound, counts⟩ := counted.bound label first firstAt above
  have refused : assembly.program.pushed line.instruction =
      .error (.duplicateLabel label (position + 1) (assembly.program.length + 1)) := by
    have clash := Program.clash?_eq_some_iff.mpr ⟨carried.symm.trans labelled, bound⟩
    exact Program.pushed_of_clash clash
  have more := leftOut_succ_of_repeats (repeats_of_carried firstAt above labelled)
  have length := counted.length_eq
  rw [Assembly.add_of_refused refused]
  constructor
  case length_eq =>
    show assembly.program.length + leftOut lines (count + 1) = count + 1
    omega
  case bound =>
    intro other place firstAt' below
    rcases Nat.lt_succ_iff_lt_or_eq.mp below with before' | rfl
    · exact counted.bound other place firstAt' before'
    · -- The line that is left out is not the first with its label.
      obtain rfl := Option.some.inj (firstAt'.1.symm.trans labelled)
      exact absurd firstAt.1 (firstAt'.2 first above)
  case unbound =>
    intro other free
    exact counted.unbound other fun place before' => free place (Nat.lt_succ_of_lt before')
  case faults_length => rw [List.length_cons, counted.faults_length, more]
  case each =>
    intro index error listed
    rw [List.reverse_cons] at listed
    rcases Nat.lt_or_ge index assembly.faults.reverse.length with inside | outside
    · rw [List.getElem?_append_left inside] at listed
      exact counted.each index error listed
    · have last : index = assembly.faults.reverse.length := by
        have bound' := (List.getElem?_eq_some_iff.mp listed).1
        rw [List.length_append, List.length_singleton] at bound'
        omega
      rw [last, List.getElem?_concat_length] at listed
      have index_eq : leftOut lines count = index := by
        rw [last, List.length_reverse, counted.faults_length]
      have firstNumber : first + 1 - leftOut lines first = position + 1 := by omega
      have secondNumber : count + 1 - index = assembly.program.length + 1 := by omega
      rw [← Option.some.inj listed]
      refine ⟨label, first, count, firstAt, labelled, above, index_eq, ⟨line, found, rfl⟩, ?_⟩
      rw [firstNumber, secondNumber]

/-- All lines up to some count. -/
theorem assemblyAfter (name : String) (lines : List Line) {count : Nat}
    (short : count ≤ lines.length) : Counted lines count (assemblyAfter name lines count) := by
  induction count with
  | zero => exact .empty name lines
  | succ count ih =>
      have found := List.getElem?_eq_getElem (show count < lines.length from short)
      rw [assemblyAfter_succ found]
      by_cases repeats : Repeats lines count
      · exact (ih (Nat.le_of_succ_le short)).add_repeated found repeats
      · exact (ih (Nat.le_of_succ_le short)).add_new found repeats

end Counted

/-! ## Texts whose lines can all be read -/

/-- The numbers of an error are those of the lines exactly when no error comes before it. -/
theorem LabelError.numbersLines_iff {lines : List Line} {index : Nat} {error : LineError}
    {label : String} {first second : Nat}
    (labelError : LabelError lines index error label first second) :
    NumbersLines error label first second ↔ index = 0 := by
  have fewer : leftOut lines first ≤ leftOut lines second :=
    Nat.count_monotone _ (Nat.le_of_lt labelError.above)
  rw [labelError.index_eq] at fewer
  rw [NumbersLines, labelError.fault_eq, LineFault.instruction.injEq,
    InstructionError.duplicateLabel.injEq, eq_self, true_and]
  omega

theorem eq_map_ok_of_faults {results : List (Except LineError Line)} (clean : faults results = []) :
    results = (goodLines results).map Except.ok := by
  induction results with
  | nil => rfl
  | cons result results ih =>
      cases result with
      | error error => cases clean
      | ok line => exact congrArg (Except.ok line :: ·) (ih clean)

/-- When all lines of a text can be read, its errors are those of the lines that repeat a label.
The numbers in the first of them are the numbers of the two lines among all, and those in every
later one are not: the lines that were left out before are not counted. -/
theorem label_numbers_right_iff_first {source : String} {lexemes : List Lexeme}
    (lexed : Token.lex source = .ok lexemes)
    (clean : faults (readings source.utf8ByteSize lexemes) = []) (name : String)
    {errors : List LineError} (refused : parse name source = .error (.lines errors)) :
    LabelErrors (goodLines (readings source.utf8ByteSize lexemes)) errors := by
  have assembled : parse name source = assemble name (readings source.utf8ByteSize lexemes) := by
    rw [parse, lexed]
  rw [assembled, eq_map_ok_of_faults clean] at refused
  generalize goodLines (readings source.utf8ByteSize lexemes) = lines at refused ⊢
  have counted := Counted.assemblyAfter name lines (Nat.le_refl _)
  rw [assemblyAfter, List.take_length] at counted
  obtain rfl : _ = errors := by
    simp only [assemble] at refused
    split at refused
    · cases refused
    · exact SourceError.lines.inj (Except.error.inj refused)
  constructor
  case length_eq => rw [List.length_take, List.length_reverse, counted.faults_length, maxFaults]
  case each =>
    intro index error listed
    rw [List.getElem?_take] at listed
    split at listed
    · obtain ⟨label, first, second, labelError⟩ := counted.each index error listed
      exact ⟨label, first, second, labelError, labelError.numbersLines_iff⟩
    · cases listed

/-- Two labels, each carried by two lines. -/
def twicePaired : String :=
  "[A] y <- y\n[A] y <- y\n[B] y <- y\n[B] y <- y\n"

/-- What the lines of the text are read as. -/
def pairedLines : List Line :=
  [ ⟨{ op := .neutral "y", label := some "A" }, ⟨0, 11⟩⟩,
    ⟨{ op := .neutral "y", label := some "A" }, ⟨11, 22⟩⟩,
    ⟨{ op := .neutral "y", label := some "B" }, ⟨22, 33⟩⟩,
    ⟨{ op := .neutral "y", label := some "B" }, ⟨33, 44⟩⟩ ]

theorem readings_paired :
    ∃ lexemes, Token.lex twicePaired = .ok lexemes ∧
      readings twicePaired.utf8ByteSize lexemes = pairedLines.map Except.ok := by
  have read : (Token.lex twicePaired).map (readings twicePaired.utf8ByteSize) =
      .ok (pairedLines.map Except.ok) := by decide +kernel
  cases lexed : Token.lex twicePaired with
  | ok lexemes =>
      rw [lexed] at read
      exact ⟨lexemes, rfl, Except.ok.inj read⟩
  | error error =>
      rw [lexed] at read
      cases read

theorem parse_paired :
    parse "demo" twicePaired = .error (.lines
      [⟨.instruction (.duplicateLabel "A" 1 2), ⟨11, 22⟩⟩,
        ⟨.instruction (.duplicateLabel "B" 2 3), ⟨33, 44⟩⟩]) := by
  decide +kernel

theorem label_numbers_right_iff_first_paired :
    ∃ lexemes errors, Token.lex twicePaired = .ok lexemes ∧
      faults (readings twicePaired.utf8ByteSize lexemes) = [] ∧
        parse "demo" twicePaired = .error (.lines errors) ∧ errors.length = 2 ∧
          LabelErrors (goodLines (readings twicePaired.utf8ByteSize lexemes)) errors := by
  obtain ⟨lexemes, lexed, read⟩ := readings_paired
  have clean : faults (readings twicePaired.utf8ByteSize lexemes) = [] := by
    rw [read]
    rfl
  exact ⟨lexemes, _, lexed, clean, parse_paired, rfl,
    label_numbers_right_iff_first lexed clean "demo" parse_paired⟩

/-- The third and the fourth line have one label, and their error speaks of the second and the
third instruction. -/
theorem second_label_error_misnumbered :
    ∃ lexemes first error, Token.lex twicePaired = .ok lexemes ∧
      readings twicePaired.utf8ByteSize lexemes = pairedLines.map Except.ok ∧
        parse "demo" twicePaired = .error (.lines [first, error]) ∧
          pairedLines[3]?.map Line.span = some error.span ∧
            FirstAt pairedLines 2 "B" ∧ labelAt? pairedLines 3 = some "B" ∧
              error.fault.message = "duplicate label 'B' on instructions #2 and #3" ∧
                ¬ NumbersLines error "B" 2 3 := by
  obtain ⟨lexemes, lexed, read⟩ := readings_paired
  refine ⟨lexemes, _, _, lexed, read, parse_paired, rfl, by decide, rfl, by decide, ?_⟩
  rintro ⟨⟩

end Source

end RegisterMachine
