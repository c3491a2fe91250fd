import RegisterMachine.Document
import RegisterMachine.Source.Basic

/-!
# Well-formed programs

The tables of a program say again what its instructions say: a label is at the
first instruction that carries it, the input variables are the variables that
begin with the letter of inputs, and the degree is the highest one.  Appending
keeps this up, whatever is appended.  A program is well-formed when, besides, no
two instructions carry the same label; that is what pushing checks, so every
program from instructions, from source text or from a document is well-formed.
-/

namespace RegisterMachine

namespace Program

/-- The three tables agree with the instructions. -/
structure Consistent (program : Program) : Prop where
  labels_eq : ∀ label, program.labels.get? label =
    program.instructions.findIdx? fun instruction => instruction.label == some label
  inputs_eq : ∀ var, program.inputs.contains var =
    (startsWith inputLetter var &&
      program.instructions.any fun instruction => instruction.var? == some var)
  degree_eq : program.maxDegree = (program.instructions.map Instruction.degree).foldl max 0

/-- The tables agree with the instructions and every label is carried once. -/
structure WellFormed (program : Program) : Prop extends Consistent program where
  unique : (program.instructions.filterMap Instruction.label).Nodup

theorem get?_bindLabel (labels : NameTable Nat) (position : Nat) (carried : Option String)
    (label : String) :
    (bindLabel labels position carried).get? label =
      (labels.get? label).or (if carried = some label then some position else none) := by
  cases carried with
  | none => simp [bindLabel]
  | some first =>
      rw [bindLabel, NameTable.get?_insertNew]
      by_cases same : label = first
      · subst same
        cases found : labels.get? label with
        | none => simp [NameTable.contains, found]
        | some earlier => simp [NameTable.contains, found]
      · have other : first ≠ label := fun eq => same eq.symm
        simp [same, other]

theorem contains_noteInput (inputs : NameSet) (carried : Option String) (var : String) :
    (noteInput inputs carried).contains var =
      (inputs.contains var || (startsWith inputLetter var && carried == some var)) := by
  cases carried with
  | none => simp [noteInput]
  | some first =>
      rw [noteInput]
      by_cases same : var = first
      · subst same
        cases startsWith inputLetter var <;> simp
      · have other : (first == var) = false := beq_eq_false_iff_ne.mpr fun eq => same eq.symm
        have differs : (var == first) = false := beq_eq_false_iff_ne.mpr same
        split <;> simp [other, differs]

namespace Consistent

/-- Appending keeps the tables in agreement, whatever is appended. -/
theorem append {program : Program} (consistent : program.Consistent)
    (instruction : Instruction) : (program.append instruction).Consistent where
  labels_eq label := by
    show (bindLabel program.labels program.length instruction.label).get? label = _
    rw [get?_bindLabel, consistent.labels_eq, instructions_append, List.findIdx?_append]
    congr 1
    by_cases carried : instruction.label = some label
    · simp [carried, length]
    · simp [carried]
  inputs_eq var := by
    show (noteInput program.inputs instruction.var?).contains var = _
    rw [contains_noteInput, consistent.inputs_eq, instructions_append, List.any_append]
    cases startsWith inputLetter var <;> simp
  degree_eq := by
    show max program.maxDegree instruction.degree = _
    rw [consistent.degree_eq, instructions_append, List.map_append, List.foldl_append]
    rfl

theorem foldl_append {program : Program} (consistent : program.Consistent)
    (more : List Instruction) : (more.foldl Program.append program).Consistent := by
  induction more generalizing program with
  | nil => exact consistent
  | cons instruction more ih => exact ih (consistent.append instruction)

theorem foldl_max_le_iff {degrees : List Nat} {start bound : Nat} :
    degrees.foldl max start ≤ bound ↔ start ≤ bound ∧ ∀ degree ∈ degrees, degree ≤ bound := by
  induction degrees generalizing start with
  | nil => simp
  | cons first degrees ih =>
      rw [List.foldl_cons, ih, Nat.max_le, List.forall_mem_cons, and_assoc]

/-- A program has at most some degree when all its instructions have. -/
theorem maxDegree_le_iff {program : Program} (consistent : program.Consistent) {bound : Nat} :
    program.maxDegree ≤ bound ↔
      ∀ instruction ∈ program.instructions, instruction.degree ≤ bound := by
  rw [consistent.degree_eq, foldl_max_le_iff]
  constructor
  · rintro ⟨-, below⟩ instruction member
    exact below _ (List.mem_map_of_mem member)
  · intro below
    refine ⟨Nat.zero_le _, fun degree member => ?_⟩
    obtain ⟨instruction, found, rfl⟩ := List.mem_map.mp member
    exact below instruction found

/-- The name and the record of origins do not matter to the tables. -/
theorem congr {program other : Program} (consistent : program.Consistent)
    (instructions : other.instructions = program.instructions)
    (labels : other.labels = program.labels) (inputs : other.inputs = program.inputs)
    (degree : other.maxDegree = program.maxDegree) : other.Consistent where
  labels_eq label := by rw [labels, instructions, consistent.labels_eq]
  inputs_eq var := by rw [inputs, instructions, consistent.inputs_eq]
  degree_eq := by rw [degree, instructions, consistent.degree_eq]

end Consistent

theorem consistent_named (name : String) : (named name).Consistent where
  labels_eq _ := rfl
  inputs_eq var := by simp [named]
  degree_eq := rfl

theorem consistent_restart (program : Program) : program.restart.Consistent :=
  (consistent_named program.name).congr rfl rfl rfl rfl

/-! ## Label positions -/

/-- Two places with one label are one place. -/
theorem position_unique {instructions : List Instruction}
    (unique : (instructions.filterMap Instruction.label).Nodup) {i j : Nat}
    {first second : Instruction} {label : String}
    (atFirst : instructions[i]? = some first) (atSecond : instructions[j]? = some second)
    (carriedFirst : first.label = some label) (carriedSecond : second.label = some label) :
    i = j := by
  rw [List.Nodup, List.pairwise_filterMap, List.pairwise_iff_getElem] at unique
  obtain ⟨iBound, rfl⟩ := List.getElem?_eq_some_iff.mp atFirst
  obtain ⟨jBound, rfl⟩ := List.getElem?_eq_some_iff.mp atSecond
  rcases Nat.lt_trichotomy i j with before | same | behind
  · exact absurd rfl (unique i j iBound jBound before label carriedFirst label carriedSecond)
  · exact same
  · exact absurd rfl (unique j i jBound iBound behind label carriedSecond label carriedFirst)

/-- A label that the table does not hold is carried by no instruction. -/
theorem Consistent.get?_eq_none_iff {program : Program} (consistent : program.Consistent)
    {label : String} : program.labels.get? label = none ↔
      ∀ instruction ∈ program.instructions, instruction.label ≠ some label := by
  rw [consistent.labels_eq, List.findIdx?_eq_none_iff]
  constructor
  · intro absent instruction member carried
    simpa [carried] using absent instruction member
  · intro absent instruction member
    simpa using absent instruction member

namespace WellFormed

/-- The table holds exactly the labels with the places that carry them. -/
theorem get?_eq_some_iff {program : Program} (wellFormed : program.WellFormed) {label : String}
    {position : Nat} : program.labels.get? label = some position ↔
      ∃ instruction, program.instructions[position]? = some instruction ∧
        instruction.label = some label := by
  constructor
  · intro found
    rw [wellFormed.labels_eq, List.findIdx?_eq_some_iff_getElem] at found
    obtain ⟨bound, carried, -⟩ := found
    exact ⟨_, List.getElem?_eq_getElem bound, by simpa using carried⟩
  · rintro ⟨instruction, place, carried⟩
    cases found : program.labels.get? label with
    | none =>
        have absent := wellFormed.toConsistent.get?_eq_none_iff.mp found
        exact absurd carried (absent instruction (List.mem_of_getElem? place))
    | some other =>
        rw [wellFormed.labels_eq, List.findIdx?_eq_some_iff_getElem] at found
        obtain ⟨bound, carriedOther, -⟩ := found
        have same := position_unique wellFormed.unique (List.getElem?_eq_getElem bound) place
          (by simpa using carriedOther) carried
        rw [same]

theorem congr {program other : Program} (wellFormed : program.WellFormed)
    (instructions : other.instructions = program.instructions)
    (labels : other.labels = program.labels) (inputs : other.inputs = program.inputs)
    (degree : other.maxDegree = program.maxDegree) : other.WellFormed where
  toConsistent := wellFormed.toConsistent.congr instructions labels inputs degree
  unique := instructions ▸ wellFormed.unique

/-! ## How programs are built -/

theorem push {program result : Program} {instruction : Instruction}
    (wellFormed : program.WellFormed) (pushed : program.pushed instruction = .ok result) :
    result.WellFormed := by
  obtain ⟨free, rfl⟩ := pushed_eq_ok_iff.mp pushed
  refine ⟨wellFormed.toConsistent.append instruction, ?_⟩
  rw [instructions_append, List.filterMap_append]
  cases carried : instruction.label with
  | none => simpa [carried] using wellFormed.unique
  | some label =>
      have absent : program.labels.get? label = none := by
        cases found : program.labels.get? label with
        | none => rfl
        | some position => simp [clash?, carried, found] at free
      rw [wellFormed.toConsistent.get?_eq_none_iff] at absent
      refine List.nodup_append.mpr ⟨wellFormed.unique, by simp [carried], ?_⟩
      intro first firstMember second secondMember same
      obtain ⟨earlier, member, carriedFirst⟩ := List.mem_filterMap.mp firstMember
      have secondEq : second = label := by simpa [carried] using secondMember
      exact absent earlier member (by rw [carriedFirst, same, secondEq])

end WellFormed

theorem wellFormed_named (name : String) : (named name).WellFormed where
  toConsistent := consistent_named name
  unique := List.nodup_nil

theorem instructions_foldl_append (program : Program) (more : List Instruction) :
    (more.foldl append program).instructions = program.instructions ++ more := by
  induction more generalizing program with
  | nil => simp
  | cons instruction more ih =>
      rw [List.foldl_cons, ih, instructions_append, List.append_assoc, List.singleton_append]

/-- Code without a label twice makes a well-formed program. -/
theorem wellFormed_foldl_append (name : String) {code : List Instruction}
    (distinct : (code.filterMap Instruction.label).Nodup) :
    (code.foldl append (named name)).WellFormed where
  toConsistent := (consistent_named name).foldl_append code
  unique := by
    rw [instructions_foldl_append]
    exact distinct

theorem WellFormed.foldlM_push {program result : Program} (wellFormed : program.WellFormed)
    {instructions : List Instruction}
    (built : instructions.foldlM Program.pushed program = .ok result) :
    result.WellFormed := by
  induction instructions generalizing program with
  | nil => exact Except.ok.inj built ▸ wellFormed
  | cons instruction instructions ih =>
      rw [List.foldlM_cons] at built
      cases pushed : program.pushed instruction with
      | error error => rw [pushed] at built; cases built
      | ok next => rw [pushed] at built; exact ih (wellFormed.push pushed) built

/-- Pushes that succeed append. -/
theorem foldlM_push_eq_ok {program result : Program} {instructions : List Instruction}
    (pushed : instructions.foldlM pushed program = .ok result) :
    result = instructions.foldl append program := by
  induction instructions generalizing program with
  | nil => exact (Except.ok.inj pushed).symm
  | cons instruction instructions ih =>
      rw [List.foldlM_cons] at pushed
      cases first : program.pushed instruction with
      | error error => rw [first] at pushed; cases pushed
      | ok next =>
          rw [first] at pushed
          rw [ih pushed, (pushed_eq_ok_iff.mp first).2, List.foldl_cons]

/-- A push succeeds when the label, if any, is not carried yet. -/
theorem WellFormed.push_of_nodup {program : Program} (wellFormed : program.WellFormed)
    {instruction : Instruction}
    (distinct : ((program.instructions ++ [instruction]).filterMap Instruction.label).Nodup) :
    program.pushed instruction = .ok (program.append instruction) := by
  refine pushed_eq_ok_iff.mpr ⟨?_, rfl⟩
  cases carried : instruction.label with
  | none => rfl
  | some label =>
      have absent : program.labels.get? label = none := by
        rw [wellFormed.toConsistent.get?_eq_none_iff]
        intro earlier member same
        rw [List.filterMap_append, List.nodup_append] at distinct
        exact distinct.2.2 label (List.mem_filterMap.mpr ⟨earlier, member, same⟩) label
          (by simp [carried]) rfl
      simp [clash?, absent]

/-- Instructions without a label twice can be pushed one after another. -/
theorem WellFormed.foldlM_push_of_nodup {program : Program} (wellFormed : program.WellFormed)
    {more : List Instruction}
    (distinct : ((program.instructions ++ more).filterMap Instruction.label).Nodup) :
    more.foldlM Program.pushed program = .ok (more.foldl Program.append program) := by
  induction more generalizing program with
  | nil => rfl
  | cons instruction more ih =>
      rw [← List.singleton_append, ← List.append_assoc] at distinct
      have first := distinct
      rw [List.filterMap_append] at first
      have pushed := wellFormed.push_of_nodup (List.nodup_append.mp first).1
      rw [List.foldlM_cons, pushed]
      exact ih (wellFormed.push pushed) distinct

/-- A program of instructions is well-formed. -/
theorem wellFormed_ofInstructions {name : String} {instructions : List Instruction}
    {program : Program} (built : ofInstructions name instructions = .ok program) :
    program.WellFormed :=
  (wellFormed_named name).foldlM_push built

end Program

theorem Source.Assembly.wellFormed_add {assembly : Assembly}
    (wellFormed : assembly.program.WellFormed) (reading : Except LineError Line) :
    (assembly.add reading).program.WellFormed := by
  cases reading with
  | error error => exact wellFormed
  | ok line =>
      cases pushed : assembly.program.pushed line.instruction with
      | error error => rw [add_of_refused pushed]; exact wellFormed
      | ok program => rw [add_of_pushed pushed]; exact wellFormed.push pushed

theorem Source.Assembly.wellFormed_foldl (assembly : Assembly)
    (wellFormed : assembly.program.WellFormed) (readings : List (Except LineError Line)) :
    (readings.foldl add assembly).program.WellFormed := by
  induction readings generalizing assembly with
  | nil => exact wellFormed
  | cons reading readings ih => exact ih _ (wellFormed_add wellFormed reading)

/-- A program from source text is put together from the readings of its tokens. -/
theorem Source.exists_assembly_of_parse {name source : String} {program : Program}
    (parsed : parse name source = .ok program) :
    ∃ lexemes, Token.lex source = .ok lexemes ∧
      ((readings source.utf8ByteSize lexemes).foldl Assembly.add
        { program := Program.named name }).program = program := by
  unfold parse at parsed
  cases lexed : Token.lex source with
  | error error => rw [lexed] at parsed; cases parsed
  | ok lexemes =>
      rw [lexed] at parsed
      simp only [assemble] at parsed
      split at parsed
      · exact ⟨lexemes, rfl, Except.ok.inj parsed⟩
      · cases parsed

/-- A program from source text is well-formed. -/
theorem Source.wellFormed_of_parse {name source : String} {program : Program}
    (parsed : parse name source = .ok program) : program.WellFormed := by
  obtain ⟨lexemes, -, rfl⟩ := exists_assembly_of_parse parsed
  exact Assembly.wellFormed_foldl _ (Program.wellFormed_named name) _

theorem Document.wellFormed_addEntries {program result : Program}
    (wellFormed : program.WellFormed) {number : Nat} {entries : List DocumentEntry}
    (added : addEntries program number entries = .ok result) : result.WellFormed := by
  induction entries generalizing program number with
  | nil => exact Except.ok.inj added ▸ wellFormed
  | cons entry entries ih =>
      rw [addEntries] at added
      cases first : addEntry program entry with
      | error error => rw [first] at added; cases added
      | ok next =>
          rw [first] at added
          refine ih ?_ added
          unfold addEntry at first
          cases read : Instruction.read entry.name entry.operands with
          | error error => rw [read] at first; cases first
          | ok instruction => rw [read] at first; exact wellFormed.push first

/-- A program from a document is well-formed. -/
theorem Document.wellFormed_of_build {document : Document} {fallback : Option String}
    {program : Program} (built : document.build fallback = .ok program) : program.WellFormed := by
  unfold build at built
  cases named : document.programName fallback with
  | none => rw [named] at built; cases built
  | some name =>
      rw [named] at built
      exact wellFormed_addEntries (Program.wellFormed_named name) built

end RegisterMachine
