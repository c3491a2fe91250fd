import Mathlib.Data.List.Nodup
import RegisterMachine.Proofs.DocumentPrograms
import RegisterMachine.Proofs.LineByLine
import RegisterMachine.Source.Cursor

/-!
# The cursor reads line by line

A cursor that moves over all tokens of a text knows of no lines.  But it stands on a line
from the first token of the line on, whatever it takes: no part of an instruction is a
newline, so that nothing is taken beyond the end of the line, and a fault leaves the cursor
where it can still be moved behind the line.  So each part of a line is taken as it is taken
from the line alone, and a round reads one line.  The names are those that stand in a text,
and there the check of all parts of an instruction is the check of its variable.  In the end
the faults of the lines and those of repeated labels are in two groups; since a line has at
most one fault and the faults stand one behind the other, sorting them makes one sequence of
them, the one that is found line by line.
-/

namespace RegisterMachine

namespace Line

/-- On names as they stand in a text the check of the variable is the check of all parts. -/
theorem construct_eq_checkVariable {op : Op} {label : Option String} (place : Span)
    (label_named : ∀ name, label = some name → isLabelName name = true)
    (var_named : ∀ name, op.var? = some name → isLabelName name = true)
    (target_named : ∀ name, op.target? = some name → isLabelName name = true) :
    ((op.opcode.construct (Operands.ofInstruction { op, label })).mapError fun error =>
        (⟨.instruction error, place⟩ : LineError)) =
      (checkVariable op place).map fun _ => { op, label } := by
  have readLabel : (Operands.ofInstruction { op, label }).readLabel = .ok label := by
    rw [Operands.readLabel_eq_ok_iff]
    cases label with
    | none => exact ⟨rfl, nofun⟩
    | some name =>
        exact ⟨present_of_isLabelName (label_named name rfl), label_named⟩
  have readVariable : ∀ opcode name, op.var? = some name →
      (Operands.ofInstruction { op, label }).readVariable opcode =
        if isVariableName name then .ok name else .error (.malformedVariable opcode name) := by
    intro opcode name found
    have given : (Operands.ofInstruction { op, label }).var = some name := found
    rw [Operands.readVariable, given, present_of_isLabelName (var_named name found)]
  have readTarget : ∀ opcode argument name, op.target? = some name →
      (Operands.ofInstruction { op, label }).arguments = NameTable.empty.insert argument name →
        (Operands.ofInstruction { op, label }).readArgument opcode argument = .ok name := by
    intro opcode argument name found given
    refine Operands.readArgument_eq_ok_iff.mpr ⟨?_, target_named name found⟩
    rw [given, NameTable.get?_insert, if_pos rfl, present_of_isLabelName (target_named name found)]
  rw [Opcode.construct, readLabel]
  cases op with
  | neutral name | increase name | decrease name | zero name =>
      simp only [Op.opcode, Operands.readOp, readVariable _ name rfl, checkVariable, Op.var?]
      split <;> rfl
  | jumpNotZero name goal =>
      simp only [Op.opcode, Operands.readOp, readVariable _ name rfl, checkVariable, Op.var?,
        readTarget _ _ goal rfl rfl]
      split <;> rfl
  | goto goal =>
      simp only [Op.opcode, Operands.readOp, readTarget _ _ goal rfl rfl]
      rfl

end Line

theorem Op.mem_tokens_of_var {op : Op} {var : String} (operand : op.var? = some var) :
    .name var ∈ op.tokens := by
  cases op with
  | neutral _ | increase _ | decrease _ | zero _ | jumpNotZero _ _ =>
      obtain rfl := Option.some.inj operand
      simp [tokens]
  | goto target => cases operand

namespace Source

/-! ## A cursor on a line -/

/-- A line where it stands among the tokens of a text. -/
structure Spot where
  line : TokenLine
  /-- The tokens in front of it, the nearest one first. -/
  before : List Lexeme
  /-- The tokens from its newline on. -/
  tail : List Lexeme
  /-- The end of the text. -/
  ending : Span
  single : .lineEnd ∉ line.lexemes.map Lexeme.token
  ends : line.terminated = true ∧ (∃ rest, tail = ⟨.lineEnd, line.ending⟩ :: rest) ∨
    line.terminated = false ∧ tail = [] ∧ ending = line.ending

namespace Spot

/-- The cursor stands on the line, in front of these of its tokens. -/
def On (spot : Spot) (lexemes : List Lexeme) (cursor : Cursor) : Prop :=
  ∃ done, spot.line.lexemes = done ++ lexemes ∧
    cursor = ⟨done.reverse ++ spot.before, lexemes ++ spot.tail, spot.ending⟩

/-- The cursor stands behind something that was taken from the line. -/
structure Behind {α : Type} (spot : Spot) (taken : Line.Taken α) (cursor : Cursor) : Prop where
  on : spot.On taken.rest cursor
  lastSpan_eq : cursor.lastSpan = taken.last

/-- Both readings succeed, and the cursor shows what the other one gives, or both fail alike. -/
inductive Agrees (spot : Spot) {α β : Type} (shows : α → β → Cursor → Prop) :
    Except LineError α → EStateM.Result LineError Cursor β → Prop
  | ok {answer : α} {value : β} {cursor : Cursor} (shown : shows answer value cursor) :
      Agrees spot shows (.ok answer) (.ok value cursor)
  | error {error : LineError} {cursor : Cursor} {lexemes : List Lexeme}
      (on : spot.On lexemes cursor) : Agrees spot shows (.error error) (.error error cursor)

/-- The cursor stands behind what was taken, with this value of it. -/
def Took (spot : Spot) {α β : Type} (view : Line.Taken α → β) (taken : Line.Taken α) (value : β)
    (cursor : Cursor) : Prop :=
  value = view taken ∧ spot.Behind taken cursor

section

variable {spot : Spot} {α β γ δ : Type} {shows : α → β → Cursor → Prop}
  {shows' : γ → δ → Cursor → Prop} {answer : Except LineError α}
  {next : α → Except LineError γ} {reading : CursorM β} {next' : β → CursorM δ} {cursor : Cursor}

theorem Agrees.bind_ok (first : spot.Agrees shows answer (reading.run cursor))
    (rest : ∀ found value after, answer = .ok found → shows found value after →
      spot.Agrees shows' (next found) ((next' value).run after)) :
    spot.Agrees shows' (answer >>= next) ((reading >>= next').run cursor) := by
  rw [EStateM.run_bind]
  generalize reading.run cursor = result at first
  cases first with
  | ok shown => exact rest _ _ _ rfl shown
  | error on => exact .error on

theorem Agrees.bind (first : spot.Agrees shows answer (reading.run cursor))
    (rest : ∀ found value after, shows found value after →
      spot.Agrees shows' (next found) ((next' value).run after)) :
    spot.Agrees shows' (answer >>= next) ((reading >>= next').run cursor) :=
  first.bind_ok fun found value after _ => rest found value after

end

variable {spot : Spot} {lexemes rest : List Lexeme} {lexeme : Lexeme} {cursor : Cursor}

theorem On.token_ne (on : spot.On (lexeme :: rest) cursor) : lexeme.token ≠ .lineEnd := by
  obtain ⟨done, split, -⟩ := on
  intro newline
  have single := spot.single
  rw [split] at single
  simp [newline] at single

theorem On.peek?_cons (on : spot.On (lexeme :: rest) cursor) :
    cursor.peek? = some lexeme.token := by
  obtain ⟨done, -, rfl⟩ := on
  rfl

theorem On.span_cons (on : spot.On (lexeme :: rest) cursor) : cursor.span = lexeme.span := by
  obtain ⟨done, -, rfl⟩ := on
  rfl

theorem On.advance (on : spot.On (lexeme :: rest) cursor) : spot.On rest cursor.advance := by
  obtain ⟨done, split, rfl⟩ := on
  exact ⟨done ++ [lexeme], by rw [split, List.append_cons], by rw [List.reverse_concat]; rfl⟩

theorem On.behind {α : Type} (on : spot.On (lexeme :: rest) cursor) (value : α) :
    spot.Behind ⟨value, lexeme.span, rest⟩ cursor.advance := by
  refine ⟨on.advance, ?_⟩
  obtain ⟨done, -, rfl⟩ := on
  rfl

/-- At the end of the line there is a newline, or nothing. -/
theorem On.peek?_nil (on : spot.On [] cursor) :
    (cursor.peek? = none ∨ cursor.peek? = some .lineEnd) ∧ cursor.span = spot.line.ending := by
  obtain ⟨done, -, rfl⟩ := on
  rcases spot.ends with ⟨-, next, tail⟩ | ⟨-, tail, same⟩
  · rw [tail]
    exact ⟨.inr rfl, rfl⟩
  · rw [tail]
    exact ⟨.inl rfl, same⟩

theorem On.peek?_eq_some_iff (on : spot.On lexemes cursor) {token : Token}
    (other : token ≠ .lineEnd) :
    cursor.peek? = some token ↔ lexemes.head?.map Lexeme.token = some token := by
  cases lexemes with
  | nil =>
      rcases on.peek?_nil.1 with none | newline
      · simp [none]
      · simp [newline, Ne.symm other]
  | cons lexeme rest => rw [on.peek?_cons]; rfl

theorem On.mismatch_eq (on : spot.On lexemes cursor) (expected : Expectation) :
    cursor.mismatch expected = Line.mismatch spot.line.ending expected lexemes := by
  unfold Cursor.mismatch
  cases lexemes with
  | nil =>
      obtain ⟨none | newline, place⟩ := on.peek?_nil
      · rw [none, place]; rfl
      · rw [newline, place]; rfl
  | cons lexeme rest =>
      have other := on.token_ne
      rw [on.peek?_cons, on.span_cons]
      split
      · simp_all
      · simp_all
      · simp_all [Line.mismatch]

/-! ## Tokens one by one -/

theorem expect_agrees (token : Token) (other : token ≠ .lineEnd)
    (on : spot.On lexemes cursor) :
    spot.Agrees (spot.Took Line.Taken.last) (Line.takeToken spot.line.ending token lexemes)
      ((CursorM.expect token).run cursor) := by
  have wrong := on.mismatch_eq (.token token)
  have found := on.peek?_eq_some_iff other
  show Agrees _ _ _ (if _ then _ else _)
  cases lexemes with
  | nil =>
      rw [if_neg (by simp [found]), wrong]
      exact .error on
  | cons lexeme rest =>
      rw [Line.takeToken]
      by_cases same : lexeme.token = token
      · rw [if_pos same, if_pos (by simp [found, same])]
        exact .ok ⟨on.span_cons, on.behind ()⟩
      · rw [if_neg same, if_neg (by simp [found, same]), wrong]
        exact .error on

theorem expectName_agrees (expected : Expectation) (on : spot.On lexemes cursor) :
    spot.Agrees (spot.Took fun taken => (taken.value, taken.last))
      (Line.takeName spot.line.ending expected lexemes)
      ((CursorM.expectName expected).run cursor) := by
  have wrong := on.mismatch_eq expected
  rw [EStateM.run, CursorM.expectName]
  cases lexemes with
  | nil =>
      rcases on.peek?_nil.1 with found | found
      all_goals
        rw [found, wrong]
        exact .error on
  | cons lexeme rest =>
      obtain ⟨token, place⟩ := lexeme
      rw [on.peek?_cons, wrong]
      cases token
      case name text => exact .ok ⟨Prod.ext rfl on.span_cons, on.behind text⟩
      all_goals exact .error on

theorem expectNumber_agrees (value : UInt64) (on : spot.On lexemes cursor) :
    spot.Agrees (spot.Took Line.Taken.last) (Line.takeNumber spot.line.ending value lexemes)
      ((CursorM.expectNumber value).run cursor) := by
  have wrong := on.mismatch_eq (.token (.number value))
  rw [EStateM.run, CursorM.expectNumber]
  cases lexemes with
  | nil =>
      rcases on.peek?_nil.1 with found | found
      all_goals
        rw [found, wrong]
        exact .error on
  | cons lexeme rest =>
      obtain ⟨token, place⟩ := lexeme
      rw [on.peek?_cons, wrong]
      cases token
      case number found =>
        have here := on.span_cons
        simp only [Line.takeNumber]
        split
        · exact .ok ⟨here, on.behind ()⟩
        · rw [here]
          exact .error on
      all_goals exact .error on

/-! ## The parts of a line -/

theorem run_label (cursor : Cursor) :
    CursorM.label.run cursor =
      if cursor.peek? = some .openBracket then
        if cursor.advance.peek? = some .closeBracket then .ok none cursor.advance.advance
        else CursorM.labelName.run cursor.advance
      else .ok none cursor := by
  simp only [CursorM.label, EStateM.run_bind, EStateM.run_get]
  split
  · simp only [CursorM.advance, EStateM.run_bind, EStateM.run_modify, EStateM.run_get]
    split <;> rfl
  · rfl

theorem labelName_agrees (on : spot.On lexemes cursor) :
    spot.Agrees (fun answer value after => value = answer.1 ∧ spot.On answer.2 after)
      (do
        let label ← Line.takeName spot.line.ending .label lexemes
        let bracket ← Line.takeToken spot.line.ending .closeBracket label.rest
        return (some label.value, bracket.rest))
      (CursorM.labelName.run cursor) := by
  refine (expectName_agrees .label on).bind ?_
  rintro label _ cursor ⟨rfl, label'⟩
  refine (expect_agrees .closeBracket nofun label'.on).bind ?_
  rintro bracket _ cursor ⟨-, bracket'⟩
  exact .ok ⟨rfl, bracket'.on⟩

theorem label_agrees (on : spot.On lexemes cursor) :
    spot.Agrees (fun answer value after => value = answer.1 ∧ spot.On answer.2 after)
      (Line.takeLabel spot.line.ending lexemes) (CursorM.label.run cursor) := by
  have first := @On.peek?_eq_some_iff spot lexemes cursor on .openBracket nofun
  rw [run_label]
  cases lexemes with
  | nil =>
      rw [if_neg (by simp [first])]
      exact .ok ⟨rfl, on⟩
  | cons lexeme rest =>
      obtain ⟨token, place⟩ := lexeme
      cases token
      case openBracket =>
        have second := @On.peek?_eq_some_iff spot rest cursor.advance on.advance .closeBracket nofun
        rw [if_pos (by simp [first])]
        cases rest with
        | nil =>
            rw [if_neg (by simp [second])]
            exact labelName_agrees on.advance
        | cons lexeme rest =>
            obtain ⟨token, place⟩ := lexeme
            cases token
            case closeBracket =>
              rw [if_pos (by simp [second])]
              exact .ok ⟨rfl, on.advance.advance⟩
            all_goals
              rw [if_neg (by simp [second])]
              exact labelName_agrees on.advance
      all_goals
        rw [if_neg (by simp [first])]
        exact .ok ⟨rfl, on⟩

/-- The parts that stand for an operation. -/
def parts (taken : Line.Taken Op) : Opcode × Operands :=
  (taken.value.opcode, Operands.ofInstruction { op := taken.value })

theorem condition_agrees {place : Span} (on : spot.On (⟨.ifWord, place⟩ :: rest) cursor) :
    spot.Agrees (spot.Took parts) (Line.takeCondition spot.line.ending rest)
      (CursorM.condition.run cursor) := by
  show spot.Agrees _ (Line.takeToken spot.line.ending .ifWord (⟨.ifWord, place⟩ :: rest) >>=
    fun word => Line.takeCondition spot.line.ending word.rest) _
  refine (expect_agrees .ifWord nofun on).bind ?_
  rintro word _ cursor ⟨-, word'⟩
  refine (expectName_agrees .variableName word'.on).bind ?_
  rintro var _ cursor ⟨rfl, var'⟩
  refine (expect_agrees .notEquals nofun var'.on).bind ?_
  rintro sign _ cursor ⟨-, sign'⟩
  refine (expectNumber_agrees 0 sign'.on).bind ?_
  rintro zero _ cursor ⟨-, zero'⟩
  refine (expect_agrees .gotoWord nofun zero'.on).bind ?_
  rintro goto _ cursor ⟨-, goto'⟩
  refine (expectName_agrees .label goto'.on).bind ?_
  rintro target _ cursor ⟨rfl, target'⟩
  exact .ok ⟨rfl, target'.on, target'.lastSpan_eq⟩

theorem jump_agrees {place : Span} (on : spot.On (⟨.gotoWord, place⟩ :: rest) cursor) :
    spot.Agrees (spot.Took parts) (Line.takeGoto spot.line.ending rest)
      (CursorM.jump.run cursor) := by
  show spot.Agrees _ _ ((CursorM.expectName .label >>= _).run cursor.advance)
  refine (expectName_agrees .label on.advance).bind ?_
  rintro target _ cursor ⟨rfl, target'⟩
  exact .ok ⟨rfl, target'.on, target'.lastSpan_eq⟩

theorem change_agrees (var : String) {source : Line.Taken String}
    (behind : spot.Behind source cursor) :
    spot.Agrees (spot.Took parts) (Line.takeChange spot.line.ending var source)
      ((CursorM.change var).run cursor) := by
  obtain ⟨text, last, rest⟩ := source
  obtain ⟨on, place⟩ := behind
  simp only [CursorM.change, EStateM.run_bind, EStateM.run_get]
  cases rest with
  | nil =>
      rcases on.peek?_nil.1 with found | found
      all_goals
        rw [found]
        exact .ok ⟨rfl, on, place⟩
  | cons lexeme rest =>
      obtain ⟨token, place'⟩ := lexeme
      rw [on.peek?_cons]
      cases token
      case plus =>
        refine (expectNumber_agrees 1 on.advance).bind ?_
        rintro one _ cursor ⟨-, one'⟩
        exact .ok ⟨rfl, one'.on, one'.lastSpan_eq⟩
      case minus =>
        refine (expectNumber_agrees 1 on.advance).bind ?_
        rintro one _ cursor ⟨-, one'⟩
        exact .ok ⟨rfl, one'.on, one'.lastSpan_eq⟩
      all_goals exact .ok ⟨rfl, on, place⟩

theorem copy_agrees (var : String) (on : spot.On lexemes cursor) :
    spot.Agrees (spot.Took parts)
      (do
        let source ← Line.takeName spot.line.ending .variableOrZero lexemes
        if source.value = var then Line.takeChange spot.line.ending var source
        else throw ⟨.mismatchedOperands var source.value, source.last⟩)
      ((CursorM.copy var).run cursor) := by
  refine (expectName_agrees .variableOrZero on).bind ?_
  rintro source _ cursor ⟨rfl, source'⟩
  dsimp only
  split
  · exact change_agrees var source'
  · exact .error source'.on

theorem assignment_agrees {var : String} {place : Span}
    (on : spot.On (⟨.name var, place⟩ :: rest) cursor) :
    spot.Agrees (spot.Took parts) (Line.takeAssignment spot.line.ending var rest)
      (CursorM.assignment.run cursor) := by
  show spot.Agrees _ (Line.takeName spot.line.ending .variableName (⟨.name var, place⟩ :: rest) >>=
    fun name => Line.takeAssignment spot.line.ending name.value name.rest) _
  refine (expectName_agrees .variableName on).bind ?_
  rintro name _ cursor ⟨rfl, name'⟩
  refine (expect_agrees .assign nofun name'.on).bind ?_
  rintro ⟨_, _, rest⟩ _ cursor ⟨-, arrow'⟩
  have on := arrow'.on
  have zero := @On.peek?_eq_some_iff spot rest cursor on (.number 0) nofun
  simp only [EStateM.run_bind, EStateM.run_get]
  cases rest with
  | nil =>
      rw [if_neg (by simp [zero])]
      exact copy_agrees name.value on
  | cons lexeme rest =>
      obtain ⟨token, place⟩ := lexeme
      cases token
      case number value =>
        by_cases same : value = 0
        · subst same
          rw [if_pos (by simp [zero])]
          exact .ok ⟨rfl, on.behind _⟩
        · rw [if_neg (by simp [zero, same])]
          simpa [same] using copy_agrees name.value on
      all_goals
        rw [if_neg (by simp [zero])]
        exact copy_agrees name.value on

theorem On.second?_eq_assign_iff (on : spot.On (lexeme :: rest) cursor) :
    cursor.second? = some .assign ↔ Line.startsWithArrow rest = true := by
  have next : cursor.second? = cursor.advance.peek? := by
    obtain ⟨done, -, rfl⟩ := on
    cases rest <;> cases spot.tail <;> rfl
  rw [next, @On.peek?_eq_some_iff spot rest cursor.advance on.advance .assign nofun]
  cases rest with
  | nil => simp [Line.startsWithArrow]
  | cons second rest => simp [Line.startsWithArrow]

theorem operation_agrees (on : spot.On lexemes cursor) :
    spot.Agrees (spot.Took parts) (Line.takeOp spot.line.ending lexemes)
      (CursorM.operation.run cursor) := by
  have wrong := on.mismatch_eq .instruction
  simp only [CursorM.operation, EStateM.run_bind, EStateM.run_get]
  cases lexemes with
  | nil =>
      rcases on.peek?_nil.1 with found | found
      all_goals
        rw [found, wrong]
        exact .error on
  | cons lexeme rest =>
      have arrow := on.second?_eq_assign_iff
      have here := on.span_cons
      obtain ⟨token, place⟩ := lexeme
      rw [on.peek?_cons, wrong]
      cases token
      case ifWord => exact condition_agrees on
      case gotoWord => exact jump_agrees on
      case name name =>
        cases word : Line.keywordOf? name with
        | none =>
            simp only [Line.takeOp, word]
            exact assignment_agrees on
        | some keyword =>
            cases starts : Line.startsWithArrow rest with
            | true =>
                simp only [Line.takeOp, word, starts, if_pos (arrow.mpr starts)]
                exact assignment_agrees on
            | false =>
                have other : cursor.second? ≠ some .assign := by simp [arrow, starts]
                simp only [Line.takeOp, word, starts, if_neg other, here]
                exact .error on
      all_goals exact .error on

theorem cycleCount_agrees (instruction : Instruction) {place : Span}
    (on : spot.On (⟨.openParen, place⟩ :: rest) cursor) :
    spot.Agrees (fun rest _ after => spot.On rest after)
      (Line.takeCycles spot.line.ending instruction.op (⟨.openParen, place⟩ :: rest))
      ((CursorM.cycleCount instruction).run cursor) := by
  have opened : (CursorM.expect .openParen).run cursor = .ok place cursor.advance := by
    show (if _ then _ else _) = _
    rw [if_pos on.peek?_cons, on.span_cons]
  have inside := on.advance
  have wrong := inside.mismatch_eq .cycleCount
  simp only [CursorM.cycleCount, EStateM.run_bind, EStateM.run_get, opened]
  cases rest with
  | nil =>
      rcases inside.peek?_nil.1 with found | found
      all_goals
        rw [found, wrong]
        exact .error inside
  | cons lexeme rest =>
      obtain ⟨token, place'⟩ := lexeme
      rw [inside.peek?_cons, wrong]
      cases token
      case number written =>
        refine (expect_agrees .closeParen nofun inside.advance).bind ?_
        rintro close _ cursor ⟨rfl, close'⟩
        by_cases same : written.toNat = instruction.op.cycles
        · rw [if_pos same, if_pos (show written.toNat = instruction.cycles from same)]
          exact .ok close'.on
        · rw [if_neg same, if_neg (show written.toNat ≠ instruction.cycles from same)]
          exact .error close'.on
      all_goals exact .error inside

theorem cycles_agrees (instruction : Instruction) (on : spot.On lexemes cursor) :
    spot.Agrees (fun rest _ after => spot.On rest after)
      (Line.takeCycles spot.line.ending instruction.op lexemes)
      ((CursorM.cycles instruction).run cursor) := by
  have first := @On.peek?_eq_some_iff spot lexemes cursor on .openParen nofun
  simp only [CursorM.cycles, EStateM.run_bind, EStateM.run_get]
  cases lexemes with
  | nil =>
      rw [if_neg (by simp [first])]
      exact .ok on
  | cons lexeme rest =>
      obtain ⟨token, place⟩ := lexeme
      cases token
      case openParen =>
        rw [if_pos (by simp [first])]
        exact cycleCount_agrees instruction on
      all_goals
        rw [if_neg (by simp [first])]
        exact .ok on

/-! ## Whole lines -/

/-- The cursor stands behind the line. -/
structure Past (spot : Spot) (cursor : Cursor) : Prop where
  rest_eq : cursor.rest = spot.tail.tail
  ending_eq : cursor.ending = spot.ending

/-- Behind the last token of the line there is at most its newline to take. -/
theorem On.past_advance (on : spot.On [] cursor) : spot.Past cursor.advance := by
  obtain ⟨done, -, rfl⟩ := on
  rcases spot.ends with ⟨-, next, tail⟩ | ⟨-, tail, -⟩
  · rw [tail]
    exact ⟨by rw [tail]; rfl, rfl⟩
  · rw [tail]
    exact ⟨by rw [tail]; rfl, rfl⟩

/-- Behind its last token the whole line has been taken. -/
theorem On.lineEnd_agrees (on : spot.On [] cursor) (start : Span)
    (nonempty : spot.line.lexemes ≠ []) :
    ∃ after, CursorM.lineEnd.run cursor = .ok () after ∧ spot.Past after ∧
      start.merge after.lastSpan = Line.wholeSpan spot.line start := by
  have ended : cursor.atLineEnd = true := by
    rcases on.peek?_nil.1 with none | newline
    · simp [Cursor.atLineEnd, none]
    · simp [Cursor.atLineEnd, newline]
  refine ⟨cursor.advance, ?_, on.past_advance, ?_⟩
  · simp only [CursorM.lineEnd, EStateM.run_bind, EStateM.run_get, if_pos ended]
    rfl
  · obtain ⟨done, split, rfl⟩ := on
    rw [List.append_nil] at split
    subst split
    rcases spot.ends with ⟨terminated, next, tail⟩ | ⟨last, tail, same⟩
    · rw [Line.wholeSpan, if_pos terminated, tail]
      rfl
    · rw [Line.wholeSpan, if_neg (by simp [last]), tail]
      obtain ⟨front, final, whole⟩ :=
        (List.eq_nil_or_concat spot.line.lexemes).resolve_left nonempty
      rw [whole, List.concat_eq_append, List.getLast?_concat, List.reverse_concat]
      rfl

theorem On.lineEnd_refused (on : spot.On (lexeme :: rest) cursor) :
    CursorM.lineEnd.run cursor =
      .error (Line.mismatch spot.line.ending .lineEnd (lexeme :: rest)) cursor := by
  have inside : cursor.atLineEnd = false := by
    simp [Cursor.atLineEnd, on.peek?_cons, on.token_ne]
  simp only [CursorM.lineEnd, EStateM.run_bind, EStateM.run_get, inside, on.mismatch_eq]
  rfl

theorem construct_agrees {op : Op} {label : Option String} (place : Span)
    (on : spot.On lexemes cursor)
    (label_named : ∀ name, label = some name → isLabelName name = true)
    (var_named : ∀ name, op.var? = some name → isLabelName name = true)
    (target_named : ∀ name, op.target? = some name → isLabelName name = true) :
    spot.Agrees (fun _ value after => value = { op, label } ∧ after = cursor)
      (Line.checkVariable op place)
      ((CursorM.construct op.opcode (Operands.ofInstruction { op, label }) place).run cursor) := by
  rw [CursorM.construct,
    Line.construct_eq_checkVariable place label_named var_named target_named]
  cases Line.checkVariable op place with
  | ok value => exact .ok ⟨rfl, rfl⟩
  | error error => exact .error on

theorem On.mem_of_takes (on : spot.On lexemes cursor) {tokens : List Token}
    (takes : Line.Takes tokens lexemes rest) {token : Token} (member : token ∈ tokens) :
    token ∈ spot.line.lexemes.map Lexeme.token := by
  obtain ⟨done, split, -⟩ := on
  obtain ⟨consumed, rfl, rfl⟩ := takes
  rw [split, List.map_append, List.map_append]
  exact List.mem_append_right _ (List.mem_append_left _ member)

/-- The cursor reads the line as the line is read alone. -/
theorem line_agrees
    (words : ∀ name, .name name ∈ spot.line.lexemes.map Lexeme.token → isWord name = true)
    (nonempty : spot.line.lexemes ≠ []) (on : spot.On spot.line.lexemes cursor) :
    spot.Agrees (fun found value after => value = found ∧ spot.Past after)
      (Line.readFrom spot.line cursor.span) (CursorM.line.run cursor) := by
  have named : ∀ name, .name name ∈ spot.line.lexemes.map Lexeme.token →
      isLabelName name = true := fun name member => (isWord_iff.mp (words name member)).1
  show spot.Agrees _ (_ >>= _) ((CursorM.label >>= _).run cursor)
  refine (label_agrees on).bind_ok ?_
  rintro ⟨_, after⟩ label cursor readLabel ⟨rfl, behindLabel⟩
  obtain ⟨form, written, takesLabel⟩ := Line.takeLabel_sound readLabel
  refine (operation_agrees behindLabel).bind_ok ?_
  rintro ⟨op, last, rest⟩ _ cursor readOp ⟨rfl, behindOp⟩
  have takesOp := Line.takeOp_sound readOp
  have operands : { Operands.ofInstruction { op := op } with label := label.or none } =
      Operands.ofInstruction { op, label } := by
    rw [Option.or_none]
    rfl
  show spot.Agrees _ (Line.checkVariable op _ >>= _) ((CursorM.construct op.opcode
    { Operands.ofInstruction { op := op } with label := label.or none } _ >>= _).run cursor)
  rw [operands, behindOp.lastSpan_eq]
  refine (construct_agrees _ behindOp.on ?_ ?_ ?_).bind ?_
  · rintro name rfl
    rw [Line.labelForms, List.mem_singleton] at written
    exact named name (on.mem_of_takes takesLabel (by simp [written]))
  · exact fun name operand =>
      named name (behindLabel.mem_of_takes takesOp (Op.mem_tokens_of_var operand))
  · exact fun name jumps =>
      named name (behindLabel.mem_of_takes takesOp (Op.mem_tokens_of_target jumps))
  rintro _ instruction _ ⟨rfl, rfl⟩
  refine (cycles_agrees { op, label } behindOp.on).bind ?_
  rintro left _ cursor behindCycles
  rw [EStateM.run_bind]
  cases left with
  | nil =>
      obtain ⟨after, ended, past, whole⟩ := behindCycles.lineEnd_agrees _ nonempty
      rw [ended]
      exact .ok ⟨congrArg (Line.mk _) whole, past⟩
  | cons lexeme left =>
      rw [behindCycles.lineEnd_refused]
      exact .error behindCycles

end Spot

/-! ## Rounds -/

theorem Cursor.skipFrom_append (ending : Span) (taken tail : List Lexeme) {line : List Lexeme}
    (single : .lineEnd ∉ line.map Lexeme.token) :
    skipFrom ending taken (line ++ tail) = skipFrom ending (line.reverse ++ taken) tail := by
  induction line generalizing taken with
  | nil => rfl
  | cons lexeme line ih =>
      rw [List.map_cons, List.mem_cons, not_or] at single
      rw [List.cons_append, skipFrom, if_neg (Ne.symm single.1), ih _ single.2,
        List.reverse_cons, List.append_assoc]
      rfl

/-- From anywhere on the line the cursor skips to behind it. -/
theorem Spot.On.skipLine {spot : Spot} {lexemes : List Lexeme} {cursor : Cursor}
    (on : spot.On lexemes cursor) : spot.Past cursor.skipLine := by
  obtain ⟨done, split, rfl⟩ := on
  have single := spot.single
  rw [split, List.map_append, List.mem_append, not_or] at single
  rw [Cursor.skipLine, Cursor.skipFrom_append _ _ _ single.2]
  rcases spot.ends with ⟨-, next, tail⟩ | ⟨-, tail, -⟩
  · rw [tail]
    exact ⟨by rw [tail]; rfl, rfl⟩
  · rw [tail]
    exact ⟨by rw [tail]; rfl, rfl⟩

/-- The first line of some tokens. -/
theorem exists_spot (stop : Nat) (before lexemes : List Lexeme) :
    ∃ spot : Spot, spot.before = before ∧ spot.ending = Span.point stop ∧
      lexemes = spot.line.lexemes ++ spot.tail ∧
        readLines stop lexemes =
          (Line.read? spot.line).toList ++ readLines stop spot.tail.tail := by
  by_cases newline : .lineEnd ∈ lexemes.map Lexeme.token
  · obtain ⟨tokens, tokens', whole, single⟩ := List.eq_append_cons_of_mem newline
    obtain ⟨line, behind, rfl, rfl, split⟩ := List.map_eq_append_iff.mp whole
    obtain ⟨⟨_, span⟩, rest, rfl, rfl, rfl⟩ := List.map_eq_cons_iff.mp split
    exact ⟨⟨⟨line, span, true⟩, before, _, _, single, .inl ⟨rfl, rest, rfl⟩⟩, rfl, rfl, rfl,
      readLines_append stop span rest single⟩
  · refine ⟨⟨⟨lexemes, Span.point stop, false⟩, before, [], _, newline, .inr ⟨rfl, rfl, rfl⟩⟩,
      rfl, rfl, (List.append_nil _).symm, ?_⟩
    rw [readLines_of_single newline]
    exact (List.append_nil _).symm

namespace Intake

/-- All that is read in the end: what has been read, and the lines to come. -/
def outcome (stop : Nat) (intake : Intake) : List Line × List LineError :=
  let results := untilFault (maxFaults - intake.errors.length)
    (readLines stop intake.cursor.rest)
  (intake.lines ++ goodLines results, intake.errors ++ faults results)

/-- The tokens to come are tokens of a text that ends at byte `stop`. -/
structure OfText (stop : Nat) (intake : Intake) : Prop where
  ending_eq : intake.cursor.ending = Span.point stop
  words : ∀ name, .name name ∈ intake.cursor.rest.map Lexeme.token → isWord name = true

theorem next?_eq_none_iff {intake : Intake} :
    intake.next? = none ↔ intake.cursor.rest = [] ∨ maxFaults ≤ intake.errors.length := by
  unfold next?
  split
  · next nothing => exact iff_of_true rfl (.inl nothing)
  next more =>
  split
  · next full => exact iff_of_true rfl (.inr full)
  next few =>
  refine iff_of_false ?_ (not_or.mpr ⟨more, few⟩)
  split
  · exact nofun
  · split <;> exact nofun

theorem outcome_of_next?_eq_none (stop : Nat) {intake : Intake} (none : intake.next? = none) :
    intake.outcome stop = (intake.lines, intake.errors) := by
  have nothing : untilFault (maxFaults - intake.errors.length)
      (readLines stop intake.cursor.rest) = [] := by
    rcases next?_eq_none_iff.mp none with ended | full
    · rw [ended]
      cases maxFaults - intake.errors.length <;> rfl
    · rw [Nat.sub_eq_zero_of_le full, untilFault]
  rw [outcome, nothing]
  simp [goodLines, faults]

theorem untilFault_append_answer (count : Nat) (answer : Option (Except LineError Line))
    (rest : List (Except LineError Line)) :
    untilFault (count + 1) (answer.toList ++ rest) =
      answer.toList ++ untilFault (count + 1 - (faults answer.toList).length) rest := by
  cases answer with
  | none => rfl
  | some result => cases result <;> rfl

/-- A line that has been read is no longer to come, and what is read in the end is the same. -/
theorem outcome_of_read {stop : Nat} {intake after : Intake}
    {answer : Option (Except LineError Line)} (few : intake.errors.length < maxFaults)
    (read : readLines stop intake.cursor.rest =
      answer.toList ++ readLines stop after.cursor.rest)
    (lines : after.lines = intake.lines ++ goodLines answer.toList)
    (errors : after.errors = intake.errors ++ faults answer.toList) :
    after.outcome stop = intake.outcome stop := by
  obtain ⟨left, enough⟩ : ∃ left, maxFaults - intake.errors.length = left + 1 :=
    ⟨maxFaults - intake.errors.length - 1, by omega⟩
  have fewer : maxFaults - (intake.errors.length + (faults answer.toList).length) =
      left + 1 - (faults answer.toList).length := by omega
  simp only [outcome, read, lines, errors, enough, untilFault_append_answer, List.length_append,
    fewer]
  simp only [goodLines, faults, List.filterMap_append, List.append_assoc]

section

variable {stop : Nat} {intake : Intake} {spot : Spot}

/-- The cursor stands on the first line of the tokens to come. -/
theorem OfText.exists_spot (ofText : intake.OfText stop) :
    ∃ spot : Spot, spot.On spot.line.lexemes intake.cursor ∧ spot.ending = Span.point stop ∧
      intake.cursor.rest = spot.line.lexemes ++ spot.tail ∧
        readLines stop intake.cursor.rest =
          (Line.read? spot.line).toList ++ readLines stop spot.tail.tail := by
  obtain ⟨spot, before, ending, whole, read⟩ :=
    Source.exists_spot stop intake.cursor.taken intake.cursor.rest
  refine ⟨spot, ⟨[], rfl, ?_⟩, ending, whole, read⟩
  rw [← whole, before, ending, ← ofText.ending_eq]
  rfl

/-- Behind the first line of the tokens to come there are tokens of the same text, and fewer. -/
theorem OfText.behind (ofText : intake.OfText stop)
    (whole : intake.cursor.rest = spot.line.lexemes ++ spot.tail)
    (ending : spot.ending = Span.point stop) (more : intake.cursor.rest ≠ []) {after : Intake}
    (past : spot.Past after.cursor) :
    after.OfText stop ∧ after.cursor.rest.length < intake.cursor.rest.length := by
  refine ⟨⟨past.ending_eq.trans ending, fun name member => ofText.words name ?_⟩, ?_⟩
  · have part : spot.tail.tail ⊆ intake.cursor.rest := by
      rw [whole]
      exact fun lexeme inside => List.mem_append_right _ (List.mem_of_mem_tail inside)
    rw [past.rest_eq] at member
    exact List.map_subset _ part member
  · have positive := List.length_pos_iff.mpr more
    rw [whole, List.length_append] at positive ⊢
    rw [past.rest_eq, List.length_tail]
    omega

/-- A round reads the first line of the tokens to come, and leaves the cursor behind it. -/
theorem OfText.next?_eq_some (ofText : intake.OfText stop) {after : Intake}
    (on : spot.On spot.line.lexemes intake.cursor)
    (whole : intake.cursor.rest = spot.line.lexemes ++ spot.tail)
    (next : intake.next? = some after) :
    spot.Past after.cursor ∧
      after.lines = intake.lines ++ goodLines (Line.read? spot.line).toList ∧
        after.errors = intake.errors ++ faults (Line.read? spot.line).toList := by
  unfold next? at next
  split at next
  · cases next
  next more =>
  split at next
  · cases next
  cases lexemes : spot.line.lexemes with
  | nil =>
      have nothing : Line.read? spot.line = none := by rw [Line.read?, lexemes]
      rw [lexemes] at on
      have newline : intake.cursor.peek? = some .lineEnd := by
        refine on.peek?_nil.1.resolve_left fun none => more ?_
        rwa [Cursor.peek?, Option.map_eq_none_iff, List.head?_eq_none_iff] at none
      rw [if_pos newline] at next
      obtain rfl := Option.some.inj next
      rw [nothing]
      exact ⟨on.past_advance, (List.append_nil _).symm, (List.append_nil _).symm⟩
  | cons lexeme rest =>
      have first := lexemes ▸ on
      have other : intake.cursor.peek? ≠ some .lineEnd := by
        simp [first.peek?_cons, first.token_ne]
      have words : ∀ name, .name name ∈ spot.line.lexemes.map Lexeme.token →
          isWord name = true := by
        intro name member
        refine ofText.words name ?_
        rw [whole, List.map_append]
        exact List.mem_append_left _ member
      have agrees := Spot.line_agrees words (by rw [lexemes]; exact List.cons_ne_nil _ _) on
      have reading : Line.read? spot.line =
          some (Line.readFrom spot.line intake.cursor.span) := by
        rw [Line.read?, lexemes, first.span_cons]
      rw [if_neg other] at next
      rw [reading]
      generalize CursorM.line.run intake.cursor = result at agrees next
      generalize Line.readFrom spot.line intake.cursor.span = answer at agrees
      cases agrees with
      | ok shown =>
          obtain ⟨rfl, past⟩ := shown
          obtain rfl := Option.some.inj next
          exact ⟨past, rfl, (List.append_nil _).symm⟩
      | error on =>
          obtain rfl := Option.some.inj next
          exact ⟨on.skipLine, (List.append_nil _).symm, rfl⟩

end

/-- A round goes on in the same text, takes tokens, and leaves what is read in the end. -/
theorem OfText.next {stop : Nat} {intake after : Intake} (ofText : intake.OfText stop)
    (next : intake.next? = some after) :
    after.OfText stop ∧ after.cursor.rest.length < intake.cursor.rest.length ∧
      after.outcome stop = intake.outcome stop := by
  obtain ⟨spot, on, ending, whole, read⟩ := ofText.exists_spot
  obtain ⟨past, lines, errors⟩ := ofText.next?_eq_some on whole next
  have going : ¬ (intake.cursor.rest = [] ∨ maxFaults ≤ intake.errors.length) := by
    rw [← next?_eq_none_iff, next]
    exact nofun
  rw [not_or] at going
  obtain ⟨ofText', fewer⟩ := ofText.behind whole ending going.1 past
  rw [← past.rest_eq] at read
  exact ⟨ofText', fewer, outcome_of_read (Nat.lt_of_not_le going.2) read lines errors⟩

/-- The rounds come to an end, and what has been read then does not depend on where they began. -/
theorem OfText.exists_ends {stop : Nat} {intake : Intake} (ofText : intake.OfText stop) :
    ∃ last, intake.Ends last ∧ (last.lines, last.errors) = intake.outcome stop := by
  -- Every round leaves fewer tokens.
  generalize count : intake.cursor.rest.length = size
  induction size using Nat.strongRecOn generalizing intake with
  | ind size ih =>
      cases next : intake.next? with
      | none => exact ⟨intake, .ended next, (outcome_of_next?_eq_none stop next).symm⟩
      | some after =>
          obtain ⟨ofText', shorter, same⟩ := ofText.next next
          obtain ⟨last, ends, read⟩ := ih _ (count ▸ shorter) ofText' rfl
          exact ⟨last, .round next ends, read.trans same⟩

theorem Ends.unique {intake last other : Intake} (ends : intake.Ends last)
    (ends' : intake.Ends other) : last = other := by
  induction ends with
  | ended none =>
      cases ends' with
      | ended => rfl
      | round next => rw [none] at next; cases next
  | round next _ ih =>
      cases ends' with
      | ended none => rw [none] at next; cases next
      | round next' rest =>
          obtain rfl := Option.some.inj (next.symm.trans next')
          exact ih rest

end Intake

/-! ## Faults by their places -/

/-- The same program, and the same faults in some order. -/
def Assembly.Alike (first second : Assembly) : Prop :=
  first.program = second.program ∧ first.faults.Perm second.faults

/-- Lines that are pushed behind all faults are assembled alike. -/
theorem Assembly.foldl_goodLines {first second : Assembly}
    (results : List (Except LineError Line)) (program : first.program = second.program)
    (same : (Source.faults results ++ first.faults).Perm second.faults) :
    (results.foldl add first).Alike (((goodLines results).map .ok).foldl add second) := by
  induction results generalizing first second with
  | nil => exact ⟨program, same⟩
  | cons result results ih =>
      cases result with
      | error error => exact ih program (List.perm_middle.trans same)
      | ok line =>
          show (results.foldl add (first.add (.ok line))).Alike
            (((goodLines results).map .ok).foldl add (second.add (.ok line)))
          cases pushed : first.program.pushed line.instruction with
          | ok next =>
              rw [add_of_pushed pushed, add_of_pushed (program ▸ pushed)]
              refine ih ?_ ?_
              · rfl
              · exact same
          | error error =>
              rw [add_of_refused pushed, add_of_refused (program ▸ pushed)]
              refine ih ?_ ?_
              · exact program
              · exact List.perm_middle.trans (same.cons _)

/-- Errors that stand one behind the other are in the only order of theirs by places. -/
theorem mergeSort_eq_of_increasing {errors sorted : List LineError} (same : errors.Perm sorted)
    (increasing : sorted.Pairwise fun one other => one.span.start < other.span.start) :
    errors.mergeSort LineError.startsBefore = sorted := by
  have ordered : (errors.mergeSort LineError.startsBefore).Pairwise
      fun one other => one.startsBefore other := by
    refine List.pairwise_mergeSort ?_ ?_ errors
    · intro a b c
      simpa only [LineError.startsBefore_iff] using Nat.le_trans
    · intro a b
      simpa only [Bool.or_eq_true, LineError.startsBefore_iff] using Nat.le_total _ _
  have rearranged := (List.mergeSort_perm errors LineError.startsBefore).trans same
  have apart : (sorted.map fun error => error.span.start).Nodup :=
    List.pairwise_map.mpr (increasing.imp Nat.ne_of_lt)
  refine rearranged.eq_of_pairwise ?_ ordered
    (increasing.imp fun before => LineError.startsBefore_iff.mpr (Nat.le_of_lt before))
  intro one other member member' forth back
  rw [LineError.startsBefore_iff] at forth back
  exact List.inj_on_of_nodup_map apart (rearranged.subset member) member'
    (Nat.le_antisymm forth back)

/-- The readings of a text have their faults in the order of the places. -/
theorem faults_increase {source : String} {lexemes : List Lexeme}
    (lexed : Token.lex source = .ok lexemes) (name : String) :
    ((readings source.utf8ByteSize lexemes).foldl Assembly.add
        { program := Program.named name }).faults.reverse.Pairwise
      fun one other => one.span.start < other.span.start := by
  obtain ⟨results, -, read, placed⟩ := exists_results (Token.scan_eq_ok_iff.mp lexed)
  rw [Nat.zero_add, ← Text.utf8ByteSize_ofList, String.ofList_toList] at read
  obtain ⟨failing, all⟩ := (Assembled.foldl name results).all_errors
  have increasing := all.starts_increase placed
  obtain ⟨tail, split, -⟩ := untilFault_split maxFaults results.reduceOption
  obtain ⟨more, whole, -⟩ := foldl_add_faults
    ((untilFault maxFaults results.reduceOption).foldl Assembly.add
      { program := Program.named name }) tail
  rw [← List.foldl_append, ← split] at whole
  rw [whole, List.reverse_append, List.pairwise_append] at increasing
  rw [readings, read]
  exact increasing.1

/-- What the cursor has read of a text in the end makes the program, or the errors, of its lines. -/
theorem Intake.settle_eq {source : String} {lexemes : List Lexeme} {last : Intake}
    (lexed : Token.lex source = .ok lexemes) (name : String)
    (lines : last.lines = goodLines (readings source.utf8ByteSize lexemes))
    (errors : last.errors = faults (readings source.utf8ByteSize lexemes)) :
    last.settle name = assemble name (readings source.utf8ByteSize lexemes) := by
  have increasing := faults_increase lexed name
  obtain ⟨program, same⟩ := @Assembly.foldl_goodLines { program := Program.named name }
    { program := Program.named name, faults := last.errors.reverse }
    (readings source.utf8ByteSize lexemes) rfl (by simp [errors])
  rw [← lines] at program same
  have sorted := mergeSort_eq_of_increasing
    ((List.reverse_perm _).trans (same.symm.trans (List.reverse_perm _).symm)) increasing
  unfold settle assemble
  simp only [sorted, ← program, same.isEmpty_eq]

/-- What a text is read as with a cursor, round after round, is what it is read as line by line. -/
theorem readsAs_iff_parse {name source : String} {result : Except SourceError Program} :
    ReadsAs name source result ↔ result = parse name source := by
  cases lexed : Token.lex source with
  | error error =>
      rw [parse, lexed]
      constructor
      · rintro (⟨failed⟩ | ⟨tokens, -⟩)
        · rw [Except.error.inj (lexed.symm.trans failed)]
        · cases lexed.symm.trans tokens
      · rintro rfl
        exact .lex lexed
  | ok lexemes =>
      have ofText : (Intake.start source lexemes).OfText source.utf8ByteSize :=
        ⟨rfl, fun _ => Token.isWord_of_mem_tokens (Token.tokens_of_lex lexed)⟩
      obtain ⟨last, ends, read⟩ := ofText.exists_ends
      have settled : last.settle name = parse name source := by
        rw [parse, lexed]
        exact Intake.settle_eq lexed name (congrArg Prod.fst read) (congrArg Prod.snd read)
      constructor
      · rintro (⟨failed⟩ | ⟨tokens, ends'⟩)
        · cases lexed.symm.trans failed
        · obtain rfl := Except.ok.inj (lexed.symm.trans tokens)
          rw [ends'.unique ends, settled]
      · rintro rfl
        exact settled ▸ .tokens lexed ends

end Source

end RegisterMachine
