import RegisterMachine.Proofs.SourceRoundTrip

/-!
# Reading one line

The tokens of one line, without a newline among them, are read as one instruction
or not at all.  They are read as an instruction exactly when the grammar has them
as that instruction, and the grammar has no tokens as two instructions; all other
tokens are one fault, and no tokens are nothing.
-/

namespace RegisterMachine

namespace Line

/-- Some tokens are a line of the grammar, and the line stands for this instruction: an optional
label in brackets, the tokens of the operation, and an optional count of its cycles, where the
names are variables and labels. -/
structure Denotes (tokens : List Token) (instruction : Instruction) : Prop where
  writes : Writes tokens instruction
  label_named : ∀ label, instruction.label = some label → isLabelName label = true
  var_named : ∀ var, instruction.var? = some var → isVariableName var = true
  target_named : ∀ target, instruction.target? = some target → isLabelName target = true
  orphan : instruction.parent = none

/-- A line that is read stands for what it is read as, since a text has no other names than
labels. -/
theorem readFrom_eq_ok_iff_denotes {line : TokenLine} {start : Span} {result : Line}
    (words : ∀ name, .name name ∈ line.lexemes.map Lexeme.token → isWord name = true) :
    readFrom line start = .ok result ↔
      Denotes (line.lexemes.map Lexeme.token) result.instruction ∧
        result.span = wholeSpan line start := by
  rw [readFrom_eq_ok_iff]
  constructor
  · rintro ⟨writes, orphan, named, span⟩
    have writable := writes.writable words named
    refine ⟨⟨writes, fun label carried => ?_, named, fun target jumps => ?_, orphan⟩, span⟩
    · exact (isWord_iff.mp (writable.label_word label carried)).1
    · exact (isWord_iff.mp (writable.target_word target jumps)).1
  · rintro ⟨denotes, span⟩
    exact ⟨denotes.writes, denotes.orphan, denotes.var_named, span⟩

theorem Denotes.tokens_ne_nil {tokens : List Token} {instruction : Instruction}
    (denotes : Denotes tokens instruction) : tokens ≠ [] := by
  obtain ⟨form, -, cycles, -, rfl⟩ := denotes.writes
  cases instruction.op <;> simp [Op.tokens]

end Line

namespace Source

theorem tokenLines_of_single {stop : Nat} {line : List Lexeme}
    (single : .lineEnd ∉ line.map Lexeme.token) :
    tokenLines stop line = [⟨line, Span.point stop, false⟩] := by
  induction line with
  | nil => rfl
  | cons lexeme line ih =>
      rw [List.map_cons, List.mem_cons, not_or] at single
      rw [tokenLines, if_neg (Ne.symm single.1), ih single.2]

theorem readLines_of_single {stop : Nat} {line : List Lexeme}
    (single : .lineEnd ∉ line.map Lexeme.token) :
    readLines stop line = (Line.read? ⟨line, Span.point stop, false⟩).toList := by
  rw [readLines, tokenLines_of_single single, List.filterMap_cons]
  cases Line.read? ⟨line, Span.point stop, false⟩ <;> rfl

theorem untilFault_toList (count : Nat) (result : Option (Except LineError Line)) :
    untilFault (count + 1) result.toList = result.toList := by
  rcases result with _ | error | line
  · rfl
  · cases count <;> rfl
  · rfl

/-- One line is read once, or not at all. -/
theorem readings_of_single {stop : Nat} {line : List Lexeme}
    (single : .lineEnd ∉ line.map Lexeme.token) :
    readings stop line = (Line.read? ⟨line, Span.point stop, false⟩).toList := by
  rw [readings, readLines_of_single single, maxFaults, untilFault_toList]

/-- What reading one line comes to. -/
structure ReadsByGrammar (stop : Nat) (line : List Lexeme) : Prop where
  /-- There is one instruction and no fault exactly for a line of the grammar. -/
  accepts_iff : ∀ instruction,
    ((∃ span, goodLines (readings stop line) = [⟨instruction, span⟩]) ∧
        faults (readings stop line) = []) ↔
      Line.Denotes (line.map Lexeme.token) instruction
  denotes_unique : ∀ first second, Line.Denotes (line.map Lexeme.token) first →
    Line.Denotes (line.map Lexeme.token) second → first = second
  /-- Every other line that holds something has one fault and no instruction. -/
  refuses : line ≠ [] → (¬ ∃ instruction, Line.Denotes (line.map Lexeme.token) instruction) →
    goodLines (readings stop line) = [] ∧ ∃ error, faults (readings stop line) = [error]

/-- Reading a line of a text accepts exactly the grammar. -/
theorem line_read_iff_in_grammar {source : String} {lexemes line : List Lexeme}
    (lexed : Token.lex source = .ok lexemes) (part : line <:+: lexemes)
    (single : .lineEnd ∉ line.map Lexeme.token) (stop : Nat) : ReadsByGrammar stop line := by
  have words : ∀ name, .name name ∈ line.map Lexeme.token → isWord name = true := by
    intro name member
    refine Token.isWord_of_mem_tokens (Token.tokens_of_lex lexed) ?_
    exact (part.map Lexeme.token).subset member
  cases line with
  | nil =>
      have empty : ∀ instruction, ¬ Line.Denotes [] instruction :=
        fun _ denotes => denotes.tokens_ne_nil rfl
      refine ⟨fun instruction => ?_, fun first _ denotes => absurd denotes (empty first), nofun⟩
      exact iff_of_false (fun accepted => nomatch accepted.1.choose_spec) (empty instruction)
  | cons first rest =>
      have read : readings stop (first :: rest) =
          [Line.readFrom ⟨first :: rest, Span.point stop, false⟩ first.span] :=
        readings_of_single single
      have denotes_iff := fun result => @Line.readFrom_eq_ok_iff_denotes
        ⟨first :: rest, Span.point stop, false⟩ first.span result words
      constructor
      case accepts_iff =>
        intro instruction
        rw [read]
        constructor
        · rintro ⟨⟨span, accepted⟩, -⟩
          cases result : Line.readFrom ⟨first :: rest, Span.point stop, false⟩ first.span with
          | error error => rw [result] at accepted; cases accepted
          | ok line =>
              rw [result] at accepted
              obtain rfl : line = ⟨instruction, span⟩ := List.singleton_inj.mp accepted
              exact ((denotes_iff _).mp result).1
        · intro denotes
          rw [(denotes_iff ⟨instruction, _⟩).mpr ⟨denotes, rfl⟩]
          exact ⟨⟨_, rfl⟩, rfl⟩
      case denotes_unique =>
        intro one other denotes denotes'
        have readOne := (denotes_iff ⟨one, _⟩).mpr ⟨denotes, rfl⟩
        have readOther := (denotes_iff ⟨other, _⟩).mpr ⟨denotes', rfl⟩
        rw [readOne] at readOther
        exact congrArg Line.instruction (Except.ok.inj readOther)
      case refuses =>
        intro _ absent
        rw [read]
        cases result : Line.readFrom ⟨first :: rest, Span.point stop, false⟩ first.span with
        | error error => exact ⟨rfl, error, rfl⟩
        | ok line => exact absurd ⟨_, ((denotes_iff line).mp result).1⟩ absent

/-- The second line of a text, with empty brackets and a count of cycles. -/
theorem line_read_iff_in_grammar_second :
    let line : List Lexeme := [⟨.openBracket, ⟨7, 8⟩⟩, ⟨.closeBracket, ⟨8, 9⟩⟩,
      ⟨.gotoWord, ⟨10, 14⟩⟩, ⟨.name "A", ⟨15, 16⟩⟩, ⟨.openParen, ⟨17, 18⟩⟩,
      ⟨.number 1, ⟨18, 19⟩⟩, ⟨.closeParen, ⟨19, 20⟩⟩]
    (∃ lexemes, Token.lex "y <- 0\n[] GOTO A (1)" = .ok lexemes ∧ line <:+: lexemes) ∧
      Line.Denotes (line.map Lexeme.token) { op := .goto "A" } ∧ ReadsByGrammar 20 line := by
  intro line
  have lexed : Token.lex "y <- 0\n[] GOTO A (1)" = .ok
      ([⟨.name "y", ⟨0, 1⟩⟩, ⟨.assign, ⟨2, 4⟩⟩, ⟨.number 0, ⟨5, 6⟩⟩, ⟨.lineEnd, ⟨6, 7⟩⟩] ++
        line ++ []) := by decide +kernel
  have part := List.infix_append
    [⟨.name "y", ⟨0, 1⟩⟩, ⟨.assign, ⟨2, 4⟩⟩, ⟨.number 0, ⟨5, 6⟩⟩, ⟨.lineEnd, ⟨6, 7⟩⟩] line []
  have reads := line_read_iff_in_grammar lexed part (by decide) 20
  exact ⟨⟨_, lexed, part⟩, (reads.accepts_iff _).mp ⟨⟨⟨7, 20⟩, by decide⟩, by decide⟩, reads⟩

end Source

end RegisterMachine
