import RegisterMachine.Source.Line

/-!
# The grammar of a line

Each part of a line has its tokens: a label in brackets, an operation, a count of
cycles.  The label and the count may be left out, and the brackets of a label may
be empty.  Reading a line gives an instruction exactly when the tokens of the line
are those of the instruction in one of these forms and its variable is one.
-/

namespace RegisterMachine

/-- The tokens that an operation is written with. -/
def Op.tokens : Op → List Token
  | neutral var => [.name var, .assign, .name var]
  | increase var => [.name var, .assign, .name var, .plus, .number 1]
  | decrease var => [.name var, .assign, .name var, .minus, .number 1]
  | jumpNotZero var target =>
      [.ifWord, .name var, .notEquals, .number 0, .gotoWord, .name target]
  | zero var => [.name var, .assign, .number 0]
  | goto target => [.gotoWord, .name target]

/-- What an operation costs fits in a number token. -/
theorem Op.toNat_ofNat_cycles (op : Op) : (UInt64.ofNat op.cycles).toNat = op.cycles := by
  have small : op.cycles < 2 ^ 64 := Nat.lt_of_le_of_lt (Opcode.cycles_le_two _) (by decide)
  exact UInt64.toNat_ofNat_of_lt' small

/-- The tokens of an instruction that is written in full. -/
def Instruction.tokens (instruction : Instruction) : List Token :=
  .openBracket :: instruction.label.toList.map .name ++ [.closeBracket] ++
    instruction.op.tokens ++
      [.openParen, .number (UInt64.ofNat instruction.cycles), .closeParen]

namespace Line

/-- The ways to write a label, or that there is none. -/
def labelForms : Option String → List (List Token)
  | none => [[], [.openBracket, .closeBracket]]
  | some label => [[.openBracket, .name label, .closeBracket]]

/-- The ways to write, or not to write, what an operation costs. -/
def cycleForms (op : Op) : List (List Token) :=
  [[], [.openParen, .number (UInt64.ofNat op.cycles), .closeParen]]

/-- Some tokens are an instruction in one of its forms. -/
def Writes (tokens : List Token) (instruction : Instruction) : Prop :=
  ∃ label ∈ labelForms instruction.label, ∃ cycles ∈ cycleForms instruction.op,
    tokens = label ++ instruction.op.tokens ++ cycles

theorem writes_tokens (instruction : Instruction) : Writes instruction.tokens instruction := by
  have label : .openBracket :: instruction.label.toList.map .name ++ [.closeBracket] ∈
      labelForms instruction.label := by
    cases instruction.label with
    | none => exact List.mem_cons_of_mem _ (List.mem_singleton_self _)
    | some label => exact List.mem_singleton_self _
  exact ⟨_, label, _, List.mem_cons_of_mem _ (List.mem_singleton_self _), rfl⟩

/-! ## Tokens taken off a line -/

/-- Exactly these tokens stand before the rest. -/
def Takes (tokens : List Token) (lexemes rest : List Lexeme) : Prop :=
  ∃ consumed, lexemes = consumed ++ rest ∧ consumed.map Lexeme.token = tokens

namespace Takes

theorem nil_iff {lexemes rest : List Lexeme} : Takes [] lexemes rest ↔ lexemes = rest := by
  constructor
  · rintro ⟨consumed, rfl, empty⟩
    rw [List.map_eq_nil_iff.mp empty, List.nil_append]
  · rintro rfl
    exact ⟨[], rfl, rfl⟩

theorem cons_iff {token : Token} {tokens : List Token} {lexemes rest : List Lexeme} :
    Takes (token :: tokens) lexemes rest ↔
      ∃ span after, lexemes = ⟨token, span⟩ :: after ∧ Takes tokens after rest := by
  constructor
  · rintro ⟨consumed, rfl, same⟩
    obtain ⟨lexeme, more, rfl, rfl, rfl⟩ := List.map_eq_cons_iff.mp same
    exact ⟨lexeme.span, more ++ rest, rfl, more, rfl, rfl⟩
  · rintro ⟨span, after, rfl, consumed, rfl, rfl⟩
    exact ⟨⟨token, span⟩ :: consumed, rfl, rfl⟩

theorem append_iff {first second : List Token} {lexemes rest : List Lexeme} :
    Takes (first ++ second) lexemes rest ↔
      ∃ middle, Takes first lexemes middle ∧ Takes second middle rest := by
  induction first generalizing lexemes with
  | nil => simp [nil_iff]
  | cons token first ih =>
      simp only [List.cons_append, cons_iff, ih]
      constructor
      · rintro ⟨span, after, rfl, middle, start, rest⟩
        exact ⟨middle, ⟨span, after, rfl, start⟩, rest⟩
      · rintro ⟨middle, ⟨span, after, rfl, start⟩, rest⟩
        exact ⟨span, after, rfl, middle, start, rest⟩

theorem all_iff {tokens : List Token} {lexemes : List Lexeme} :
    Takes tokens lexemes [] ↔ lexemes.map Lexeme.token = tokens := by
  constructor
  · rintro ⟨consumed, rfl, same⟩
    rw [List.append_nil]
    exact same
  · intro same
    exact ⟨lexemes, (List.append_nil _).symm, same⟩

/-- The line goes on with the first of the tokens. -/
theorem head_token {tokens : List Token} {lexemes rest : List Lexeme} {token : Token}
    {lexeme : Lexeme} (takes : Takes tokens lexemes rest) (first : tokens.head? = some token)
    (head : lexemes.head? = some lexeme) : lexeme.token = token := by
  obtain ⟨consumed, rfl, rfl⟩ := takes
  cases consumed with
  | nil => cases first
  | cons found consumed =>
      obtain rfl : found = lexeme := Option.some.inj head
      exact Option.some.inj first

end Takes

theorem bind_eq_ok_iff {ε α β : Type} {first : Except ε α} {next : α → Except ε β} {value : β} :
    (first >>= next) = .ok value ↔ ∃ middle, first = .ok middle ∧ next middle = .ok value := by
  cases first with
  | error error => simp [bind, Except.bind]
  | ok middle => simp [bind, Except.bind]

theorem takeToken_eq_ok_iff {ending : Span} {token : Token} {lexemes : List Lexeme}
    {taken : Taken Unit} : takeToken ending token lexemes = .ok taken ↔
      lexemes = ⟨token, taken.last⟩ :: taken.rest := by
  cases lexemes with
  | nil => simp [takeToken]
  | cons lexeme rest =>
      obtain ⟨found, span⟩ := lexeme
      obtain ⟨⟨⟩, last, after⟩ := taken
      by_cases same : found = token
      · simp [takeToken, same]
      · simp [takeToken, same]

theorem takeName_eq_ok_iff {ending : Span} {expected : Expectation} {lexemes : List Lexeme}
    {taken : Taken String} : takeName ending expected lexemes = .ok taken ↔
      lexemes = ⟨.name taken.value, taken.last⟩ :: taken.rest := by
  obtain ⟨text, last, after⟩ := taken
  unfold takeName
  split
  · simp [and_assoc]
  · next other =>
      simp only [reduceCtorEq, false_iff]
      exact other text last after

theorem takeNumber_eq_ok_iff {ending : Span} {value : UInt64} {lexemes : List Lexeme}
    {taken : Taken Unit} : takeNumber ending value lexemes = .ok taken ↔
      lexemes = ⟨.number value, taken.last⟩ :: taken.rest := by
  obtain ⟨⟨⟩, last, after⟩ := taken
  unfold takeNumber
  split
  · next found span rest =>
      by_cases same : found = value
      · simp [same]
      · simp [same]
  · next other =>
      simp only [reduceCtorEq, false_iff]
      exact other value last after

/-! ## Labels and cycles -/

theorem takeLabel_sound {ending : Span} {lexemes rest : List Lexeme} {label : Option String}
    (read : takeLabel ending lexemes = .ok (label, rest)) :
    ∃ form ∈ labelForms label, Takes form lexemes rest := by
  unfold takeLabel at read
  split at read
  · cases read
    exact ⟨_, List.mem_cons_of_mem _ (List.mem_singleton_self _), [_, _], rfl, rfl⟩
  · simp only [bind_eq_ok_iff, takeName_eq_ok_iff, takeToken_eq_ok_iff] at read
    obtain ⟨name, rfl, bracket, after, same⟩ := read
    cases same
    exact ⟨_, List.mem_singleton_self _, [_, _, ⟨_, bracket.last⟩], by rw [after]; rfl, rfl⟩
  · cases read
    exact ⟨[], List.mem_cons_self, Takes.nil_iff.mpr rfl⟩

theorem takeLabel_complete {ending : Span} {lexemes rest : List Lexeme} {label : Option String}
    {form : List Token} (member : form ∈ labelForms label) (takes : Takes form lexemes rest)
    (ends : ∀ lexeme, rest.head? = some lexeme → lexeme.token ≠ .openBracket) :
    takeLabel ending lexemes = .ok (label, rest) := by
  cases label with
  | some label =>
      obtain rfl := List.mem_singleton.mp member
      simp only [Takes.cons_iff, Takes.nil_iff] at takes
      obtain ⟨_, _, rfl, _, _, rfl, _, _, rfl, rfl⟩ := takes
      rfl
  | none =>
      simp only [labelForms, List.mem_cons, List.not_mem_nil, or_false] at member
      rcases member with rfl | rfl
      · obtain rfl := Takes.nil_iff.mp takes
        unfold takeLabel
        split
        · exact absurd rfl (ends _ rfl)
        · exact absurd rfl (ends _ rfl)
        · rfl
      · simp only [Takes.cons_iff, Takes.nil_iff] at takes
        obtain ⟨_, _, rfl, _, _, rfl, rfl⟩ := takes
        rfl

theorem takeCycles_sound {ending : Span} {op : Op} {lexemes rest : List Lexeme}
    (read : takeCycles ending op lexemes = .ok rest) :
    ∃ form ∈ cycleForms op, Takes form lexemes rest := by
  unfold takeCycles at read
  split at read
  · next start written span after =>
      simp only [bind_eq_ok_iff, takeToken_eq_ok_iff] at read
      obtain ⟨close, rfl, read⟩ := read
      split at read
      · next same =>
          cases read
          refine ⟨_, List.mem_cons_of_mem _ (List.mem_singleton_self _), [_, _, _], rfl, ?_⟩
          rw [← same, UInt64.ofNat_toNat]
          rfl
      · cases read
  · cases read
  · cases read
    exact ⟨[], List.mem_cons_self, Takes.nil_iff.mpr rfl⟩

theorem takeCycles_complete {ending : Span} {op : Op} {lexemes : List Lexeme}
    {form : List Token} (member : form ∈ cycleForms op) (takes : Takes form lexemes []) :
    takeCycles ending op lexemes = .ok [] := by
  simp only [cycleForms, List.mem_cons, List.not_mem_nil, or_false] at member
  rcases member with rfl | rfl
  · obtain rfl := Takes.nil_iff.mp takes
    rfl
  · simp only [Takes.cons_iff, Takes.nil_iff] at takes
    obtain ⟨_, _, rfl, _, _, rfl, _, _, rfl, rfl⟩ := takes
    simp only [takeCycles, bind_eq_ok_iff, takeToken_eq_ok_iff, op.toNat_ofNat_cycles, if_pos]
    exact ⟨⟨(), _, []⟩, rfl, rfl⟩

/-! ## Operations -/

theorem takeCondition_sound {ending : Span} {lexemes : List Lexeme} {taken : Taken Op}
    (read : takeCondition ending lexemes = .ok taken) :
    ∃ tokens, taken.value.tokens = .ifWord :: tokens ∧ Takes tokens lexemes taken.rest := by
  simp only [takeCondition, bind_eq_ok_iff, takeToken_eq_ok_iff, takeName_eq_ok_iff,
    takeNumber_eq_ok_iff] at read
  obtain ⟨var, rfl, sign, atSign, zero, atZero, goto, atGoto, target, atTarget, same⟩ := read
  cases same
  refine ⟨_, rfl, [⟨_, var.last⟩, ⟨_, sign.last⟩, ⟨_, zero.last⟩, ⟨_, goto.last⟩,
    ⟨_, target.last⟩], ?_, rfl⟩
  rw [atSign, atZero, atGoto, atTarget]
  rfl

theorem takeGoto_sound {ending : Span} {lexemes : List Lexeme} {taken : Taken Op}
    (read : takeGoto ending lexemes = .ok taken) :
    ∃ tokens, taken.value.tokens = .gotoWord :: tokens ∧ Takes tokens lexemes taken.rest := by
  simp only [takeGoto, bind_eq_ok_iff, takeName_eq_ok_iff] at read
  obtain ⟨target, rfl, same⟩ := read
  cases same
  exact ⟨_, rfl, [_], rfl, rfl⟩

theorem takeChange_sound {ending : Span} {var : String} {source : Taken String}
    {taken : Taken Op} (read : takeChange ending var source = .ok taken) :
    ∃ tokens, taken.value.tokens = .name var :: .assign :: .name var :: tokens ∧
      Takes tokens source.rest taken.rest := by
  unfold takeChange at read
  split at read
  · next span rest after =>
      simp only [bind_eq_ok_iff, takeNumber_eq_ok_iff] at read
      obtain ⟨one, rfl, same⟩ := read
      cases same
      exact ⟨_, rfl, [_, _], after, rfl⟩
  · next span rest after =>
      simp only [bind_eq_ok_iff, takeNumber_eq_ok_iff] at read
      obtain ⟨one, rfl, same⟩ := read
      cases same
      exact ⟨_, rfl, [_, _], after, rfl⟩
  · cases read
    exact ⟨_, rfl, [], rfl, rfl⟩

theorem takeAssignment_sound {ending : Span} {var : String} {lexemes : List Lexeme}
    {taken : Taken Op} (read : takeAssignment ending var lexemes = .ok taken) :
    ∃ tokens, taken.value.tokens = .name var :: tokens ∧ Takes tokens lexemes taken.rest := by
  simp only [takeAssignment, bind_eq_ok_iff, takeToken_eq_ok_iff] at read
  obtain ⟨arrow, rfl, read⟩ := read
  split at read
  · next span rest after =>
      cases read
      exact ⟨_, rfl, [_, _], congrArg _ after, rfl⟩
  · simp only [bind_eq_ok_iff, takeName_eq_ok_iff] at read
    obtain ⟨source, after, read⟩ := read
    split at read
    · next same =>
        obtain ⟨tokens, whole, consumed, rest, rfl⟩ := takeChange_sound read
        refine ⟨_, whole, ⟨_, arrow.last⟩ :: ⟨_, source.last⟩ :: consumed, ?_, rfl⟩
        rw [after, same, rest]
        rfl
    · cases read

/-- An operation that is read has been written with its tokens. -/
theorem takeOp_sound {ending : Span} {lexemes : List Lexeme} {taken : Taken Op}
    (read : takeOp ending lexemes = .ok taken) :
    Takes taken.value.tokens lexemes taken.rest := by
  unfold takeOp at read
  split at read
  · obtain ⟨tokens, whole, takes⟩ := takeCondition_sound read
    exact whole ▸ Takes.cons_iff.mpr ⟨_, _, rfl, takes⟩
  · obtain ⟨tokens, whole, takes⟩ := takeGoto_sound read
    exact whole ▸ Takes.cons_iff.mpr ⟨_, _, rfl, takes⟩
  · split at read
    · cases read
    · obtain ⟨tokens, whole, takes⟩ := takeAssignment_sound read
      exact whole ▸ Takes.cons_iff.mpr ⟨_, _, rfl, takes⟩
  · cases read

theorem takeOp_of_arrow (ending : Span) (name : String) (first second : Span)
    (rest : List Lexeme) :
    takeOp ending (⟨.name name, first⟩ :: ⟨.assign, second⟩ :: rest) =
      takeAssignment ending name (⟨.assign, second⟩ :: rest) := by
  unfold takeOp
  dsimp only
  split
  · next arrow => cases arrow
  · rfl

theorem takeAssignment_of_name (ending : Span) (var : String) (first second : Span)
    (rest : List Lexeme) :
    takeAssignment ending var (⟨.assign, first⟩ :: ⟨.name var, second⟩ :: rest) =
      takeChange ending var ⟨var, second, rest⟩ := by
  simp [takeAssignment, takeToken, takeName, bind, Except.bind]

/-- An operation is read where its tokens stand, unless a sign could go on with it. -/
theorem takeOp_complete {ending : Span} {op : Op} {lexemes rest : List Lexeme}
    (takes : Takes op.tokens lexemes rest)
    (ends : ∀ lexeme, rest.head? = some lexeme →
      lexeme.token ≠ .plus ∧ lexeme.token ≠ .minus) :
    ∃ last, takeOp ending lexemes = .ok ⟨op, last, rest⟩ := by
  cases op with
  | jumpNotZero var target =>
      simp only [Op.tokens, Takes.cons_iff, Takes.nil_iff] at takes
      obtain ⟨_, _, rfl, _, _, rfl, _, _, rfl, _, _, rfl, _, _, rfl, last, _, rfl, rfl⟩ := takes
      exact ⟨last, rfl⟩
  | goto target =>
      simp only [Op.tokens, Takes.cons_iff, Takes.nil_iff] at takes
      obtain ⟨_, _, rfl, last, _, rfl, rfl⟩ := takes
      exact ⟨last, rfl⟩
  | zero var =>
      simp only [Op.tokens, Takes.cons_iff, Takes.nil_iff] at takes
      obtain ⟨_, _, rfl, _, _, rfl, last, _, rfl, rfl⟩ := takes
      exact ⟨last, takeOp_of_arrow ..⟩
  | increase var | decrease var =>
      simp only [Op.tokens, Takes.cons_iff, Takes.nil_iff] at takes
      obtain ⟨_, _, rfl, _, _, rfl, _, _, rfl, _, _, rfl, last, _, rfl, rfl⟩ := takes
      rw [takeOp_of_arrow, takeAssignment_of_name]
      exact ⟨last, rfl⟩
  | neutral var =>
      simp only [Op.tokens, Takes.cons_iff, Takes.nil_iff] at takes
      obtain ⟨_, _, rfl, _, _, rfl, last, _, rfl, rfl⟩ := takes
      rw [takeOp_of_arrow, takeAssignment_of_name]
      refine ⟨last, ?_⟩
      -- Only here does the reading look at a token behind the operation.
      unfold takeChange
      split
      · next span more after =>
          exact absurd rfl (ends ⟨.plus, span⟩ (congrArg List.head? after)).1
      · next span more after =>
          exact absurd rfl (ends ⟨.minus, span⟩ (congrArg List.head? after)).2
      · rfl

/-! ## Whole lines -/

theorem checkVariable_eq_ok_iff {op : Op} {span : Span} : checkVariable op span = .ok () ↔
    ∀ var, op.var? = some var → isVariableName var = true := by
  unfold checkVariable
  cases operand : op.var? with
  | none => simp
  | some var => by_cases named : isVariableName var = true <;> simp [named]

/-- Nothing behind a label looks like one. -/
theorem head_of_op {op : Op} {lexemes rest : List Lexeme} (takes : Takes op.tokens lexemes rest)
    (lexeme : Lexeme) (head : lexemes.head? = some lexeme) : lexeme.token ≠ .openBracket := by
  obtain ⟨token, first, other⟩ : ∃ token, op.tokens.head? = some token ∧ token ≠ .openBracket := by
    cases op <;> exact ⟨_, rfl, Token.noConfusion⟩
  rw [takes.head_token first head]
  exact other

/-- Nothing behind an operation looks like more of it. -/
theorem head_of_cycles {op : Op} {form : List Token} {lexemes : List Lexeme}
    (member : form ∈ cycleForms op) (takes : Takes form lexemes []) (lexeme : Lexeme)
    (head : lexemes.head? = some lexeme) :
    lexeme.token ≠ .plus ∧ lexeme.token ≠ .minus := by
  simp only [cycleForms, List.mem_cons, List.not_mem_nil, or_false] at member
  rcases member with rfl | rfl
  · rw [Takes.nil_iff.mp takes] at head
    cases head
  · rw [takes.head_token rfl head]
    exact ⟨Token.noConfusion, Token.noConfusion⟩

/-- A line is read as an instruction exactly when it writes that instruction, without a parent
and with a proper variable. -/
theorem readFrom_eq_ok_iff {line : TokenLine} {start : Span} {result : Line} :
    readFrom line start = .ok result ↔
      Writes (line.lexemes.map Lexeme.token) result.instruction ∧
        result.instruction.parent = none ∧
          (∀ var, result.instruction.var? = some var → isVariableName var = true) ∧
            result.span = wholeSpan line start := by
  unfold readFrom
  simp only [bind_eq_ok_iff]
  constructor
  · rintro ⟨⟨label, afterLabel⟩, readLabel, op, readOp, ⟨⟩, checked, rest, readCycles, read⟩
    split at read
    · cases read
      obtain ⟨form, member, first⟩ := takeLabel_sound readLabel
      obtain ⟨form', member', last⟩ := takeCycles_sound readCycles
      have front := Takes.append_iff.mpr ⟨_, first, takeOp_sound readOp⟩
      have whole := Takes.all_iff.mp (Takes.append_iff.mpr ⟨_, front, last⟩)
      exact ⟨⟨form, member, form', member', whole⟩, rfl, checkVariable_eq_ok_iff.mp checked, rfl⟩
    · cases read
  · rintro ⟨⟨form, member, form', member', whole⟩, orphan, named, span⟩
    obtain ⟨atCycles, front, last⟩ := Takes.append_iff.mp (Takes.all_iff.mpr whole)
    obtain ⟨afterLabel, first, middle⟩ := Takes.append_iff.mp front
    have readLabel := @takeLabel_complete line.ending _ _ _ _ member first (head_of_op middle)
    obtain ⟨opSpan, readOp⟩ :=
      @takeOp_complete line.ending _ _ _ middle (head_of_cycles member' last)
    refine ⟨_, readLabel, _, readOp, (), checkVariable_eq_ok_iff.mpr named, [],
      takeCycles_complete member' last, ?_⟩
    obtain ⟨⟨op, label, parent⟩, shown⟩ := result
    obtain rfl : parent = none := orphan
    obtain rfl : shown = wholeSpan line start := span
    rfl

end Line

end RegisterMachine
