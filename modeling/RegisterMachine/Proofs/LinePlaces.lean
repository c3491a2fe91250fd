import Mathlib.Data.List.Forall2
import RegisterMachine.Source.Line

/-!
# Spans through the reading of a line

Reading a line looks at its tokens and only carries their spans along: a span of the
result is a span of the line or is merged from spans of the line.  So a relation of
spans that merging keeps is kept by reading.  Two lines with the same tokens at
related spans are read as the same instruction or have the same fault, at related
spans.  One such relation says that a line has moved; another one, of a span with
itself, says that a span lies where the line lies.
-/

namespace RegisterMachine

/-- The same token at related spans. -/
structure Lexeme.Alike (near : Span → Span → Prop) (one other : Lexeme) : Prop where
  token_eq : one.token = other.token
  span_near : near one.span other.span

/-- The same fault at related spans. -/
structure LineError.Alike (near : Span → Span → Prop) (one other : LineError) : Prop where
  fault_eq : one.fault = other.fault
  span_near : near one.span other.span

/-- The same tokens at related spans, and a related end. -/
structure TokenLine.Alike (near : Span → Span → Prop) (one other : TokenLine) : Prop where
  lexemes_alike : List.Forall₂ (Lexeme.Alike near) one.lexemes other.lexemes
  ending_near : near one.ending other.ending
  terminated_eq : one.terminated = other.terminated

namespace Line

/-- The same instruction at related spans. -/
structure Alike (near : Span → Span → Prop) (one other : Line) : Prop where
  instruction_eq : one.instruction = other.instruction
  span_near : near one.span other.span

/-- The same value, taken from related lexemes and leaving related lexemes. -/
structure Taken.Alike {α : Type} (near : Span → Span → Prop) (one other : Taken α) : Prop where
  value_eq : one.value = other.value
  last_near : near one.last other.last
  rest_alike : List.Forall₂ (Lexeme.Alike near) one.rest other.rest

/-- Both readings succeed with related values or fail alike. -/
inductive ReadAlike (near : Span → Span → Prop) {α β : Type} (same : α → β → Prop) :
    Except LineError α → Except LineError β → Prop
  | ok {one : α} {other : β} (values : same one other) : ReadAlike near same (.ok one) (.ok other)
  | error {one other : LineError} (errors : one.Alike near other) :
      ReadAlike near same (.error one) (.error other)

section

variable {near : Span → Span → Prop} {ending ending' : Span} {lexemes lexemes' : List Lexeme}

theorem ReadAlike.bind {α β γ δ : Type} {same : α → β → Prop} {same' : γ → δ → Prop}
    {one : Except LineError α} {other : Except LineError β} {next : α → Except LineError γ}
    {next' : β → Except LineError δ} (first : ReadAlike near same one other)
    (rest : ∀ value value', same value value' → ReadAlike near same' (next value) (next' value')) :
    ReadAlike near same' (one >>= next) (other >>= next') := by
  cases first with
  | ok values => exact rest _ _ values
  | error errors => exact .error errors

/-- Two lines that are alike are both at their end, or go on with the same token. -/
theorem alike_cases (alike : List.Forall₂ (Lexeme.Alike near) lexemes lexemes') :
    (lexemes = [] ∧ lexemes' = []) ∨
      ∃ token span span' rest rest', lexemes = ⟨token, span⟩ :: rest ∧
        lexemes' = ⟨token, span'⟩ :: rest' ∧ near span span' ∧
          List.Forall₂ (Lexeme.Alike near) rest rest' := by
  cases alike with
  | nil => exact .inl ⟨rfl, rfl⟩
  | @cons one other rest rest' first behind =>
      obtain ⟨token, span⟩ := one
      obtain ⟨_, span'⟩ := other
      obtain ⟨rfl, places⟩ := first
      exact .inr ⟨token, span, span', rest, rest', rfl, rfl, places, behind⟩

/-! ## The parts of a line -/

theorem mismatch_alike (expected : Expectation) (ends : near ending ending')
    (alike : List.Forall₂ (Lexeme.Alike near) lexemes lexemes') :
    (mismatch ending expected lexemes).Alike near (mismatch ending' expected lexemes') := by
  cases alike with
  | nil => exact ⟨rfl, ends⟩
  | cons first rest =>
      exact ⟨congrArg (LineFault.unexpected expected) first.token_eq, first.span_near⟩

theorem takeToken_alike (token : Token) (ends : near ending ending')
    (alike : List.Forall₂ (Lexeme.Alike near) lexemes lexemes') :
    ReadAlike near (Taken.Alike near) (takeToken ending token lexemes)
      (takeToken ending' token lexemes') := by
  have wrong := mismatch_alike (.token token) ends alike
  cases alike with
  | nil => exact .error wrong
  | cons first rest =>
      rw [takeToken, takeToken, first.token_eq]
      split
      · exact .ok ⟨rfl, first.span_near, rest⟩
      · exact .error wrong

theorem takeName_alike (expected : Expectation) (ends : near ending ending')
    (alike : List.Forall₂ (Lexeme.Alike near) lexemes lexemes') :
    ReadAlike near (Taken.Alike near) (takeName ending expected lexemes)
      (takeName ending' expected lexemes') := by
  have wrong := mismatch_alike expected ends alike
  obtain ⟨rfl, rfl⟩ | ⟨token, span, span', rest, rest', rfl, rfl, places, behind⟩ :=
    alike_cases alike
  · exact .error wrong
  · cases token
    case name text => exact .ok ⟨rfl, places, behind⟩
    all_goals exact .error wrong

theorem takeNumber_alike (value : UInt64) (ends : near ending ending')
    (alike : List.Forall₂ (Lexeme.Alike near) lexemes lexemes') :
    ReadAlike near (Taken.Alike near) (takeNumber ending value lexemes)
      (takeNumber ending' value lexemes') := by
  have wrong := mismatch_alike (.token (.number value)) ends alike
  obtain ⟨rfl, rfl⟩ | ⟨token, span, span', rest, rest', rfl, rfl, places, behind⟩ :=
    alike_cases alike
  · exact .error wrong
  · cases token
    case number found =>
      rw [takeNumber, takeNumber]
      split
      · exact .ok ⟨rfl, places, behind⟩
      · exact .error ⟨rfl, places⟩
    all_goals exact .error wrong

/-- A label and the lexemes after it are alike. -/
def LabelAlike (near : Span → Span → Prop) (one other : Option String × List Lexeme) : Prop :=
  one.1 = other.1 ∧ List.Forall₂ (Lexeme.Alike near) one.2 other.2

theorem takeLabel_alike (ends : near ending ending')
    (alike : List.Forall₂ (Lexeme.Alike near) lexemes lexemes') :
    ReadAlike near (LabelAlike near) (takeLabel ending lexemes) (takeLabel ending' lexemes') := by
  obtain ⟨rfl, rfl⟩ | ⟨token, span, span', rest, rest', rfl, rfl, -, behind⟩ := alike_cases alike
  · exact .ok ⟨rfl, alike⟩
  · cases token
    case openBracket =>
      have inside : ReadAlike near (LabelAlike near)
          (do
            let label ← takeName ending .label rest
            let bracket ← takeToken ending .closeBracket label.rest
            return (some label.value, bracket.rest))
          (do
            let label ← takeName ending' .label rest'
            let bracket ← takeToken ending' .closeBracket label.rest
            return (some label.value, bracket.rest)) := by
        refine (takeName_alike .label ends behind).bind fun label label' labels => ?_
        refine (takeToken_alike .closeBracket ends labels.rest_alike).bind fun _ _ bracket => ?_
        exact .ok ⟨congrArg some labels.value_eq, bracket.rest_alike⟩
      obtain ⟨rfl, rfl⟩ | ⟨token, _, _, after, after', rfl, rfl, -, behind'⟩ := alike_cases behind
      · exact inside
      · cases token
        case closeBracket => exact .ok ⟨rfl, behind'⟩
        all_goals exact inside
    all_goals exact .ok ⟨rfl, alike⟩

theorem takeCondition_alike (ends : near ending ending')
    (alike : List.Forall₂ (Lexeme.Alike near) lexemes lexemes') :
    ReadAlike near (Taken.Alike near) (takeCondition ending lexemes)
      (takeCondition ending' lexemes') := by
  refine (takeName_alike .variableName ends alike).bind fun var var' vars => ?_
  refine (takeToken_alike .notEquals ends vars.rest_alike).bind fun _ _ sign => ?_
  refine (takeNumber_alike 0 ends sign.rest_alike).bind fun _ _ zero => ?_
  refine (takeToken_alike .gotoWord ends zero.rest_alike).bind fun _ _ goto => ?_
  refine (takeName_alike .label ends goto.rest_alike).bind fun target target' targets => ?_
  refine .ok ⟨?_, targets.last_near, targets.rest_alike⟩
  exact congrArg₂ Op.jumpNotZero vars.value_eq targets.value_eq

theorem takeGoto_alike (ends : near ending ending')
    (alike : List.Forall₂ (Lexeme.Alike near) lexemes lexemes') :
    ReadAlike near (Taken.Alike near) (takeGoto ending lexemes) (takeGoto ending' lexemes') := by
  refine (takeName_alike .label ends alike).bind fun target target' targets => ?_
  exact .ok ⟨congrArg Op.goto targets.value_eq, targets.last_near, targets.rest_alike⟩

theorem takeChange_alike (var : String) {source source' : Taken String}
    (ends : near ending ending') (sources : source.Alike near source') :
    ReadAlike near (Taken.Alike near) (takeChange ending var source)
      (takeChange ending' var source') := by
  obtain ⟨text, last, rest⟩ := source
  obtain ⟨text', last', rest'⟩ := source'
  obtain ⟨-, places, behind⟩ := sources
  obtain ⟨rfl, rfl⟩ | ⟨token, _, _, after, after', rfl, rfl, -, behind'⟩ := alike_cases behind
  · exact .ok ⟨rfl, places, behind⟩
  · cases token
    case plus =>
      refine (takeNumber_alike 1 ends behind').bind fun _ _ one => ?_
      exact .ok ⟨rfl, one.last_near, one.rest_alike⟩
    case minus =>
      refine (takeNumber_alike 1 ends behind').bind fun _ _ one => ?_
      exact .ok ⟨rfl, one.last_near, one.rest_alike⟩
    all_goals exact .ok ⟨rfl, places, behind⟩

theorem takeAssignment_alike (var : String) (ends : near ending ending')
    (alike : List.Forall₂ (Lexeme.Alike near) lexemes lexemes') :
    ReadAlike near (Taken.Alike near) (takeAssignment ending var lexemes)
      (takeAssignment ending' var lexemes') := by
  refine (takeToken_alike .assign ends alike).bind fun arrow arrow' arrows => ?_
  obtain ⟨_, _, rest⟩ := arrow
  obtain ⟨_, _, rest'⟩ := arrow'
  obtain ⟨-, -, behind⟩ := arrows
  have copy : ReadAlike near (Taken.Alike near)
      (do
        let source ← takeName ending .variableOrZero rest
        if source.value = var then takeChange ending var source
        else throw ⟨.mismatchedOperands var source.value, source.last⟩)
      (do
        let source ← takeName ending' .variableOrZero rest'
        if source.value = var then takeChange ending' var source
        else throw ⟨.mismatchedOperands var source.value, source.last⟩) := by
    refine (takeName_alike .variableOrZero ends behind).bind fun source source' sources => ?_
    rw [sources.value_eq]
    split
    · exact takeChange_alike var ends sources
    · exact .error ⟨rfl, sources.last_near⟩
  obtain ⟨rfl, rfl⟩ | ⟨token, _, _, after, after', rfl, rfl, places, behind'⟩ := alike_cases behind
  · exact copy
  · cases token
    case number value =>
      by_cases zero : value = 0
      · subst zero
        exact .ok ⟨rfl, places, behind'⟩
      · simpa [zero] using copy
    all_goals exact copy

theorem startsWithArrow_eq (alike : List.Forall₂ (Lexeme.Alike near) lexemes lexemes') :
    startsWithArrow lexemes = startsWithArrow lexemes' := by
  cases alike with
  | nil => rfl
  | cons first rest => rw [startsWithArrow, startsWithArrow, first.token_eq]

theorem takeOp_alike (ends : near ending ending')
    (alike : List.Forall₂ (Lexeme.Alike near) lexemes lexemes') :
    ReadAlike near (Taken.Alike near) (takeOp ending lexemes) (takeOp ending' lexemes') := by
  have wrong := mismatch_alike .instruction ends alike
  obtain ⟨rfl, rfl⟩ | ⟨token, span, span', rest, rest', rfl, rfl, places, behind⟩ :=
    alike_cases alike
  · exact .error wrong
  · cases token
    case ifWord => exact takeCondition_alike ends behind
    case gotoWord => exact takeGoto_alike ends behind
    case name name =>
      rw [takeOp, takeOp, startsWithArrow_eq behind]
      split
      · exact .error ⟨rfl, places⟩
      · exact takeAssignment_alike name ends behind
    all_goals exact .error wrong

theorem checkVariable_alike (op : Op) {span span' : Span} (places : near span span') :
    ReadAlike near Eq (checkVariable op span) (checkVariable op span') := by
  unfold checkVariable
  split
  · split
    · exact .ok rfl
    · exact .error ⟨rfl, places⟩
  · exact .ok rfl

variable (merges : ∀ a b c d, near a b → near c d → near (a.merge c) (b.merge d))

include merges

theorem takeCycles_alike (op : Op) (ends : near ending ending')
    (alike : List.Forall₂ (Lexeme.Alike near) lexemes lexemes') :
    ReadAlike near (List.Forall₂ (Lexeme.Alike near)) (takeCycles ending op lexemes)
      (takeCycles ending' op lexemes') := by
  obtain ⟨rfl, rfl⟩ | ⟨token, start, start', rest, rest', rfl, rfl, starts, behind⟩ :=
    alike_cases alike
  · exact .ok alike
  · cases token
    case openParen =>
      have wrong := mismatch_alike .cycleCount ends behind
      obtain ⟨rfl, rfl⟩ | ⟨token, _, _, after, after', rfl, rfl, -, behind'⟩ := alike_cases behind
      · exact .error wrong
      · cases token
        case number written =>
          refine (takeToken_alike .closeParen ends behind').bind fun close close' closes => ?_
          split
          · exact .ok closes.rest_alike
          · exact .error ⟨rfl, merges _ _ _ _ starts closes.last_near⟩
        all_goals exact .error wrong
    all_goals exact .ok alike

/-! ## Whole lines -/

theorem wholeSpan_near {line line' : TokenLine} {start start' : Span}
    (alike : line.Alike near line') (starts : near start start') :
    near (wholeSpan line start) (wholeSpan line' start') := by
  rw [wholeSpan, wholeSpan, alike.terminated_eq, List.getLast?_eq_head?_reverse,
    List.getLast?_eq_head?_reverse]
  split
  · exact merges _ _ _ _ starts alike.ending_near
  · obtain ⟨none, none'⟩ | ⟨token, last, last', _, _, found, found', lasts, -⟩ :=
      alike_cases (List.rel_reverse alike.lexemes_alike)
    · rw [none, none']
      exact starts
    · rw [found, found']
      exact merges _ _ _ _ starts lasts

/-- Alike lines are read alike. -/
theorem readFrom_alike {line line' : TokenLine} {start start' : Span}
    (alike : line.Alike near line') (starts : near start start') :
    ReadAlike near (Line.Alike near) (readFrom line start) (readFrom line' start') := by
  have ends := alike.ending_near
  refine (takeLabel_alike ends alike.lexemes_alike).bind fun label label' labels => ?_
  obtain ⟨label, after⟩ := label
  obtain ⟨_, after'⟩ := label'
  obtain ⟨rfl, behind⟩ := labels
  refine (takeOp_alike ends behind).bind fun op op' ops => ?_
  obtain ⟨op, last, rest⟩ := op
  obtain ⟨_, last', rest'⟩ := op'
  obtain ⟨rfl, places, behind⟩ := ops
  refine (checkVariable_alike op (merges _ _ _ _ starts places)).bind fun _ _ _ => ?_
  refine (takeCycles_alike merges op ends behind).bind fun left left' lefts => ?_
  have wrong := mismatch_alike .lineEnd ends lefts
  cases lefts with
  | nil => exact .ok ⟨rfl, wholeSpan_near merges alike starts⟩
  | cons first more => exact .error wrong

/-- Alike lines both hold nothing or are read alike. -/
theorem read?_alike {line line' : TokenLine} (alike : line.Alike near line') :
    (read? line = none ∧ read? line' = none) ∨
      ∃ result result', read? line = some result ∧ read? line' = some result' ∧
        ReadAlike near (Line.Alike near) result result' := by
  obtain ⟨none, none'⟩ | ⟨token, start, start', _, _, found, found', starts, -⟩ :=
    alike_cases alike.lexemes_alike
  · rw [read?, read?, none, none']
    exact .inl ⟨rfl, rfl⟩
  · rw [read?, read?, found, found']
    exact .inr ⟨_, _, rfl, rfl, readFrom_alike merges alike starts⟩

end

/-! ## Lines that stand elsewhere -/

/-- The span of a line that was read, or of its fault. -/
def spanOf : Except LineError Line → Span
  | .ok line => line.span
  | .error error => error.span

end Line

/-- The span so many bytes further on. -/
def Span.shift (distance : Nat) (span : Span) : Span :=
  ⟨distance + span.start, distance + span.stop⟩

theorem Span.merge_shift (distance : Nat) (a b : Span) :
    (a.shift distance).merge (b.shift distance) = (a.merge b).shift distance := by
  simp only [merge, shift, Nat.add_min_add_left, Nat.add_max_add_left]

def Lexeme.shift (distance : Nat) (lexeme : Lexeme) : Lexeme :=
  ⟨lexeme.token, lexeme.span.shift distance⟩

def TokenLine.shift (distance : Nat) (line : TokenLine) : TokenLine :=
  ⟨line.lexemes.map (Lexeme.shift distance), line.ending.shift distance, line.terminated⟩

namespace Line

/-- The result of a line so many bytes further on. -/
def shiftResult (distance : Nat) : Except LineError Line → Except LineError Line
  | .ok line => .ok ⟨line.instruction, line.span.shift distance⟩
  | .error error => .error ⟨error.fault, error.span.shift distance⟩

/-- What a line is read as does not depend on where it stands. -/
theorem read?_shift (distance : Nat) (line : TokenLine) :
    read? (line.shift distance) = (read? line).map (shiftResult distance) := by
  have alike : line.Alike (fun span span' => span' = span.shift distance)
      (line.shift distance) := by
    refine ⟨?_, rfl, rfl⟩
    rw [TokenLine.shift, List.forall₂_map_right_iff]
    exact List.forall₂_same.mpr fun lexeme _ => ⟨rfl, rfl⟩
  have merges : ∀ a b c d : Span, b = a.shift distance → d = c.shift distance →
      b.merge d = (a.merge c).shift distance := by
    rintro a _ c _ rfl rfl
    exact Span.merge_shift distance a c
  obtain ⟨none, none'⟩ | ⟨result, result', found, found', read⟩ := read?_alike merges alike
  · rw [none, none']
    rfl
  · rw [found, found', Option.map_some]
    cases read with
    | @ok one other lines =>
        obtain ⟨instruction, _⟩ := other
        obtain ⟨rfl, rfl⟩ := lines
        rfl
    | @error one other errors =>
        obtain ⟨fault, _⟩ := other
        obtain ⟨rfl, rfl⟩ := errors
        rfl

/-- A line is read to a span that lies where its tokens lie. -/
theorem read?_within {within : Span → Prop} {line : TokenLine} {result : Except LineError Line}
    (merges : ∀ a b, within a → within b → within (a.merge b))
    (inside : ∀ lexeme ∈ line.lexemes, within lexeme.span) (ends : within line.ending)
    (read : read? line = some result) : within (spanOf result) := by
  have alike : line.Alike (fun span span' => within span ∧ span' = span) line :=
    ⟨List.forall₂_same.mpr fun lexeme member => ⟨rfl, inside lexeme member, rfl⟩, ⟨ends, rfl⟩, rfl⟩
  have merges' : ∀ a b c d : Span, within a ∧ b = a → within c ∧ d = c →
      within (a.merge c) ∧ b.merge d = a.merge c := by
    rintro a _ c _ ⟨first, rfl⟩ ⟨second, rfl⟩
    exact ⟨merges _ _ first second, rfl⟩
  obtain ⟨none, -⟩ | ⟨_, _, found, -, same⟩ := read?_alike merges' alike
  · rw [none] at read
    cases read
  · obtain rfl := Option.some.inj (found.symm.trans read)
    cases same with
    | ok lines => exact lines.span_near.1
    | error errors => exact errors.span_near.1

end Line

end RegisterMachine
