import Mathlib.Data.List.TakeWhile
import RegisterMachine.Diagnostic.Terminal
import RegisterMachine.Proofs.TextPlaces

/-!
# Carets under the text of an error

An excerpt shows the line that a span begins on and, below it, carets.  Columns and
widths are counted in bytes and shown as characters, and the line is shown without
the carriage returns at its end.  So the carets are right as long as the bytes that
count are characters of the line as it is shown: in front of the span they always
are, unless the span begins at the end of the line, and under the span they are when
the span has no more bytes than the line has characters from there on.
-/

namespace RegisterMachine

namespace Text

theorem Place.newline_not_mem {cs before behind : List Char} {offset : Nat}
    (place : Place cs offset before behind) : '\n' ∉ before ++ behind := by
  induction place with
  | here single _ => exact single
  | next _ _ ih => exact ih

theorem dropReturns_prefix (line : List Char) : dropReturns line <+: line := by
  rw [dropReturns, dropAtEnd, ← List.reverse_suffix, List.reverse_reverse]
  exact List.dropWhile_suffix _

theorem dropReturns_ne_nil {line : List Char} {c : Char} (member : c ∈ line) (other : c ≠ '\r') :
    dropReturns line ≠ [] := by
  intro none
  have all := List.dropWhile_eq_nil_iff.mp (List.reverse_eq_nil_iff.mp none) c
    (List.mem_reverse.mpr member)
  exact other (eq_of_beq all)

theorem dropReturns_append {before behind : List Char} (some : dropReturns behind ≠ []) :
    dropReturns (before ++ behind) = before ++ dropReturns behind := by
  have stays : (behind.reverse.dropWhile (· == '\r')).isEmpty = false := by
    rw [List.isEmpty_eq_false_iff]
    exact mt List.reverse_eq_nil_iff.mpr some
  rw [dropReturns, dropAtEnd, List.reverse_append, List.dropWhile_append, stays,
    if_neg (by simp), List.reverse_append, List.reverse_reverse, dropReturns, dropAtEnd]

end Text

namespace Diagnostic

/-- What stands behind the bar in a row of an excerpt. -/
def behindBar (excerpt : String) (row : Nat) : List Char :=
  (((Text.lines excerpt.toList)[row]?.getD []).dropWhile (· != '|')).drop 2

/-- The line of a text as an excerpt shows it. -/
def shownLine (excerpt : String) : List Char :=
  behindBar excerpt 2

/-- The row of an excerpt below the line. -/
def caretLine (excerpt : String) : List Char :=
  behindBar excerpt 3

/-- The carets of an excerpt, counted in characters, begin below the character that has `before` in
front of it on its line, and none is past the end of the line as shown, unless the place itself is
that end and there is a single caret. -/
structure CaretsRight (excerpt : String) (before : List Char) : Prop where
  begins : ∃ count, caretLine excerpt =
    List.replicate before.length ' ' ++ List.replicate (count + 1) '^'
  ends : (caretLine excerpt).length ≤ (shownLine excerpt).length ∨
    (before.length = (shownLine excerpt).length ∧
      (caretLine excerpt).length = (shownLine excerpt).length + 1)

/-- The bytes that place the carets of a span are characters of its line as shown. -/
def CaretsFit (span : Span) (before behind : List Char) : Prop :=
  if behind = [] then Text.OneByte before ∧ Text.dropReturns before = before
  else min span.length (Text.byteLength (Text.dropReturns behind)) ≤
    (Text.dropReturns behind).length

/-! ## The rows of an excerpt -/

theorem behindBar_eq {excerpt : String} {row : Nat} {gutter text : List Char}
    (found : (Text.lines excerpt.toList)[row]? = some (gutter ++ '|' :: ' ' :: text))
    (other : '|' ∉ gutter) : behindBar excerpt row = text := by
  have gutterPlain : ∀ c ∈ gutter, (c != '|') = true := by
    intro c member
    rw [bne_iff_ne]
    rintro rfl
    exact other member
  rw [behindBar, found, Option.getD_some, List.dropWhile_append_of_pos gutterPlain]
  rfl

theorem not_mem_written {c : Char} (other : c.isDigit = false) (n : Nat) :
    c ∉ (Text.Decimal.written n).toList := by
  intro member
  rw [Text.Decimal.isDigit_of_mem_written member] at other
  cases other

theorem exists_rows {source : String} {span : Span} {position : Position} {shown : List Char}
    (lookup : (LineMap.ofString source).lookup span.start = position)
    (line : (LineMap.ofString source).lineText source position.line = shown) (single : '\n' ∉ shown)
    (severity : Severity) : ∃ head rule number blank : List Char, '|' ∉ number ∧ '|' ∉ blank ∧
      Text.lines (excerpt false severity span source).toList =
        [head, rule, number ++ '|' :: ' ' :: shown,
          blank ++ '|' :: ' ' :: (List.replicate (position.column - 1) ' ' ++
            List.replicate (caretCount span (position.column - 1) (Text.byteLength shown)) '^'),
          []] := by
  let number := (Text.Decimal.written position.line).toList
  let head := ' ' :: ' ' :: '-' :: '-' :: '>' :: ' ' ::
    (number ++ ':' :: (Text.Decimal.written position.column).toList)
  let blank := List.replicate (Text.Decimal.written position.line).length ' '
  let carets := List.replicate (position.column - 1) ' ' ++
    List.replicate (caretCount span (position.column - 1) (Text.byteLength shown)) '^'
  have text : (excerpt false severity span source).toList =
      head ++ '\n' :: (blank ++ [' ', '|'] ++ '\n' ::
        (number ++ [' '] ++ '|' :: ' ' :: shown ++ '\n' ::
          (blank ++ [' '] ++ '|' :: ' ' :: carets ++ '\n' :: []))) := by
    unfold excerpt
    simp only [lookup, line, paint, Bool.false_eq_true, if_false, repeated, String.toList_append,
      String.toList_ofList]
    simp [head, number, blank, carets]
  have digits := @not_mem_written
  refine ⟨head, blank ++ [' ', '|'], number ++ [' '], blank ++ [' '], ?_, ?_, ?_⟩
  · simp [number, digits]
  · simp [blank]
  · rw [text, Text.lines_append, Text.lines_append, Text.lines_append, Text.lines_append]
    · rfl
    · simp [blank, carets]
    · simp [number, digits, single]
    · simp [blank]
    · simp [head, number, digits]

/-- An excerpt without colour shows the line of a place and has as many blanks before the carets as
there are bytes before the place. -/
theorem excerpt_at_place {source : String} {span : Span} {before behind : List Char}
    (place : Text.Place source.toList span.start before behind) (severity : Severity) :
    shownLine (excerpt false severity span source) = Text.dropReturns (before ++ behind) ∧
      caretLine (excerpt false severity span source) =
        List.replicate (Text.byteLength before) ' ' ++
          List.replicate (caretCount span (Text.byteLength before)
            (Text.byteLength (Text.dropReturns (before ++ behind)))) '^' := by
  obtain ⟨column, line⟩ := place.lookup_eq
  have single := mt (Text.dropReturns_prefix _).mem place.newline_not_mem
  obtain ⟨head, rule, number, blank, noBar, noBar', rows⟩ := exists_rows rfl line single severity
  rw [column, Nat.add_sub_cancel] at rows
  exact ⟨behindBar_eq (by rw [rows]; rfl) noBar, behindBar_eq (by rw [rows]; rfl) noBar'⟩

/-! ## When the carets are right -/

theorem caretsRight_iff_count {excerpt : String} {before : List Char} {offset count : Nat}
    (carets : caretLine excerpt = List.replicate offset ' ' ++ List.replicate count '^')
    (positive : 0 < count) : CaretsRight excerpt before ↔ offset = before.length ∧
      (offset + count ≤ (shownLine excerpt).length ∨
        (before.length = (shownLine excerpt).length ∧ count = 1)) := by
  have size : (caretLine excerpt).length = offset + count := by
    rw [carets, List.length_append, List.length_replicate, List.length_replicate]
  constructor
  · rintro ⟨⟨more, same⟩, ends⟩
    have blanks : offset = before.length := by
      have blanks := congrArg (List.count ' ') (carets.symm.trans same)
      simpa [List.count_append, List.count_replicate] using blanks
    refine ⟨blanks, ?_⟩
    omega
  · rintro ⟨rfl, ends⟩
    refine ⟨⟨count - 1, ?_⟩, by omega⟩
    rw [carets, Nat.sub_add_cancel positive]

theorem caretCount_pos (span : Span) (offset width : Nat) : 0 < caretCount span offset width := by
  unfold caretCount
  omega

/-- At the end of a line there is one caret, and it is right when the bytes of the whole line are
characters of the line as shown. -/
theorem caretsRight_at_end {source : String} {span : Span} {before : List Char}
    (place : Text.Place source.toList span.start before []) (severity : Severity) :
    CaretsRight (excerpt false severity span source) before ↔
      Text.OneByte before ∧ Text.dropReturns before = before := by
  obtain ⟨shown, carets⟩ := excerpt_at_place place severity
  rw [List.append_nil] at shown carets
  obtain ⟨returns, split⟩ := Text.dropReturns_prefix before
  have bytes := congrArg Text.byteLength split
  have size := congrArg List.length split
  rw [Text.byteLength_append] at bytes
  rw [List.length_append] at size
  have one : caretCount span (Text.byteLength before)
      (Text.byteLength (Text.dropReturns before)) = 1 := by
    unfold caretCount
    omega
  have long := Text.length_le_byteLength before
  rw [caretsRight_iff_count carets (caretCount_pos ..), shown, one,
    ← Text.byteLength_eq_length_iff]
  constructor
  · rintro ⟨plain, ends⟩
    refine ⟨plain, (Text.dropReturns_prefix before).eq_of_length ?_⟩
    omega
  · rintro ⟨plain, same⟩
    exact ⟨plain, .inr ⟨by rw [same], rfl⟩⟩

/-- In front of the end of a line the carets begin right, and they end right when the span has no
more bytes than there are characters. -/
theorem caretsRight_inside {source : String} {span : Span} {before behind : List Char}
    (place : Text.Place source.toList span.start before behind) (plain : Text.OneByte before)
    (solid : Text.dropReturns behind ≠ []) (severity : Severity) :
    CaretsRight (excerpt false severity span source) before ↔
      min span.length (Text.byteLength (Text.dropReturns behind)) ≤
        (Text.dropReturns behind).length := by
  obtain ⟨shown, carets⟩ := excerpt_at_place place severity
  rw [Text.dropReturns_append solid] at shown carets
  have long := Text.length_le_byteLength (Text.dropReturns behind)
  have some := List.length_pos_iff.mpr solid
  have front := Text.byteLength_eq_length_iff.mpr plain
  rw [caretsRight_iff_count carets (caretCount_pos ..), shown, List.length_append, caretCount,
    Text.byteLength_append]
  omega

theorem caretsRight_iff_fit {source : String} {span : Span} {before behind : List Char}
    (place : Text.Place source.toList span.start before behind)
    (plain : Token.PlainStart before behind) (severity : Severity) :
    CaretsRight (excerpt false severity span source) before ↔ CaretsFit span before behind := by
  cases behind with
  | nil =>
      rw [CaretsFit, if_pos rfl]
      exact caretsRight_at_end place severity
  | cons c rest =>
      obtain none | ⟨oneByte, other⟩ := plain
      · cases none
      · have solid := @Text.dropReturns_ne_nil (c :: rest) c List.mem_cons_self
          fun same => other (congrArg some same)
        rw [CaretsFit, if_neg (List.cons_ne_nil c rest)]
        exact caretsRight_inside place oneByte solid severity

theorem CaretsFit.of_oneByte {span : Span} {before behind : List Char}
    (plain : Text.OneByte (before ++ behind))
    (whole : Text.dropReturns (before ++ behind) = before ++ behind) :
    CaretsFit span before behind := by
  obtain ⟨front, back⟩ := List.forall_mem_append.mp plain
  unfold CaretsFit
  split
  · next none =>
      rw [none, List.append_nil] at whole
      exact ⟨front, whole⟩
  · have shown : Text.OneByte (Text.dropReturns behind) := fun c member =>
      back c ((Text.dropReturns_prefix behind).mem member)
    rw [Text.byteLength_eq_length_iff.mpr shown]
    exact Nat.min_le_right _ _

/-! ## The diagnostics of a text -/

/-- Every diagnostic of a text points at a place in it with plain text in front. -/
theorem startsPlainly_of_mem_diagnostics {name source : String} {error : SourceError}
    (refused : Source.parse name source = .error error) {diagnostic : Diagnostic}
    (member : diagnostic ∈ error.diagnostics source) :
    ∃ span, diagnostic.span = some span ∧ diagnostic.source = some source ∧
      Token.StartsPlainly source.toList span.start := by
  obtain ⟨found, inside, rfl⟩ := List.mem_map.mp member
  cases error with
  | lex error =>
      obtain rfl := List.mem_singleton.mp inside
      exact ⟨_, rfl, rfl, Token.startsPlainly_of_lex_error (Source.lex_of_parse refused)⟩
  | lines errors =>
      obtain ⟨error, listed, rfl⟩ := List.mem_map.mp inside
      exact ⟨_, rfl, rfl, Source.startsPlainly_of_parse refused listed⟩

theorem place_of_span {diagnostic : Diagnostic} {span : Span} {source : String}
    (points : diagnostic.span = some span) (about : diagnostic.source = some source) :
    place false diagnostic = excerpt false diagnostic.severity span source := by
  rw [place, points, about]

/-- The excerpt of an error shows its line, and its carets are right exactly when the bytes that
place them are characters of that line.  So they are always right on a line of one-byte characters
that has no carriage return at its end. -/
theorem carets_right_iff_bytes_fit {name source : String} {error : SourceError}
    (refused : Source.parse name source = .error error) {diagnostic : Diagnostic}
    (member : diagnostic ∈ error.diagnostics source) :
    ∃ span before behind, diagnostic.span = some span ∧
      Text.Place source.toList span.start before behind ∧
      shownLine (place false diagnostic) = Text.dropReturns (before ++ behind) ∧
      (CaretsRight (place false diagnostic) before ↔ CaretsFit span before behind) ∧
      (Text.OneByte (before ++ behind) → Text.dropReturns (before ++ behind) = before ++ behind →
        CaretsRight (place false diagnostic) before) := by
  obtain ⟨span, points, about, before, behind, there, plain⟩ :=
    startsPlainly_of_mem_diagnostics refused member
  have right := caretsRight_iff_fit there plain diagnostic.severity
  refine ⟨span, before, behind, points, there, ?_⟩
  rw [place_of_span points about]
  exact ⟨(excerpt_at_place there _).1, right, fun oneByte whole =>
    right.mpr (.of_oneByte oneByte whole)⟩

/-- A number where a variable should be, with a longer character in the comment behind it. -/
theorem carets_right_iff_bytes_fit_comment :
    let source := "y <- 1 # é"
    let error : LineError := ⟨.unexpected .variableOrZero (.number 1), ⟨5, 6⟩⟩
    let diagnostic := { error.diagnostic with source := some source }
    Source.parse "demo" source = .error (.lines [error]) ∧
      diagnostic ∈ (SourceError.lines [error]).diagnostics source ∧
        ∃ span before behind, diagnostic.span = some span ∧
          Text.Place source.toList span.start before behind ∧
          shownLine (place false diagnostic) = Text.dropReturns (before ++ behind) ∧
          (CaretsRight (place false diagnostic) before ↔ CaretsFit span before behind) ∧
          (Text.OneByte (before ++ behind) →
            Text.dropReturns (before ++ behind) = before ++ behind →
              CaretsRight (place false diagnostic) before) := by
  intro source error diagnostic
  have refused : Source.parse "demo" source = .error (.lines [error]) := by decide +kernel
  have member : diagnostic ∈ (SourceError.lines [error]).diagnostics source :=
    List.mem_singleton.mpr rfl
  exact ⟨refused, member, carets_right_iff_bytes_fit refused member⟩

/-- An arrow of three bytes at the end of its line has three carets, two of them past the end. -/
theorem arrow_carets_past_end :
    ∃ error diagnostic span before behind, Source.parse "demo" "y ←" = .error error ∧
      diagnostic ∈ error.diagnostics "y ←" ∧ diagnostic.span = some span ∧
        Text.Place "y ←".toList span.start before behind ∧
          ¬ CaretsRight (place false diagnostic) before := by
  let error : LexError := ⟨2, "←"⟩
  let diagnostic := { error.diagnostic with source := some "y ←" }
  have refused : Source.parse "demo" "y ←" = .error (.lex error) := by decide +kernel
  have points : diagnostic.span = some ⟨2, 5⟩ := by
    show some (Span.mk 2 (2 + max 1 (Text.byteLength "←".toList))) = some ⟨2, 5⟩
    decide
  have there : Text.Place "y ←".toList 2 ['y', ' '] ['←'] :=
    @Text.Place.here ['y', ' '] ['←'] [] (by decide) Text.atLineEnd_nil
  have plain : Token.PlainStart ['y', ' '] ['←'] :=
    .inr ⟨Text.byteLength_eq_length_iff.mp (by decide), by decide⟩
  refine ⟨_, diagnostic, ⟨2, 5⟩, _, _, refused, List.mem_singleton.mpr rfl, points, there, ?_⟩
  rw [place_of_span points rfl, @caretsRight_iff_fit "y ←" ⟨2, 5⟩ _ _ there plain, CaretsFit,
    if_neg (List.cons_ne_nil _ _)]
  decide

end Diagnostic

end RegisterMachine
