import RegisterMachine.Proofs.LineByLine
import RegisterMachine.Proofs.TokenTiling

/-!
# Places in a text

A byte offset that lies between two characters cuts its line in two.  The map of the
text gives the line back with its number and the bytes in front of the offset.

Where a token begins, only tokens and blanks are in front of it on its line, so the
bytes there are as many as the characters.  Comments are the only part of a text that
can be read and that holds longer characters, and behind a comment its line ends.  The
errors of a text begin where a token begins, where one is missing, or where a line
ends.
-/

namespace RegisterMachine

namespace Text

/-- Every character takes one byte. -/
def OneByte (cs : List Char) : Prop :=
  ∀ c ∈ cs, c.utf8Size = 1

theorem byteLength_eq_length_iff {cs : List Char} : byteLength cs = cs.length ↔ OneByte cs := by
  induction cs with
  | nil => simp [OneByte]
  | cons c cs ih =>
      have first := c.utf8Size_pos
      have rest := length_le_byteLength cs
      rw [OneByte, List.forall_mem_cons, ← OneByte, ← ih, byteLength_cons, List.length_cons]
      omega

theorem utf8Size_eq_one {c : Char} (small : c.toNat < 0x80) : c.utf8Size = 1 :=
  Char.utf8Size_eq_one_iff.mpr (UInt32.le_iff_toNat_le.mpr (Nat.le_of_lt_succ small))

/-- A byte offset of a text lies in a line between these two parts of the line. -/
inductive Place : List Char → Nat → List Char → List Char → Prop
  | here {before behind below : List Char} (single : '\n' ∉ before ++ behind)
      (ends : AtLineEnd below) :
      Place (before ++ (behind ++ below)) (byteLength before) before behind
  | next {line rest before behind : List Char} {offset : Nat} (single : '\n' ∉ line)
      (place : Place rest offset before behind) :
      Place (line ++ '\n' :: rest) (byteLength line + 1 + offset) before behind

theorem exists_lines_eq {line below : List Char} (single : '\n' ∉ line)
    (ends : AtLineEnd below) : ∃ more, lines (line ++ below) = line :: more := by
  cases below with
  | nil => exact ⟨[], by rw [List.append_nil, lines_of_single single]⟩
  | cons c below =>
      obtain rfl := ends c rfl
      exact ⟨lines below, lines_append single below⟩

/-- A place is found by the number of its line and the bytes before it. -/
theorem Place.locate_eq {cs before behind : List Char} {offset : Nat}
    (place : Place cs offset before behind) :
    ∃ index, locate (lines cs) offset = (index, byteLength before) ∧
      (lines cs)[index]? = some (before ++ behind) := by
  induction place with
  | @here before behind below single ends =>
      obtain ⟨more, found⟩ := exists_lines_eq single ends
      rw [← List.append_assoc, found]
      exact ⟨0, locate_line (by simp), rfl⟩
  | @next line rest before behind offset single _ ih =>
      obtain ⟨index, located, found⟩ := ih
      rw [lines_append single]
      refine ⟨index + 1, ?_, found⟩
      rw [locate_below (lines_ne_nil rest), located]

/-- The map of a text gives the column of a place and the text of its line. -/
theorem Place.lookup_eq {source : String} {before behind : List Char} {offset : Nat}
    (place : Place source.toList offset before behind) :
    ((LineMap.ofString source).lookup offset).column = byteLength before + 1 ∧
      (LineMap.ofString source).lineText source ((LineMap.ofString source).lookup offset).line =
        dropReturns (before ++ behind) := by
  obtain ⟨index, located, found⟩ := place.locate_eq
  rw [LineMap.lookup_eq_locate, located]
  exact ⟨rfl, LineMap.lineText_eq found⟩

end Text

namespace Token

/-! ## Where tokens begin -/

theorem sign_eq_token {c : Char} {token : Token} (read : sign c = .token token) :
    c = '\n' ∨ (0x20 < c.toNat ∧ c.toNat < 0x80) := by
  unfold sign at read
  split_ifs at read
  all_goals
    subst_vars
    decide

/-- The characters of a token other than the newline are visible and take one byte. -/
theorem firstPiece_eq_token {c : Char} {cs : List Char} {token : Token}
    (read : (firstPiece c cs).reading = .token token) :
    (firstPiece c cs).text = ['\n'] ∨
      ∀ d ∈ (firstPiece c cs).text, 0x20 < d.toNat ∧ d.toNat < 0x80 := by
  have inside : ∀ d, isNameChar d = true → 0x20 < d.toNat ∧ d.toNat < 0x80 := by
    intro d named
    have range := toNat_of_isNameChar named
    omega
  have digit : ∀ d, d.isDigit = true → isNameChar d = true := by
    intro d digit
    simp [isNameChar, Char.isAlphanum, digit]
  revert read
  unfold firstPiece
  split
  · rintro ⟨⟩
  · split
    · rintro ⟨⟩
    · split
      · next first =>
          intro _
          refine .inr (List.forall_mem_cons.mpr ⟨inside c (digit c first), fun d member => ?_⟩)
          exact inside d (digit d (List.all_eq_true.mp List.all_takeWhile d member))
      · split
        · next first =>
            intro _
            refine .inr (List.forall_mem_cons.mpr
              ⟨inside c (isNameChar_of_isNameStart first), fun d member => ?_⟩)
            exact inside d (List.all_eq_true.mp List.all_takeWhile d member)
        · unfold signPiece
          split
          · exact fun _ => .inr (by simp)
          · exact fun _ => .inr (by simp)
          · intro read
            rcases sign_eq_token read with rfl | range
            · exact .inl rfl
            · exact .inr (List.forall_mem_singleton.mpr range)

/-- Of a line with these two parts, the first has one-byte characters only and the second does
not begin with a carriage return, unless there is no second part. -/
def PlainStart (before behind : List Char) : Prop :=
  behind = [] ∨ (Text.OneByte before ∧ behind.head? ≠ some '\r')

/-- A byte offset of a text is such a place in its line. -/
def StartsPlainly (cs : List Char) (offset : Nat) : Prop :=
  ∃ before behind, Text.Place cs offset before behind ∧ PlainStart before behind

theorem StartsPlainly.next {line rest : List Char} {offset : Nat} (single : '\n' ∉ line)
    (starts : StartsPlainly rest offset) :
    StartsPlainly (line ++ '\n' :: rest) (Text.byteLength line + 1 + offset) := by
  obtain ⟨before, behind, place, plain⟩ := starts
  exact ⟨before, behind, .next single place, plain⟩

theorem IsGapBefore.oneByte {behind gap : List Char} (between : IsGapBefore behind gap)
    (inside : ¬ Text.AtLineEnd behind) : Text.OneByte gap := by
  cases between with
  | blanks all =>
      intro d member
      have blank := all d member
      simp only [isGap, Bool.or_eq_true, beq_iff_eq] at blank
      rcases blank with (rfl | rfl) | rfl <;> rfl
  | comment all line ends => exact absurd ends inside

/-- Behind a gap a text goes on at such a place, if it does not go on with a carriage return. -/
theorem startsPlainly_of_gap {before gap behind : List Char} (single : '\n' ∉ before)
    (plain : Text.OneByte before) (between : IsGapBefore behind gap)
    (solid : behind.head? ≠ some '\r') :
    StartsPlainly (before ++ (gap ++ behind)) (Text.byteLength (before ++ gap)) := by
  have split := List.takeWhile_append_dropWhile (p := (· != '\n')) (l := behind)
  refine ⟨before ++ gap, behind.takeWhile (· != '\n'), ?_, ?_⟩
  · rw [← List.append_assoc]
    nth_rewrite 1 [← split]
    refine .here ?_ (Text.atLineEnd_dropWhile behind)
    exact List.not_mem_append (List.not_mem_append single between.newline_not_mem)
      (Text.newline_not_mem_takeWhile behind)
  · cases behind with
    | nil => exact .inl rfl
    | cons c behind =>
        by_cases newline : c = '\n'
        · exact .inl (by simp [newline])
        · have inside : ¬ Text.AtLineEnd (c :: behind) := fun ends => newline (ends c rfl)
          refine .inr ⟨List.forall_mem_append.mpr ⟨plain, between.oneByte inside⟩, ?_⟩
          simpa [List.takeWhile_cons, newline] using solid

theorem ReadsWhole.head_ne {token : Token} {text : List Char} (reads : ReadsWhole token text)
    (behind : List Char) : (text ++ behind).head? ≠ some '\r' := by
  obtain ⟨c, cs, rfl, piece⟩ := reads
  rintro ⟨⟩
  cases congrArg Piece.reading piece

theorem ReadsWhole.not_atLineEnd {token : Token} {text : List Char}
    (reads : ReadsWhole token text) (single : '\n' ∉ text) (behind : List Char) :
    ¬ Text.AtLineEnd (text ++ behind) := by
  obtain ⟨c, cs, rfl, -⟩ := reads
  exact fun ends => single (ends c rfl ▸ List.mem_cons_self)

/-- A token is a newline, or its characters are no newlines and take one byte. -/
theorem ReadsWhole.cases_newline {token : Token} {text : List Char}
    (reads : ReadsWhole token text) :
    text = ['\n'] ∨ ('\n' ∉ text ∧ Text.OneByte text) := by
  obtain ⟨c, cs, rfl, piece⟩ := reads
  have cases := firstPiece_eq_token (congrArg Piece.reading piece)
  rw [piece] at cases
  rcases cases with newline | inside
  · exact .inl newline
  · refine .inr ⟨fun member => ?_, fun d member => Text.utf8Size_eq_one (inside d member).2⟩
    exact absurd (inside _ member).1 (by decide)

/-- The tokens of a text, and its rest, begin at such places.  The text is taken token by token,
with the part of the line that has been passed. -/
theorem Tiles.startsPlainly {rest : List Char} {offset : Nat} {cs : List Char}
    {lexemes : List Lexeme} (tiles : Tiles rest offset cs lexemes)
    (solid : rest.head? ≠ some '\r') {base : Nat} {before : List Char}
    (place : offset = base + Text.byteLength before) (single : '\n' ∉ before)
    (plain : Text.OneByte before) :
    (∀ lexeme ∈ lexemes, ∃ start, lexeme.span.start = base + start ∧
      StartsPlainly (before ++ cs) start) ∧
      ∃ start, start + Text.byteLength rest = Text.byteLength (before ++ cs) ∧
        StartsPlainly (before ++ cs) start := by
  induction tiles generalizing base before with
  | @last offset gap between =>
      refine ⟨List.forall_mem_nil _, _, ?_, startsPlainly_of_gap single plain between solid⟩
      simp only [Text.byteLength_append, Nat.add_assoc]
  | @next offset gap text behind token lexemes between reads _ ih =>
      have first := startsPlainly_of_gap single plain between (reads.head_ne behind)
      have line : '\n' ∉ before ++ gap := List.not_mem_append single between.newline_not_mem
      have start : offset + Text.byteLength gap = base + Text.byteLength (before ++ gap) := by
        rw [place, Text.byteLength_append, Nat.add_assoc]
      rcases reads.cases_newline with rfl | ⟨inside, oneByte⟩
      · -- The line ends here, and of the next one nothing has been passed.
        obtain ⟨others, last, size, lastStarts⟩ :=
          @ih (base + (Text.byteLength (before ++ gap) + 1)) [] (by rw [start]; rfl)
            List.not_mem_nil (List.forall_mem_nil _)
        have whole : before ++ (gap ++ (['\n'] ++ behind)) = before ++ gap ++ '\n' :: behind := by
          simp
        rw [whole] at first ⊢
        refine ⟨List.forall_mem_cons.mpr ⟨⟨_, start, first⟩, fun lexeme member => ?_⟩,
          _, ?_, lastStarts.next line⟩
        · obtain ⟨other, found, starts⟩ := others lexeme member
          exact ⟨_, by rw [found, Nat.add_assoc], starts.next line⟩
        · rw [List.nil_append] at size
          rw [Text.byteLength_append_newline, Nat.add_assoc, size]
      · have whole : before ++ (gap ++ (text ++ behind)) = before ++ gap ++ text ++ behind := by
          simp
        have gapPlain := between.oneByte (reads.not_atLineEnd inside behind)
        obtain ⟨others, last⟩ := @ih base (before ++ gap ++ text)
          (by rw [start, Text.byteLength_append (before ++ gap), Nat.add_assoc])
          (List.not_mem_append line inside)
          (List.forall_mem_append.mpr ⟨List.forall_mem_append.mpr ⟨plain, gapPlain⟩, oneByte⟩)
        rw [whole] at first ⊢
        exact ⟨List.forall_mem_cons.mpr ⟨⟨_, start, first⟩, others⟩, last⟩

/-- The tokens of a text and its end are such places. -/
theorem startsPlainly_of_lex {source : String} {lexemes : List Lexeme}
    (read : lex source = .ok lexemes) :
    (∀ lexeme ∈ lexemes, StartsPlainly source.toList lexeme.span.start) ∧
      StartsPlainly source.toList source.utf8ByteSize := by
  have tiles := (scan_eq_ok_iff.mp read).scansTo.tiles
  obtain ⟨tokens, stop, size, last⟩ := @Tiles.startsPlainly [] 0 _ _ tiles nofun 0 [] rfl
    List.not_mem_nil (List.forall_mem_nil _)
  rw [List.nil_append] at last size
  refine ⟨fun lexeme member => ?_, ?_⟩
  · obtain ⟨start, found, starts⟩ := tokens lexeme member
    rw [found, Nat.zero_add]
    exact starts
  · rw [Text.utf8ByteSize_eq, ← size]
    exact last

theorem startsPlainly_of_lex_error {source : String} {error : LexError}
    (failed : lex source = .error error) : StartsPlainly source.toList error.position := by
  obtain ⟨c, ds, lexemes, scans, fault, -, place⟩ := scansTo_of_scan_error failed
  have solid : (c :: ds).head? ≠ some '\r' := by
    rintro ⟨⟩
    cases fault
  obtain ⟨-, start, size, starts⟩ := @Tiles.startsPlainly (c :: ds) 0 _ _ scans.tiles solid 0 []
    rfl List.not_mem_nil (List.forall_mem_nil _)
  rw [List.nil_append] at size starts
  obtain rfl : error.position = start := by omega
  exact starts

end Token

namespace Source

/-! ## Where errors begin -/

/-- A line of tokens ends with a newline token or where the text ends. -/
theorem ending_of_mem_tokenLines {stop : Nat} {lexemes : List Lexeme} {line : TokenLine}
    (found : line ∈ tokenLines stop lexemes) :
    line.ending = Span.point stop ∨ ∃ lexeme ∈ lexemes, line.ending = lexeme.span := by
  induction lexemes generalizing line with
  | nil =>
      obtain rfl := List.mem_singleton.mp found
      exact .inl rfl
  | cons first rest ih =>
      have later : ∀ {line}, line ∈ tokenLines stop rest → line.ending = Span.point stop ∨
          ∃ lexeme ∈ first :: rest, line.ending = lexeme.span := by
        intro line below
        rcases ih below with last | ⟨lexeme, member, same⟩
        · exact .inl last
        · exact .inr ⟨lexeme, List.mem_cons_of_mem _ member, same⟩
      rw [tokenLines] at found
      split at found
      · rcases List.mem_cons.mp found with rfl | below
        · exact .inr ⟨first, List.mem_cons_self, rfl⟩
        · exact later below
      · split at found
        · obtain rfl := List.mem_singleton.mp found
          exact .inl rfl
        · next second lines after =>
            rcases List.mem_cons.mp found with rfl | below
            · exact @later second (after ▸ List.mem_cons_self)
            · exact later (after ▸ List.mem_cons_of_mem _ below)

theorem startsPlainly_of_mem_readLines {source : String} {lexemes : List Lexeme}
    (lexed : Token.lex source = .ok lexemes) {result : Except LineError Line}
    (member : result ∈ readLines source.utf8ByteSize lexemes) :
    Token.StartsPlainly source.toList (Line.spanOf result).start := by
  obtain ⟨tokens, last⟩ := Token.startsPlainly_of_lex lexed
  obtain ⟨line, found, read⟩ := List.mem_filterMap.mp member
  refine @Line.read?_within (fun span => Token.StartsPlainly source.toList span.start) line result
    (fun a b first second => ?_) (fun lexeme inside => ?_) ?_ read
  · -- The start of the least span that holds both is one of the two starts.
    rcases Nat.le_total a.start b.start with order | order
    · rwa [Span.merge, Nat.min_eq_left order]
    · rwa [Span.merge, Nat.min_eq_right order]
  · exact tokens lexeme (mem_of_mem_tokenLines found inside)
  · rcases ending_of_mem_tokenLines found with same | ⟨lexeme, inside, same⟩
    · rw [same]
      exact last
    · rw [same]
      exact tokens lexeme inside

theorem lex_of_parse {name source : String} {error : LexError}
    (refused : parse name source = .error (.lex error)) :
    Token.lex source = .error error := by
  unfold parse at refused
  split at refused
  · next failed same =>
      cases refused
      exact same
  · unfold assemble at refused
    dsimp only at refused
    split at refused <;> cases refused

theorem AllErrors.exists_errorAt {results : List LineResult} {failing : List Nat}
    {errors : List LineError} (all : AllErrors results failing errors) {error : LineError}
    (member : error ∈ errors) : ∃ index, ErrorAt results index error := by
  obtain ⟨place, rfl⟩ := List.get_of_mem member
  have inside : place < failing.length := by
    rw [all.errors_at.length_eq]
    exact place.isLt
  exact ⟨_, all.errors_at.get inside place.isLt⟩

/-- Every error of a line begins at such a place. -/
theorem startsPlainly_of_parse {name source : String} {errors : List LineError}
    (refused : parse name source = .error (.lines errors)) {error : LineError}
    (member : error ∈ errors) : Token.StartsPlainly source.toList error.span.start := by
  cases lexed : Token.lex source with
  | error failed =>
      rw [parse, lexed] at refused
      cases refused
  | ok lexemes =>
      obtain ⟨results, -, read, -⟩ := exists_results (Token.scan_eq_ok_iff.mp lexed)
      rw [Nat.zero_add, ← Text.utf8ByteSize_eq] at read
      rw [parse_eq_assemble lexed read name] at refused
      obtain ⟨program, accepted, -⟩ | ⟨failing, found, refused', all, -⟩ :=
        assemble_cases name results
      · cases refused.symm.trans accepted
      · obtain rfl := SourceError.lines.inj (Except.error.inj (refused.symm.trans refused'))
        obtain ⟨index, failed⟩ := all.exists_errorAt (List.mem_of_mem_take member)
        obtain ⟨result, there, same⟩ := failed.exists_result
        rw [← same]
        refine startsPlainly_of_mem_readLines lexed ?_
        rw [read, List.reduceOption_mem_iff]
        exact List.mem_of_getElem? there

end Source

end RegisterMachine
