import RegisterMachine.Proofs.PhysicalLines

/-!
# How tokens tile a text

A text that is read to its end is a gap, a token, a gap, a token and so on, and a
last gap.  A gap is a run of blanks with at most one comment behind it, which goes
up to the end of its line.  Each token is read from its own characters alone, and
the text in front of a place without a token can be read by itself: a piece ends
where it ends, however much of the text behind it is cut off.
-/

namespace RegisterMachine

namespace Text

/-- A span of a text holds these characters, and these are behind it. -/
def Holds (cs : List Char) (span : Span) (text behind : List Char) : Prop :=
  ∃ front, cs = front ++ (text ++ behind) ∧
    span = ⟨byteLength front, byteLength front + byteLength text⟩

/-- A text is empty or begins with a newline. -/
def AtLineEnd (cs : List Char) : Prop :=
  ∀ c, cs.head? = some c → c = '\n'

theorem atLineEnd_nil : AtLineEnd [] := by
  intro c head
  cases head

theorem newline_not_mem_takeWhile (cs : List Char) : '\n' ∉ cs.takeWhile (· != '\n') := by
  intro member
  cases List.all_eq_true.mp List.all_takeWhile _ member

theorem atLineEnd_dropWhile (cs : List Char) : AtLineEnd (cs.dropWhile (· != '\n')) := by
  intro c head
  have other := List.head?_dropWhile_not (· != '\n') cs
  rw [head] at other
  simpa using other

theorem utf8ByteSize_eq (source : String) : source.utf8ByteSize = byteLength source.toList := by
  rw [← utf8ByteSize_ofList, String.ofList_toList]

end Text

namespace Token

/-! ## Cutting a text off between two pieces -/

theorem run_of_cut {more : Char → Bool} (read : List Char → Reading) (c : Char)
    {cs front back : List Char} (split : cs.dropWhile more = front ++ back) :
    run more read c (cs.takeWhile more ++ front) = { run more read c cs with rest := front } := by
  have ends : ∀ d, front.head? = some d → more d = false := by
    intro d head
    have other := List.head?_dropWhile_not more cs
    rw [split, List.head?_append, head] at other
    simpa using other
  rw [run_append List.all_takeWhile ends]
  rfl

theorem signPiece_of_cut {c : Char} {cs ds front back : List Char}
    (rest : (signPiece c cs).rest = front ++ back)
    (text : (signPiece c cs).text ++ front = c :: ds) :
    signPiece c ds = { signPiece c cs with rest := front } := by
  revert rest text
  unfold signPiece
  split
  · rintro - ⟨⟩
    rfl
  · rintro - ⟨⟩
    rfl
  · next arrow inequality =>
      rintro rfl ⟨⟩
      -- A second half of a sign would have been there before the cut.
      split
      · next cut => exact (arrow _ rfl (congrArg (· ++ back) cut)).elim
      · next cut => exact (inequality _ rfl (congrArg (· ++ back) cut)).elim
      · rfl

/-- A piece stays what it is when the text behind it is cut off somewhere. -/
theorem firstPiece_of_cut {c : Char} {cs ds front back : List Char}
    (rest : (firstPiece c cs).rest = front ++ back)
    (text : (firstPiece c cs).text ++ front = c :: ds) :
    firstPiece c ds = { firstPiece c cs with rest := front } := by
  revert rest text
  unfold firstPiece
  split
  · rintro rest ⟨⟩
    exact run_of_cut _ c rest
  · split
    · rintro rest ⟨⟩
      exact run_of_cut _ c rest
    · split
      · rintro rest ⟨⟩
        exact run_of_cut _ c rest
      · split
        · rintro rest ⟨⟩
          exact run_of_cut _ c rest
        · exact signPiece_of_cut

theorem exists_cut {c : Char} {cs front back : List Char}
    (split : (firstPiece c cs).rest = front ++ back) :
    ∃ ds, cs = ds ++ back ∧ firstPiece c ds = { firstPiece c cs with rest := front } := by
  obtain ⟨d, tail, text⟩ := List.exists_cons_of_ne_nil (firstPiece_text_ne_nil c cs)
  have whole := firstPiece_text_append_rest c cs
  rw [split, ← List.append_assoc, text, List.cons_append, List.cons_append] at whole
  obtain ⟨rfl, rfl⟩ := List.cons.inj whole
  exact ⟨tail ++ front, rfl, firstPiece_of_cut split (by rw [text, List.cons_append])⟩

/-- A text that begins at byte `offset` is cut into these tokens, piece by piece, up to a rest. -/
inductive ScansTo (rest : List Char) : Nat → List Char → List Lexeme → Prop
  | done {offset : Nat} : ScansTo rest offset rest []
  | gap {offset : Nat} {c : Char} {cs : List Char} {lexemes : List Lexeme}
      (read : (firstPiece c cs).reading = .gap)
      (behind : ScansTo rest (offset + Text.byteLength (firstPiece c cs).text)
        (firstPiece c cs).rest lexemes) : ScansTo rest offset (c :: cs) lexemes
  | token {offset : Nat} {c : Char} {cs : List Char} {lexemes : List Lexeme} {token : Token}
      (read : (firstPiece c cs).reading = .token token)
      (behind : ScansTo rest (offset + Text.byteLength (firstPiece c cs).text)
        (firstPiece c cs).rest lexemes) :
      ScansTo rest offset (c :: cs)
        (⟨token, ⟨offset, offset + Text.byteLength (firstPiece c cs).text⟩⟩ :: lexemes)

theorem Scans.scansTo {offset : Nat} {cs : List Char} {lexemes : List Lexeme}
    (scans : Scans offset cs lexemes) : ScansTo [] offset cs lexemes := by
  induction scans with
  | nil => exact .done
  | gap read _ ih => exact .gap read ih
  | token read _ ih => exact .token read ih

/-- A scan that fails has come to a piece that is no token. -/
theorem scansTo_of_scan_error {offset : Nat} {cs : List Char} {error : LexError}
    (failed : scan offset cs = .error error) :
    ∃ c ds lexemes, ScansTo (c :: ds) offset cs lexemes ∧ (firstPiece c ds).reading = .fault ∧
      error.snippet.toList = (firstPiece c ds).text ∧
        error.position + Text.byteLength (c :: ds) = offset + Text.byteLength cs := by
  fun_induction scan offset cs
  case case1 => cases failed
  case case2 offset c cs piece stop read ih =>
      obtain ⟨d, ds, lexemes, scans, fault, snippet, place⟩ := ih failed
      refine ⟨d, ds, lexemes, .gap read scans, fault, snippet, ?_⟩
      rw [place, ← byteLength_firstPiece c cs, Nat.add_assoc]
  case case3 offset c cs piece stop token read ih =>
      cases below : scan stop piece.rest with
      | ok more => rw [below] at failed; cases failed
      | error error' =>
          rw [below] at failed
          obtain rfl : error' = error := Except.error.inj failed
          obtain ⟨d, ds, lexemes, scans, fault, snippet, place⟩ := ih below
          refine ⟨d, ds, _, .token read scans, fault, snippet, ?_⟩
          rw [place, ← byteLength_firstPiece c cs, Nat.add_assoc]
  case case4 offset c cs piece read =>
      cases failed
      exact ⟨c, cs, [], .done, read, String.toList_ofList, rfl⟩

/-- What is in front of the rest is scanned by itself. -/
theorem ScansTo.scans_front {rest : List Char} {offset : Nat} {cs : List Char}
    {lexemes : List Lexeme} (scans : ScansTo rest offset cs lexemes) :
    ∃ front, cs = front ++ rest ∧ Scans offset front lexemes := by
  induction scans with
  | done => exact ⟨[], rfl, .nil⟩
  | @gap offset c cs lexemes read _ ih =>
      obtain ⟨front, split, scans⟩ := ih
      obtain ⟨ds, rfl, piece⟩ := exists_cut split
      refine ⟨c :: ds, rfl, .gap ?_ ?_⟩
      · rw [piece]
        exact read
      · rw [piece]
        exact scans
  | @token offset c cs lexemes token read _ ih =>
      obtain ⟨front, split, scans⟩ := ih
      obtain ⟨ds, rfl, piece⟩ := exists_cut split
      have scanned := @Scans.token offset c ds lexemes token (by rw [piece]; exact read)
        (by rw [piece]; exact scans)
      rw [piece] at scanned
      exact ⟨c :: ds, rfl, scanned⟩

/-! ## Gaps and tokens -/

/-- Blanks, and behind them at most one comment, which goes up to the end of its line. -/
inductive IsGapBefore (behind : List Char) : List Char → Prop
  | blanks {blanks : List Char} (all : ∀ c ∈ blanks, isGap c = true) : IsGapBefore behind blanks
  | comment {blanks body : List Char} (all : ∀ c ∈ blanks, isGap c = true) (line : '\n' ∉ body)
      (ends : Text.AtLineEnd behind) : IsGapBefore behind (blanks ++ '#' :: body)

theorem IsGapBefore.newline_not_mem {behind gap : List Char}
    (isGapBefore : IsGapBefore behind gap) : '\n' ∉ gap := by
  have blank : ∀ {blanks : List Char}, (∀ c ∈ blanks, isGap c = true) → '\n' ∉ blanks := by
    intro blanks all member
    cases all _ member
  cases isGapBefore with
  | blanks all => exact blank all
  | comment all line ends =>
      rw [List.mem_append, List.mem_cons]
      rintro (member | other | member)
      · exact blank all member
      · cases other
      · exact line member

theorem sign_ne_gap (c : Char) : sign c ≠ .gap := by
  unfold sign
  repeat' split
  all_goals rintro ⟨⟩

/-- A piece that is no token is a run of blanks, or a comment up to the end of its line. -/
theorem firstPiece_eq_gap {c : Char} {cs : List Char}
    (read : (firstPiece c cs).reading = .gap) :
    (∀ d ∈ (firstPiece c cs).text, isGap d = true) ∨
      ∃ body, (firstPiece c cs).text = '#' :: body ∧ '\n' ∉ body ∧
        Text.AtLineEnd (firstPiece c cs).rest := by
  revert read
  unfold firstPiece
  split
  · next blank =>
      intro _
      exact .inl (List.forall_mem_cons.mpr ⟨blank, List.all_eq_true.mp List.all_takeWhile⟩)
  · split
    · next hash =>
        subst hash
        intro _
        exact .inr ⟨_, rfl, Text.newline_not_mem_takeWhile cs, Text.atLineEnd_dropWhile cs⟩
    · split
      · intro read
        simp only [run, readNumber] at read
        split at read <;> cases read
      · split
        · rintro ⟨⟩
        · unfold signPiece
          split
          · rintro ⟨⟩
          · rintro ⟨⟩
          · exact fun read => absurd read (sign_ne_gap _)

theorem IsGapBefore.prepend {c : Char} {cs gap behind : List Char}
    (read : (firstPiece c cs).reading = .gap) (split : (firstPiece c cs).rest = gap ++ behind)
    (isGapBefore : IsGapBefore behind gap) :
    IsGapBefore behind ((firstPiece c cs).text ++ gap) := by
  rcases firstPiece_eq_gap read with blank | ⟨body, text, line, ends⟩
  · cases isGapBefore with
    | blanks all => exact .blanks (List.forall_mem_append.mpr ⟨blank, all⟩)
    | comment all line ends =>
        rw [← List.append_assoc]
        exact .comment (List.forall_mem_append.mpr ⟨blank, all⟩) line ends
  · -- Behind a comment there is a newline, so the comment is the last part of the gap.
    rw [split] at ends
    cases gap with
    | nil =>
        rw [text, List.append_nil]
        exact @comment behind [] body (List.forall_mem_nil _) line ends
    | cons d gap =>
        obtain rfl := ends d rfl
        exact absurd List.mem_cons_self isGapBefore.newline_not_mem

/-- Some characters are read as one token, and nothing is left. -/
def ReadsWhole (token : Token) (text : List Char) : Prop :=
  ∃ c cs, text = c :: cs ∧ firstPiece c cs = ⟨.token token, text, []⟩

theorem readsWhole_text {c : Char} {cs : List Char} {token : Token}
    (read : (firstPiece c cs).reading = .token token) :
    ReadsWhole token (firstPiece c cs).text := by
  obtain ⟨ds, -, piece⟩ := @exists_cut c cs [] _ (List.nil_append (firstPiece c cs).rest).symm
  have whole := firstPiece_text_append_rest c ds
  rw [piece, List.append_nil] at whole
  exact ⟨c, ds, whole, piece.trans (congrArg (Piece.mk · _ []) read)⟩

theorem ReadsWhole.ne_nil {token : Token} {text : List Char} (reads : ReadsWhole token text) :
    text ≠ [] := by
  obtain ⟨c, cs, rfl, -⟩ := reads
  exact List.cons_ne_nil c cs

theorem ReadsWhole.lex_eq {token : Token} {text : List Char} (reads : ReadsWhole token text) :
    lex (String.ofList text) = .ok [⟨token, ⟨0, Text.byteLength text⟩⟩] := by
  obtain ⟨c, cs, rfl, piece⟩ := reads
  have scans := @Scans.token 0 c cs [] token (by rw [piece]) (by rw [piece]; exact .nil)
  rw [piece, Nat.zero_add] at scans
  rw [lex, String.toList_ofList]
  exact scan_eq_ok_iff.mpr scans

/-! ## Tilings -/

/-- A text that begins at byte `offset` is a gap and a token in turn, and a last gap before the
rest. -/
inductive Tiles (rest : List Char) : Nat → List Char → List Lexeme → Prop
  | last {offset : Nat} {gap : List Char} (between : IsGapBefore rest gap) :
      Tiles rest offset (gap ++ rest) []
  | next {offset : Nat} {gap text behind : List Char} {token : Token} {lexemes : List Lexeme}
      (between : IsGapBefore (text ++ behind) gap) (reads : ReadsWhole token text)
      (tiles : Tiles rest (offset + Text.byteLength gap + Text.byteLength text) behind lexemes) :
      Tiles rest offset (gap ++ (text ++ behind))
        (⟨token, ⟨offset + Text.byteLength gap,
          offset + Text.byteLength gap + Text.byteLength text⟩⟩ :: lexemes)

/-- One more gap in front makes the first gap longer. -/
theorem Tiles.prepend {rest : List Char} {offset : Nat} {c : Char} {cs : List Char}
    {lexemes : List Lexeme} (read : (firstPiece c cs).reading = .gap)
    (tiles : Tiles rest (offset + Text.byteLength (firstPiece c cs).text) (firstPiece c cs).rest
      lexemes) : Tiles rest offset (c :: cs) lexemes := by
  have whole := firstPiece_text_append_rest c cs
  generalize split : (firstPiece c cs).rest = ds at tiles whole
  generalize place : offset + Text.byteLength (firstPiece c cs).text = start at tiles
  cases tiles with
  | last between =>
      rw [← whole, ← List.append_assoc]
      exact .last (between.prepend read split)
  | @next _ gap text behind token lexemes between reads tiles =>
      have size : start + Text.byteLength gap =
          offset + Text.byteLength ((firstPiece c cs).text ++ gap) := by
        rw [← place, Text.byteLength_append, Nat.add_assoc]
      rw [size] at tiles ⊢
      rw [← whole, ← List.append_assoc]
      exact .next (between.prepend read split) reads tiles

theorem ScansTo.tiles {rest : List Char} {offset : Nat} {cs : List Char} {lexemes : List Lexeme}
    (scans : ScansTo rest offset cs lexemes) : Tiles rest offset cs lexemes := by
  induction scans with
  | @done offset => exact @Tiles.last rest offset [] (.blanks (List.forall_mem_nil _))
  | gap read _ ih => exact ih.prepend read
  | @token offset c cs lexemes token read _ ih =>
      rw [← firstPiece_text_append_rest c cs]
      exact @Tiles.next rest offset [] _ _ token lexemes (.blanks (List.forall_mem_nil _))
        (readsWhole_text read) ih

namespace Tiles

variable {rest : List Char} {offset : Nat} {cs : List Char} {lexemes : List Lexeme}

theorem span_within (tiles : Tiles rest offset cs lexemes) : ∀ lexeme ∈ lexemes,
    offset ≤ lexeme.span.start ∧ lexeme.span.start < lexeme.span.stop ∧
      lexeme.span.stop ≤ offset + Text.byteLength cs := by
  induction tiles with
  | last => exact List.forall_mem_nil _
  | @next offset gap text behind token lexemes between reads _ ih =>
      have long := Text.length_le_byteLength text
      have solid := List.length_pos_iff.mpr reads.ne_nil
      simp only [Text.byteLength_append]
      refine List.forall_mem_cons.mpr ⟨?_, fun lexeme member => ?_⟩
      · dsimp only
        omega
      · have inside := ih lexeme member
        omega

theorem apart (tiles : Tiles rest offset cs lexemes) :
    lexemes.Pairwise fun one other => one.span.stop ≤ other.span.start := by
  induction tiles with
  | last => exact .nil
  | next _ _ tiles ih => exact .cons (fun other member => (tiles.span_within other member).1) ih

/-- Every token is read from the characters of its span. -/
theorem holds (tiles : Tiles rest offset cs lexemes) {front : List Char}
    (place : offset = Text.byteLength front) : ∀ lexeme ∈ lexemes, ∃ text behind,
      Text.Holds (front ++ cs) lexeme.span text behind ∧ ReadsWhole lexeme.token text := by
  induction tiles generalizing front with
  | last => exact List.forall_mem_nil _
  | @next offset gap text behind token lexemes between reads _ ih =>
      subst place
      refine List.forall_mem_cons.mpr ⟨⟨text, behind, ⟨front ++ gap, ?_, ?_⟩, reads⟩, ?_⟩
      · rw [List.append_assoc]
      · rw [Text.byteLength_append]
      · have inside := @ih (front ++ gap ++ text) (by simp only [Text.byteLength_append])
        simpa only [List.append_assoc] using inside

end Tiles

/-- The spans that no token takes, of a text from byte `offset` up to byte `stop`. -/
def gapSpans (stop : Nat) : Nat → List Lexeme → List Span
  | offset, [] => [⟨offset, stop⟩]
  | offset, lexeme :: rest => ⟨offset, lexeme.span.start⟩ :: gapSpans stop lexeme.span.stop rest

theorem Tiles.gaps_hold {offset : Nat} {cs : List Char} {lexemes : List Lexeme}
    (tiles : Tiles [] offset cs lexemes) {front : List Char}
    (place : offset = Text.byteLength front) :
    ∀ span ∈ gapSpans (offset + Text.byteLength cs) offset lexemes, ∃ gap behind,
      Text.Holds (front ++ cs) span gap behind ∧ IsGapBefore behind gap := by
  induction tiles generalizing front with
  | @last offset gap between =>
      subst place
      refine List.forall_mem_singleton.mpr ⟨gap, [], ⟨front, rfl, ?_⟩, between⟩
      rw [List.append_nil]
  | @next offset gap text behind token lexemes between reads _ ih =>
      subst place
      refine List.forall_mem_cons.mpr ⟨⟨gap, text ++ behind, ⟨front, rfl, rfl⟩, between⟩, ?_⟩
      have inside := @ih (front ++ gap ++ text) (by simp only [Text.byteLength_append])
      simpa only [List.append_assoc, Text.byteLength_append, Nat.add_assoc] using inside

/-- The tokens of a text, with the gaps between them, make up the text. -/
structure TilesSource (source : String) (lexemes : List Lexeme) : Prop where
  nonempty : ∀ lexeme ∈ lexemes, lexeme.span.start < lexeme.span.stop
  inside : ∀ lexeme ∈ lexemes, lexeme.span.stop ≤ source.utf8ByteSize
  apart : lexemes.Pairwise fun one other => one.span.stop ≤ other.span.start
  /-- Before, between and behind the tokens there are only gaps. -/
  gaps : ∀ span ∈ gapSpans source.utf8ByteSize 0 lexemes, ∃ gap behind,
    Text.Holds source.toList span gap behind ∧ IsGapBefore behind gap
  /-- The characters of a token are a text with that one token. -/
  alone : ∀ lexeme ∈ lexemes, ∃ text behind, Text.Holds source.toList lexeme.span text behind ∧
    lex (String.ofList text) = .ok [⟨lexeme.token, ⟨0, Text.byteLength text⟩⟩]

/-- A text cannot be read from this place on, and can be read up to it. -/
structure StopsAt (source : String) (error : LexError) : Prop where
  snippet_ne : error.snippet ≠ ""
  snippet_there : ∃ behind, Text.Holds source.toList
    ⟨error.position, error.position + error.snippet.utf8ByteSize⟩ error.snippet.toList behind
  front_read : ∃ front lexemes, front <+: source.toList ∧
    Text.byteLength front = error.position ∧ lex (String.ofList front) = .ok lexemes

theorem tilesSource_of_lex {source : String} {lexemes : List Lexeme}
    (read : lex source = .ok lexemes) : TilesSource source lexemes := by
  have tiles := (scan_eq_ok_iff.mp read).scansTo.tiles
  have size : source.utf8ByteSize = 0 + Text.byteLength source.toList := by
    rw [Text.utf8ByteSize_eq, Nat.zero_add]
  constructor
  case nonempty => exact fun lexeme member => (tiles.span_within lexeme member).2.1
  case inside =>
    rw [size]
    exact fun lexeme member => (tiles.span_within lexeme member).2.2
  case apart => exact tiles.apart
  case gaps =>
    rw [size]
    exact @Tiles.gaps_hold 0 source.toList lexemes tiles [] rfl
  case alone =>
    intro lexeme member
    obtain ⟨text, behind, there, reads⟩ := @Tiles.holds [] 0 _ _ tiles [] rfl lexeme member
    exact ⟨text, behind, there, reads.lex_eq⟩

theorem stopsAt_of_lex {source : String} {error : LexError}
    (failed : lex source = .error error) : StopsAt source error := by
  obtain ⟨c, ds, lexemes, scans, -, snippet, place⟩ := scansTo_of_scan_error failed
  obtain ⟨front, split, scanned⟩ := scans.scans_front
  have position : error.position = Text.byteLength front := by
    rw [split, Text.byteLength_append] at place
    omega
  constructor
  case snippet_ne =>
    intro none
    rw [none] at snippet
    exact firstPiece_text_ne_nil c ds snippet.symm
  case snippet_there =>
    refine ⟨(firstPiece c ds).rest, front, ?_, ?_⟩
    · rw [split, snippet, firstPiece_text_append_rest]
    · rw [position, Text.utf8ByteSize_eq]
  case front_read =>
    refine ⟨front, lexemes, split ▸ List.prefix_append _ _, position.symm, ?_⟩
    rw [lex, String.toList_ofList]
    exact scan_eq_ok_iff.mpr scanned

/-- The tokens of a text tile it, and a text that cannot be read can be read up to the place of
its error. -/
theorem lexemes_tile_source (source : String) :
    match lex source with
    | .ok lexemes => TilesSource source lexemes
    | .error error => StopsAt source error := by
  cases read : lex source with
  | ok lexemes => exact tilesSource_of_lex read
  | error error => exact stopsAt_of_lex read

end Token

end RegisterMachine
