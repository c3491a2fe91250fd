import RegisterMachine.Token.Lexer

/-!
# Tokens without their places

Which tokens a text has does not depend on where it begins, so the tokens can be
read off piece by piece: a gap adds nothing, a word or a sign adds its token.  A
name among the tokens of a text is an identifier and no keyword, and every such
name is read back wherever something else than a name character comes behind it.
-/

namespace RegisterMachine

/-- A name that a text can hold: an identifier that is no keyword. -/
def isWord (name : String) : Bool :=
  isLabelName name && name != "IF" && name != "GOTO"

theorem isWord_iff {name : String} :
    isWord name = true ↔ isLabelName name = true ∧ name ≠ "IF" ∧ name ≠ "GOTO" := by
  simp only [isWord, Bool.and_eq_true, bne_iff_ne, and_assoc]

namespace Token

/-- The tokens of a scan, if it came to its end. -/
def ofScan (scanned : Except LexError (List Lexeme)) : Option (List Token) :=
  scanned.toOption.map fun lexemes => lexemes.map Lexeme.token

theorem ofScan_map_cons (scanned : Except LexError (List Lexeme)) (lexeme : Lexeme) :
    ofScan (scanned.map fun lexemes => lexeme :: lexemes) =
      (ofScan scanned).map fun rest => lexeme.token :: rest := by
  cases scanned <;> rfl

theorem ofScan_scan (first second : Nat) (cs : List Char) :
    ofScan (scan first cs) = ofScan (scan second cs) := by
  fun_induction scan first cs generalizing second with
  | case1 => rw [scan]
  | case2 first c cs piece stop gap ih =>
      rw [scan, gap]
      exact ih _
  | case3 first c cs piece stop token read ih =>
      rw [scan, read, ofScan_map_cons, ofScan_map_cons, ih]
  | case4 first c cs piece fault =>
      rw [scan, fault]
      rfl

/-- The tokens of a text, unless there is a place without one. -/
def tokens (cs : List Char) : Option (List Token) :=
  ofScan (scan 0 cs)

theorem lex_eq_ok_of_tokens {source : String} {stream : List Token}
    (read : tokens source.toList = some stream) :
    ∃ lexemes, lex source = .ok lexemes ∧ lexemes.map Lexeme.token = stream := by
  unfold tokens ofScan at read
  unfold lex
  cases scanned : scan 0 source.toList with
  | error error => rw [scanned] at read; cases read
  | ok lexemes => rw [scanned] at read; exact ⟨lexemes, rfl, Option.some.inj read⟩

theorem tokens_of_lex {source : String} {lexemes : List Lexeme}
    (lexed : lex source = .ok lexemes) :
    tokens source.toList = some (lexemes.map Lexeme.token) := by
  unfold lex at lexed
  rw [tokens, lexed]
  rfl

@[simp] theorem tokens_nil : tokens [] = some [] := by
  rw [tokens, scan]
  rfl

/-- The tokens of a text are those of its first piece and of the rest. -/
theorem tokens_cons (c : Char) (cs : List Char) :
    tokens (c :: cs) =
      match (firstPiece c cs).reading with
      | .gap => tokens (firstPiece c cs).rest
      | .token token => (tokens (firstPiece c cs).rest).map fun rest => token :: rest
      | .fault => none := by
  rw [tokens, scan]
  cases read : (firstPiece c cs).reading with
  | gap => exact ofScan_scan ..
  | token token => exact (ofScan_map_cons ..).trans (congrArg _ (ofScan_scan ..))
  | fault => rfl

theorem tokens_of_piece {c : Char} {cs text rest : List Char} {token : Token}
    (piece : firstPiece c cs = ⟨.token token, text, rest⟩) :
    tokens (c :: cs) = (tokens rest).map fun stream => token :: stream := by
  rw [tokens_cons, piece]

/-! ## Gaps -/

theorem tokens_dropWhile_isGap (cs : List Char) : tokens (cs.dropWhile isGap) = tokens cs := by
  cases cs with
  | nil => rfl
  | cons c cs =>
      cases gap : isGap c with
      | false => rw [List.dropWhile_cons_of_neg (by simp [gap])]
      | true =>
          have piece : firstPiece c cs = run isGap (fun _ => .gap) c cs := by
            simp [firstPiece, gap]
          rw [List.dropWhile_cons_of_pos gap, tokens_cons, piece]
          rfl

/-- A character between tokens adds nothing. -/
theorem tokens_gap {c : Char} (gap : isGap c = true) (cs : List Char) :
    tokens (c :: cs) = tokens cs := by
  rw [← tokens_dropWhile_isGap, List.dropWhile_cons_of_pos gap, tokens_dropWhile_isGap]

theorem tokens_spaces (count : Nat) (cs : List Char) :
    tokens (List.replicate count ' ' ++ cs) = tokens cs := by
  induction count with
  | zero => rfl
  | succ count ih => rw [List.replicate_succ, List.cons_append, tokens_gap rfl, ih]

/-! ## Words and numbers -/

/-- A piece ends where the next character does not go on with it. -/
theorem run_append {more : Char → Bool} {read : List Char → Reading} {c : Char}
    {cs rest : List Char} (inside : cs.all more = true)
    (ends : ∀ d, rest.head? = some d → more d = false) :
    run more read c (cs ++ rest) = ⟨read (c :: cs), c :: cs, rest⟩ := by
  have inside' : ∀ d ∈ cs, more d = true := List.all_eq_true.mp inside
  have stop : rest.takeWhile more = [] ∧ rest.dropWhile more = rest := by
    cases rest with
    | nil => exact ⟨rfl, rfl⟩
    | cons d rest => simp [ends d rfl]
  simp only [run, List.takeWhile_append_of_pos inside', List.dropWhile_append_of_pos inside',
    stop.1, stop.2, List.append_nil]

/-- The code points of the letters. -/
theorem toNat_of_isAlpha {c : Char} (letter : c.isAlpha = true) :
    (65 ≤ c.toNat ∧ c.toNat ≤ 90) ∨ (97 ≤ c.toNat ∧ c.toNat ≤ 122) := by
  have ranges : (decide (c.val ≥ 'A'.val ∧ c.val ≤ 'Z'.val) ||
      decide (c.val ≥ 'a'.val) && decide (c.val ≤ 'z'.val)) = true := letter
  simp only [Bool.or_eq_true, Bool.and_eq_true, decide_eq_true_eq, ge_iff_le,
    UInt32.le_iff_toNat_le] at ranges
  exact ranges

theorem toNat_of_isDigit {c : Char} (digit : c.isDigit = true) :
    48 ≤ c.toNat ∧ c.toNat ≤ 57 := by
  simp only [Char.isDigit, Bool.and_eq_true, decide_eq_true_eq, ge_iff_le,
    UInt32.le_iff_toNat_le] at digit
  exact digit

/-- The code points of the characters of a name. -/
theorem toNat_of_isNameChar {c : Char} (inside : isNameChar c = true) :
    (48 ≤ c.toNat ∧ c.toNat ≤ 57) ∨ (65 ≤ c.toNat ∧ c.toNat ≤ 90) ∨
      (97 ≤ c.toNat ∧ c.toNat ≤ 122) ∨ c.toNat = 95 := by
  simp only [isNameChar, Char.isAlphanum, Bool.or_eq_true, beq_iff_eq] at inside
  rcases inside with (letter | digit) | rfl
  · have := toNat_of_isAlpha letter
    omega
  · exact .inl (toNat_of_isDigit digit)
  · exact .inr (.inr (.inr rfl))

theorem isDigit_of_isNameStart {c : Char} (start : isNameStart c = true) :
    c.isDigit = false := by
  rw [Bool.eq_false_iff]
  intro digit
  have high := toNat_of_isDigit digit
  simp only [isNameStart, Bool.or_eq_true, beq_iff_eq] at start
  rcases start with letter | rfl
  · have := toNat_of_isAlpha letter
    omega
  · exact absurd high (by decide)

theorem firstPiece_of_isNameStart {c : Char} (start : isNameStart c = true) (cs : List Char) :
    firstPiece c cs = run isNameChar (fun word => .token (ofWord word)) c cs := by
  have gap : isGap c = false := by
    rw [Bool.eq_false_iff]
    intro gap
    simp only [isGap, Bool.or_eq_true, beq_iff_eq] at gap
    rcases gap with (rfl | rfl) | rfl <;> cases start
  have comment : c ≠ '#' := by
    rintro rfl
    cases start
  simp [firstPiece, gap, comment, isDigit_of_isNameStart start, start]

theorem firstPiece_of_isDigit {c : Char} (digit : c.isDigit = true) (cs : List Char) :
    firstPiece c cs = run Char.isDigit readNumber c cs := by
  have gap : isGap c = false := by
    rw [Bool.eq_false_iff]
    intro gap
    simp only [isGap, Bool.or_eq_true, beq_iff_eq] at gap
    rcases gap with (rfl | rfl) | rfl <;> cases digit
  have comment : c ≠ '#' := by
    rintro rfl
    cases digit
  simp [firstPiece, gap, comment, digit]

theorem ofWord_toList (name : String) :
    ofWord name.toList =
      if name = "IF" then .ifWord else if name = "GOTO" then .gotoWord else .name name := by
  have same : ∀ keyword : String, name.toList = keyword.toList ↔ name = keyword := fun _ =>
    String.toList_inj
  have conditional : name.toList = ['I', 'F'] ↔ name = "IF" := same "IF"
  have unconditional : name.toList = ['G', 'O', 'T', 'O'] ↔ name = "GOTO" := same "GOTO"
  simp only [ofWord, conditional, unconditional, String.ofList_toList]

/-- A run of name characters that is no keyword is a name. -/
theorem ofWord_of_isWord {name : String} (word : isWord name = true) :
    ofWord name.toList = .name name := by
  simp only [isWord, Bool.and_eq_true, bne_iff_ne] at word
  rw [ofWord_toList, if_neg word.1.2, if_neg word.2]

theorem isWord_of_ofWord {cs : List Char} {text : String} (identifier : isIdentifier cs = true)
    (read : ofWord cs = .name text) : isWord text = true := by
  rw [← String.toList_ofList (l := cs), ofWord_toList] at read
  split at read
  · cases read
  · next conditional =>
      split at read
      · cases read
      · next unconditional =>
          obtain rfl := Token.name.inj read
          simp [isWord, isLabelName, identifier, conditional, unconditional]

/-- An identifier is one token when no name character comes behind it. -/
theorem tokens_identifier {cs rest : List Char} (identifier : isIdentifier cs = true)
    (ends : ∀ d, rest.head? = some d → isNameChar d = false) :
    tokens (cs ++ rest) = (tokens rest).map fun stream => ofWord cs :: stream := by
  cases cs with
  | nil => cases identifier
  | cons c cs =>
      rw [isIdentifier, Bool.and_eq_true] at identifier
      exact tokens_of_piece ((firstPiece_of_isNameStart identifier.1 (cs ++ rest)).trans
        (run_append identifier.2 ends))

theorem tokens_word {name : String} (word : isWord name = true) {rest : List Char}
    (ends : ∀ d, rest.head? = some d → isNameChar d = false) :
    tokens (name.toList ++ rest) = (tokens rest).map fun stream => .name name :: stream := by
  have identifier : isIdentifier name.toList = true := by
    simp only [isWord, Bool.and_eq_true] at word
    exact word.1.1
  rw [tokens_identifier identifier ends, ofWord_of_isWord word]

/-- A run of digits is one token when no digit comes behind it. -/
theorem tokens_number {cs rest : List Char} {value : UInt64}
    (numeral : Text.Decimal.isNumeral cs = true) (read : readNumber cs = .token (.number value))
    (ends : ∀ d, rest.head? = some d → d.isDigit = false) :
    tokens (cs ++ rest) = (tokens rest).map fun stream => .number value :: stream := by
  cases cs with
  | nil => cases numeral
  | cons c cs =>
      obtain ⟨digit, digits⟩ : c.isDigit = true ∧ cs.all Char.isDigit = true := by
        simpa [Text.Decimal.isNumeral] using numeral
      have piece := (firstPiece_of_isDigit digit (cs ++ rest)).trans (run_append digits ends)
      rw [read] at piece
      exact tokens_of_piece piece

theorem isNumeral_toDigits (n : Nat) : Text.Decimal.isNumeral (Nat.toDigits 10 n) = true := by
  rw [Text.Decimal.isNumeral, Bool.and_eq_true, List.all_eq_true]
  refine ⟨by simp [Nat.toDigits_ne_nil], fun c member => ?_⟩
  exact Nat.isDigit_of_mem_toDigits (by decide) (by decide) member

theorem isNumeral_written (n : Nat) :
    Text.Decimal.isNumeral (Text.Decimal.written n).toList = true := by
  rw [Text.Decimal.written, Nat.repr_eq_ofList_toDigits, String.toList_ofList,
    isNumeral_toDigits]

theorem readNumber_written (value : UInt64) :
    readNumber (Text.Decimal.written value.toNat).toList = .token (.number value) := by
  have fits : value.toNat ≤ Text.Decimal.wordMax := Nat.le_of_lt_succ value.toNat_lt
  have read := Text.Decimal.readUpTo_eq_some_iff.mpr
    ⟨isNumeral_written value.toNat, Text.Decimal.value_written value.toNat, fits⟩
  simp [readNumber, Text.Decimal.readWord, read]

/-! ## The names of a text -/

theorem sign_ne_name (c : Char) (text : String) : sign c ≠ .token (.name text) := by
  unfold sign
  repeat' split
  all_goals simp

/-- A piece that is read as a name is a word. -/
theorem isWord_of_firstPiece {c : Char} {cs : List Char} {text : String}
    (read : (firstPiece c cs).reading = .token (.name text)) : isWord text = true := by
  unfold firstPiece at read
  split at read
  · cases read
  · split at read
    · cases read
    · split at read
      · simp only [run, readNumber] at read
        split at read <;> cases read
      · split at read
        · next start =>
            refine isWord_of_ofWord ?_ (Reading.token.inj read)
            rw [isIdentifier, start]
            exact List.all_takeWhile
        · unfold signPiece at read
          split at read
          · cases read
          · cases read
          · exact absurd read (sign_ne_name _ text)

/-- Every name among the tokens of a text is a word. -/
theorem isWord_of_mem_tokens {cs : List Char} {stream : List Token} {text : String}
    (read : tokens cs = some stream) (member : .name text ∈ stream) : isWord text = true := by
  -- A piece takes off any number of characters, so the induction is on the length.
  induction size : cs.length using Nat.strongRecOn generalizing cs stream with
  | ind size ih =>
      cases cs with
      | nil =>
          rw [tokens_nil] at read
          cases read
          cases member
      | cons c cs =>
          have shorter := size ▸ firstPiece_rest_length_lt c cs
          rw [tokens_cons] at read
          cases piece : (firstPiece c cs).reading with
          | gap =>
              rw [piece] at read
              exact ih _ shorter read member rfl
          | fault =>
              rw [piece] at read
              cases read
          | token token =>
              rw [piece] at read
              obtain ⟨rest, read', rfl⟩ := Option.map_eq_some_iff.mp read
              rcases List.mem_cons.mp member with rfl | behind
              · exact isWord_of_firstPiece piece
              · exact ih _ shorter read' behind rfl

/-! ## Tokens as text -/

/-- How a token is written. -/
def text : Token → String
  | ifWord => "IF"
  | gotoWord => "GOTO"
  | assign => "<-"
  | notEquals => "!="
  | plus => "+"
  | minus => "-"
  | openBracket => "["
  | closeBracket => "]"
  | openParen => "("
  | closeParen => ")"
  | number value => Text.Decimal.written value.toNat
  | name text => text
  | lineEnd => "\n"

/-- Whether a token can be read from a text at all. -/
def isReadable : Token → Bool
  | name text => isWord text
  | _ => true

/-- What a token is written as is read as that token. -/
theorem tokens_text {token : Token} (readable : token.isReadable = true) {rest : List Char}
    (ends : ∀ d, rest.head? = some d → isNameChar d = false) :
    tokens (token.text.toList ++ rest) = (tokens rest).map fun stream => token :: stream := by
  cases token with
  | ifWord => exact @tokens_identifier ['I', 'F'] rest rfl ends
  | gotoWord => exact @tokens_identifier ['G', 'O', 'T', 'O'] rest rfl ends
  | name text => exact tokens_word readable ends
  | number value =>
      refine tokens_number (isNumeral_written _) (readNumber_written value) fun d head => ?_
      have other := ends d head
      simp only [isNameChar, Char.isAlphanum, Bool.or_eq_false_iff] at other
      exact other.1.2
  | assign | notEquals | plus | minus | openBracket | closeBracket | openParen | closeParen
  | lineEnd => exact tokens_of_piece rfl

/-- Tokens that are written with spaces between them are read as those tokens. -/
theorem tokens_joined {stream : List Token} (readable : ∀ token ∈ stream, token.isReadable = true)
    {rest : List Char} (ends : ∀ d, rest.head? = some d → isNameChar d = false) :
    tokens ((" ".intercalate (stream.map text)).toList ++ rest) =
      (tokens rest).map fun behind => stream ++ behind := by
  induction stream with
  | nil => simp
  | cons first stream ih =>
      rw [List.forall_mem_cons] at readable
      cases stream with
      | nil => simpa using tokens_text readable.1 ends
      | cons second stream =>
          have split : (" ".intercalate ((first :: second :: stream).map text)).toList ++ rest =
              first.text.toList ++
                ' ' :: ((" ".intercalate ((second :: stream).map text)).toList ++ rest) := by
            simp [String.intercalate_cons_cons]
          rw [split, tokens_text readable.1 (by rintro d ⟨⟩; rfl), tokens_gap rfl,
            ih readable.2, Option.map_map]
          rfl

end Token

end RegisterMachine
