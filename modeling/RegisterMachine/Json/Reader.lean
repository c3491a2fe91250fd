import RegisterMachine.Json.Value

/-!
# Reading JSON

A text is cut into tokens, and the tokens are read from left to right with a
stack of the arrays and objects that are still open, so values may be nested to
any depth.  The reader is strict: blanks are space, tab, newline and carriage
return, numbers have no leading zeros, strings hold no raw control characters,
there are no trailing commas, and nothing follows the value.
-/

namespace RegisterMachine.Json

/-- A token of JSON. -/
inductive Symbol where
  | openBrace
  | closeBrace
  | openBracket
  | closeBracket
  | comma
  | colon
  | null
  | bool (value : Bool)
  | number (digits : List Char)
  | string (text : Option String)
deriving DecidableEq, Repr

/-- The characters between tokens. -/
def isSpace (c : Char) : Bool :=
  c == ' ' || c == '\t' || c == '\n' || c == '\r'

/-- The value of a token that is a value by itself. -/
def Symbol.scalar? : Symbol → Option Json
  | null => some .null
  | bool value => some (.bool value)
  | number digits => some (.number digits)
  | string text => some (.string text)
  | openBrace | closeBrace | openBracket | closeBracket | comma | colon => none

/-! ## Numbers -/

/-- The digits at the front of a text, of which there has to be one. -/
def takeDigits (cs : List Char) : Option (List Char × List Char) :=
  if (cs.takeWhile Char.isDigit).isEmpty then none
  else some (cs.takeWhile Char.isDigit, cs.dropWhile Char.isDigit)

/-- A zero, or digits that do not begin with one. -/
def takeInteger : List Char → Option (List Char × List Char)
  | '0' :: rest => some (['0'], rest)
  | cs => takeDigits cs

/-- A point with digits after it, or nothing. -/
def takeFraction : List Char → Option (List Char × List Char)
  | '.' :: rest => (takeDigits rest).map fun (digits, rest) => ('.' :: digits, rest)
  | cs => some ([], cs)

/-- Digits with or without a sign. -/
def takeSignedDigits : List Char → Option (List Char × List Char)
  | '+' :: rest => (takeDigits rest).map fun (digits, rest) => ('+' :: digits, rest)
  | '-' :: rest => (takeDigits rest).map fun (digits, rest) => ('-' :: digits, rest)
  | cs => takeDigits cs

/-- An exponent, or nothing. -/
def takeExponent : List Char → Option (List Char × List Char)
  | 'e' :: rest => (takeSignedDigits rest).map fun (digits, rest) => ('e' :: digits, rest)
  | 'E' :: rest => (takeSignedDigits rest).map fun (digits, rest) => ('E' :: digits, rest)
  | cs => some ([], cs)

/-- A number without a sign. -/
def takeUnsigned (cs : List Char) : Option (List Char × List Char) := do
  let (whole, rest) ← takeInteger cs
  let (fraction, rest) ← takeFraction rest
  let (exponent, rest) ← takeExponent rest
  return (whole ++ fraction ++ exponent, rest)

/-- A number. -/
def takeNumber : List Char → Option (List Char × List Char)
  | '-' :: rest => (takeUnsigned rest).map fun (digits, rest) => ('-' :: digits, rest)
  | cs => takeUnsigned cs

theorem append_of_takeDigits {cs digits rest : List Char}
    (taken : takeDigits cs = some (digits, rest)) : digits ++ rest = cs ∧ digits ≠ [] := by
  unfold takeDigits at taken
  split at taken
  · simp at taken
  · next some =>
      simp only [Option.some.injEq, Prod.mk.injEq] at taken
      rw [← taken.1, ← taken.2]
      exact ⟨List.takeWhile_append_dropWhile, by simpa using some⟩

theorem append_of_takeInteger {cs digits rest : List Char}
    (taken : takeInteger cs = some (digits, rest)) : digits ++ rest = cs ∧ digits ≠ [] := by
  unfold takeInteger at taken
  split at taken
  · simp only [Option.some.injEq, Prod.mk.injEq] at taken
    rw [← taken.1, ← taken.2]
    exact ⟨rfl, by simp⟩
  · exact append_of_takeDigits taken

theorem append_of_takeFraction {cs digits rest : List Char}
    (taken : takeFraction cs = some (digits, rest)) : digits ++ rest = cs := by
  unfold takeFraction at taken
  split at taken
  · obtain ⟨⟨digits', rest'⟩, inner, same⟩ := Option.map_eq_some_iff.mp taken
    simp only [Prod.mk.injEq] at same
    rw [← same.1, ← same.2, ← (append_of_takeDigits inner).1, List.cons_append]
  · simp only [Option.some.injEq, Prod.mk.injEq] at taken
    rw [← taken.1, ← taken.2, List.nil_append]

theorem append_of_takeSignedDigits {cs digits rest : List Char}
    (taken : takeSignedDigits cs = some (digits, rest)) : digits ++ rest = cs := by
  unfold takeSignedDigits at taken
  split at taken
  · obtain ⟨⟨digits', rest'⟩, inner, same⟩ := Option.map_eq_some_iff.mp taken
    simp only [Prod.mk.injEq] at same
    rw [← same.1, ← same.2, ← (append_of_takeDigits inner).1, List.cons_append]
  · obtain ⟨⟨digits', rest'⟩, inner, same⟩ := Option.map_eq_some_iff.mp taken
    simp only [Prod.mk.injEq] at same
    rw [← same.1, ← same.2, ← (append_of_takeDigits inner).1, List.cons_append]
  · exact (append_of_takeDigits taken).1

theorem append_of_takeExponent {cs digits rest : List Char}
    (taken : takeExponent cs = some (digits, rest)) : digits ++ rest = cs := by
  unfold takeExponent at taken
  split at taken
  · obtain ⟨⟨digits', rest'⟩, inner, same⟩ := Option.map_eq_some_iff.mp taken
    simp only [Prod.mk.injEq] at same
    rw [← same.1, ← same.2, ← append_of_takeSignedDigits inner, List.cons_append]
  · obtain ⟨⟨digits', rest'⟩, inner, same⟩ := Option.map_eq_some_iff.mp taken
    simp only [Prod.mk.injEq] at same
    rw [← same.1, ← same.2, ← append_of_takeSignedDigits inner, List.cons_append]
  · simp only [Option.some.injEq, Prod.mk.injEq] at taken
    rw [← taken.1, ← taken.2, List.nil_append]

theorem append_of_takeUnsigned {cs digits rest : List Char}
    (taken : takeUnsigned cs = some (digits, rest)) : digits ++ rest = cs ∧ digits ≠ [] := by
  simp only [takeUnsigned, Option.bind_eq_bind, Option.bind_eq_some_iff] at taken
  obtain ⟨⟨whole, rest₁⟩, integer, ⟨fraction, rest₂⟩, point, ⟨exponent, rest₃⟩, power, same⟩ :=
    taken
  simp only [Option.pure_def, Option.some.injEq, Prod.mk.injEq] at same
  obtain ⟨parts, nonempty⟩ := append_of_takeInteger integer
  rw [← same.1, ← same.2, List.append_assoc, List.append_assoc, append_of_takeExponent power,
    append_of_takeFraction point, parts]
  exact ⟨rfl, by simp [nonempty]⟩

/-- A number and the text after it make up the whole text. -/
theorem append_of_takeNumber {cs digits rest : List Char}
    (taken : takeNumber cs = some (digits, rest)) : digits ++ rest = cs ∧ digits ≠ [] := by
  unfold takeNumber at taken
  split at taken
  · obtain ⟨⟨digits', rest'⟩, inner, same⟩ := Option.map_eq_some_iff.mp taken
    simp only [Prod.mk.injEq] at same
    rw [← same.1, ← same.2, ← (append_of_takeUnsigned inner).1, List.cons_append]
    exact ⟨rfl, by simp⟩
  · exact append_of_takeUnsigned taken

/-! ## Tokens -/

/-- The first token of a text that does not begin with a blank, and the text after it. -/
def takeSymbol : List Char → Option (Symbol × List Char)
  | '{' :: rest => some (.openBrace, rest)
  | '}' :: rest => some (.closeBrace, rest)
  | '[' :: rest => some (.openBracket, rest)
  | ']' :: rest => some (.closeBracket, rest)
  | ',' :: rest => some (.comma, rest)
  | ':' :: rest => some (.colon, rest)
  | 'n' :: 'u' :: 'l' :: 'l' :: rest => some (.null, rest)
  | 't' :: 'r' :: 'u' :: 'e' :: rest => some (.bool true, rest)
  | 'f' :: 'a' :: 'l' :: 's' :: 'e' :: rest => some (.bool false, rest)
  | '"' :: rest =>
      (takeUnits rest).map fun (units, rest) =>
        (.string ((textOfUnits units).map String.ofList), rest)
  | cs => (takeNumber cs).map fun (digits, rest) => (.number digits, rest)

theorem length_lt_of_takeSymbol {cs rest : List Char} {symbol : Symbol}
    (taken : takeSymbol cs = some (symbol, rest)) : rest.length < cs.length := by
  unfold takeSymbol at taken
  split at taken
  case h_10 =>
    obtain ⟨⟨units, rest'⟩, inner, same⟩ := Option.map_eq_some_iff.mp taken
    simp only [Prod.mk.injEq] at same
    have shorter := length_lt_of_takeUnits inner
    rw [← same.2, List.length_cons]
    omega
  case h_11 =>
    obtain ⟨⟨digits, rest'⟩, inner, same⟩ := Option.map_eq_some_iff.mp taken
    simp only [Prod.mk.injEq] at same
    obtain ⟨parts, nonempty⟩ := append_of_takeNumber inner
    have positive := List.length_pos_iff.mpr nonempty
    rw [← same.2, ← parts, List.length_append]
    omega
  all_goals
    simp only [Option.some.injEq, Prod.mk.injEq] at taken
    simp only [← taken.2, List.length_cons]
    omega

/-- The tokens of a text. -/
def symbols (cs : List Char) : Option (List Symbol) :=
  match cs with
  | [] => some []
  | c :: rest =>
      if isSpace c then symbols rest
      else match _h : takeSymbol (c :: rest) with
        | none => none
        | some (symbol, after) => (symbols after).map (symbol :: ·)
termination_by cs.length
decreasing_by
  · simp
  · exact length_lt_of_takeSymbol ‹_›

/-! ## Values -/

/-- An array or object that is still open, with its parts so far, the last one first. -/
inductive Frame where
  | array (items : List Json)
  | object (fields : List (Option String × Json))
  /-- An object with the name of the field whose value comes next. -/
  | member (key : Option String) (fields : List (Option String × Json))

/-- What the next token has to be. -/
inductive Expect where
  | value
  /-- The first item of an array or its end. -/
  | itemOrEnd
  /-- The name of the first field of an object or its end. -/
  | keyOrEnd
  | key
  | colon
  /-- A comma, or the end of the innermost container. -/
  | commaOrEnd
  /-- Nothing: the value is complete. -/
  | done (value : Json)

/-- A reading underway. -/
structure Reading where
  expect : Expect
  stack : List Frame

namespace Reading

/-- Nothing has been read. -/
def start : Reading :=
  ⟨.value, []⟩

/-- Put a complete value where it belongs. -/
def complete (value : Json) : List Frame → Option Reading
  | [] => some ⟨.done value, []⟩
  | .array items :: stack => some ⟨.commaOrEnd, .array (value :: items) :: stack⟩
  | .member key fields :: stack => some ⟨.commaOrEnd, .object ((key, value) :: fields) :: stack⟩
  | .object _ :: _ => none

/-- Begin a value with a token. -/
def begin (symbol : Symbol) (stack : List Frame) : Option Reading :=
  match symbol with
  | .openBracket => some ⟨.itemOrEnd, .array [] :: stack⟩
  | .openBrace => some ⟨.keyOrEnd, .object [] :: stack⟩
  | symbol => symbol.scalar?.bind fun value => complete value stack

/-- Close the innermost container with a token. -/
def close (symbol : Symbol) (stack : List Frame) : Option Reading :=
  match symbol, stack with
  | .closeBracket, .array items :: stack => complete (.array items.reverse) stack
  | .closeBrace, .object fields :: stack => complete (.object fields.reverse) stack
  | _, _ => none

/-- Begin a field with its name. -/
def beginField (symbol : Symbol) (stack : List Frame) : Option Reading :=
  match symbol, stack with
  | .string key, .object fields :: stack => some ⟨.colon, .member key fields :: stack⟩
  | _, _ => none

/-- Go on after a comma. -/
def afterComma : List Frame → Option Reading
  | .array items :: stack => some ⟨.value, .array items :: stack⟩
  | .object fields :: stack => some ⟨.key, .object fields :: stack⟩
  | _ => none

/-- Read one token. -/
def step (reading : Reading) (symbol : Symbol) : Option Reading :=
  match reading.expect with
  | .value => begin symbol reading.stack
  | .itemOrEnd =>
      if symbol = .closeBracket then close symbol reading.stack else begin symbol reading.stack
  | .keyOrEnd =>
      if symbol = .closeBrace then close symbol reading.stack
      else beginField symbol reading.stack
  | .key => beginField symbol reading.stack
  | .colon => if symbol = .colon then some { reading with expect := .value } else none
  | .commaOrEnd =>
      if symbol = .comma then afterComma reading.stack else close symbol reading.stack
  | .done _ => none

/-- The value that has been read. -/
def value? (reading : Reading) : Option Json :=
  match reading.expect with
  | .done value => some value
  | _ => none

end Reading

/-- The value of some tokens. -/
def ofSymbols (symbols : List Symbol) : Option Json :=
  (symbols.foldlM Reading.step Reading.start).bind Reading.value?

/-- The value written in a text. -/
def parse (text : String) : Option Json :=
  (symbols text.toList).bind ofSymbols

end RegisterMachine.Json
