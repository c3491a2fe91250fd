import Mathlib.Tactic.SplitIfs
import RegisterMachine.Json.Reader

/-!
# JSON written and read again

Reading has two stages, tokens first and then values, and what is written comes
back in the same two.  The text of a value is read as the tokens of the value, in
either layout: what a character of a string is written as is read as one unit, the
gaps of the layout are passed over, and a number ends where nothing goes on with it.
The tokens of a value are read as the value, whatever arrays and objects are open
around it.  Strings are arbitrary, and a number has to be a natural one in decimal.
-/

namespace RegisterMachine.Json

/-! ## Strings -/

/-- A unit that stands for one character. -/
def StringUnit.StandsFor (unit : StringUnit) (c : Char) : Prop :=
  ∀ units, textOfUnits (unit :: units) = (textOfUnits units).map fun text => c :: text

/-- Some characters are read as one unit, whatever comes behind them. -/
def StringUnit.IsReadFrom (unit : StringUnit) (written : List Char) : Prop :=
  ∀ cs, takeUnits (written ++ cs) = (takeUnits cs).map fun (units, rest) => (unit :: units, rest)

/-- A code below the surrogates stands for its character, whatever comes behind it. -/
theorem standsFor_code {code : Nat} (low : code < 0xD800) :
    (StringUnit.code code).StandsFor (Char.ofNat code) := by
  intro units
  have high : isHighSurrogate code = false := by simp [isHighSurrogate]; omega
  have second : isLowSurrogate code = false := by simp [isLowSurrogate]; omega
  cases units with
  | nil => simp [textOfUnits, high, second]
  | cons unit units => cases unit <;> simp [textOfUnits, high, second]

theorem hexValue_digitChar {n : Nat} (small : n < 16) :
    hexValue (Nat.digitChar n) = some n := by
  decide +revert

theorem isReadFrom_short {c named : Char} (other : named ≠ 'u')
    (short : shortEscape named = some c) : (StringUnit.char c).IsReadFrom ['\\', named] := by
  intro cs
  rw [List.cons_append, List.cons_append, List.nil_append, takeUnits, short]
  · cases takeUnits cs <;> rfl
  · exact fun _ _ _ _ _ same _ => other same

theorem isReadFrom_code {code : Nat} (small : code < 256) :
    (StringUnit.code code).IsReadFrom
      ['\\', 'u', '0', '0', Nat.digitChar (code / 16), Nat.digitChar (code % 16)] := by
  intro cs
  have zero : hexValue '0' = some 0 := rfl
  have high := @hexValue_digitChar (code / 16) (by omega)
  have low := @hexValue_digitChar (code % 16) (by omega)
  have whole : hexCode '0' '0' (Nat.digitChar (code / 16)) (Nat.digitChar (code % 16)) =
      some code := by
    simp only [hexCode, zero, high, low, Option.bind_eq_bind, Option.bind_some, Option.pure_def,
      Option.some.injEq]
    omega
  rw [List.cons_append, List.cons_append, List.cons_append, List.cons_append, List.cons_append,
    List.cons_append, List.nil_append, takeUnits, whole]
  cases takeUnits cs <;> rfl

theorem isReadFrom_self {c : Char} (visible : 0x20 ≤ c.toNat) (quote : c ≠ '"')
    (slash : c ≠ '\\') : (StringUnit.char c).IsReadFrom [c] := by
  intro cs
  have shown : ¬ (c.toNat < 0x20 ∨ c = '\\') := by simp [slash, visible]
  rw [List.cons_append, List.nil_append, takeUnits, if_neg shown]
  · cases takeUnits cs <;> rfl
  · exact quote
  · exact fun _ _ _ _ _ same => absurd same slash
  · exact fun _ _ same => absurd same slash

/-- What a character is written as is read as one unit that stands for the character. -/
theorem exists_unit (c : Char) :
    ∃ unit : StringUnit, unit.IsReadFrom (escape c) ∧ unit.StandsFor c := by
  unfold escape
  split_ifs with quote slash _ _ _ _ _ control
  -- First come the characters that have a short escape.
  iterate 7
    case pos =>
      subst_vars
      exact ⟨.char _, isReadFrom_short (by decide) rfl, fun _ => rfl⟩
  case pos =>
    have stands := standsFor_code (Nat.lt_trans control (by decide))
    rw [Char.ofNat_toNat] at stands
    exact ⟨.code c.toNat, isReadFrom_code (Nat.lt_trans control (by decide)), stands⟩
  case neg =>
    exact ⟨.char c, isReadFrom_self (Nat.not_lt.mp control) quote slash, fun _ => rfl⟩

/-- A quoted text is read as units that stand for the text. -/
theorem exists_units (text rest : List Char) :
    ∃ units, takeUnits (text.flatMap escape ++ '"' :: rest) = some (units, rest) ∧
      textOfUnits units = some text := by
  induction text with
  | nil => exact ⟨[], rfl, rfl⟩
  | cons c text ih =>
      obtain ⟨units, read, stands⟩ := ih
      obtain ⟨unit, readFirst, standsFirst⟩ := exists_unit c
      refine ⟨unit :: units, ?_, ?_⟩
      · rw [List.flatMap_cons, List.append_assoc, readFirst, read]
        rfl
      · rw [standsFirst, stands]
        rfl

/-! ## Tokens -/

theorem symbols_of_isSpace {c : Char} (space : isSpace c = true) (cs : List Char) :
    symbols (c :: cs) = symbols cs := by
  rw [symbols, if_pos space]

theorem symbols_of_takeSymbol {c : Char} {cs rest : List Char} {symbol : Symbol}
    (solid : isSpace c = false) (taken : takeSymbol (c :: cs) = some (symbol, rest)) :
    symbols (c :: cs) = (symbols rest).map fun stream => symbol :: stream := by
  rw [symbols, if_neg (by simp [solid])]
  split
  · next none => rw [taken] at none; cases none
  · next found after some =>
      rw [taken] at some
      cases some
      rfl

theorem symbols_lineBreak (layout : Layout) (level : Nat) (cs : List Char) :
    symbols (layout.lineBreak level ++ cs) = symbols cs := by
  have spaces : ∀ count, symbols (List.replicate count ' ' ++ cs) = symbols cs := by
    intro count
    induction count with
    | zero => rfl
    | succ count ih =>
        rw [List.replicate_succ, List.cons_append, symbols_of_isSpace rfl, ih]
  cases layout with
  | compact => rfl
  | indented => rw [Layout.lineBreak, List.cons_append, symbols_of_isSpace rfl, spaces]

theorem symbols_colon (layout : Layout) (cs : List Char) :
    symbols (layout.colon ++ cs) = (symbols cs).map fun stream => .colon :: stream := by
  cases layout with
  | compact => exact symbols_of_takeSymbol rfl rfl
  | indented =>
      rw [Layout.colon, List.cons_append, symbols_of_takeSymbol rfl rfl, List.cons_append,
        symbols_of_isSpace rfl, List.nil_append]

theorem takeSymbol_quote {cs rest : List Char} {units : List StringUnit}
    (read : takeUnits cs = some (units, rest)) :
    takeSymbol ('"' :: cs) = some (.string ((textOfUnits units).map String.ofList), rest) := by
  rw [takeSymbol, read]
  rfl

/-- A string is one token, also when it is no text. -/
theorem symbols_writeString (text : Option String) (cs : List Char) :
    symbols (writeString text ++ cs) = (symbols cs).map fun stream => .string text :: stream := by
  cases text with
  | none =>
      have code : hexCode 'd' '8' '0' '0' = some 0xD800 := by decide
      have unpaired : textOfUnits [.code 0xD800] = none := by decide
      have read : takeUnits ('\\' :: 'u' :: 'd' :: '8' :: '0' :: '0' :: '"' :: cs) =
          some ([.code 0xD800], cs) := by
        rw [takeUnits, code, takeUnits]
        rfl
      have taken := takeSymbol_quote read
      rw [unpaired] at taken
      exact symbols_of_takeSymbol rfl taken
  | some text =>
      obtain ⟨units, read, stands⟩ := exists_units text.toList cs
      have taken := takeSymbol_quote read
      rw [stands, Option.map_some, String.ofList_toList] at taken
      rw [writeString, quote, List.cons_append, List.cons_append, List.append_assoc]
      exact symbols_of_takeSymbol rfl taken

/-! ## Numbers -/

/-- The characters that could go on with a number. -/
def continuesNumber (c : Char) : Bool :=
  c.isDigit || c == '.' || c == 'e' || c == 'E'

/-- A text that does not go on with a number before it. -/
def EndsNumber (cs : List Char) : Prop :=
  ∀ c, cs.head? = some c → continuesNumber c = false

theorem EndsNumber.cons {c : Char} (other : continuesNumber c = false) (cs : List Char) :
    EndsNumber (c :: cs) := by
  rintro _ ⟨⟩
  exact other

theorem head?_toDigits_ne_zero {n : Nat} (positive : 0 < n) :
    (Nat.toDigits 10 n).head? ≠ some '0' := by
  induction n using Nat.strongRecOn with
  | ind n ih =>
      by_cases small : n < 10
      · rw [Nat.toDigits_of_lt_base small]
        revert positive
        clear ih
        decide +revert
      · have leading := ih (n / 10) (by omega) (by omega)
        rw [Nat.toDigits_of_base_le (by decide) (by omega), List.head?_append]
        cases first : (Nat.toDigits 10 (n / 10)).head? with
        | none => exact absurd (List.head?_eq_none_iff.mp first) Nat.toDigits_ne_nil
        | some c => rwa [first] at leading

theorem takeDigits_append {digits rest : List Char} (some : digits ≠ [])
    (inside : ∀ c ∈ digits, c.isDigit = true) (ends : EndsNumber rest) :
    takeDigits (digits ++ rest) = .some (digits, rest) := by
  have stop : rest.takeWhile Char.isDigit = [] ∧ rest.dropWhile Char.isDigit = rest := by
    cases rest with
    | nil => exact ⟨rfl, rfl⟩
    | cons c rest =>
        have other := ends c rfl
        simp only [continuesNumber, Bool.or_eq_false_iff] at other
        simp [other.1.1.1]
  rw [takeDigits, List.takeWhile_append_of_pos inside, List.dropWhile_append_of_pos inside,
    stop.1, stop.2, List.append_nil, if_neg (by simpa using some)]

theorem takeInteger_written (n : Nat) {rest : List Char} (ends : EndsNumber rest) :
    takeInteger ((Text.Decimal.written n).toList ++ rest) =
      some ((Text.Decimal.written n).toList, rest) := by
  rw [Text.Decimal.written, Nat.toList_repr]
  rcases Nat.eq_zero_or_pos n with rfl | positive
  · rfl
  · have inside : ∀ c ∈ Nat.toDigits 10 n, c.isDigit = true := fun c member =>
      Nat.isDigit_of_mem_toDigits (by decide) (by decide) member
    have whole := takeDigits_append Nat.toDigits_ne_nil inside ends
    have leading := head?_toDigits_ne_zero positive
    cases digits : Nat.toDigits 10 n with
    | nil => exact absurd digits Nat.toDigits_ne_nil
    | cons first others =>
        rw [digits] at whole leading
        rw [List.cons_append, takeInteger]
        · exact whole
        · rintro rest' ⟨⟩
          exact leading rfl

theorem takeFraction_of_ends {cs : List Char} (ends : EndsNumber cs) :
    takeFraction cs = some ([], cs) := by
  unfold takeFraction
  split
  · cases ends '.' rfl
  · rfl

theorem takeExponent_of_ends {cs : List Char} (ends : EndsNumber cs) :
    takeExponent cs = some ([], cs) := by
  unfold takeExponent
  split
  · cases ends 'e' rfl
  · cases ends 'E' rfl
  · rfl

theorem takeSymbol_of_isDigit {c : Char} (digit : c.isDigit = true) (cs : List Char) :
    takeSymbol (c :: cs) =
      (takeUnsigned (c :: cs)).map fun (digits, rest) => (.number digits, rest) := by
  have other : ∀ d : Char, d.isDigit = false → c ≠ d := by
    rintro d differs rfl
    rw [digit] at differs
    cases differs
  have unsigned : takeNumber (c :: cs) = takeUnsigned (c :: cs) := by
    rw [takeNumber]
    rintro rest ⟨⟩
    exact other '-' rfl rfl
  unfold takeSymbol
  split
  case h_11 => rw [unsigned]
  all_goals
    next same =>
      obtain ⟨rfl, -⟩ := List.cons.inj same
      cases digit

/-- A natural number in decimal is one token when nothing goes on with it. -/
theorem symbols_number (n : Nat) {rest : List Char} (ends : EndsNumber rest) :
    symbols ((Text.Decimal.written n).toList ++ rest) = (symbols rest).map fun stream =>
      .number (Text.Decimal.written n).toList :: stream := by
  have unsigned : takeUnsigned ((Text.Decimal.written n).toList ++ rest) =
      some ((Text.Decimal.written n).toList, rest) := by
    simp [takeUnsigned, takeInteger_written n ends, takeFraction_of_ends ends,
      takeExponent_of_ends ends]
  have digits : ∀ c ∈ (Text.Decimal.written n).toList, c.isDigit = true := by
    rw [Text.Decimal.written, Nat.toList_repr]
    exact fun c member => Nat.isDigit_of_mem_toDigits (by decide) (by decide) member
  cases written : (Text.Decimal.written n).toList with
  | nil =>
      rw [Text.Decimal.written, Nat.toList_repr] at written
      exact absurd written Nat.toDigits_ne_nil
  | cons c cs =>
      rw [written] at unsigned digits
      have digit := digits c List.mem_cons_self
      have solid : isSpace c = false := by
        rw [Bool.eq_false_iff]
        intro space
        simp only [isSpace, Bool.or_eq_true, beq_iff_eq] at space
        rcases space with ((rfl | rfl) | rfl) | rfl <;> cases digit
      rw [List.cons_append] at unsigned ⊢
      refine symbols_of_takeSymbol solid ?_
      rw [takeSymbol_of_isDigit digit, unsigned]
      rfl

/-! ## Values -/

mutual

/-- The tokens of a value. -/
def tokens : Json → List Symbol
  | null => [.null]
  | bool value => [.bool value]
  | number digits => [.number digits]
  | string text => [.string text]
  | array [] => [.openBracket, .closeBracket]
  | array (item :: items) =>
      .openBracket :: item.tokens ++ (itemTokens items ++ [.closeBracket])
  | object [] => [.openBrace, .closeBrace]
  | object ((key, value) :: fields) =>
      .openBrace :: .string key :: .colon :: value.tokens ++ (fieldTokens fields ++ [.closeBrace])

/-- The tokens of the items of an array after the first. -/
def itemTokens : List Json → List Symbol
  | [] => []
  | item :: items => .comma :: item.tokens ++ itemTokens items

/-- The tokens of the fields of an object after the first. -/
def fieldTokens : List (Option String × Json) → List Symbol
  | [] => []
  | (key, value) :: fields =>
      .comma :: .string key :: .colon :: value.tokens ++ fieldTokens fields

end

/-- A value whose numbers are natural numbers in decimal. -/
inductive Plain : Json → Prop where
  | null : Plain .null
  | bool (value : Bool) : Plain (.bool value)
  | number (n : Nat) : Plain (ofNat n)
  | string (text : Option String) : Plain (.string text)
  | array {items : List Json} (plain : ∀ item ∈ items, Plain item) : Plain (.array items)
  | object {fields : List (Option String × Json)} (plain : ∀ field ∈ fields, Plain field.2) :
      Plain (.object fields)

/-- Behind the text of a value the reading goes on with the tokens of the value read. -/
def ReadsBack (layout : Layout) (value : Json) : Prop :=
  ∀ (level : Nat) {rest : List Char}, EndsNumber rest →
    symbols (value.write layout level ++ rest) =
      (symbols rest).map fun stream => value.tokens ++ stream

theorem endsNumber_lineBreak (layout : Layout) (level : Nat) {c : Char} {cs : List Char}
    (ends : EndsNumber (c :: cs)) : EndsNumber (layout.lineBreak level ++ c :: cs) := by
  cases layout with
  | compact => exact ends
  | indented => exact EndsNumber.cons rfl _

theorem endsNumber_writeItems (layout : Layout) (level : Nat) (items : List Json)
    {rest : List Char} (ends : EndsNumber rest) :
    EndsNumber (writeItems layout level items ++ rest) := by
  cases items with
  | nil => exact ends
  | cons item items => exact EndsNumber.cons rfl _

theorem endsNumber_writeFields (layout : Layout) (level : Nat)
    (fields : List (Option String × Json)) {rest : List Char} (ends : EndsNumber rest) :
    EndsNumber (writeFields layout level fields ++ rest) := by
  cases fields with
  | nil => exact ends
  | cons field fields => exact EndsNumber.cons rfl _

theorem symbols_writeItems {layout : Layout} {items : List Json}
    (each : ∀ item ∈ items, ReadsBack layout item) (level : Nat) {rest : List Char}
    (ends : EndsNumber rest) :
    symbols (writeItems layout level items ++ rest) =
      (symbols rest).map fun stream => itemTokens items ++ stream := by
  induction items with
  | nil => simp [writeItems, itemTokens]
  | cons item items ih =>
      rw [List.forall_mem_cons] at each
      simp only [writeItems, List.cons_append, List.append_assoc]
      rw [symbols_of_takeSymbol rfl rfl, symbols_lineBreak,
        each.1 level (endsNumber_writeItems layout level items ends), ih each.2]
      cases symbols rest <;> simp [itemTokens]

theorem symbols_writeFields {layout : Layout} {fields : List (Option String × Json)}
    (each : ∀ field ∈ fields, ReadsBack layout field.2) (level : Nat) {rest : List Char}
    (ends : EndsNumber rest) :
    symbols (writeFields layout level fields ++ rest) =
      (symbols rest).map fun stream => fieldTokens fields ++ stream := by
  induction fields with
  | nil => simp [writeFields, fieldTokens]
  | cons field fields ih =>
      rw [List.forall_mem_cons] at each
      simp only [writeFields, List.cons_append, List.append_assoc]
      rw [symbols_of_takeSymbol rfl rfl, symbols_lineBreak, symbols_writeString, symbols_colon,
        each.1 level (endsNumber_writeFields layout level fields ends), ih each.2]
      cases symbols rest <;> simp [fieldTokens]

theorem Plain.readsBack {value : Json} (plain : value.Plain) (layout : Layout) :
    ReadsBack layout value := by
  induction plain with
  | null => exact fun level rest ends => symbols_of_takeSymbol rfl rfl
  | bool value =>
      intro level rest ends
      cases value with
      | false => exact symbols_of_takeSymbol rfl rfl
      | true => exact symbols_of_takeSymbol rfl rfl
  | number n => exact fun level rest ends => symbols_number n ends
  | string text => exact fun level rest ends => symbols_writeString text rest
  | @array items plain ih =>
      intro level rest ends
      have close : symbols (layout.lineBreak level ++ ']' :: rest) =
          (symbols rest).map fun stream => .closeBracket :: stream := by
        rw [symbols_lineBreak, symbols_of_takeSymbol rfl rfl]
      cases items with
      | nil =>
          simp only [write, List.cons_append, List.nil_append]
          rw [symbols_of_takeSymbol rfl rfl, symbols_of_takeSymbol rfl rfl]
          cases symbols rest <;> simp [tokens]
      | cons item items =>
          rw [List.forall_mem_cons] at ih
          have behind := endsNumber_lineBreak layout level (EndsNumber.cons (c := ']') rfl rest)
          simp only [write, List.cons_append, List.nil_append, List.append_assoc]
          rw [symbols_of_takeSymbol rfl rfl, symbols_lineBreak,
            ih.1 _ (endsNumber_writeItems layout _ items behind),
            symbols_writeItems ih.2 _ behind, close]
          cases symbols rest <;> simp [tokens]
  | @object fields plain ih =>
      intro level rest ends
      have close : symbols (layout.lineBreak level ++ '}' :: rest) =
          (symbols rest).map fun stream => .closeBrace :: stream := by
        rw [symbols_lineBreak, symbols_of_takeSymbol rfl rfl]
      cases fields with
      | nil =>
          simp only [write, List.cons_append, List.nil_append]
          rw [symbols_of_takeSymbol rfl rfl, symbols_of_takeSymbol rfl rfl]
          cases symbols rest <;> simp [tokens]
      | cons field fields =>
          rw [List.forall_mem_cons] at ih
          have behind := endsNumber_lineBreak layout level (EndsNumber.cons (c := '}') rfl rest)
          simp only [write, List.cons_append, List.nil_append, List.append_assoc]
          rw [symbols_of_takeSymbol rfl rfl, symbols_lineBreak, symbols_writeString,
            symbols_colon, ih.1 _ (endsNumber_writeFields layout _ fields behind),
            symbols_writeFields ih.2 _ behind, close]
          cases symbols rest <;> simp [tokens]

namespace Reading

/-- A value can be the first item of an array: it does not begin with the end of one. -/
theorem foldlM_first_item (value : Json) (stack : List Frame) :
    value.tokens.foldlM step ⟨.itemOrEnd, stack⟩ = value.tokens.foldlM step ⟨.value, stack⟩ := by
  cases value with
  | null | bool _ | number _ | string _ => rfl
  | array items => cases items <;> rfl
  | object fields => cases fields <;> rfl

/-- The reading of a value's tokens comes to the same as having the value. -/
def Reads (value : Json) : Prop :=
  ∀ stack, value.tokens.foldlM step ⟨.value, stack⟩ = complete value stack

theorem foldlM_itemTokens {items : List Json} (each : ∀ item ∈ items, Reads item)
    (before : List Json) (stack : List Frame) :
    (itemTokens items ++ [Symbol.closeBracket]).foldlM step ⟨.commaOrEnd, .array before :: stack⟩ =
      complete (.array (before.reverse ++ items)) stack := by
  induction items generalizing before with
  | nil =>
      rw [List.append_nil]
      exact bind_pure (complete _ stack)
  | cons item items ih =>
      rw [List.forall_mem_cons] at each
      rw [itemTokens, List.append_assoc]
      show (item.tokens ++ _).foldlM step ⟨.value, .array before :: stack⟩ = _
      rw [List.foldlM_append, each.1]
      show (itemTokens items ++ _).foldlM step ⟨.commaOrEnd, .array (item :: before) :: stack⟩ = _
      rw [ih each.2]
      simp

theorem foldlM_fieldTokens {fields : List (Option String × Json)}
    (each : ∀ field ∈ fields, Reads field.2) (before : List (Option String × Json))
    (stack : List Frame) :
    (fieldTokens fields ++ [Symbol.closeBrace]).foldlM step
        ⟨.commaOrEnd, .object before :: stack⟩ =
      complete (.object (before.reverse ++ fields)) stack := by
  induction fields generalizing before with
  | nil =>
      rw [List.append_nil]
      exact bind_pure (complete _ stack)
  | cons field fields ih =>
      rw [List.forall_mem_cons] at each
      rw [fieldTokens, List.append_assoc]
      show (field.2.tokens ++ _).foldlM step ⟨.value, .member field.1 before :: stack⟩ = _
      rw [List.foldlM_append, each.1]
      show (fieldTokens fields ++ _).foldlM step
        ⟨.commaOrEnd, .object (field :: before) :: stack⟩ = _
      rw [ih each.2]
      simp

end Reading

/-- The tokens of a value are read as that value, wherever it stands. -/
theorem Plain.reads {value : Json} (plain : value.Plain) : Reading.Reads value := by
  induction plain with
  | null | bool _ | number _ | string _ =>
      exact fun stack => bind_pure (Reading.complete _ stack)
  | @array items plain ih =>
      intro stack
      cases items with
      | nil => exact bind_pure (Reading.complete _ stack)
      | cons item items =>
          rw [List.forall_mem_cons] at ih
          rw [tokens]
          show (item.tokens ++ _).foldlM Reading.step ⟨.itemOrEnd, .array [] :: stack⟩ = _
          rw [List.foldlM_append, Reading.foldlM_first_item, ih.1]
          exact Reading.foldlM_itemTokens ih.2 [item] stack
  | @object fields plain ih =>
      intro stack
      cases fields with
      | nil => exact bind_pure (Reading.complete _ stack)
      | cons field fields =>
          rw [List.forall_mem_cons] at ih
          rw [tokens]
          show (field.2.tokens ++ _).foldlM Reading.step
            ⟨.value, .member field.1 [] :: stack⟩ = _
          rw [List.foldlM_append, ih.1]
          exact Reading.foldlM_fieldTokens ih.2 [field] stack

/-- What is written in either layout is read as the value that was written. -/
theorem Plain.parse_write {value : Json} (plain : value.Plain) (layout : Layout) :
    parse (String.ofList (value.write layout 0)) = some value := by
  have ends : EndsNumber [] := nofun
  have read := plain.readsBack layout 0 ends
  rw [List.append_nil] at read
  have whole : symbols [] = some [] := by rw [symbols]
  rw [parse, String.toList_ofList, read, whole, Option.map_some, Option.bind_some,
    List.append_nil, ofSymbols]
  show (List.foldlM Reading.step ⟨.value, []⟩ value.tokens).bind Reading.value? = some value
  rw [plain.reads]
  rfl

end RegisterMachine.Json
