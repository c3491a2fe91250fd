import RegisterMachine.Json.Text
import RegisterMachine.Text.Decimal

/-!
# JSON values

A JSON value, with the fields of an object in the order in which they stand and
numbers as they are written.  A string is given by its text, or by nothing when
an unpaired surrogate in it keeps it from being a text.

A value is written either on one line without blanks, or with every item and
field on a line of its own, indented by two spaces for each level.
-/

namespace RegisterMachine

inductive Json where
  | null
  | bool (value : Bool)
  | number (digits : List Char)
  | string (text : Option String)
  | array (items : List Json)
  | object (fields : List (Option String × Json))
deriving Repr

namespace Json

/-- The string with a given text. -/
def ofString (text : String) : Json :=
  .string (some text)

/-- A number in decimal. -/
def ofNat (n : Nat) : Json :=
  .number (Text.Decimal.written n).toList

/-- An integer in decimal. -/
def ofInt (n : Int) : Json :=
  .number (Text.Decimal.writtenInt n).toList

/-- An object with named fields. -/
def ofFields (fields : List (String × Json)) : Json :=
  .object (fields.map fun field => (some field.1, field.2))

/-- How values are laid out. -/
inductive Layout where
  | compact
  | indented
deriving DecidableEq, Repr

namespace Layout

/-- What separates the parts of a container at a level. -/
def lineBreak (layout : Layout) (level : Nat) : List Char :=
  match layout with
  | compact => []
  | indented => '\n' :: List.replicate (2 * level) ' '

/-- What separates a field from its value. -/
def colon : Layout → List Char
  | compact => [':']
  | indented => [':', ' ']

end Layout

/-- A string as it is written.  One that is no text is written as an unpaired surrogate. -/
def writeString : Option String → List Char
  | some text => quote text.toList
  | none => ['"', '\\', 'u', 'd', '8', '0', '0', '"']

mutual

/-- A value as it is written at a level. -/
def write (layout : Layout) (level : Nat) : Json → List Char
  | null => ['n', 'u', 'l', 'l']
  | bool true => ['t', 'r', 'u', 'e']
  | bool false => ['f', 'a', 'l', 's', 'e']
  | number digits => digits
  | string text => writeString text
  | array [] => ['[', ']']
  | array (item :: items) =>
      '[' :: layout.lineBreak (level + 1) ++ write layout (level + 1) item ++
        writeItems layout (level + 1) items ++ layout.lineBreak level ++ [']']
  | object [] => ['{', '}']
  | object ((key, value) :: fields) =>
      '{' :: layout.lineBreak (level + 1) ++ writeString key ++ layout.colon ++
        write layout (level + 1) value ++ writeFields layout (level + 1) fields ++
        layout.lineBreak level ++ ['}']

/-- The items of an array after the first. -/
def writeItems (layout : Layout) (level : Nat) : List Json → List Char
  | [] => []
  | item :: items =>
      ',' :: layout.lineBreak level ++ write layout level item ++ writeItems layout level items

/-- The fields of an object after the first. -/
def writeFields (layout : Layout) (level : Nat) : List (Option String × Json) → List Char
  | [] => []
  | (key, value) :: fields =>
      ',' :: layout.lineBreak level ++ writeString key ++ layout.colon ++
        write layout level value ++ writeFields layout level fields

end

/-- A value on one line. -/
def compact (value : Json) : String :=
  String.ofList (value.write .compact 0)

/-- A value with indentation. -/
def pretty (value : Json) : String :=
  String.ofList (value.write .indented 0)

end Json

end RegisterMachine
