/-!
# Plain text

Control characters and control sequences tell a terminal what to do and show
nothing.  The plain form of a text is the text without them; the layout
characters tab, newline, form feed and carriage return stay.

A sequence begins with the escape character.  What follows decides its kind and
so where it ends: a single command or a list of parameters at its final letter,
a string at the terminator or at the bell.  An escape character begins a new
sequence wherever it stands, and two control characters cancel one.  A layout
character inside a command is shown and suspends it: what follows is shown too,
until the next control character.
-/

namespace RegisterMachine.Text

/-- How far a control sequence has been read. -/
inductive Control where
  /-- No sequence is open. -/
  | outside
  /-- After the escape character. -/
  | escape
  /-- In a command of several characters. -/
  | command
  /-- In a list of parameters. -/
  | parameters
  /-- At the beginning of the header of a device string. -/
  | deviceHeader
  /-- In the parameters of a device string. -/
  | deviceParameters
  /-- After the parameters of a device string. -/
  | deviceCommand
  /-- In a string that ends at the terminator. -/
  | string
  /-- In a string that ends at the bell. -/
  | titleString
deriving DecidableEq, Repr

/-- The characters that place the others. -/
def isLayout (c : Char) : Bool :=
  c == '\t' || c == '\n' || c == '\x0c' || c == '\r'

/-- The characters that are shown where no sequence is open. -/
def isShown (c : Char) : Bool :=
  isLayout c || (0x20 ≤ c.toNat && c.toNat != 0x7F)

/-- Whether the terminator of a string is among the bytes of a character. -/
def hasTerminator (c : Char) : Bool :=
  (String.utf8EncodeChar c).contains 0x9C

namespace Control

/-- The kind of sequence that a character begins after the escape character. -/
def afterEscape (code : Nat) : Control :=
  if code < 0x20 then .escape
  else if code < 0x30 then .command
  else if code = 0x50 then .deviceHeader
  else if code = 0x5B then .parameters
  else if code = 0x5D then .titleString
  else if code = 0x58 ∨ code = 0x5E ∨ code = 0x5F then .string
  else if code < 0x7F then .outside
  else .escape

/-- What a character that is not shown does to an open sequence. -/
def next (control : Control) (c : Char) : Control :=
  let code := c.toNat
  if code = 0x1B then .escape
  else if code = 0x18 ∨ code = 0x1A then .outside
  else match control with
    | outside => .outside
    | escape => afterEscape code
    | command => if 0x30 ≤ code ∧ code < 0x7F then .outside else .command
    | parameters => if 0x40 ≤ code ∧ code < 0x7F then .outside else .parameters
    | deviceHeader =>
        if code < 0x20 ∨ 0x7F ≤ code then .deviceHeader
        else if code < 0x30 then .deviceCommand
        else if code < 0x40 then .deviceParameters
        else .string
    | deviceParameters =>
        if code < 0x20 ∨ 0x7F ≤ code then .deviceParameters
        else if code < 0x30 then .deviceCommand
        else if code < 0x3C then .deviceParameters
        else .string
    | deviceCommand => if 0x30 ≤ code ∧ code < 0x7F then .string else .deviceCommand
    | string => if hasTerminator c then .outside else .string
    | titleString => if code = 0x07 then .outside else .titleString

/-- Whether a layout character inside the sequence is shown. -/
def showsLayout : Control → Bool
  | outside | escape | command | parameters => true
  | deviceHeader | deviceParameters | deviceCommand | string | titleString => false

end Control

/-- Where a text is being read: the open sequence, and whether it is suspended. -/
structure Reading where
  control : Control := .outside
  suspended : Bool := false
deriving DecidableEq, Repr

namespace Reading

/-- Whether the next character is read as if no sequence were open. -/
def isOpen (reading : Reading) : Bool :=
  reading.suspended || reading.control == .outside

/-- Whether the next character is shown. -/
def shows (reading : Reading) (c : Char) : Bool :=
  if reading.isOpen then isShown c else reading.control.showsLayout && isLayout c

/-- The reading after a character.  A character outside ASCII that is shown ends a suspended
sequence. -/
def next (reading : Reading) (c : Char) : Reading :=
  if reading.shows c then
    if c.toNat < 0x80 then { reading with suspended := true } else {}
  else { control := reading.control.next c }

/-- The characters of a text that are shown. -/
def plain (reading : Reading) : List Char → List Char
  | [] => []
  | c :: cs =>
      if reading.shows c then c :: (reading.next c).plain cs else (reading.next c).plain cs

end Reading

/-- The plain form of a text. -/
def plain (text : String) : String :=
  String.ofList (Reading.plain {} text.toList)

end RegisterMachine.Text
