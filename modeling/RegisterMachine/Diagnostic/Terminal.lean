import RegisterMachine.Diagnostic.Basic
import RegisterMachine.Text.LineMap

/-!
# Diagnostics on a terminal

A diagnostic is shown as a headline, then the place it is about, then its notes
and its suggestion.  A place in a text is shown by its line with carets below;
offsets and widths are counted in bytes, and the carets do not go past the end
of the line.  Colour is a matter of escape sequences around some of the parts.
-/

namespace RegisterMachine.Diagnostic

/-- The parts of the display that have a style of their own. -/
inductive Style where
  | strong
  | accent (severity : Severity)
  | gutter
  | faint
deriving DecidableEq, Repr

/-- The display attributes of a style. -/
def Style.attributes : Style → String
  | strong => "1"
  | accent .error => "1;31"
  | accent .warning => "1;33"
  | gutter => "36"
  | faint => "2"

/-- A text in a style, if there is colour. -/
def paint (color : Bool) (style : Style) (text : String) : String :=
  if color then "\x1b[" ++ style.attributes ++ "m" ++ text ++ "\x1b[0m" else text

/-- The severity with the code. -/
def headline (diagnostic : Diagnostic) : String :=
  match diagnostic.code with
  | some code => diagnostic.severity.name ++ "[" ++ code ++ "]"
  | none => diagnostic.severity.name

/-- A character some number of times. -/
def repeated (c : Char) (count : Nat) : String :=
  String.ofList (List.replicate count c)

/-- The number of carets under a span that begins `offset` bytes into a line of `width` bytes. -/
def caretCount (span : Span) (offset width : Nat) : Nat :=
  min (max 1 span.length) (max 1 (width - offset))

/-- The line of a text that a span begins on, with carets under the span. -/
def excerpt (color : Bool) (severity : Severity) (span : Span) (source : String) : String :=
  let map := LineMap.ofString source
  let position := map.lookup span.start
  let line := map.lineText source position.line
  let number := Text.Decimal.written position.line
  let offset := position.column - 1
  let blank := repeated ' ' number.length
  let bar := paint color .gutter "|"
  let carets := repeated '^' (caretCount span offset (Text.byteLength line))
  "  " ++ paint color .gutter "-->" ++ " " ++ number ++ ":" ++
      Text.Decimal.written position.column ++ "\n" ++
    blank ++ " " ++ bar ++ "\n" ++
    paint color .gutter number ++ " " ++ bar ++ " " ++ String.ofList line ++ "\n" ++
    blank ++ " " ++ bar ++ " " ++ repeated ' ' offset ++
      paint color (.accent severity) carets ++ "\n"

/-- The place a diagnostic is about. -/
def place (color : Bool) (diagnostic : Diagnostic) : String :=
  match diagnostic.span, diagnostic.source, diagnostic.instruction with
  | some span, some source, _ => excerpt color diagnostic.severity span source
  | _, _, some number =>
      "  " ++ paint color .gutter "-->" ++ " instruction #" ++ Text.Decimal.written number ++ "\n"
  | _, _, none => ""

/-- A remark below a diagnostic. -/
def remark (color : Bool) (kind text : String) : String :=
  "  " ++ paint color .faint "=" ++ " " ++ kind ++ ": " ++ text ++ "\n"

/-- The text of a diagnostic for a terminal, with or without colour. -/
def terminalText (color : Bool) (diagnostic : Diagnostic) : String :=
  paint color (.accent diagnostic.severity) diagnostic.headline ++ ": " ++
    paint color .strong diagnostic.message ++ "\n" ++
    place color diagnostic ++
    String.join (diagnostic.notes.map (remark color "note")) ++
    String.join (diagnostic.suggestion.toList.map (remark color "help"))

end RegisterMachine.Diagnostic
