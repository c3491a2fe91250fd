import RegisterMachine.Diagnostic.Basic
import RegisterMachine.Json.Value
import RegisterMachine.Text.LineMap

/-!
# Diagnostics as records

A diagnostic as a JSON object on one line.  What is not known is left out: the
place needs both the span and the text, and the summary a known code.
-/

namespace RegisterMachine.Diagnostic

/-- A field for a value that may be absent. -/
def field {α : Type} (key : String) (toJson : α → Json) : Option α → List (String × Json)
  | some value => [(key, toJson value)]
  | none => []

/-- The place of a span in its text. -/
def location? (diagnostic : Diagnostic) : Option Json := do
  let span ← diagnostic.span
  let source ← diagnostic.source
  let position := (LineMap.ofString source).lookup span.start
  return Json.ofFields
    [("start", Json.ofNat span.start), ("end", Json.ofNat span.stop),
     ("line", Json.ofNat position.line), ("col", Json.ofNat position.column)]

/-- The notes, unless there are none. -/
def notesField (notes : List String) : List (String × Json) :=
  if notes.isEmpty then [] else [("notes", .array (notes.map Json.ofString))]

/-- The fields of a diagnostic in their order. -/
def record (diagnostic : Diagnostic) : Json :=
  Json.ofFields
    (("severity", Json.ofString diagnostic.severity.name) ::
      field "code" Json.ofString diagnostic.code ++
      field "summary" Json.ofString diagnostic.summary ++
      ("message", Json.ofString diagnostic.message) ::
      field "location" id diagnostic.location? ++
      field "instruction" Json.ofNat diagnostic.instruction ++
      notesField diagnostic.notes ++
      field "suggestion" Json.ofString diagnostic.suggestion)

/-- The record on one line. -/
def recordText (diagnostic : Diagnostic) : String :=
  diagnostic.record.compact

end RegisterMachine.Diagnostic
