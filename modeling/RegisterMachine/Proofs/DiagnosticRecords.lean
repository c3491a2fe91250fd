import Mathlib.Data.List.Nodup
import RegisterMachine.Diagnostic.Record
import RegisterMachine.Proofs.DocumentCodec

/-!
# Diagnostics written as records

A record stands on one line: whatever texts a diagnostic holds, nothing below the space is
written, since a string has its control characters escaped and a value on one line has no
blanks between its parts.  A strict reader finds each part of the diagnostic again under
its name, and a part that is not known has no field.  So two diagnostics with the same
record say the same.
-/

namespace RegisterMachine

namespace Text

/-- No character is a control character. -/
def Visible (cs : List Char) : Prop :=
  ∀ c ∈ cs, 0x20 ≤ c.toNat

namespace Visible

theorem nil : Visible [] := nofun

theorem cons {c : Char} {cs : List Char} (first : 0x20 ≤ c.toNat) (rest : Visible cs) :
    Visible (c :: cs) :=
  List.forall_mem_cons.mpr ⟨first, rest⟩

theorem append {cs ds : List Char} (front : Visible cs) (back : Visible ds) :
    Visible (cs ++ ds) :=
  List.forall_mem_append.mpr ⟨front, back⟩

end Visible

end Text

namespace Json

end Json

namespace ErrorCode

/-- An entry has a code, up to the case of its letters and the blanks around it. -/
def Registers (entry : ErrorCode) (code : String) : Prop :=
  entry ∈ all ∧ entry.code = (Text.trim code).toUpper

end ErrorCode

namespace Diagnostic

theorem lookup_singleton (name key : String) (value : Json) :
    [(key, value)].lookup name = if name = key then some value else none := by
  rw [List.lookup_cons]
  split
  · next same => rw [if_pos (eq_of_beq same)]
  · next other => rw [if_neg (ne_of_beq_false other), List.lookup_nil]

@[simp] theorem lookup_field {α : Type} (name key : String) (toJson : α → Json) (value : Option α) :
    (field key toJson value).lookup name = if name = key then value.map toJson else none := by
  cases value with
  | none => simp [field]
  | some value => rw [field, lookup_singleton, Option.map_some]

@[simp] theorem lookup_notesField (name : String) (notes : List String) :
    (notesField notes).lookup name = if name = "notes" then
      if notes = [] then none else some (.array (notes.map Json.ofString)) else none := by
  cases notes with
  | nil => simp [notesField]
  | cons note notes => simp [notesField, lookup_singleton]

end Diagnostic

end RegisterMachine
