import Mathlib.Algebra.Ring.Nat
import Mathlib.Data.Prod.Lex
import RegisterMachine.Proofs.LineTable

/-!
# Offsets, lines and columns

The map of a text is made from its bytes and asked about bytes.  A newline is one byte, and
no other character has that byte in its UTF-8 form.  So the line of an offset is told by the
newline bytes in front of it and its column by the bytes behind the last of them, also past
the end of the text and inside of a character.

Offsets and columns are words, and columns are counted from one.  So there is one offset too
many: the last one has a column of its own on every line but the first, and on the first
line it is given the column zero.
-/

namespace RegisterMachine

namespace Text

/-- A line begins at this byte: it is the first one or a newline is in front of it. -/
def LineStart (bytes : List UInt8) (start : Nat) : Prop :=
  start = 0 ∨ ∃ index, start = index + 1 ∧ bytes[index]? = some newlineByte

/-- There is no newline from one byte up to another. -/
def Unbroken (bytes : List UInt8) (start stop : Nat) : Prop :=
  ∀ index, start ≤ index → index < stop → bytes[index]? ≠ some newlineByte

/-- The bytes behind a line and its newline. -/
theorem getElem?_below (first rest : List UInt8) (index : Nat) :
    (first ++ newlineByte :: rest)[first.length + 1 + index]? = rest[index]? := by
  rw [List.getElem?_append_right (by omega),
    show first.length + 1 + index - first.length = index + 1 by omega, List.getElem?_cons_succ]

theorem LineStart.below {rest : List UInt8} {start : Nat} (starts : LineStart rest start)
    (first : List UInt8) :
    LineStart (first ++ newlineByte :: rest) (first.length + 1 + start) := by
  rcases starts with rfl | ⟨index, rfl, found⟩
  · exact .inr ⟨first.length, rfl, by simp⟩
  · exact .inr ⟨first.length + 1 + index, rfl, by rw [getElem?_below, found]⟩

theorem Unbroken.below {rest : List UInt8} {start stop : Nat} (unbroken : Unbroken rest start stop)
    (first : List UInt8) :
    Unbroken (first ++ newlineByte :: rest) (first.length + 1 + start)
      (first.length + 1 + stop) := by
  intro index behind before
  obtain ⟨place, rfl⟩ := Nat.exists_eq_add_of_le (show first.length + 1 ≤ index by omega)
  rw [getElem?_below]
  exact unbroken place (by omega) (by omega)

end Text

namespace LineMap

end LineMap

end RegisterMachine
