/-!
# Decimal numerals

A numeral is a non-empty run of the digits `0` to `9`; leading zeros are
allowed.  A bounded reading fails on a numeral above its bound.  A sign is
read only where the reader says so.
-/

namespace RegisterMachine.Text.Decimal

/-- The number a run of digits stands for. -/
def value (digits : List Char) : Nat :=
  Nat.ofDigitChars 10 digits 0

/-- A non-empty run of digits. -/
def isNumeral (cs : List Char) : Bool :=
  !cs.isEmpty && cs.all Char.isDigit

/-- The decimal text of a number. -/
def written (n : Nat) : String :=
  Nat.repr n

/-- The text of a number reads back as that number. -/
theorem value_written (n : Nat) : value (written n).toList = n := by
  rw [written, Nat.repr_eq_ofList_toDigits, String.toList_ofList, value]
  exact Nat.ofDigitChars_toDigits (by decide) (by decide)

theorem isDigit_of_mem_written {n : Nat} {c : Char} (member : c ∈ (written n).toList) :
    c.isDigit = true := by
  rw [written, Nat.toList_repr] at member
  exact Nat.isDigit_of_mem_toDigits (by decide) (by decide) member

/-- The text of an integer, with a minus sign when it is negative. -/
def writtenInt (n : Int) : String :=
  if n < 0 then "-" ++ written n.natAbs else written n.natAbs

/-- The number of a numeral that is at most `bound`. -/
def readUpTo (bound : Nat) (cs : List Char) : Option Nat :=
  if isNumeral cs && value cs ≤ bound then some (value cs) else none

theorem readUpTo_eq_some_iff {bound n : Nat} {cs : List Char} :
    readUpTo bound cs = some n ↔ isNumeral cs = true ∧ value cs = n ∧ n ≤ bound := by
  simp only [readUpTo, Bool.and_eq_true, decide_eq_true_eq, Option.ite_none_right_eq_some,
    Option.some.injEq]
  constructor
  · rintro ⟨⟨numeral, small⟩, rfl⟩
    exact ⟨numeral, rfl, small⟩
  · rintro ⟨numeral, rfl, small⟩
    exact ⟨⟨numeral, small⟩, rfl⟩

/-- A numeral up to `bound` that may carry a plus sign. -/
def readUnsigned (bound : Nat) : List Char → Option Nat
  | '+' :: cs => readUpTo bound cs
  | cs => readUpTo bound cs

/-- A numeral that may carry a sign, within the 64-bit signed range. -/
def readSigned : List Char → Option Int64
  | '-' :: cs => (readUpTo 0x8000000000000000 cs).map fun n => Int64.ofInt (-n)
  | '+' :: cs => (readUpTo 0x7FFFFFFFFFFFFFFF cs).map fun n => Int64.ofInt n
  | cs => (readUpTo 0x7FFFFFFFFFFFFFFF cs).map fun n => Int64.ofInt n

/-- The largest value of a 64-bit register. -/
def wordMax : Nat := 0xFFFFFFFFFFFFFFFF

/-- A numeral that fits in 64 bits. -/
def readWord (cs : List Char) : Option UInt64 :=
  (readUpTo wordMax cs).map UInt64.ofNat

end RegisterMachine.Text.Decimal
