import Mathlib.Data.Prod.Lex
import Mathlib.Data.String.Basic
import RegisterMachine.Proofs.Snapshot

/-!
# The order of a snapshot

Names are compared by three things in turn: the kind of variable, the number and the
name itself.  The last one settles every tie, so no two names are equal in the order,
and sorted registers stand in the only order they can have.  A result therefore
depends on the registers and not on the order in which they are enumerated.
-/

namespace RegisterMachine

namespace Registers

/-- What a name is compared by. -/
def displayKey (name : String) : Nat ×ₗ Nat ×ₗ String :=
  toLex (rank name, toLex (index name, name))

theorem displayKey_injective : Function.Injective displayKey := by
  intro a b same
  exact congrArg (fun key => (ofLex (ofLex key).2).2) same

theorem before_iff {a b : String} : before a b = true ↔ displayKey a ≤ displayKey b := by
  simp only [displayKey, Prod.Lex.toLex_le_toLex]
  unfold before
  split
  · next kinds => simp [kinds]
  · next kinds =>
      split
      · next numbers => simp [not_not.mp kinds, numbers]
      · next numbers => simp [not_not.mp kinds, not_not.mp numbers]

/-- One name comes ahead of another: the other one neither comes first nor ties. -/
def Ahead (a b : String) : Prop :=
  before b a = false

instance : DecidableRel Ahead := fun a b =>
  inferInstanceAs (Decidable (before b a = false))

theorem ahead_iff {a b : String} : Ahead a b ↔ displayKey a < displayKey b := by
  rw [Ahead, ← Bool.not_eq_true, before_iff, not_le]

theorem before_iff_ahead_or_eq {a b : String} : before a b = true ↔ Ahead a b ∨ a = b := by
  rw [before_iff, ahead_iff, le_iff_lt_or_eq, displayKey_injective.eq_iff]

theorem ahead_of_rank {a b : String} (kinds : rank a < rank b) : Ahead a b :=
  ahead_iff.mpr (Prod.Lex.toLex_lt_toLex.mpr (.inl kinds))

theorem ahead_iff_of_rank {a b : String} (kinds : rank a = rank b) :
    Ahead a b ↔ index a < index b ∨ index a = index b ∧ a < b := by
  simp only [ahead_iff, displayKey, Prod.Lex.toLex_lt_toLex, kinds, lt_irrefl, false_or, true_and]

/-- The order has no ties and is total. -/
theorem isStrictTotalOrder_ahead : IsStrictTotalOrder String Ahead where
  irrefl a ahead := lt_irrefl _ (ahead_iff.mp ahead)
  trans a b c first second :=
    ahead_iff.mpr (lt_trans (ahead_iff.mp first) (ahead_iff.mp second))
  trichotomous a b notAhead notBehind := by
    rw [ahead_iff, not_lt] at notAhead notBehind
    exact displayKey_injective (le_antisymm notBehind notAhead)

/-! ## Variables -/

theorem rank_pos {name : String} (other : name ≠ outputVariable) : 0 < rank name := by
  rw [rank, if_neg other]
  split
  · decide
  · split <;> decide

theorem ne_outputVariable_of_startsWith {letter : Char} {name : String} (other : letter ≠ 'y')
    (starts : startsWith letter name = true) : name ≠ outputVariable := by
  rintro rfl
  exact other (Option.some.inj (eq_of_beq starts)).symm

theorem rank_of_inputLetter {name : String} (starts : startsWith inputLetter name = true) :
    rank name = 1 := by
  rw [rank, if_neg (ne_outputVariable_of_startsWith (by decide) starts), if_pos starts]

theorem rank_of_workLetter {name : String} (starts : startsWith workLetter name = true) :
    rank name = 2 := by
  have input : ¬ startsWith inputLetter name = true := by
    intro input
    have same := (eq_of_beq input).symm.trans (eq_of_beq starts)
    exact absurd (Option.some.inj same) (by decide)
  rw [rank, if_neg (ne_outputVariable_of_startsWith (by decide) starts), if_neg input,
    if_pos starts]

/-- The number of a variable other than the output. -/
def variableNumber (name : String) : Nat :=
  Text.Decimal.value name.toList.tail

/-- An input or a work variable, by its letter, whose number fits in 64 bits. -/
structure NumberedVariable (letter : Char) (name : String) : Prop where
  letter_eq : letter = inputLetter ∨ letter = workLetter
  starts : startsWith letter name = true
  isVariable : isVariableName name = true
  fits : variableNumber name ≤ Text.Decimal.wordMax

theorem readUnsigned_of_isNumeral {bound : Nat} {digits : List Char}
    (numeral : Text.Decimal.isNumeral digits = true) :
    Text.Decimal.readUnsigned bound digits = Text.Decimal.readUpTo bound digits := by
  unfold Text.Decimal.readUnsigned
  split
  · cases numeral
  · rfl

namespace NumberedVariable

variable {letter : Char} {name : String}

theorem exists_digits (numbered : NumberedVariable letter name) :
    ∃ digits, name.toList = letter :: digits ∧ Text.Decimal.isNumeral digits = true := by
  have starts := eq_of_beq numbered.starts
  have shape := numbered.isVariable
  unfold isVariableName at shape
  cases text : name.toList with
  | nil =>
      rw [text] at starts
      cases starts
  | cons c digits =>
      rw [text] at starts shape
      cases starts
      have other : letter ≠ 'y' := by
        rcases numbered.letter_eq with rfl | rfl <;> decide
      refine ⟨digits, rfl, ?_⟩
      simpa [RegisterMachine.isVariable, other, numbered.letter_eq, Text.Decimal.isNumeral]
        using shape

/-- The number that a variable is compared by is its own. -/
theorem index_eq (numbered : NumberedVariable letter name) : index name = variableNumber name := by
  obtain ⟨digits, text, numeral⟩ := numbered.exists_digits
  have narrow : letter.utf8Size = 1 := by
    rcases numbered.letter_eq with rfl | rfl <;> decide
  have fits := numbered.fits
  rw [variableNumber, text] at fits
  have read := Text.Decimal.readUpTo_eq_some_iff.mpr ⟨numeral, rfl, fits⟩
  rw [index, variableNumber, text]
  simp only [if_pos narrow, readUnsigned_of_isNumeral numeral]
  rw [read, Option.getD_some, List.tail_cons]

theorem rank_eq {other : String} (numbered : NumberedVariable letter name)
    (numbered' : NumberedVariable letter other) : rank name = rank other := by
  obtain ⟨rfl | rfl, starts, -, -⟩ := numbered
  · rw [rank_of_inputLetter starts, rank_of_inputLetter numbered'.starts]
  · rw [rank_of_workLetter starts, rank_of_workLetter numbered'.starts]

end NumberedVariable

/-- What the display order is, on all names and on variables. -/
structure DisplayOrder : Prop where
  strict : IsStrictTotalOrder String Ahead
  /-- Only identical names tie. -/
  tie_iff : ∀ a b, before a b = true ∧ before b a = true ↔ a = b
  output_first : ∀ name, name ≠ outputVariable → Ahead outputVariable name
  inputs_before_work : ∀ a b, startsWith inputLetter a = true → startsWith workLetter b = true →
    Ahead a b
  /-- Variables with one letter go by their numbers; equal ones differ in leading zeros. -/
  by_number : ∀ letter a b, NumberedVariable letter a → NumberedVariable letter b →
    (Ahead a b ↔ variableNumber a < variableNumber b ∨
      variableNumber a = variableNumber b ∧ a < b)

theorem displayOrder : DisplayOrder where
  strict := isStrictTotalOrder_ahead
  tie_iff a b := by
    rw [before_iff, before_iff, ← le_antisymm_iff, displayKey_injective.eq_iff]
  output_first name other := ahead_of_rank (rank_pos other)
  inputs_before_work a b input work := by
    refine ahead_of_rank ?_
    rw [rank_of_inputLetter input, rank_of_workLetter work]
    decide
  by_number letter a b first second := by
    rw [ahead_iff_of_rank (first.rank_eq second), first.index_eq, second.index_eq]

/-! ## Sorted registers -/

theorem pairwise_snapshot (registers : Registers) :
    registers.snapshot.Pairwise fun a b => before a.1 b.1 = true := by
  refine List.pairwise_mergeSort (fun a b c => ?_) (fun a b => ?_) registers.entries
  · rw [before_iff, before_iff, before_iff]
    exact le_trans
  · rw [Bool.or_eq_true, before_iff, before_iff]
    exact le_total _ _

/-- No name is listed twice, so the order of a snapshot is strict. -/
theorem ahead_snapshot (registers : Registers) :
    registers.snapshot.Pairwise fun a b => Ahead a.1 b.1 := by
  have names : (registers.snapshot.map Prod.fst).Nodup :=
    (registers.snapshot_perm.map Prod.fst).nodup_iff.mpr registers.nodup
  have differ := List.pairwise_map.mp names
  refine (registers.pairwise_snapshot.and differ).imp fun ⟨first, other⟩ => ?_
  exact (before_iff_ahead_or_eq.mp first).resolve_right other

/-- There is only one way to list the registers in order. -/
theorem eq_snapshot_of_ahead {registers : Registers} {listed : List (String × UInt64)}
    (perm : listed.Perm registers.entries)
    (increasing : listed.Pairwise fun a b => Ahead a.1 b.1) : listed = registers.snapshot := by
  have same := perm.trans registers.snapshot_perm.symm
  refine same.eq_of_pairwise (fun a b _ _ ahead behind => ?_) increasing registers.ahead_snapshot
  exact absurd (isStrictTotalOrder_ahead.trans _ _ _ ahead behind)
    (isStrictTotalOrder_ahead.irrefl _)

theorem snapshot_eq_of_perm {first second : Registers}
    (perm : first.entries.Perm second.entries) : first.snapshot = second.snapshot :=
  eq_snapshot_of_ahead (first.snapshot_perm.trans perm) first.ahead_snapshot

end Registers

namespace State

/-- A result reports the registers of a state. -/
structure Reports (state : State) (result : RunResult) : Prop where
  increasing : result.registers.Pairwise fun a b => Registers.Ahead a.1 b.1
  /-- Each register is listed exactly once. -/
  each_once : result.registers.Perm state.registers.entries
  value_eq : ∀ name, result.value name = state.registers.value name
  value_untouched : ∀ name, state.registers.touched name = false → result.value name = 0
  output_eq : result.output = result.value outputVariable

theorem reports_result (state : State) (steps : UInt64) : state.Reports (state.result steps) where
  increasing := state.registers.ahead_snapshot
  each_once := state.registers.snapshot_perm
  value_eq := state.value_result steps
  value_untouched name untouched := by
    have absent : findEntry name state.registers.entries = none :=
      Option.isSome_eq_false_iff.mp untouched |> Option.isNone_iff_eq_none.mp
    rw [value_result, Registers.value, absent, Option.getD_none]
  output_eq := rfl

/-- A result does not depend on the order in which the registers are enumerated: it lists each of
them once, in a strict total order. -/
theorem result_independent_of_order {state other : State}
    (perm : other.registers.entries.Perm state.registers.entries)
    (charged : other.cycles = state.cycles) (steps : UInt64) :
    other.result steps = state.result steps ∧ state.Reports (state.result steps) ∧
      Registers.DisplayOrder := by
  refine ⟨?_, state.reports_result steps, Registers.displayOrder⟩
  unfold result
  rw [Registers.snapshot_eq_of_perm perm, charged]

/-- Registers with equal numbers, a number beyond 64 bits and a name that is no variable. -/
def oddRegisters : Registers where
  entries := [("x01", 1), ("z2", 2), ("é", 3), ("x1", 4), ("x18446744073709551616", 5), ("y", 6)]
  nodup := by decide

theorem result_independent_of_order_odd :
    let state : State := { registers := oddRegisters, cycles := 4 }
    let other : State :=
      { registers := ⟨oddRegisters.entries.reverse, by decide⟩, cycles := 4, position := 3 }
    other.registers.entries.Perm state.registers.entries ∧ other.cycles = state.cycles ∧
      other.result 2 = state.result 2 ∧ state.Reports (state.result 2) ∧
        Registers.DisplayOrder ∧ (state.result 2).registers =
          [("y", 6), ("x01", 1), ("x1", 4), ("x18446744073709551616", 5), ("z2", 2), ("é", 3)] := by
  intro state other
  have perm : other.registers.entries.Perm state.registers.entries := List.reverse_perm _
  obtain ⟨same, reports, order⟩ := result_independent_of_order perm rfl 2
  refine ⟨perm, rfl, same, reports, order, ?_⟩
  exact (Registers.eq_snapshot_of_ahead (by decide) (by decide)).symm

end State

end RegisterMachine
