import Mathlib.Order.Bounds.Basic
import RegisterMachine.Proofs.LoweringPass

/-!
# Names that a supply hands out

A supply is used by calls in any order: a name is reserved, a label or a work variable is
asked for, an instruction is expanded.  At every moment exactly those names are taken that
the program mentions, that have been reserved or that have been handed out, and in each of
the two rows everything up to the counter is taken.  So the search that goes on from the
counter finds the least number whose name is free, and no name is handed out twice.  The
search ends by itself, since there are finitely many names taken; the bound that it is
given is never reached.
-/

namespace RegisterMachine

namespace NameSupply

/-! ## The search without a bound -/

/-- The search for a free number as a loop without a bound, from where it begins to where it ends:
it passes the numbers whose names are taken. -/
inductive Finds (taken : NameSet) (letter : Char) : Nat → Nat → Prop
  | pass {number found : Nat} (used : taken.contains (numbered letter number) = true)
      (later : Finds taken letter (number + 1) found) : Finds taken letter number found
  | stop {number : Nat} (free : taken.contains (numbered letter number) = false) :
      Finds taken letter number number

theorem Finds.unique {taken : NameSet} {letter : Char} {start found other : Nat}
    (first : Finds taken letter start found) (second : Finds taken letter start other) :
    found = other := by
  induction first with
  | pass used _ ih =>
      cases second with
      | pass _ later => exact ih later
      | stop free =>
          rw [used] at free
          cases free
  | stop free =>
      cases second with
      | pass used _ =>
          rw [free] at used
          cases used
      | stop _ => rfl

/-- A bounded search that stops at a free name stops where the loop stops. -/
theorem finds_firstFree {taken : NameSet} {letter : Char} {bound start : Nat}
    (free : taken.contains (numbered letter (firstFree taken letter bound start)) = false) :
    Finds taken letter start (firstFree taken letter bound start) := by
  induction bound generalizing start with
  | zero => exact .stop free
  | succ bound ih =>
      rw [firstFree] at free ⊢
      split
      · next passed =>
          rw [if_pos passed] at free
          exact .pass passed (ih free)
      · next stopped => exact .stop (Bool.not_eq_true _ ▸ stopped)

theorem finds_nextFree_iff {supply : NameSupply} {letter : Char} {last found : Nat} :
    Finds supply.taken letter (last + 1) found ↔ found = supply.nextFree letter last := by
  have search : Finds supply.taken letter (last + 1) (supply.nextFree letter last) :=
    finds_firstFree (supply.contains_nextFree letter last)
  constructor
  · exact fun other => other.unique search
  · rintro rfl
    exact search

/-! ## What one call does -/

/-- One use of a supply. -/
inductive Call where
  | reserve (name : String)
  | label
  | work
  | expand (instruction : Instruction)
deriving DecidableEq, Repr

/-- The names that a call takes out of the supply without handing them out. -/
def Call.reserved : Call → List String
  | .reserve name => [name]
  | .label | .work | .expand _ => []

/-- The name that the code in the place of an instruction has from the supply: the label of a loop
for an instruction without one, and the variable of a jump. -/
def drawnName? (instruction : Instruction) (body : List Instruction) : Option String :=
  match instruction.op, instruction.label with
  | .zero _, none => body.head?.bind fun first => first.label
  | .goto _, _ => body.head?.bind fun first => first.var?
  | _, _ => none

/-- The names that a call hands out. -/
def handedOut (supply : NameSupply) : Call → List String
  | .reserve _ => []
  | .label => [supply.freshLabel.1]
  | .work => [supply.freshWork.1]
  | .expand instruction =>
      match instruction.expand supply with
      | some (body, _) => (drawnName? instruction body).toList
      | none => []

/-- The supply after a call. -/
def after (supply : NameSupply) : Call → NameSupply
  | .reserve name => supply.reserve name
  | .label => supply.freshLabel.2
  | .work => supply.freshWork.2
  | .expand instruction =>
      match instruction.expand supply with
      | some (_, rest) => rest
      | none => supply

/-- What a call can do: reserve a name, nothing, or hand out the next name of one row. -/
theorem call_cases (supply : NameSupply) (call : Call) :
    (∃ name, call = .reserve name) ∨
      call.reserved = [] ∧
        ((supply.handedOut call = [] ∧ supply.after call = supply) ∨
          (supply.handedOut call = [supply.freshLabel.1] ∧
            supply.after call = supply.freshLabel.2) ∨
          (supply.handedOut call = [supply.freshWork.1] ∧
            supply.after call = supply.freshWork.2)) := by
  cases call with
  | reserve name => exact .inl ⟨name, rfl⟩
  | label => exact .inr ⟨rfl, .inr (.inl ⟨rfl, rfl⟩)⟩
  | work => exact .inr ⟨rfl, .inr (.inr ⟨rfl, rfl⟩)⟩
  | expand instruction =>
      refine .inr ⟨rfl, ?_⟩
      obtain ⟨op, label, parent⟩ := instruction
      cases op with
      | zero var =>
          cases label with
          | some label => exact .inl ⟨rfl, rfl⟩
          | none => exact .inr (.inl ⟨rfl, rfl⟩)
      | goto target => exact .inr (.inr ⟨rfl, rfl⟩)
      | neutral _ | increase _ | decrease _ | jumpNotZero _ _ => exact .inl ⟨rfl, rfl⟩

/-- A call takes the names that it reserves and those that it hands out, and no others. -/
theorem taken_after (supply : NameSupply) (call : Call) (name : String) :
    (supply.after call).taken.contains name = true ↔
      supply.taken.contains name = true ∨ name ∈ call.reserved ∨ name ∈ supply.handedOut call := by
  obtain ⟨other, rfl⟩ | ⟨none, ⟨handed, same⟩ | ⟨handed, same⟩ | ⟨handed, same⟩⟩ :=
    supply.call_cases call
  · simp [after, reserve, handedOut, Call.reserved, or_comm]
  · simp [none, handed, same]
  · simp [none, handed, same, freshLabel, reserve, or_comm]
  · simp [none, handed, same, freshWork, reserve, or_comm]

/-- What a call hands out was free. -/
theorem free_of_mem_handedOut {supply : NameSupply} {call : Call} {name : String}
    (member : name ∈ supply.handedOut call) : supply.taken.contains name = false := by
  obtain ⟨other, rfl⟩ | ⟨-, ⟨handed, -⟩ | ⟨handed, -⟩ | ⟨handed, -⟩⟩ := supply.call_cases call
  · cases member
  · rw [handed] at member
    cases member
  · rw [handed, List.mem_singleton] at member
    exact member ▸ supply.contains_freshLabel
  · rw [handed, List.mem_singleton] at member
    exact member ▸ supply.contains_freshWork

theorem nodup_handedOut (supply : NameSupply) (call : Call) : (supply.handedOut call).Nodup := by
  obtain ⟨other, rfl⟩ | ⟨-, ⟨handed, -⟩ | ⟨handed, -⟩ | ⟨handed, -⟩⟩ := supply.call_cases call
  · exact .nil
  all_goals simp [handed]

/-! ## The numbers up to a counter -/

/-- Every name of a row up to a number is taken. -/
def TakenUpTo (supply : NameSupply) (letter : Char) (last : Nat) : Prop :=
  ∀ number, 0 < number → number ≤ last → supply.taken.contains (numbered letter number) = true

/-- In both rows everything up to the counter is taken. -/
structure Passed (supply : NameSupply) : Prop where
  labels : supply.TakenUpTo labelLetter supply.lastLabel
  works : supply.TakenUpTo workLetter supply.lastWork

theorem takenUpTo_zero (supply : NameSupply) (letter : Char) : supply.TakenUpTo letter 0 :=
  fun _ positive within => absurd positive (Nat.not_lt.mpr within)

theorem TakenUpTo.reserve {supply : NameSupply} {letter : Char} {last : Nat}
    (passed : supply.TakenUpTo letter last) (name : String) :
    (supply.reserve name).TakenUpTo letter last := by
  intro number positive within
  rw [NameSupply.reserve, NameSet.contains_add, passed number positive within, Bool.or_true]

/-- In front of the next free name of a row everything is taken. -/
theorem TakenUpTo.contains_of_lt_nextFree {supply : NameSupply} {letter : Char}
    {last number : Nat} (passed : supply.TakenUpTo letter last) (positive : 0 < number)
    (before : number < supply.nextFree letter last) :
    supply.taken.contains (numbered letter number) = true := by
  rcases Nat.lt_or_ge last number with behind | earlier
  · exact contains_of_lt_firstFree behind before
  · exact passed number positive earlier

/-- When the next free name of a row is taken, everything up to it is. -/
theorem TakenUpTo.reserve_nextFree {supply : NameSupply} {letter : Char} {last : Nat}
    (passed : supply.TakenUpTo letter last) :
    (supply.reserve (numbered letter (supply.nextFree letter last))).TakenUpTo letter
      (supply.nextFree letter last) := by
  intro number positive within
  rw [NameSupply.reserve, NameSet.contains_add, Bool.or_eq_true, beq_iff_eq]
  rcases Nat.lt_or_eq_of_le within with before | rfl
  · exact .inr (passed.contains_of_lt_nextFree positive before)
  · exact .inl rfl

theorem Passed.after {supply : NameSupply} (passed : supply.Passed) (call : Call) :
    (supply.after call).Passed := by
  obtain ⟨name, rfl⟩ | ⟨-, ⟨-, same⟩ | ⟨-, same⟩ | ⟨-, same⟩⟩ := supply.call_cases call
  · exact ⟨passed.labels.reserve name, passed.works.reserve name⟩
  · rw [same]
    exact passed
  · rw [same]
    exact ⟨passed.labels.reserve_nextFree, passed.works.reserve _⟩
  · rw [same]
    exact ⟨passed.labels.reserve _, passed.works.reserve_nextFree⟩

/-- The next free number after a counter is the least free one, if everything up to the counter is
taken. -/
theorem TakenUpTo.isLeast_nextFree {supply : NameSupply} {letter : Char} {last : Nat}
    (passed : supply.TakenUpTo letter last) :
    IsLeast { number | 0 < number ∧ supply.taken.contains (numbered letter number) = false }
      (supply.nextFree letter last) := by
  have positive : last + 1 ≤ supply.nextFree letter last := le_firstFree ..
  refine ⟨⟨by omega, supply.contains_nextFree letter last⟩, fun number ⟨above, free⟩ => ?_⟩
  by_contra before
  have taken := passed.contains_of_lt_nextFree above (Nat.lt_of_not_le before)
  rw [free] at taken
  cases taken

/-- It is at most one more than there are names taken. -/
theorem TakenUpTo.nextFree_le {supply : NameSupply} {letter : Char} {last : Nat}
    (passed : supply.TakenUpTo letter last) :
    supply.nextFree letter last ≤ supply.taken.entries.length + 1 := by
  have listed : ∀ number, 1 ≤ number → number < 1 + (supply.nextFree letter last - 1) →
      numbered letter number ∈ supply.taken.keys := by
    intro number above before
    have taken := passed.contains_of_lt_nextFree above (by omega)
    obtain ⟨value, found⟩ := Option.isSome_iff_exists.mp taken
    exact List.mem_map.mpr ⟨_, NameTable.mem_entries_iff.mpr found, rfl⟩
  have count := le_length_of_numbered_mem letter _ 1 listed
  rw [NameTable.keys, List.length_map] at count
  omega

/-! ## Histories of calls -/

/-- The supply after some calls. -/
def afterCalls (supply : NameSupply) (calls : List Call) : NameSupply :=
  calls.foldl after supply

/-- The names that some calls hand out, in their order. -/
def namesOut (supply : NameSupply) : List Call → List String
  | [] => []
  | call :: calls => supply.handedOut call ++ (supply.after call).namesOut calls

theorem Passed.afterCalls {supply : NameSupply} (passed : supply.Passed) (calls : List Call) :
    (supply.afterCalls calls).Passed := by
  induction calls generalizing supply with
  | nil => exact passed
  | cons call calls ih => exact ih (passed.after call)

theorem taken_afterCalls (supply : NameSupply) (calls : List Call) (name : String) :
    (supply.afterCalls calls).taken.contains name = true ↔
      supply.taken.contains name = true ∨ .reserve name ∈ calls ∨ name ∈ supply.namesOut calls := by
  induction calls generalizing supply with
  | nil => simp [NameSupply.afterCalls, namesOut]
  | cons call calls ih =>
      have reserved : name ∈ call.reserved ↔ .reserve name = call := by
        cases call <;> simp [Call.reserved]
      have rest := ih (supply.after call)
      rw [taken_after, reserved] at rest
      rw [namesOut, List.mem_cons, List.mem_append]
      refine rest.trans ?_
      tauto

/-- What is handed out later is free now. -/
theorem free_of_mem_namesOut {supply : NameSupply} {calls : List Call} {name : String}
    (member : name ∈ supply.namesOut calls) : supply.taken.contains name = false := by
  induction calls generalizing supply with
  | nil => cases member
  | cons call calls ih =>
      rw [namesOut, List.mem_append] at member
      rcases member with first | later
      · exact free_of_mem_handedOut first
      · rw [← Bool.not_eq_true]
        intro taken
        have still := (supply.taken_after call name).mpr (.inl taken)
        rw [ih later] at still
        cases still

theorem nodup_namesOut (supply : NameSupply) (calls : List Call) :
    (supply.namesOut calls).Nodup := by
  induction calls generalizing supply with
  | nil => exact .nil
  | cons call calls ih =>
      refine List.nodup_append.mpr ⟨supply.nodup_handedOut call, ih _, ?_⟩
      rintro name first other later rfl
      have taken := (supply.taken_after call name).mpr (.inr (.inr first))
      rw [free_of_mem_namesOut later] at taken
      cases taken

/-! ## The least unused name -/

/-- The supply that a history begins with: nothing is taken, or the names of a program are. -/
def startFor : Option Program → NameSupply
  | none => {}
  | some program => forProgram program

/-- An instruction of the program has the name as its label, its variable or its target. -/
def MentionedBy (program : Program) (name : String) : Prop :=
  ∃ instruction ∈ program.instructions, instruction.label = some name ∨
    instruction.var? = some name ∨ instruction.target? = some name

/-- After some calls a name is in use: it belongs to the program, it has been reserved, or it has
been handed out. -/
def Used (start : Option Program) (calls : List Call) (name : String) : Prop :=
  (∃ program, start = some program ∧ MentionedBy program name) ∨
    .reserve name ∈ calls ∨ name ∈ (startFor start).namesOut calls

/-- The next name of a row is the first one that is not in use, and the loop that looks for it from
the counter on ends there.  Its number is at most one more than there are names taken. -/
def HandsOutFirst (supply : NameSupply) (used : String → Prop) (letter : Char) (last : Nat)
    (name : String) : Prop :=
  ∃ number, name = numbered letter number ∧
    IsLeast { number | 0 < number ∧ ¬ used (numbered letter number) } number ∧
      (∀ found, Finds supply.taken letter (last + 1) found ↔ found = number) ∧
        number ≤ supply.taken.entries.length + 1

theorem contains_startFor (start : Option Program) (name : String) :
    (startFor start).taken.contains name = true ↔
      ∃ program, start = some program ∧ MentionedBy program name := by
  cases start with
  | none => simp [startFor]
  | some program =>
      have mentions : (∃ other, some program = some other ∧ MentionedBy other name) ↔
          MentionedBy program name := by simp
      rw [mentions, startFor, forProgram, Program.contains_names_iff, MentionedBy]
      simp [Instruction.names]

theorem passed_startFor (start : Option Program) : (startFor start).Passed := by
  cases start with
  | none => exact ⟨takenUpTo_zero _ _, takenUpTo_zero _ _⟩
  | some program => exact ⟨takenUpTo_zero _ _, takenUpTo_zero _ _⟩

theorem TakenUpTo.handsOutFirst {supply : NameSupply} {letter : Char} {last : Nat}
    (passed : supply.TakenUpTo letter last) {used : String → Prop}
    (exact : ∀ name, supply.taken.contains name = true ↔ used name) :
    supply.HandsOutFirst used letter last (numbered letter (supply.nextFree letter last)) := by
  refine ⟨_, rfl, ?_, fun _ => finds_nextFree_iff, passed.nextFree_le⟩
  have free : ∀ name, ¬ used name ↔ supply.taken.contains name = false := by
    intro name
    rw [← exact, Bool.not_eq_true]
  simp only [free]
  exact passed.isLeast_nextFree

/-- What holds of a supply after any calls. -/
structure SuppliesFirst (start : Option Program) (calls : List Call) (supply : NameSupply) :
    Prop where
  taken_iff : ∀ name, supply.taken.contains name = true ↔ Used start calls name
  label_first :
    supply.HandsOutFirst (Used start calls) labelLetter supply.lastLabel supply.freshLabel.1
  work_first :
    supply.HandsOutFirst (Used start calls) workLetter supply.lastWork supply.freshWork.1
  /-- An expansion has the next label for a loop without one, the next variable for a jump, and
  otherwise no new name. -/
  expansion_draws : ∀ instruction, supply.handedOut (.expand instruction) =
    match instruction.op, instruction.label with
    | .zero _, none => [supply.freshLabel.1]
    | .goto _, _ => [supply.freshWork.1]
    | _, _ => []
  once : ((startFor start).namesOut calls).Nodup
  apart : ∀ name ∈ (startFor start).namesOut calls, ∀ program, start = some program →
    ¬ MentionedBy program name

/-- Whatever the calls, the next label and the next work variable are the first of their rows that
are not in use; so no name is handed out twice and none belongs to the program. -/
theorem supply_hands_out_least (start : Option Program) (calls : List Call) :
    SuppliesFirst start calls ((startFor start).afterCalls calls) := by
  have passed := (passed_startFor start).afterCalls calls
  have taken : ∀ name, ((startFor start).afterCalls calls).taken.contains name = true ↔
      Used start calls name := by
    intro name
    rw [taken_afterCalls, contains_startFor, Used]
  constructor
  case taken_iff => exact taken
  case label_first => exact passed.labels.handsOutFirst taken
  case work_first => exact passed.works.handsOutFirst taken
  case expansion_draws =>
    rintro ⟨op, label, parent⟩
    cases op with
    | zero var => cases label <;> rfl
    | goto target => rfl
    | neutral _ | increase _ | decrease _ | jumpNotZero _ _ => rfl
  case once => exact nodup_namesOut _ calls
  case apart =>
    intro name member program begins mentioned
    have unused := free_of_mem_namesOut member
    rw [(contains_startFor start name).mpr ⟨program, begins, mentioned⟩] at unused
    cases unused

-- The target of a jump that is expanded is not looked at, so its name can be handed out.
example : ({} : NameSupply).namesOut
    [.reserve "L2", .label, .expand { op := .zero "y" }, .expand { op := .goto "z1" }, .work] =
      ["L1", "L3", "z1", "z2"] := by decide

end NameSupply

end RegisterMachine
