import RegisterMachine.Program.Basic

/-!
# Fresh names

A supply of names knows which names are taken and hands out new ones: labels
`L1`, `L2`, … and work variables `z1`, `z2`, …, each time the first of its row
that is not taken.  A name handed out is taken from then on.  The search looks
at one candidate more than there are names taken, and these candidates differ,
so one of them is free.
-/

namespace RegisterMachine

/-- The first letter of every fresh label. -/
def labelLetter : Char := 'L'

structure NameSupply where
  taken : NameSet := NameTable.empty
  /-- The number of the last label handed out. -/
  lastLabel : Nat := 0
  /-- The number of the last work variable handed out. -/
  lastWork : Nat := 0
deriving DecidableEq, Repr

namespace NameSupply

/-- The supply that avoids every name of a program. -/
def forProgram (program : Program) : NameSupply :=
  { taken := program.names }

/-- Take a name out of the supply. -/
def reserve (supply : NameSupply) (name : String) : NameSupply :=
  { supply with taken := supply.taken.add name }

/-- The first number from `start` on whose name is free, among `bound` of them. -/
def firstFree (taken : NameSet) (letter : Char) : Nat → Nat → Nat
  | 0, start => start
  | bound + 1, start =>
      if taken.contains (numbered letter start) then firstFree taken letter bound (start + 1)
      else start

/-- The search never goes back. -/
theorem le_firstFree (taken : NameSet) (letter : Char) (bound start : Nat) :
    start ≤ firstFree taken letter bound start := by
  induction bound generalizing start with
  | zero => exact Nat.le_refl start
  | succ bound ih =>
      rw [firstFree]
      split
      · exact Nat.le_trans (Nat.le_succ start) (ih (start + 1))
      · exact Nat.le_refl start

/-- Every name that the search passes is taken. -/
theorem contains_of_lt_firstFree {taken : NameSet} {letter : Char} {bound start number : Nat}
    (reached : start ≤ number) (passed : number < firstFree taken letter bound start) :
    taken.contains (numbered letter number) = true := by
  induction bound generalizing start with
  | zero => exact absurd passed (Nat.not_lt.mpr reached)
  | succ bound ih =>
      rw [firstFree] at passed
      split at passed
      · next first =>
          rcases Nat.eq_or_lt_of_le reached with same | later
          · exact same ▸ first
          · exact ih later passed
      · exact absurd passed (Nat.not_lt.mpr reached)

/-- A search that ends early ends at a free name; otherwise all its candidates are taken. -/
theorem firstFree_eq_add_or_free (taken : NameSet) (letter : Char) (bound start : Nat) :
    firstFree taken letter bound start = start + bound ∨
      taken.contains (numbered letter (firstFree taken letter bound start)) = false := by
  induction bound generalizing start with
  | zero => exact Or.inl rfl
  | succ bound ih =>
      rw [firstFree]
      split
      · rcases ih (start + 1) with whole | free
        · exact Or.inl (by omega)
        · exact Or.inr free
      · next free => exact Or.inr (by simpa using free)

/-- As many names as are all among some others are at most as many as those. -/
theorem le_length_of_numbered_mem (letter : Char) (count start : Nat) {names : List String}
    (listed : ∀ number, start ≤ number → number < start + count →
      numbered letter number ∈ names) : count ≤ names.length := by
  induction count generalizing start names with
  | zero => exact Nat.zero_le _
  | succ count ih =>
      have first : numbered letter start ∈ names := listed start (Nat.le_refl _) (by omega)
      have others : count ≤ (names.erase (numbered letter start)).length := by
        refine ih (start + 1) fun number after before => ?_
        refine (List.mem_erase_of_ne fun same => ?_).mpr (listed number (by omega) (by omega))
        have := numbered_injective letter same
        omega
      have positive : 0 < names.length := List.length_pos_of_mem first
      rw [List.length_erase_of_mem first] at others
      omega

/-- A search among more candidates than there are names taken finds a free one. -/
theorem contains_firstFree {taken : NameSet} {letter : Char} {bound start : Nat}
    (fewer : taken.entries.length < bound) :
    taken.contains (numbered letter (firstFree taken letter bound start)) = false := by
  rcases firstFree_eq_add_or_free taken letter bound start with whole | free
  · have count : bound ≤ taken.keys.length := by
      refine le_length_of_numbered_mem letter bound start fun number after before => ?_
      have held := contains_of_lt_firstFree after (whole ▸ before)
      obtain ⟨value, found⟩ := Option.isSome_iff_exists.mp held
      exact List.mem_map.mpr ⟨_, NameTable.mem_entries_iff.mpr found, rfl⟩
    rw [NameTable.keys, List.length_map] at count
    omega
  · exact free

/-- The number of the next free name after `last`. -/
def nextFree (supply : NameSupply) (letter : Char) (last : Nat) : Nat :=
  firstFree supply.taken letter (supply.taken.entries.length + 1) (last + 1)

theorem contains_nextFree (supply : NameSupply) (letter : Char) (last : Nat) :
    supply.taken.contains (numbered letter (supply.nextFree letter last)) = false :=
  contains_firstFree (Nat.lt_succ_self _)

/-- A label that is not taken, and the supply without it. -/
def freshLabel (supply : NameSupply) : String × NameSupply :=
  let number := supply.nextFree labelLetter supply.lastLabel
  let label := numbered labelLetter number
  (label, { supply.reserve label with lastLabel := number })

/-- A work variable that is not taken, and the supply without it. -/
def freshWork (supply : NameSupply) : String × NameSupply :=
  let number := supply.nextFree workLetter supply.lastWork
  let work := numbered workLetter number
  (work, { supply.reserve work with lastWork := number })

/-- A fresh label was not taken before. -/
theorem contains_freshLabel (supply : NameSupply) :
    supply.taken.contains supply.freshLabel.1 = false :=
  supply.contains_nextFree labelLetter supply.lastLabel

/-- A fresh work variable was not taken before. -/
theorem contains_freshWork (supply : NameSupply) :
    supply.taken.contains supply.freshWork.1 = false :=
  supply.contains_nextFree workLetter supply.lastWork

end NameSupply

end RegisterMachine
