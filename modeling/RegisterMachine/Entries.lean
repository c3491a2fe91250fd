/-!
# Entries

Tables and registers list names with values.  A look-up gives the value of the
first entry for a name; where no name is listed twice, the look-ups are the
entries.
-/

namespace RegisterMachine

variable {α : Type}

/-- The value of the first entry for a name. -/
def findEntry (name : String) : List (String × α) → Option α
  | [] => none
  | entry :: rest => if name = entry.1 then some entry.2 else findEntry name rest

theorem findEntry_eq_some_iff {entries : List (String × α)}
    (nodup : (entries.map Prod.fst).Nodup) {name : String} {value : α} :
    findEntry name entries = some value ↔ (name, value) ∈ entries := by
  induction entries with
  | nil => simp [findEntry]
  | cons entry rest ih =>
      rw [List.map_cons, List.nodup_cons] at nodup
      rw [findEntry, List.mem_cons]
      split
      · next same =>
          constructor
          · intro found
            exact Or.inl (Prod.ext same (Option.some.inj found).symm)
          · rintro (rfl | member)
            · rfl
            · exact absurd (same ▸ List.mem_map_of_mem member) nodup.1
      · next differ =>
          rw [ih nodup.2]
          constructor
          · exact Or.inr
          · rintro (rfl | member)
            · exact absurd rfl differ
            · exact member

end RegisterMachine
