import RegisterMachine.Machine.Run

/-!
# Registers and their snapshots

A look-up in the entries of a register file depends on the entries and not on
their order, so a snapshot answers every look-up as the registers do.
-/

namespace RegisterMachine

namespace Registers

theorem findEntry_eq_of_perm {first second : List (String × UInt64)} (perm : first.Perm second)
    (nodup : (second.map Prod.fst).Nodup) (name : String) :
    findEntry name first = findEntry name second := by
  have nodup' : (first.map Prod.fst).Nodup := (perm.map Prod.fst).nodup_iff.mpr nodup
  refine Option.ext fun value => ?_
  rw [findEntry_eq_some_iff nodup', findEntry_eq_some_iff nodup, perm.mem_iff]

/-- A snapshot lists a variable with a value exactly when the registers hold it. -/
theorem findEntry_snapshot (registers : Registers) (name : String) :
    findEntry name registers.snapshot = findEntry name registers.entries :=
  findEntry_eq_of_perm registers.snapshot_perm registers.nodup name

theorem mem_snapshot_iff {registers : Registers} {name : String} {value : UInt64} :
    (name, value) ∈ registers.snapshot ↔ findEntry name registers.entries = some value := by
  rw [registers.snapshot_perm.mem_iff, findEntry_eq_some_iff registers.nodup]

theorem findEntry_store (registers : Registers) (name other : String) (value : UInt64) :
    findEntry other (registers.store name value).entries =
      if other = name then some value else findEntry other registers.entries :=
  findEntry_put name other value registers.entries

theorem put_put (name : String) (first second : UInt64) (entries : List (String × UInt64)) :
    put name second (put name first entries) = put name second entries := by
  induction entries with
  | nil => simp [put]
  | cons entry rest ih =>
      by_cases same : name = entry.1
      · simp [put, same]
      · simp [put, same, ih]

/-- Only the last of two values for one variable counts. -/
theorem store_store (registers : Registers) (name : String) (first second : UInt64) :
    (registers.store name first).store name second = registers.store name second := by
  unfold store
  congr 1
  exact put_put name first second registers.entries

/-- Seeding touches input variables only. -/
theorem findEntry_seedFrom {name : String} (other : ∀ number, name ≠ inputName number)
    (registers : Registers) (first : Nat) (inputs : List Int64) :
    findEntry name (registers.seedFrom first inputs).entries =
      findEntry name registers.entries := by
  induction inputs generalizing registers first with
  | nil => rfl
  | cons input inputs ih => rw [seedFrom, ih, findEntry_store, if_neg (other first)]

end Registers

theorem State.output_result (state : State) (steps : UInt64) :
    (state.result steps).output = state.registers.value outputVariable := by
  rw [State.result, Registers.findEntry_snapshot, Registers.value]

theorem State.value_result (state : State) (steps : UInt64) (name : String) :
    (state.result steps).value name = state.registers.value name := by
  rw [RunResult.value, State.result, Registers.findEntry_snapshot, Registers.value]

end RegisterMachine
