import RegisterMachine.Entries
import RegisterMachine.Name
import RegisterMachine.Text.Decimal

/-!
# Registers

A register file gives every variable a 64-bit value.  A variable that nothing
has touched has the value zero and is not listed.  Touching, storing,
increasing and decreasing list a variable; increasing stops at the largest
64-bit number and decreasing at zero.

A snapshot lists the touched registers for display: the output first, then the
inputs, then the work variables, then everything else, each kind by its number.
-/

namespace RegisterMachine

/-- The touched variables with their values, in the order of their first touch. -/
structure Registers where
  entries : List (String × UInt64) := []
  /-- Every variable is listed once. -/
  nodup : (entries.map Prod.fst).Nodup := by exact List.nodup_nil
deriving DecidableEq, Repr

namespace Registers

/-- The value of a variable, zero when it is untouched. -/
def value (registers : Registers) (name : String) : UInt64 :=
  (findEntry name registers.entries).getD 0

/-- Whether a variable is listed. -/
def touched (registers : Registers) (name : String) : Bool :=
  (findEntry name registers.entries).isSome

/-- Replace the value listed for a variable, or list it at the end. -/
def put (name : String) (value : UInt64) : List (String × UInt64) → List (String × UInt64)
  | [] => [(name, value)]
  | entry :: rest =>
      if name = entry.1 then (name, value) :: rest else entry :: put name value rest

theorem mem_keys_put {name key : String} {value : UInt64} {entries : List (String × UInt64)} :
    key ∈ (put name value entries).map Prod.fst ↔ key = name ∨ key ∈ entries.map Prod.fst := by
  induction entries with
  | nil => simp [put]
  | cons entry rest ih =>
      rw [put]
      split
      · next same =>
          simp only [List.map_cons, List.mem_cons, ← same]
          exact ⟨Or.inr, fun listed => listed.elim Or.inl id⟩
      · rw [List.map_cons, List.map_cons, List.mem_cons, List.mem_cons, ih]
        exact or_left_comm

/-- Putting a value in place lists no variable twice. -/
theorem nodup_keys_put (name : String) (value : UInt64) {entries : List (String × UInt64)}
    (nodup : (entries.map Prod.fst).Nodup) : ((put name value entries).map Prod.fst).Nodup := by
  induction entries with
  | nil => exact List.nodup_cons.mpr ⟨List.not_mem_nil, List.nodup_nil⟩
  | cons entry rest ih =>
      rw [List.map_cons, List.nodup_cons] at nodup
      rw [put]
      split
      · next same =>
          rw [List.map_cons, List.nodup_cons]
          exact ⟨same ▸ nodup.1, nodup.2⟩
      · next differ =>
          rw [List.map_cons, List.nodup_cons]
          refine ⟨fun member => ?_, ih nodup.2⟩
          rcases mem_keys_put.mp member with same | listed
          · exact differ same.symm
          · exact nodup.1 listed

/-- Give a variable a value. -/
def store (registers : Registers) (name : String) (value : UInt64) : Registers :=
  ⟨put name value registers.entries, nodup_keys_put name value registers.nodup⟩

theorem findEntry_put (name other : String) (value : UInt64) (entries : List (String × UInt64)) :
    findEntry other (put name value entries) =
      if other = name then some value else findEntry other entries := by
  induction entries with
  | nil => simp [put, findEntry]
  | cons entry rest ih =>
      rw [put]
      split
      · next same => by_cases wanted : other = name <;> simp [findEntry, wanted, ← same]
      · next differ =>
          by_cases wanted : other = name
          · subst wanted
            simp [findEntry, differ, ih]
          · simp [findEntry, wanted, ih]

/-- A variable holds what was stored in it, and the others keep their values. -/
@[simp] theorem value_store (registers : Registers) (name other : String) (v : UInt64) :
    (registers.store name v).value other = if other = name then v else registers.value other := by
  unfold value store
  rw [findEntry_put]
  by_cases same : other = name <;> simp [same]

@[simp] theorem touched_store (registers : Registers) (name other : String) (v : UInt64) :
    (registers.store name v).touched other = (other == name || registers.touched other) := by
  unfold touched store
  rw [findEntry_put]
  by_cases same : other = name <;> simp [same]

/-- List a variable and leave its value alone. -/
def touch (registers : Registers) (name : String) : Registers :=
  registers.store name (registers.value name)

@[simp] theorem value_touch (registers : Registers) (name other : String) :
    (registers.touch name).value other = registers.value other := by
  rw [touch, value_store]
  split
  · next same => rw [same]
  · rfl

/-- One more, up to the largest 64-bit number. -/
def successor (v : UInt64) : UInt64 :=
  if v = UInt64.ofNat Text.Decimal.wordMax then v else v + 1

theorem toNat_successor (v : UInt64) :
    (successor v).toNat = min (v.toNat + 1) Text.Decimal.wordMax := by
  have largest : Text.Decimal.wordMax = 18446744073709551615 := rfl
  have small : v.toNat < 18446744073709551616 := v.toNat_lt
  unfold successor
  split
  · next same =>
      subst same
      decide
  · next differ =>
      have below : v.toNat ≠ 18446744073709551615 := by
        intro same
        exact differ (UInt64.toNat_inj.mp same)
      rw [UInt64.toNat_add, largest]
      simp only [UInt64.toNat_one]
      omega

/-- One less, down to zero. -/
def predecessor (v : UInt64) : UInt64 :=
  if v = 0 then v else v - 1

theorem toNat_predecessor (v : UInt64) : (predecessor v).toNat = v.toNat - 1 := by
  unfold predecessor
  split
  · next zero =>
      subst zero
      rfl
  · next other =>
      have positive : 0 < v.toNat :=
        Nat.pos_of_ne_zero fun zero => other (UInt64.toNat_inj.mp zero)
      have above : (1 : UInt64) ≤ v := UInt64.le_iff_toNat_le.mpr positive
      rw [UInt64.toNat_sub_of_le _ _ above]
      rfl

/-- Increase a variable by one. -/
def increment (registers : Registers) (name : String) : Registers :=
  registers.store name (successor (registers.value name))

/-- Decrease a variable by one. -/
def decrement (registers : Registers) (name : String) : Registers :=
  registers.store name (predecessor (registers.value name))

@[simp] theorem value_increment (registers : Registers) (name other : String) :
    (registers.increment name).value other =
      if other = name then successor (registers.value name) else registers.value other :=
  value_store registers name other _

@[simp] theorem value_decrement (registers : Registers) (name other : String) :
    (registers.decrement name).value other =
      if other = name then predecessor (registers.value name) else registers.value other :=
  value_store registers name other _

/-- A signed number as a register value; negative numbers become zero. -/
def floorZero (v : Int64) : UInt64 :=
  if v < 0 then 0 else v.toUInt64

/-- The variable of the input with a given number, counted from one. -/
def inputName (number : Nat) : String :=
  numbered inputLetter number

/-- Store inputs in the input variables from number `first` on. -/
def seedFrom (registers : Registers) : Nat → List Int64 → Registers
  | _, [] => registers
  | first, input :: inputs =>
      seedFrom (registers.store (inputName first) (floorZero input)) (first + 1) inputs

/-- Store the inputs in `x1`, `x2`, and so on. -/
def seed (registers : Registers) (inputs : List Int64) : Registers :=
  registers.seedFrom 1 inputs

/-! ## Display order -/

/-- The kind of a variable: output, input, work variable, anything else. -/
def rank (name : String) : Nat :=
  if name = outputVariable then 0
  else if startsWith inputLetter name then 1
  else if startsWith workLetter name then 2
  else 3

/-- The number after the first character of a name, which has to be one byte long.  A name
without such a number, or with one beyond 64 bits, counts as having the largest one. -/
def index (name : String) : Nat :=
  match name.toList with
  | [] => Text.Decimal.wordMax
  | c :: cs =>
      if c.utf8Size = 1 then
        (Text.Decimal.readUnsigned Text.Decimal.wordMax cs).getD Text.Decimal.wordMax
      else Text.Decimal.wordMax

/-- Display order: by kind, then by number, then by name. -/
def before (a b : String) : Bool :=
  if rank a ≠ rank b then rank a < rank b
  else if index a ≠ index b then index a < index b
  else a ≤ b

/-- The touched registers in display order. -/
def snapshot (registers : Registers) : List (String × UInt64) :=
  registers.entries.mergeSort fun a b => before a.1 b.1

/-- A snapshot lists the touched registers and nothing else. -/
theorem snapshot_perm (registers : Registers) : registers.snapshot.Perm registers.entries :=
  List.mergeSort_perm _ _

end Registers

end RegisterMachine
