import RegisterMachine.Entries

/-!
# Name tables

A name table maps finitely many names to values.  It is the list of its
entries in strictly increasing order of the names, so a table is determined by
its look-ups.  A set of names is a table without values.
-/

namespace RegisterMachine

/-- A finite map from names, listed by increasing name. -/
structure NameTable (α : Type) where
  entries : List (String × α)
  sorted : entries.Pairwise fun a b => a.1 < b.1
deriving DecidableEq, Repr

/-- A finite set of names. -/
abbrev NameSet := NameTable Unit

namespace NameTable

variable {α : Type}

def empty : NameTable α :=
  ⟨[], List.Pairwise.nil⟩

def isEmpty (table : NameTable α) : Bool :=
  table.entries.isEmpty

/-- The names of a table in increasing order. -/
def keys (table : NameTable α) : List String :=
  table.entries.map Prod.fst

/-- The value of a name. -/
def get? (table : NameTable α) (name : String) : Option α :=
  findEntry name table.entries

def contains (table : NameTable α) (name : String) : Bool :=
  (table.get? name).isSome

/-- Put an entry in its place; an entry of the same name is replaced. -/
def place (name : String) (value : α) : List (String × α) → List (String × α)
  | [] => [(name, value)]
  | entry :: rest =>
      if name < entry.1 then (name, value) :: entry :: rest
      else if name = entry.1 then (name, value) :: rest
      else entry :: place name value rest

theorem mem_place {name : String} {value : α} {entries : List (String × α)} {entry : String × α}
    (member : entry ∈ place name value entries) : entry = (name, value) ∨ entry ∈ entries := by
  induction entries with
  | nil => simpa [place] using member
  | cons first rest ih =>
      rw [place] at member
      split at member
      · simpa using member
      · split at member
        · rcases List.mem_cons.mp member with new | old
          · exact Or.inl new
          · exact Or.inr (List.mem_cons_of_mem _ old)
        · rcases List.mem_cons.mp member with same | later
          · exact Or.inr (same ▸ List.mem_cons_self)
          · exact (ih later).imp id (List.mem_cons_of_mem _)

/-- Putting an entry in its place keeps the order of the names. -/
theorem pairwise_place (name : String) (value : α) {entries : List (String × α)}
    (sorted : entries.Pairwise fun a b => a.1 < b.1) :
    (place name value entries).Pairwise fun a b => a.1 < b.1 := by
  induction entries with
  | nil => exact List.pairwise_singleton _ _
  | cons entry rest ih =>
      obtain ⟨first, tail⟩ := List.pairwise_cons.mp sorted
      rw [place]
      split
      · next before =>
          refine List.pairwise_cons.mpr ⟨?_, sorted⟩
          intro other member
          rcases List.mem_cons.mp member with rfl | later
          · exact before
          · exact String.lt_trans before (first other later)
      · next notBefore =>
          split
          · next same =>
              exact List.pairwise_cons.mpr ⟨fun other member => same ▸ first other member, tail⟩
          · next differ =>
              refine List.pairwise_cons.mpr ⟨?_, ih tail⟩
              intro other member
              rcases mem_place member with rfl | old
              · exact Decidable.byContradiction fun notBehind =>
                  differ (String.le_antisymm (String.not_lt.mp notBehind)
                    (String.not_lt.mp notBefore))
              · exact first other old

/-- Bind a name to a value, whatever it was bound to before. -/
def insert (table : NameTable α) (name : String) (value : α) : NameTable α :=
  ⟨place name value table.entries, pairwise_place name value table.sorted⟩

/-- Bind a name to a value unless it is bound already. -/
def insertNew (table : NameTable α) (name : String) (value : α) : NameTable α :=
  if table.contains name then table else table.insert name value

/-- The table of some bindings; of two for one name the later one counts. -/
def ofList (bindings : List (String × α)) : NameTable α :=
  bindings.foldl (fun table binding => table.insert binding.1 binding.2) empty

@[simp] theorem get?_empty (name : String) : (empty : NameTable α).get? name = none := rfl

theorem findEntry_place (name other : String) (value : α) (entries : List (String × α)) :
    findEntry other (place name value entries) =
      if other = name then some value else findEntry other entries := by
  induction entries with
  | nil => simp [place, findEntry]
  | cons entry rest ih =>
      rw [place]
      split
      · simp [findEntry]
      · split
        · next same => by_cases wanted : other = name <;> simp [findEntry, wanted, ← same]
        · next differ =>
            by_cases wanted : other = name
            · subst wanted
              simp [findEntry, differ, ih]
            · simp [findEntry, wanted, ih]

/-- A look-up after a binding. -/
theorem get?_insert (table : NameTable α) (name other : String) (value : α) :
    (table.insert name value).get? other =
      if other = name then some value else table.get? other :=
  findEntry_place name other value table.entries

/-- A look-up after a binding that gives way to an earlier one. -/
theorem get?_insertNew (table : NameTable α) (name other : String) (value : α) :
    (table.insertNew name value).get? other =
      if other = name ∧ table.contains name = false then some value else table.get? other := by
  unfold insertNew
  split
  · next bound => simp [bound]
  · next free => simp [free, get?_insert]

theorem nodup_keys (table : NameTable α) : (table.entries.map Prod.fst).Nodup := by
  refine List.pairwise_map.mpr (table.sorted.imp ?_)
  intro first second less same
  exact String.lt_irrefl _ (same ▸ less)

/-- The entries of a table are exactly its look-ups. -/
theorem mem_entries_iff {table : NameTable α} {name : String} {value : α} :
    (name, value) ∈ table.entries ↔ table.get? name = some value :=
  (findEntry_eq_some_iff table.nodup_keys).symm

theorem eq_of_mem_iff {a b : List (String × α)}
    (first : a.Pairwise fun x y => x.1 < y.1) (second : b.Pairwise fun x y => x.1 < y.1)
    (members : ∀ entry, entry ∈ a ↔ entry ∈ b) : a = b := by
  induction a generalizing b with
  | nil =>
      cases b with
      | nil => rfl
      | cons entry rest => exact absurd ((members entry).mpr List.mem_cons_self) List.not_mem_nil
  | cons x a ih =>
      cases b with
      | nil => exact absurd ((members x).mp List.mem_cons_self) List.not_mem_nil
      | cons y b =>
          obtain ⟨below, restFirst⟩ := List.pairwise_cons.mp first
          obtain ⟨below', restSecond⟩ := List.pairwise_cons.mp second
          have heads : x = y := by
            rcases List.mem_cons.mp ((members x).mp List.mem_cons_self) with same | later
            · exact same
            · rcases List.mem_cons.mp ((members y).mpr List.mem_cons_self) with same | later'
              · exact same.symm
              · exact absurd (String.lt_trans (below' x later) (below y later'))
                  (String.lt_irrefl _)
          subst heads
          refine congrArg (x :: ·) (ih restFirst restSecond fun entry => ?_)
          constructor
          · intro member
            rcases List.mem_cons.mp ((members entry).mp (List.mem_cons_of_mem _ member)) with
              same | later
            · exact absurd (same ▸ below entry member) (String.lt_irrefl _)
            · exact later
          · intro member
            rcases List.mem_cons.mp ((members entry).mpr (List.mem_cons_of_mem _ member)) with
              same | later
            · exact absurd (same ▸ below' entry member) (String.lt_irrefl _)
            · exact later

/-- Two tables with the same look-ups are equal. -/
theorem eq_of_get?_eq {a b : NameTable α} (lookups : ∀ name, a.get? name = b.get? name) :
    a = b := by
  have entries : a.entries = b.entries := by
    refine eq_of_mem_iff a.sorted b.sorted fun entry => ?_
    rw [show entry = (entry.1, entry.2) from rfl, mem_entries_iff, mem_entries_iff, lookups]
  cases a
  cases b
  simpa using entries

end NameTable

namespace NameSet

/-- Add a name to a set. -/
def add (names : NameSet) (name : String) : NameSet :=
  NameTable.insert names name ()

/-- Add each of some names to a set. -/
def addAll (names : NameSet) (more : List String) : NameSet :=
  more.foldl add names

@[simp] theorem contains_empty (name : String) :
    (NameTable.empty : NameSet).contains name = false := rfl

@[simp] theorem contains_add (names : NameSet) (name other : String) :
    (names.add name).contains other = (other == name || names.contains other) := by
  unfold NameTable.contains add
  rw [NameTable.get?_insert]
  by_cases same : other = name <;> simp [same]

@[simp] theorem contains_addAll (names : NameSet) (more : List String) (name : String) :
    (names.addAll more).contains name = (more.contains name || names.contains name) := by
  induction more generalizing names with
  | nil => simp [addAll]
  | cons first more ih =>
      have added : names.addAll (first :: more) = (names.add first).addAll more := rfl
      rw [added, ih, contains_add, List.contains_cons]
      cases more.contains name <;> cases (name == first) <;> simp

end NameSet

end RegisterMachine
