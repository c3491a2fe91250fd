import RegisterMachine.Document
import RegisterMachine.Proofs.JsonRoundTrip

/-!
# Documents written and read again

A document is written with the parts that it has: an absent one has no field, and a
missing name is null.  The fields are found again by their names and the arguments
make up the same table again, so the JSON of a document is read as the document.
The JSON is plain, and so is its text.
-/

namespace RegisterMachine

namespace NameTable

variable {α : Type}

theorem place_of_forall_lt {name : String} {value : α} {entries : List (String × α)}
    (before : ∀ entry ∈ entries, entry.1 < name) :
    place name value entries = entries ++ [(name, value)] := by
  induction entries with
  | nil => rfl
  | cons entry entries ih =>
      rw [List.forall_mem_cons] at before
      have notLess : ¬ name < entry.1 := fun less =>
        String.lt_irrefl _ (String.lt_trans before.1 less)
      have other : name ≠ entry.1 := fun same => String.lt_irrefl _ (same ▸ before.1)
      rw [place, if_neg notLess, if_neg other, ih before.2, List.cons_append]

theorem entries_foldl_insert {table : NameTable α} {bindings : List (String × α)}
    (sorted : (table.entries ++ bindings).Pairwise fun a b => a.1 < b.1) :
    (bindings.foldl (fun table binding => table.insert binding.1 binding.2) table).entries =
      table.entries ++ bindings := by
  induction bindings generalizing table with
  | nil => exact (List.append_nil _).symm
  | cons binding bindings ih =>
      have before : ∀ entry ∈ table.entries, entry.1 < binding.1 := fun entry member =>
        (List.pairwise_append.mp sorted).2.2 entry member binding List.mem_cons_self
      have placed : (table.insert binding.1 binding.2).entries = table.entries ++ [binding] :=
        place_of_forall_lt before
      rw [← List.singleton_append, ← List.append_assoc, ← placed] at sorted
      rw [List.foldl_cons, ih sorted, placed, List.append_assoc, List.singleton_append]

/-- A table is made again from its entries. -/
theorem ofList_entries (table : NameTable α) : ofList table.entries = table := by
  obtain ⟨entries, sorted⟩ := table
  have same : (ofList entries).entries = entries := entries_foldl_insert sorted
  cases made : ofList entries
  rw [made] at same
  simpa using same

theorem eq_empty_of_isEmpty {table : NameTable α} (none : table.isEmpty = true) :
    table = empty := by
  obtain ⟨entries, sorted⟩ := table
  obtain rfl : entries = [] := List.isEmpty_iff.mp none
  rfl

end NameTable

namespace Document

/-- Items that are all read as what they were written from are read as a list of it. -/
theorem mapM_map_of_inverse {α β : Type} {write : α → β} {read : β → Option α}
    (inverse : ∀ item, read (write item) = some item) (items : List α) :
    (items.map write).mapM read = some items := by
  rw [List.mapM_map, show read ∘ write = pure from funext inverse, List.mapM_pure]
  exact congrArg some (List.map_id items)

theorem namedFields_ofFields (fields : List (String × Json)) :
    namedFields (fields.map fun field => (some field.1, field.2)) = some fields := by
  refine mapM_map_of_inverse (fun field => ?_) fields
  rfl

theorem argumentsOf_argumentsJson (arguments : NameTable String) :
    argumentsOf (some (argumentsJson arguments)) = some arguments := by
  simp only [argumentsJson, Json.ofFields, argumentsOf, namedFields_ofFields, Option.bind_eq_bind,
    Option.bind_some]
  rw [mapM_map_of_inverse fun entry => ?_, Option.bind_some, NameTable.ofList_entries]
  · rfl
  · rfl

/-- The known fields of an entry are the parts that it has. -/
theorem recordFields_entryJson (entry : DocumentEntry) :
    recordFields ["name", "variable", "label", "arguments"] (entryJson entry) =
      some [some (Json.ofString entry.name), entry.operands.var.map Json.ofString,
        entry.operands.label.map Json.ofString,
        if entry.operands.arguments.isEmpty then none
        else some (argumentsJson entry.operands.arguments)] := by
  obtain ⟨name, var, label, arguments⟩ := entry
  rw [entryJson, Json.ofFields, recordFields, namedFields_ofFields]
  cases var <;> cases label <;> cases empty : arguments.isEmpty <;>
    simp [optionalField, argumentsField, empty, uniqueField]

theorem entryOf_entryJson (entry : DocumentEntry) : entryOf (entryJson entry) = some entry := by
  have text : ∀ part : Option String, optionalText (part.map Json.ofString) = some part := by
    intro part
    cases part <;> rfl
  have arguments : argumentsOf (if entry.operands.arguments.isEmpty then none
      else some (argumentsJson entry.operands.arguments)) = some entry.operands.arguments := by
    split
    · next none => rw [NameTable.eq_empty_of_isEmpty none, argumentsOf]
    · exact argumentsOf_argumentsJson _
  rw [entryOf, recordFields_entryJson]
  simp [text, arguments, textOf, Json.ofString]

/-- The JSON of a document is that document and no other. -/
theorem ofJson_toJson (document : Document) : ofJson document.toJson = some document := by
  have fields : recordFields ["name", "instructions"] document.toJson =
      some [some (nameJson document.name), some (.array (document.entries.map entryJson))] := by
    rw [toJson, Json.ofFields, recordFields, namedFields_ofFields]
    simp [uniqueField]
  have name : optionalText (some (nameJson document.name)) = some document.name := by
    cases document.name <;> rfl
  rw [ofJson, fields]
  simp [name, mapM_map_of_inverse entryOf_entryJson]

/-! ## The text of a document -/

theorem plain_ofFields {fields : List (String × Json)} (plain : ∀ field ∈ fields, field.2.Plain) :
    (Json.ofFields fields).Plain := by
  refine .object fun field member => ?_
  obtain ⟨named, inside, rfl⟩ := List.mem_map.mp member
  exact plain named inside

theorem plain_of_mem_optionalField {key : String} {text : Option String} {field : String × Json}
    (member : field ∈ optionalField key text) : field.2.Plain := by
  cases text with
  | none => cases member
  | some text =>
      obtain rfl := List.mem_singleton.mp member
      exact .string _

theorem plain_of_mem_argumentsField {arguments : NameTable String} {field : String × Json}
    (member : field ∈ argumentsField arguments) : field.2.Plain := by
  unfold argumentsField at member
  split at member
  · cases member
  · obtain rfl := List.mem_singleton.mp member
    refine plain_ofFields fun argument inside => ?_
    obtain ⟨entry, -, rfl⟩ := List.mem_map.mp inside
    exact .string _

theorem plain_entryJson (entry : DocumentEntry) : (entryJson entry).Plain := by
  refine plain_ofFields fun field member => ?_
  rw [List.mem_append, List.mem_append, List.mem_cons] at member
  rcases member with ((rfl | var) | label) | arguments
  · exact .string _
  · exact plain_of_mem_optionalField var
  · exact plain_of_mem_optionalField label
  · exact plain_of_mem_argumentsField arguments

theorem plain_toJson (document : Document) : document.toJson.Plain := by
  have name : (nameJson document.name).Plain := by
    cases document.name with
    | none => exact .null
    | some name => exact .string _
  have entries : (Json.array (document.entries.map entryJson)).Plain := by
    refine .array fun item member => ?_
    obtain ⟨entry, -, rfl⟩ := List.mem_map.mp member
    exact plain_entryJson entry
  exact plain_ofFields (by simp [name, entries])

/-- The text of a document is strict JSON and is read as the document.  An entry is written with
exactly the parts that it has. -/
theorem render_reads_back (document : Document) :
    Json.parse document.render = some document.toJson ∧ parse document.render = .ok document ∧
      ∀ entry ∈ document.entries,
        recordFields ["name", "variable", "label", "arguments"] (entryJson entry) =
          some [some (Json.ofString entry.name), entry.operands.var.map Json.ofString,
            entry.operands.label.map Json.ofString,
            if entry.operands.arguments.isEmpty then none
            else some (argumentsJson entry.operands.arguments)] := by
  have json : Json.parse document.render = some document.toJson :=
    (plain_toJson document).parse_write .indented
  refine ⟨json, ?_, fun entry _ => recordFields_entryJson entry⟩
  rw [parse, json, Option.bind_some, ofJson_toJson]

end Document

end RegisterMachine
