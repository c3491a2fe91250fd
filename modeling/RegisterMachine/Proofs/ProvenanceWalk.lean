import RegisterMachine.Program.Listing
import RegisterMachine.Proofs.Provenance

/-!
# Walking back through origins

The origins of an instruction are found by going from an instruction to its parent as long
as there is one.  Nothing in the walk itself makes it end: it keeps no list of what it has
seen, and a number that an instruction holds may have been left over from another program
and find anything.  It ends because only basic instructions hold numbers and only synthetic
ones are recorded.  So whatever a number finds holds no number, and the walk has at most one
step.  This is kept up by everything that can be done to programs, with instructions from
wherever they can be had.
-/

namespace RegisterMachine

/-! ## Programs that come about -/

mutual

/-- A program that comes about by pushing, lowering and building, with instructions at hand. -/
inductive Program.Reachable : Program → Prop
  | named (name : String) : Program.Reachable (.named name)
  | push {program next : Program} {instruction : Instruction} (reachable : program.Reachable)
      (available : instruction.Available) (pushed : program.pushed instruction = .ok next) :
      Program.Reachable next
  | lower {program lowered : Program} {degree : Nat} (reachable : program.Reachable)
      (lowering : program.lowerTo degree = .ok lowered) : Program.Reachable lowered
  | build {name : String} {instructions : List Instruction} {program : Program}
      (available : ∀ instruction ∈ instructions, instruction.Available)
      (built : Program.ofInstructions name instructions = .ok program) :
      Program.Reachable program

/-- An instruction at hand: a new one, or a copy of one in a program or in the record of a program,
perhaps under another label.  A copy holds the number that the original holds. -/
inductive Instruction.Available : Instruction → Prop
  | make (op : Op) : Instruction.Available { op }
  | relabel {instruction : Instruction} (available : instruction.Available) (label : String) :
      Instruction.Available { instruction with label := some label }
  | copy {program : Program} {instruction : Instruction} (reachable : program.Reachable)
      (member : instruction ∈ program.instructions) : Instruction.Available instruction
  | copyOrigin {program : Program} {instruction : Instruction} (reachable : program.Reachable)
      (member : instruction ∈ program.origins) : Instruction.Available instruction

end

/-- An instruction without a parent is at hand, whatever its label. -/
theorem Instruction.available_of_orphan {instruction : Instruction}
    (orphan : instruction.parent = none) : instruction.Available := by
  obtain ⟨op, label, parent⟩ := instruction
  obtain rfl : parent = none := orphan
  cases label with
  | none => exact .make op
  | some label => exact .relabel (.make op) label

namespace Program

/-- The histories of one program are among what can come about. -/
theorem Reachable.edit {program : Program} (reachable : program.Reachable) {edit : Edit}
    (fresh : ∀ instruction, edit = .push instruction → instruction.parent = none) :
    (program.edit edit).Reachable := by
  cases edit with
  | push instruction =>
      rw [Program.edit, left_push]
      cases pushed : program.pushed instruction with
      | error error => exact reachable
      | ok next =>
          have available := Instruction.available_of_orphan (fresh instruction rfl)
          exact reachable.push available pushed
  | lower degree =>
      rw [Program.edit]
      cases lowering : program.lowerTo degree with
      | error error => exact reachable
      | ok lowered => exact reachable.lower lowering
  | rebuild name positions =>
      rw [Program.edit]
      cases built : ofInstructions name (program.copies positions) with
      | error error => exact reachable
      | ok next =>
          refine .build (fun instruction member => ?_) built
          obtain ⟨position, -, found⟩ := List.mem_filterMap.mp member
          exact .copy reachable (List.mem_of_getElem? found)

theorem reachable_afterEdits (name : String) {edits : List Edit}
    (fresh : Traced.FreshPushes edits) : (afterEdits name edits).Reachable := by
  have run : ∀ (edits : List Edit) (program : Program), program.Reachable →
      Traced.FreshPushes edits → (edits.foldl Program.edit program).Reachable := by
    intro edits
    induction edits with
    | nil => exact fun program reachable _ => reachable
    | cons first edits ih =>
        intro program reachable fresh
        refine ih _ (reachable.edit fun instruction same => ?_) fun instruction member =>
          fresh instruction (List.mem_cons_of_mem _ member)
        exact fresh instruction (same ▸ List.mem_cons_self)
  exact run edits _ (.named name) fresh

end Program

/-! ## Who holds numbers and who is recorded -/

/-- An instruction that holds a number is basic. -/
def Instruction.BasicIfEmitted (instruction : Instruction) : Prop :=
  instruction.parent ≠ none → instruction.isBasic = true

namespace Program

/-- Only basic instructions of a program hold numbers, and its record has synthetic instructions
that hold none. -/
structure FlatRecord (program : Program) : Prop extends Consistent program where
  basic_if_emitted : ∀ instruction ∈ program.instructions, instruction.BasicIfEmitted
  record_flat : ∀ origin ∈ program.origins, origin.isBasic = false ∧ origin.parent = none

namespace FlatRecord

theorem named (name : String) : (Program.named name).FlatRecord where
  toConsistent := consistent_named name
  basic_if_emitted := List.forall_mem_nil _
  record_flat := List.forall_mem_nil _

theorem foldl_append {program : Program} (flat : program.FlatRecord) {more : List Instruction}
    (last : ∀ instruction ∈ more, instruction.BasicIfEmitted) :
    (more.foldl append program).FlatRecord where
  toConsistent := flat.toConsistent.foldl_append more
  basic_if_emitted := by
    rw [instructions_foldl_append]
    exact List.forall_mem_append.mpr ⟨flat.basic_if_emitted, last⟩
  record_flat := by
    rw [origins_foldl_append]
    exact flat.record_flat

theorem push {program next : Program} {instruction : Instruction} (flat : program.FlatRecord)
    (emitted : instruction.BasicIfEmitted) (pushed : program.pushed instruction = .ok next) :
    next.FlatRecord := by
  obtain ⟨-, rfl⟩ := pushed_eq_ok_iff.mp pushed
  exact @foldl_append program flat [instruction] (List.forall_mem_singleton.mpr emitted)

theorem build {name : String} {instructions : List Instruction} {program : Program}
    (emitted : ∀ instruction ∈ instructions, instruction.BasicIfEmitted)
    (built : ofInstructions name instructions = .ok program) : program.FlatRecord := by
  rw [foldlM_push_eq_ok built]
  exact (named name).foldl_append emitted

/-- Lowering records synthetic instructions, which hold no number, and leaves basic code. -/
theorem lower {program lowered : Program} {degree : Nat} (flat : program.FlatRecord)
    (lowering : program.lowerTo degree = .ok lowered) : lowered.FlatRecord := by
  rcases flat.toConsistent.lowerTo_cases lowering with
    ⟨-, recorded, fresh, lowers⟩ | ⟨-, name, rfl⟩
  · refine ⟨lowers.consistent, fun instruction member _ => lowers.isBasic instruction member, ?_⟩
    rw [recorded]
    refine List.forall_mem_append.mpr ⟨flat.record_flat, fun origin member => ?_⟩
    obtain ⟨inside, replaced⟩ := List.mem_filter.mp member
    rw [Bool.not_eq_true'] at replaced
    refine ⟨replaced, ?_⟩
    by_contra held
    rw [flat.basic_if_emitted origin inside held] at replaced
    cases replaced
  · exact ⟨flat.toConsistent.congr rfl rfl rfl rfl, flat.basic_if_emitted, flat.record_flat⟩

end FlatRecord

end Program

mutual

/-- By the way a program has come about, together with the instructions at hand on that way. -/
theorem Program.Reachable.flatRecord {program : Program} :
    program.Reachable → program.FlatRecord
  | .named name => .named name
  | .push reachable available pushed =>
      reachable.flatRecord.push available.basicIfEmitted pushed
  | .lower reachable lowering => reachable.flatRecord.lower lowering
  | .build available built =>
      .build (fun instruction member => (available instruction member).basicIfEmitted) built

theorem Instruction.Available.basicIfEmitted {instruction : Instruction} :
    instruction.Available → instruction.BasicIfEmitted
  | .make _ => fun held => absurd rfl held
  | .relabel available _ => available.basicIfEmitted
  | .copy reachable member => reachable.flatRecord.basic_if_emitted _ member
  | .copyOrigin reachable member => fun held =>
      absurd (reachable.flatRecord.record_flat _ member).2 held

end

/-! ## The walk -/

namespace Program

/-- The walk from an instruction to its parent and on, without a bound, with the parents that it
comes by: it ends at an instruction that has no parent. -/
inductive Walks (program : Program) : Instruction → List Instruction → Prop
  | ends {instruction : Instruction} (orphan : program.parent? instruction = none) :
      Walks program instruction []
  | climbs {instruction parent : Instruction} {origins : List Instruction}
      (found : program.parent? instruction = some parent)
      (rest : Walks program parent origins) : Walks program instruction (parent :: origins)

/-- A line of the listing with the parents that a walk has come by. -/
def walkedLine (number : Nat) (instruction : Instruction) (origins : List Instruction) : String :=
  "#" ++ Text.Decimal.written number ++ " " ++ instruction.renderTagged ++
    String.join (origins.map fun origin => " <<< " ++ origin.renderTagged) ++ "\n"

/-- The writing of the listing from a line on, with a walk for each line. -/
inductive Lists (program : Program) : Nat → List Instruction → String → Prop
  | done {number : Nat} : Lists program number [] ""
  | line {number : Nat} {instruction : Instruction} {origins rest : List Instruction}
      {text : String} (walked : program.Walks instruction origins)
      (later : Lists program (number + 1) rest text) :
      Lists program number (instruction :: rest) (walkedLine number instruction origins ++ text)

namespace FlatRecord

variable {program : Program} (flat : program.FlatRecord)
include flat

/-- What a number finds holds no number. -/
theorem parent?_parent {instruction parent : Instruction}
    (found : program.parent? instruction = some parent) : program.parent? parent = none := by
  obtain ⟨number, -, recorded⟩ := parent?_eq_some_iff.mp found
  exact Traced.parent?_of_parent_none (flat.record_flat _ (List.mem_of_getElem? recorded)).2

/-- The walk goes to the parent, if there is one, and ends. -/
theorem walks_iff {instruction : Instruction} {origins : List Instruction} :
    program.Walks instruction origins ↔ origins = (program.parent? instruction).toList := by
  constructor
  · intro walks
    cases walks with
    | ends orphan => rw [orphan, Option.toList_none]
    | climbs found rest =>
        rw [found, Option.toList_some]
        cases rest with
        | ends _ => rfl
        | climbs again _ =>
            rw [flat.parent?_parent found] at again
            cases again
  · rintro rfl
    cases found : program.parent? instruction with
    | none => exact .ends found
    | some parent => exact .climbs found (.ends (flat.parent?_parent found))

theorem provenance_eq (instruction : Instruction) :
    program.provenance instruction = (program.parent? instruction).toList := by
  have stops : ∀ bound parent, program.parent? parent = none →
      program.ancestors bound parent = [] := by
    intro bound parent none
    cases bound with
    | zero => rfl
    | succ bound => rw [ancestors, none]
  rw [provenance]
  cases found : program.parent? instruction with
  | none => exact stops _ _ found
  | some parent =>
      -- There is a record, so the bound allows for this step.
      obtain ⟨number, -, recorded⟩ := parent?_eq_some_iff.mp found
      obtain ⟨bound, size⟩ := Nat.exists_eq_add_one.mpr
        (List.length_pos_of_mem (List.mem_of_getElem? recorded))
      rw [size, ancestors, found]
      exact congrArg (parent :: ·) (stops bound parent (flat.parent?_parent found))

theorem walks_iff_provenance {instruction : Instruction} {origins : List Instruction} :
    program.Walks instruction origins ↔ origins = program.provenance instruction := by
  rw [flat.walks_iff, flat.provenance_eq]

theorem walkedLine_eq (number : Nat) (instruction : Instruction) :
    walkedLine number instruction (program.provenance instruction) =
      program.listingLine number instruction := by
  rw [walkedLine, listingLine, flat.provenance_eq]
  cases program.parent? instruction with
  | none => simp
  | some parent => simp [String.append_assoc]

/-- The rest of the listing, by the instructions that are left. -/
theorem lists_iff {position : Nat} {rest : List Instruction} {text : String} :
    program.Lists (position + 1) rest text ↔
      text = String.join ((rest.zipIdx position).map fun entry =>
        program.listingLine (entry.2 + 1) entry.1) := by
  induction rest generalizing position text with
  | nil =>
      constructor
      · intro lists
        cases lists
        rfl
      · rintro rfl
        exact .done
  | cons instruction rest ih =>
      rw [List.zipIdx_cons, List.map_cons, String.join_cons, ← flat.walkedLine_eq]
      constructor
      · intro lists
        cases lists with
        | line walked later => rw [flat.walks_iff_provenance.mp walked, ih.mp later]
      · rintro rfl
        exact .line (flat.walks_iff_provenance.mpr rfl) (ih.mpr rfl)

end FlatRecord

/-- Walking back through the origins ends. -/
structure WalksEnd (program : Program) : Prop where
  /-- What is recorded is synthetic and holds no number. -/
  record_flat : ∀ origin ∈ program.origins, origin.isBasic = false ∧ origin.parent = none
  /-- The walk from any instruction, of the program or not, ends and gives its origins. -/
  walk_ends : ∀ instruction origins,
    program.Walks instruction origins ↔ origins = program.provenance instruction
  one_at_most : ∀ instruction, (program.provenance instruction).length ≤ 1
  listing_ends : ∀ text, program.Lists 1 program.instructions text ↔ text = program.listing

/-- In every program that comes about, walking back from an instruction ends after at most one
step, and so the listing is finished. -/
theorem provenance_walk_ends {program : Program} (reachable : program.Reachable) :
    program.WalksEnd := by
  have flat := reachable.flatRecord
  constructor
  case record_flat => exact flat.record_flat
  case walk_ends => exact fun _ _ => flat.walks_iff_provenance
  case one_at_most =>
    intro instruction
    rw [flat.provenance_eq]
    exact Option.length_toList_le
  case listing_ends => exact fun _ => flat.lists_iff

/-- A program with a number left over from an earlier record, which finds another instruction. -/
theorem provenance_walk_ends_captured :
    (afterEdits "program" Traced.capturingEdits).Reachable ∧
      (afterEdits "program" Traced.capturingEdits).WalksEnd := by
  have fresh : Traced.FreshPushes Traced.capturingEdits := by
    intro instruction member
    simp only [Traced.capturingEdits, List.mem_cons, reduceCtorEq, Edit.push.injEq, false_or,
      or_false, List.not_mem_nil] at member
    rcases member with rfl | rfl <;> rfl
  have reachable := reachable_afterEdits "program" fresh
  exact ⟨reachable, provenance_walk_ends reachable⟩

end Program

end RegisterMachine
