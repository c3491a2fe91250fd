import RegisterMachine.Proofs.LoweringPass
import RegisterMachine.Proofs.TokenStream

/-!
# Names in lowered programs

Lowering puts new instructions in the place of old ones.  What all instructions
have, and what the replacement of an instruction takes over from it, the lowered
program has too.  In particular labels and targets go on to pass every check that
the labels handed out by lowering pass, and variables go on to be variables.
-/

namespace RegisterMachine

namespace Program

/-! ## What lowering takes over -/

section Inherited

variable {good : Instruction → Prop}

theorem forall_mem_foldl_append {program : Program}
    (all : ∀ instruction ∈ program.instructions, good instruction) {more : List Instruction}
    (last : ∀ instruction ∈ more, good instruction) :
    ∀ instruction ∈ (more.foldl append program).instructions, good instruction := by
  intro instruction member
  rw [instructions_foldl_append, List.mem_append] at member
  exact member.elim (all instruction) (last instruction)

variable (adopted : ∀ instruction parent, good instruction → good { instruction with parent })
  (expanded : ∀ instruction supply body rest, good instruction →
    instruction.expand supply = some (body, rest) → ∀ child ∈ body, good child)

include adopted expanded

theorem Pass.forall_mem_step {target : Nat} {pass : Pass}
    (all : ∀ instruction ∈ pass.lowered.instructions, good instruction)
    {instruction : Instruction} (next : good instruction) :
    ∀ child ∈ (pass.step target instruction).lowered.instructions, good child := by
  unfold step
  dsimp only
  split
  · next body supply expansion =>
      rw [Option.ite_none_right_eq_some] at expansion
      have recorded : ∀ child ∈ (pass.lowered.recordOrigin instruction).instructions,
          good child := all
      rw [appendExpansion_eq]
      refine forall_mem_foldl_append recorded fun child member => ?_
      obtain ⟨original, inBody, rfl⟩ := List.mem_map.mp member
      exact adopted original _ (expanded instruction _ body supply next expansion.2 _ inBody)
  · intro child member
    rw [instructions_append, List.mem_append, List.mem_singleton] at member
    rcases member with earlier | rfl
    · exact all child earlier
    · exact next

theorem forall_mem_lowerOnce {program : Program} (target : Nat)
    (all : ∀ instruction ∈ program.instructions, good instruction) :
    ∀ child ∈ (program.lowerOnce target).instructions, good child := by
  have run : ∀ (instructions : List Instruction) (pass : Pass),
      (∀ instruction ∈ instructions, good instruction) →
        (∀ child ∈ pass.lowered.instructions, good child) →
          ∀ child ∈ (instructions.foldl (Pass.step target) pass).lowered.instructions,
            good child := by
    intro instructions
    induction instructions with
    | nil => exact fun pass _ before => before
    | cons instruction instructions ih =>
        intro pass all before
        rw [List.forall_mem_cons] at all
        exact ih _ all.2 (Pass.forall_mem_step adopted expanded before all.1)
  exact run _ _ all (List.forall_mem_nil _)

/-- What all instructions have, all instructions of the lowered program have, provided that the
replacement of an instruction takes it over. -/
theorem forall_mem_lowerTo {program lowered : Program} {degree : Nat}
    (lowering : program.lowerTo degree = .ok lowered)
    (all : ∀ instruction ∈ program.instructions, good instruction) :
    ∀ child ∈ lowered.instructions, good child := by
  have passes : ∀ (bound : Nat) (program : Program),
      (∀ instruction ∈ program.instructions, good instruction) →
        ∀ child ∈ (lowerPasses degree bound program).instructions, good child := by
    intro bound
    induction bound with
    | zero => exact fun program all => all
    | succ bound ih =>
        intro program all
        rw [lowerPasses]
        split
        · exact ih _ (forall_mem_lowerOnce adopted expanded degree all)
        · exact all
  unfold lowerTo at lowering
  split at lowering
  · cases lowering
  · rw [← Except.ok.inj lowering]
    exact passes _ _ all

end Inherited

end Program

/-! ## Names -/

/-- The work variables that lowering hands out are variables. -/
theorem isVariableName_numbered_work (number : Nat) :
    isVariableName (numbered workLetter number) = true := by
  have digits := Token.isNumeral_toDigits number
  rw [Text.Decimal.isNumeral] at digits
  rw [isVariableName, numbered, String.toList_ofList, isVariable, Bool.and_assoc, digits]
  rfl

namespace Instruction

/-- Label and target pass a check on names, and the variable is one. -/
structure NamedBy (isName : String → Bool) (instruction : Instruction) : Prop where
  label_named : ∀ label, instruction.label = some label → isName label = true
  var_named : ∀ var, instruction.var? = some var → isVariableName var = true
  target_named : ∀ target, instruction.target? = some target → isName target = true

theorem NamedBy.mono {isName isOther : String → Bool} {instruction : Instruction}
    (named : instruction.NamedBy isName)
    (weaker : ∀ name, isName name = true → isOther name = true) : instruction.NamedBy isOther where
  label_named label carried := weaker label (named.label_named label carried)
  var_named := named.var_named
  target_named target jumps := weaker target (named.target_named target jumps)

/-- The code that replaces an instruction has no names that fail the check. -/
theorem NamedBy.expand {isName : String → Bool}
    (loops : ∀ number, isName (numbered labelLetter number) = true)
    {instruction child : Instruction} {supply rest : NameSupply} {body : List Instruction}
    (named : instruction.NamedBy isName)
    (expanded : instruction.expand supply = some (body, rest)) (member : child ∈ body) :
    child.NamedBy isName := by
  unfold Instruction.expand at expanded
  cases op : instruction.op with
  | zero var =>
      have operand : isVariableName var = true := named.var_named var (by rw [var?, op]; rfl)
      obtain ⟨head, passes, rfl⟩ : ∃ head, isName head = true ∧
          body = [{ op := .decrease var, label := some head },
            { op := .jumpNotZero var head }] := by
        simp only [op, Option.some.injEq, Prod.mk.injEq] at expanded
        cases carried : instruction.label with
        | some label =>
            rw [carried] at expanded
            exact ⟨label, named.label_named label carried, expanded.1.symm⟩
        | none =>
            rw [carried] at expanded
            exact ⟨supply.freshLabel.1, loops _, expanded.1.symm⟩
      simp only [List.mem_cons, List.not_mem_nil, or_false] at member
      rcases member with rfl | rfl
      · constructor <;> simp [var?, target?, Op.var?, Op.target?, operand, passes]
      · constructor <;> simp [var?, target?, Op.var?, Op.target?, operand, passes]
  | goto target =>
      have passes : isName target = true := named.target_named target (by rw [target?, op]; rfl)
      have operand : isVariableName supply.freshWork.1 = true := isVariableName_numbered_work _
      simp only [op, Option.some.injEq, Prod.mk.injEq] at expanded
      rw [← expanded.1] at member
      simp only [List.mem_cons, List.not_mem_nil, or_false] at member
      rcases member with rfl | rfl
      · refine ⟨named.label_named, ?_, ?_⟩ <;>
          simp [var?, target?, Op.var?, Op.target?, operand]
      · constructor <;> simp [var?, target?, Op.var?, Op.target?, operand, passes]
  | neutral _ | increase _ | decrease _ | jumpNotZero _ _ => simp [op] at expanded

end Instruction

/-- Lowering keeps up every check on names that the labels it hands out pass. -/
theorem Program.namedBy_lowerTo {isName : String → Bool}
    (loops : ∀ number, isName (numbered labelLetter number) = true)
    {program lowered : Program} {degree : Nat}
    (lowering : program.lowerTo degree = .ok lowered)
    (named : ∀ instruction ∈ program.instructions, instruction.NamedBy isName) :
    ∀ instruction ∈ lowered.instructions, instruction.NamedBy isName :=
  forall_mem_lowerTo (fun _ _ ⟨label, var, target⟩ => ⟨label, var, target⟩)
    (fun _ _ _ _ named expanded _ member => named.expand loops expanded member) lowering named

end RegisterMachine
