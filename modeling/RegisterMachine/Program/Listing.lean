import RegisterMachine.Program.Basic

/-!
# Programs as text

The source text of a program has one instruction on each line, written the way
source text is read.  The listing numbers the lines, marks the family of
each instruction and names the instructions it was expanded from.  The summary
is a short account of the whole program.
-/

namespace RegisterMachine.Program

/-- The instructions, one on a line. -/
def sourceText (program : Program) : String :=
  String.join (program.instructions.map fun instruction => instruction.render ++ "\n")

/-- One line of the listing; instructions are numbered from one. -/
def listingLine (program : Program) (number : Nat) (instruction : Instruction) : String :=
  "#" ++ Text.Decimal.written number ++ " " ++
    String.intercalate " <<< "
      ((instruction :: program.provenance instruction).map Instruction.renderTagged) ++ "\n"

/-- The numbered instructions with their origins. -/
def listing (program : Program) : String :=
  String.join (program.instructions.zipIdx.map fun (instruction, position) =>
    program.listingLine (position + 1) instruction)

/-- Some names with commas between them, or a dash when there are none. -/
def joinNames (names : List String) : String :=
  if names.isEmpty then "-" else String.intercalate ", " names

/-- Size, degree and cost of a program, its inputs and its labels. -/
def summary (program : Program) : String :=
  "program " ++ program.name ++ ": " ++ Text.Decimal.written program.length ++
    " instruction(s), max degree " ++ Text.Decimal.written program.maxDegree ++ ", " ++
    Text.Decimal.written program.staticCycles ++ " cycle(s) if each runs once\n" ++
    "inputs: " ++ joinNames program.inputs.keys ++ "\n" ++
    "labels: " ++ joinNames program.labels.keys ++ "\n"

end RegisterMachine.Program
