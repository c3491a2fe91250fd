import RegisterMachine.Text.Blank

/-!
# Error codes

Every kind of error has a stable code, a short description and a long
explanation.  A code is looked up without regard to case and to blanks around
it.
-/

namespace RegisterMachine

/-- A stable error code with its descriptions. -/
structure ErrorCode where
  code : String
  short : String
  long : String
deriving DecidableEq, Repr

namespace ErrorCode

def unexpectedCharacter : ErrorCode where
  code := "SEM-L001"
  short := "unexpected character"
  long :=
    "## SEM-L001: unexpected character\n" ++
    "\n" ++
    "A character was found that cannot start any token of the listing syntax.\n" ++
    "Programs use only `[ ] ( ) <- != + -`, numbers, names and `#` comments.\n" ++
    "\n" ++
    "**Example:**\n" ++
    "\n" ++
    "    y ← y + 1\n" ++
    "\n" ++
    "**Fix:**\n" ++
    "\n" ++
    "    y <- y + 1\n"

def unexpectedToken : ErrorCode where
  code := "SEM-P001"
  short := "unexpected token"
  long :=
    "## SEM-P001: unexpected token\n" ++
    "\n" ++
    "The line does not match any instruction form. The forms are:\n" ++
    "\n" ++
    "    V <- V          neutral\n" ++
    "    V <- V + 1      increase\n" ++
    "    V <- V - 1      decrease\n" ++
    "    IF V != 0 GOTO L\n" ++
    "    V <- 0          zero variable\n" ++
    "    GOTO L\n" ++
    "\n" ++
    "Keywords are uppercase, and registers only change by one.\n"

def mismatchedOperands : ErrorCode where
  code := "SEM-P002"
  short := "mismatched operands"
  long :=
    "## SEM-P002: mismatched operands\n" ++
    "\n" ++
    "An assignment reads one variable and writes another. Every instruction\n" ++
    "acts on a single variable.\n" ++
    "\n" ++
    "**Example:**\n" ++
    "\n" ++
    "    y <- x1 + 1\n" ++
    "\n" ++
    "**Fix:** copy through a loop, or write `y <- y + 1`.\n"

def cycleMismatch : ErrorCode where
  code := "SEM-P003"
  short := "cycle annotation mismatch"
  long :=
    "## SEM-P003: cycle annotation mismatch\n" ++
    "\n" ++
    "The optional `(n)` at the end of a line must equal the cost of the\n" ++
    "instruction: 0 for `V <- V`, 2 for `IF V != 0 GOTO L`, 1 for the rest.\n" ++
    "Drop the annotation or correct it.\n"

def unexpectedLineEnd : ErrorCode where
  code := "SEM-P004"
  short := "unexpected end of line"
  long :=
    "## SEM-P004: unexpected end of line\n" ++
    "\n" ++
    "The line ended before the instruction was complete, e.g. `GOTO` with no\n" ++
    "label or `y <-` with nothing after it. Each instruction fits on one line.\n"

def unknownInstruction : ErrorCode where
  code := "SEM-C001"
  short := "unknown instruction"
  long :=
    "## SEM-C001: unknown instruction\n" ++
    "\n" ++
    "A program document names an instruction outside the catalog. Known names:\n" ++
    "NEUTRAL, INCREASE, DECREASE, JUMP_NOT_ZERO, ZERO_VARIABLE, GOTO_LABEL.\n"

def missingOperand : ErrorCode where
  code := "SEM-C002"
  short := "missing operand"
  long :=
    "## SEM-C002: missing operand\n" ++
    "\n" ++
    "An instruction lacks a required operand. Every variant except GOTO_LABEL\n" ++
    "needs a `variable`; JUMP_NOT_ZERO needs the `JNZLabel` argument and\n" ++
    "GOTO_LABEL needs the `gotoLabel` argument.\n"

def malformedVariable : ErrorCode where
  code := "SEM-C003"
  short := "malformed variable"
  long :=
    "## SEM-C003: malformed variable\n" ++
    "\n" ++
    "Variables are `y` (output), `x1`, `x2`, ... (inputs) or `z1`, `z2`, ...\n" ++
    "(work variables). Anything else is rejected.\n"

def malformedLabel : ErrorCode where
  code := "SEM-C004"
  short := "malformed label"
  long :=
    "## SEM-C004: malformed label\n" ++
    "\n" ++
    "Labels are identifiers: a letter or underscore followed by letters,\n" ++
    "digits or underscores.\n"

def duplicateLabel : ErrorCode where
  code := "SEM-C005"
  short := "duplicate label"
  long :=
    "## SEM-C005: duplicate label\n" ++
    "\n" ++
    "Two instructions carry the same label. A label names exactly one\n" ++
    "position, so jumps to it would be ambiguous. Rename one of them.\n"

def unboundLabel : ErrorCode where
  code := "SEM-V001"
  short := "jump to unbound label"
  long :=
    "## SEM-V001: jump to unbound label\n" ++
    "\n" ++
    "An `IF V != 0 GOTO L` targets a label no instruction carries. Programs\n" ++
    "are checked before they run.\n" ++
    "\n" ++
    "**Example:**\n" ++
    "\n" ++
    "    IF x1 != 0 GOTO LOOP\n" ++
    "    y <- y + 1\n" ++
    "\n" ++
    "**Fix:** add `[LOOP]` to the instruction the jump should reach.\n"

def invalidDegree : ErrorCode where
  code := "SEM-X001"
  short := "invalid expansion degree"
  long :=
    "## SEM-X001: invalid expansion degree\n" ++
    "\n" ++
    "A program can be lowered to any degree from 0 (basic instructions only)\n" ++
    "up to its maximum degree (the program as written). Larger degrees are\n" ++
    "rejected.\n"

def unresolvedLabel : ErrorCode where
  code := "SEM-R001"
  short := "unresolved label at runtime"
  long :=
    "## SEM-R001: unresolved label at runtime\n" ++
    "\n" ++
    "A jump was taken to a label that is not bound. `GOTO L` targets are only\n" ++
    "checked when the jump executes, so a program with an unbound `GOTO`\n" ++
    "target loads but fails when that line runs.\n"

def stepLimit : ErrorCode where
  code := "SEM-R002"
  short := "step limit exceeded"
  long :=
    "## SEM-R002: step limit exceeded\n" ++
    "\n" ++
    "The run executed more instructions than the configured step limit\n" ++
    "allows. S programs may loop forever; the limit stops them. Raise it with\n" ++
    "`--step-limit` or `SEMULATOR_STEP_LIMIT`, or fix the loop.\n"

def malformedDocument : ErrorCode where
  code := "SEM-D001"
  short := "malformed program document"
  long :=
    "## SEM-D001: malformed program document\n" ++
    "\n" ++
    "A JSON program is not shaped like\n" ++
    "\n" ++
    "    \x7b\"name\": \"...\", \"instructions\": [\x7b\"name\": \"INCREASE\", \"variable\": \"y\"\x7d]\x7d\n" ++
    "\n" ++
    "or carries no name and none could be derived from the file name.\n"

def noProgram : ErrorCode where
  code := "SEM-E001"
  short := "no program loaded"
  long :=
    "## SEM-E001: no program loaded\n" ++
    "\n" ++
    "An engine operation needs a program, but none has been loaded.\n"

/-- All codes. -/
def all : List ErrorCode :=
  [unexpectedCharacter, unexpectedToken, mismatchedOperands, cycleMismatch,
   unexpectedLineEnd, unknownInstruction, missingOperand, malformedVariable, malformedLabel,
   duplicateLabel, unboundLabel, invalidDegree, unresolvedLabel, stepLimit,
   malformedDocument, noProgram]

/-- The entry of a code. -/
def lookup (code : String) : Option ErrorCode :=
  all.find? fun entry => entry.code.toUpper == (Text.trim code).toUpper

end ErrorCode

end RegisterMachine
