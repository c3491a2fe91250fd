/-!
# Names

A program names two kinds of things.  Variables are `y`, the output, `x`
followed by digits, an input, and `z` followed by digits, a work variable.
Labels are identifiers: a letter or an underscore followed by letters, digits
and underscores.  All letters and digits are ASCII.
-/

namespace RegisterMachine

/-- The characters an identifier can begin with. -/
def isNameStart (c : Char) : Bool :=
  c.isAlpha || c == '_'

/-- The characters an identifier can go on with. -/
def isNameChar (c : Char) : Bool :=
  c.isAlphanum || c == '_'

theorem isNameChar_of_isNameStart {c : Char} (start : isNameStart c = true) :
    isNameChar c = true := by
  simp only [isNameStart, isNameChar, Char.isAlphanum, Bool.or_eq_true] at start ⊢
  rcases start with letter | underscore
  · exact Or.inl (Or.inl letter)
  · exact Or.inr underscore

/-- The shape of an identifier. -/
def isIdentifier : List Char → Bool
  | [] => false
  | c :: cs => isNameStart c && cs.all isNameChar

/-- A name that can label an instruction. -/
def isLabelName (name : String) : Bool :=
  isIdentifier name.toList

/-- The output variable. -/
def outputVariable : String := "y"

/-- The first letter of every input variable. -/
def inputLetter : Char := 'x'

/-- The first letter of every work variable. -/
def workLetter : Char := 'z'

/-- The shape of a variable: `y`, or `x` or `z` and at least one digit. -/
def isVariable : List Char → Bool
  | [] => false
  | c :: cs =>
      (c == 'y' && cs.isEmpty) ||
        ((c == inputLetter || c == workLetter) && !cs.isEmpty && cs.all Char.isDigit)

/-- A name that an instruction can operate on. -/
def isVariableName (name : String) : Bool :=
  isVariable name.toList

/-- Every variable has the shape of a label. -/
theorem isIdentifier_of_isVariable {cs : List Char} (shaped : isVariable cs = true) :
    isIdentifier cs = true := by
  cases cs with
  | nil => simp [isVariable] at shaped
  | cons c cs =>
      simp only [isVariable, Bool.or_eq_true, Bool.and_eq_true, beq_iff_eq] at shaped
      simp only [isIdentifier, Bool.and_eq_true]
      rcases shaped with ⟨rfl, alone⟩ | ⟨⟨letter, -⟩, digits⟩
      · rw [List.isEmpty_iff.mp alone]
        exact ⟨by decide, rfl⟩
      · refine ⟨?_, ?_⟩
        · rcases letter with rfl | rfl <;> decide
        · simp only [List.all_eq_true] at digits ⊢
          intro d member
          simp [isNameChar, Char.isAlphanum, digits d member]

/-- Whether a name begins with a given letter. -/
def startsWith (letter : Char) (name : String) : Bool :=
  name.toList.head? == some letter

/-- A letter followed by a number in decimal. -/
def numbered (letter : Char) (n : Nat) : String :=
  String.ofList (letter :: Nat.toDigits 10 n)

/-- Different numbers give different names. -/
theorem numbered_injective (letter : Char) {m n : Nat}
    (same : numbered letter m = numbered letter n) : m = n := by
  have digits := congrArg String.toList same
  simp only [numbered, String.toList_ofList, List.cons.injEq, true_and] at digits
  have value := congrArg (fun digits => Nat.ofDigitChars 10 digits 0) digits
  simpa [Nat.ofDigitChars_toDigits] using value

end RegisterMachine
