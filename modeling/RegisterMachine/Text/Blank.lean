/-!
# Blank characters

A character is blank when it has the Unicode property `White_Space`.  Trimming
removes the blank characters at both ends of a text and leaves the inside
alone; a text of blank characters only trims to the empty text.
-/

namespace RegisterMachine.Text

/-- The code points with the property `White_Space`, as closed ranges in increasing order. -/
def blankRanges : List (Nat × Nat) :=
  [(0x09, 0x0D), (0x20, 0x20), (0x85, 0x85), (0xA0, 0xA0), (0x1680, 0x1680),
   (0x2000, 0x200A), (0x2028, 0x2029), (0x202F, 0x202F), (0x205F, 0x205F),
   (0x3000, 0x3000)]

/-- Membership in one of the blank ranges. -/
def isBlank (c : Char) : Bool :=
  blankRanges.any fun range => range.1 ≤ c.toNat && c.toNat ≤ range.2

/-- Drop the blank characters at the end of a text. -/
def trimEnd (cs : List Char) : List Char :=
  (cs.reverse.dropWhile isBlank).reverse

/-- Drop the blank characters at both ends of a text. -/
def trimChars (cs : List Char) : List Char :=
  trimEnd (cs.dropWhile isBlank)

@[simp] theorem trimChars_nil : trimChars [] = [] := rfl

/-- Trimming removes nothing but blank characters at the two ends. -/
theorem trimChars_split (cs : List Char) :
    ∃ front back, cs = front ++ trimChars cs ++ back ∧
      front.all isBlank = true ∧ back.all isBlank = true := by
  have whole := List.takeWhile_append_dropWhile (p := isBlank) (l := cs)
  have reversed := List.takeWhile_append_dropWhile (p := isBlank)
    (l := (cs.dropWhile isBlank).reverse)
  refine ⟨cs.takeWhile isBlank,
    ((cs.dropWhile isBlank).reverse.takeWhile isBlank).reverse, ?_, ?_, ?_⟩
  · have behind : cs.dropWhile isBlank =
        trimChars cs ++ ((cs.dropWhile isBlank).reverse.takeWhile isBlank).reverse := by
      rw [trimChars, trimEnd, ← List.reverse_append, reversed, List.reverse_reverse]
    rw [List.append_assoc, ← behind, whole]
  · exact List.all_takeWhile
  · rw [List.all_reverse]
    exact List.all_takeWhile

/-- A text without blank characters is its own trimmed form. -/
theorem trimChars_of_no_blank {cs : List Char} (clear : ∀ c ∈ cs, isBlank c = false) :
    trimChars cs = cs := by
  have kept : ∀ ds : List Char, (∀ c ∈ ds, isBlank c = false) → ds.dropWhile isBlank = ds := by
    intro ds clear
    cases ds with
    | nil => rfl
    | cons d ds => simp [clear d]
  rw [trimChars, trimEnd, kept cs clear, kept cs.reverse (by simpa using clear),
    List.reverse_reverse]

/-- Drop the blank characters at both ends of a string. -/
def trim (s : String) : String :=
  String.ofList (trimChars s.toList)

/-- What is left of an optional text after trimming; a blank text counts as absent. -/
def present (s : Option String) : Option String :=
  (s.map trim).filter fun t => t != ""

end RegisterMachine.Text
