/-!
# Quoted text in JSON

Between its quotes a JSON string is a row of units: a character that stands for
itself, a character named by a short escape, or a 16-bit code written with four
hexadecimal digits.  Two codes that form a surrogate pair stand for one
character; a string with an unpaired surrogate stands for no text at all.

Writing uses the short escapes where they exist and the long form for the other
control characters; every other character is written as it is.
-/

namespace RegisterMachine.Json

/-- A unit of a quoted string. -/
inductive StringUnit where
  | char (c : Char)
  | code (value : Nat)
deriving DecidableEq, Repr

/-- The value of a hexadecimal digit. -/
def hexValue (c : Char) : Option Nat :=
  if '0' ≤ c ∧ c ≤ '9' then some (c.toNat - '0'.toNat)
  else if 'a' ≤ c ∧ c ≤ 'f' then some (c.toNat - 'a'.toNat + 10)
  else if 'A' ≤ c ∧ c ≤ 'F' then some (c.toNat - 'A'.toNat + 10)
  else none

/-- The value of four hexadecimal digits. -/
def hexCode (a b c d : Char) : Option Nat := do
  let a ← hexValue a
  let b ← hexValue b
  let c ← hexValue c
  let d ← hexValue d
  return 4096 * a + 256 * b + 16 * c + d

/-- The character of a short escape. -/
def shortEscape (c : Char) : Option Char :=
  if c = '"' ∨ c = '\\' ∨ c = '/' then some c
  else if c = 'b' then some '\x08'
  else if c = 'f' then some '\x0c'
  else if c = 'n' then some '\n'
  else if c = 'r' then some '\r'
  else if c = 't' then some '\t'
  else none

/-- The units up to the closing quote, and the text after it. -/
def takeUnits : List Char → Option (List StringUnit × List Char)
  | [] => none
  | '"' :: rest => some ([], rest)
  | '\\' :: 'u' :: a :: b :: c :: d :: rest => do
      let code ← hexCode a b c d
      let (units, rest) ← takeUnits rest
      return (.code code :: units, rest)
  | '\\' :: c :: rest => do
      let c ← shortEscape c
      let (units, rest) ← takeUnits rest
      return (.char c :: units, rest)
  | c :: rest =>
      if c.toNat < 0x20 ∨ c = '\\' then none
      else do
        let (units, rest) ← takeUnits rest
        return (.char c :: units, rest)

/-- What follows a quoted string is shorter than what began it. -/
theorem length_lt_of_takeUnits {cs rest : List Char} {units : List StringUnit}
    (taken : takeUnits cs = some (units, rest)) : rest.length < cs.length := by
  fun_induction takeUnits cs generalizing units rest with
  | case1 => simp at taken
  | case2 tail =>
      simp only [Option.some.injEq, Prod.mk.injEq] at taken
      simp [← taken.2]
  | case3 a b c d tail ih =>
      simp only [Option.bind_eq_bind, Option.bind_eq_some_iff] at taken
      obtain ⟨code, -, ⟨units', rest'⟩, inner, same⟩ := taken
      simp only [Option.pure_def, Option.some.injEq, Prod.mk.injEq] at same
      have shorter := ih inner
      simp only [List.length_cons, ← same.2]
      omega
  | case4 c tail _ ih =>
      simp only [Option.bind_eq_bind, Option.bind_eq_some_iff] at taken
      obtain ⟨escaped, -, ⟨units', rest'⟩, inner, same⟩ := taken
      simp only [Option.pure_def, Option.some.injEq, Prod.mk.injEq] at same
      have shorter := ih inner
      simp only [List.length_cons, ← same.2]
      omega
  | case5 => simp at taken
  | case6 c tail _ _ _ _ ih =>
      simp only [Option.bind_eq_bind, Option.bind_eq_some_iff] at taken
      obtain ⟨⟨units', rest'⟩, inner, same⟩ := taken
      simp only [Option.pure_def, Option.some.injEq, Prod.mk.injEq] at same
      have shorter := ih inner
      simp only [List.length_cons, ← same.2]
      omega

/-- The first half of a surrogate pair. -/
def isHighSurrogate (code : Nat) : Bool :=
  0xD800 ≤ code && code ≤ 0xDBFF

/-- The second half of a surrogate pair. -/
def isLowSurrogate (code : Nat) : Bool :=
  0xDC00 ≤ code && code ≤ 0xDFFF

/-- The character of a surrogate pair. -/
def ofSurrogates (high low : Nat) : Char :=
  Char.ofNat (0x10000 + 0x400 * (high - 0xD800) + (low - 0xDC00))

/-- The text that some units stand for, if every surrogate has its partner. -/
def textOfUnits : List StringUnit → Option (List Char)
  | [] => some []
  | .char c :: units => (textOfUnits units).map (c :: ·)
  | .code high :: .code low :: units =>
      if isHighSurrogate high then
        if isLowSurrogate low then (textOfUnits units).map (ofSurrogates high low :: ·) else none
      else if isLowSurrogate high then none
      else (textOfUnits (.code low :: units)).map (Char.ofNat high :: ·)
  | .code value :: units =>
      if isHighSurrogate value || isLowSurrogate value then none
      else (textOfUnits units).map (Char.ofNat value :: ·)

/-- A character as it is written between quotes. -/
def escape (c : Char) : List Char :=
  if c = '"' then ['\\', '"']
  else if c = '\\' then ['\\', '\\']
  else if c = '\n' then ['\\', 'n']
  else if c = '\r' then ['\\', 'r']
  else if c = '\t' then ['\\', 't']
  else if c = '\x08' then ['\\', 'b']
  else if c = '\x0c' then ['\\', 'f']
  else if c.toNat < 0x20 then
    ['\\', 'u', '0', '0', Nat.digitChar (c.toNat / 16), Nat.digitChar (c.toNat % 16)]
  else [c]

/-- A text as a JSON string. -/
def quote (text : List Char) : List Char :=
  '"' :: text.flatMap escape ++ ['"']

end RegisterMachine.Json
