import RegisterMachine.Text.Span

/-!
# Lines and columns

The map of a text is the table of the byte offsets at which its lines begin: the
first line begins at zero, and every other one behind a newline.  A binary
search in the table gives the line of an offset.  Lines and columns are counted
from one, columns in bytes.  The newline that ends a line belongs to it, and an
offset past the end of the text lies on the last line.
-/

namespace RegisterMachine

namespace Text

/-- The byte of a newline. -/
def newlineByte : UInt8 := 10

/-- Where lines begin behind some bytes, the first of which stands at `offset`. -/
def startsFrom : Nat → List UInt8 → List Nat
  | _, [] => []
  | offset, byte :: bytes =>
      if byte = newlineByte then (offset + 1) :: startsFrom (offset + 1) bytes
      else startsFrom (offset + 1) bytes

theorem lt_of_mem_startsFrom {bytes : List UInt8} {offset start : Nat}
    (member : start ∈ startsFrom offset bytes) : offset < start := by
  induction bytes generalizing offset with
  | nil => cases member
  | cons byte bytes ih =>
      rw [startsFrom] at member
      split at member
      · rcases List.mem_cons.mp member with rfl | later
        · exact Nat.lt_succ_self offset
        · exact Nat.lt_of_succ_lt (ih later)
      · exact Nat.lt_of_succ_lt (ih member)

theorem pairwise_startsFrom (bytes : List UInt8) (offset : Nat) :
    (offset :: startsFrom offset bytes).Pairwise (· < ·) := by
  refine List.pairwise_cons.mpr ⟨fun _ => lt_of_mem_startsFrom, ?_⟩
  induction bytes generalizing offset with
  | nil => exact List.Pairwise.nil
  | cons byte bytes ih =>
      rw [startsFrom]
      split
      · exact List.pairwise_cons.mpr ⟨fun _ => lt_of_mem_startsFrom, ih (offset + 1)⟩
      · exact ih (offset + 1)

/-- The characters behind the first bytes of a text.  There is no result if the text ends before or
if a character lies across that place. -/
def dropBytes : Nat → List Char → Option (List Char)
  | 0, cs => some cs
  | _ + 1, [] => none
  | count + 1, c :: cs =>
      if c.utf8Size ≤ count + 1 then dropBytes (count + 1 - c.utf8Size) cs else none

/-- The characters of the first bytes of a text, under the same condition. -/
def takeBytes : Nat → List Char → Option (List Char)
  | 0, _ => some []
  | _ + 1, [] => none
  | count + 1, c :: cs =>
      if c.utf8Size ≤ count + 1 then (takeBytes (count + 1 - c.utf8Size) cs).map (c :: ·)
      else none

/-- The part of a text from one offset up to another, if both lie between characters. -/
def slice? (start stop : Nat) (cs : List Char) : Option (List Char) :=
  if stop < start then none
  else do
    let rest ← dropBytes start cs
    takeBytes (stop - start) rest

/-- Drop a character from the end of a line as often as it is there. -/
def dropAtEnd (c : Char) (line : List Char) : List Char :=
  (line.reverse.dropWhile (· == c)).reverse

/-- Drop the carriage returns at the end of a line. -/
def dropReturns (line : List Char) : List Char :=
  dropAtEnd '\r' line

end Text

/-- A place in a text, both parts counted from one. -/
structure Position where
  line : Nat
  column : Nat
deriving DecidableEq, Repr

/-- What a search in an increasing table comes to. -/
inductive Search where
  | found (index : Nat)
  /-- The number is not in the table; here it would have to be put in. -/
  | missed (index : Nat)
deriving DecidableEq, Repr

/-- Search for a number between two places of a table, by halves. -/
def Search.between (table : Array Nat) (number low high : Nat) (within : high ≤ table.size) :
    Search :=
  if some : low < high then
    let middle := low + (high - low) / 2
    have inside : middle < table.size := by omega
    if table[middle] = number then .found middle
    else if table[middle] < number then between table number (middle + 1) high within
    else between table number low middle (by omega)
  else .missed low
termination_by high - low

/-- The offsets at which the lines of a text begin, ready for look-ups. -/
structure LineMap where
  starts : Array Nat
  first_eq : starts[0]? = some 0
  increasing : starts.toList.Pairwise (· < ·)
deriving DecidableEq, Repr

namespace LineMap

def ofString (source : String) : LineMap where
  starts := (0 :: Text.startsFrom 0 source.toUTF8.data.toList).toArray
  first_eq := rfl
  increasing := Text.pairwise_startsFrom _ 0

/-- The line of an offset, counted from zero: the one that begins there, or the last one that begins
in front of it. -/
def lineIndex (map : LineMap) (offset : Nat) : Nat :=
  match Search.between map.starts offset 0 map.starts.size (Nat.le_refl _) with
  | .found index => index
  | .missed index => index - 1

/-- The offset at which a line begins. -/
def startOf (map : LineMap) (index : Nat) : Nat :=
  map.starts[index]?.getD 0

/-- The offset at which a line of a text ends, behind its newline if it has one. -/
def stopOf (map : LineMap) (source : String) (index : Nat) : Nat :=
  if index + 1 < map.starts.size then map.startOf (index + 1) else source.utf8ByteSize

/-- The line and the column of a byte offset. -/
def lookup (map : LineMap) (offset : Nat) : Position :=
  let index := map.lineIndex offset
  ⟨index + 1, offset - map.startOf index + 1⟩

/-- The line and the column of an offset that is a word.  The column is a word as well, and behind
the last word comes zero. -/
def lookupWord (map : LineMap) (offset : UInt64) : Position :=
  let index := map.lineIndex offset.toNat
  let column := UInt64.ofNat (offset.toNat - map.startOf index) + 1
  ⟨index + 1, column.toNat⟩

/-- The text of a line without its line end; empty for a number that no line has.  There is no
result if a line cannot be cut out. -/
def lineText? (map : LineMap) (source : String) (line : Nat) : Option (List Char) :=
  if line = 0 ∨ map.starts.size < line then some []
  else do
    let whole ← Text.slice? (map.startOf (line - 1)) (map.stopOf source (line - 1)) source.toList
    return Text.dropReturns (Text.dropAtEnd '\n' whole)

/-- The text of a line as it is shown. -/
def lineText (map : LineMap) (source : String) (line : Nat) : List Char :=
  (map.lineText? source line).getD []

end LineMap

end RegisterMachine
