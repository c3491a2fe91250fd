/-!
# Byte spans

Positions in a text are byte offsets in its UTF-8 form.  A span is a half-open
range of offsets; a reversed range is an empty span.
-/

namespace RegisterMachine

namespace Text

/-- The number of bytes a run of characters takes in UTF-8. -/
def byteLength : List Char → Nat
  | [] => 0
  | c :: cs => c.utf8Size + byteLength cs

@[simp] theorem byteLength_nil : byteLength [] = 0 := rfl

@[simp] theorem byteLength_cons (c : Char) (cs : List Char) :
    byteLength (c :: cs) = c.utf8Size + byteLength cs := rfl

@[simp] theorem byteLength_append (cs ds : List Char) :
    byteLength (cs ++ ds) = byteLength cs + byteLength ds := by
  induction cs with
  | nil => simp
  | cons c cs ih => simp [ih, Nat.add_assoc]

/-- A text is at least as long in bytes as in characters. -/
theorem length_le_byteLength (cs : List Char) : cs.length ≤ byteLength cs := by
  induction cs with
  | nil => simp
  | cons c cs ih =>
      have positive := c.utf8Size_pos
      simp only [List.length_cons, byteLength_cons]
      omega

end Text

/-- A range of byte offsets, from `start` up to but not including `stop`. -/
structure Span where
  start : Nat
  stop : Nat
deriving DecidableEq, Repr

namespace Span

/-- Width in bytes. -/
def length (span : Span) : Nat :=
  span.stop - span.start

def isEmpty (span : Span) : Bool :=
  span.length == 0

/-- The empty span at one offset. -/
def point (offset : Nat) : Span :=
  ⟨offset, offset⟩

/-- The least span that holds both. -/
def merge (a b : Span) : Span :=
  ⟨min a.start b.start, max a.stop b.stop⟩

@[simp] theorem merge_self (a : Span) : a.merge a = a := by
  simp [merge]

end Span

end RegisterMachine
