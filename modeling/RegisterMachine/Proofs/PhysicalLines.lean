import RegisterMachine.Proofs.LinePlaces
import RegisterMachine.Proofs.TokenStream
import RegisterMachine.Text.LineMap

/-!
# The lines of a text and their tokens

A text is a last line, or a line with its newline and a text behind it.  No token
and no comment goes past a newline, so the tokens of a text are the tokens of its
lines with a newline token between them, each line scanned by itself.  A place in
a line is looked up as that line, and a place further on is not looked up as an
earlier line.
-/

namespace RegisterMachine

namespace Text

/-- The lines of a text, without the newlines between them. -/
def lines : List Char → List (List Char)
  | [] => [[]]
  | c :: cs =>
      if c = '\n' then [] :: lines cs
      else match lines cs with
        | [] => [[c]]
        | line :: rest => (c :: line) :: rest

/-- The line and the column of an offset among some lines, both counted from zero. -/
def locate : List (List Char) → Nat → Nat × Nat
  | line :: next :: rest, offset =>
      if offset ≤ byteLength line then (0, offset)
      else
        let position := locate (next :: rest) (offset - (byteLength line + 1))
        (position.1 + 1, position.2)
  | _, offset => (0, offset)

theorem lines_ne_nil (cs : List Char) : lines cs ≠ [] := by
  cases cs with
  | nil => simp [lines]
  | cons c cs =>
      rw [lines]
      split
      · simp
      · split <;> simp

/-- Some lines, each but the last with the newline that ends it. -/
def endLines : List (List Char) → List (List Char)
  | line :: next :: rest => (line ++ ['\n']) :: endLines (next :: rest)
  | lines => lines

/-- The lines of a text, each with the newline that ends it; the last one has none. -/
def physicalLines (cs : List Char) : List (List Char) :=
  endLines (lines cs)

/-- The bytes of a text are the bytes of its characters. -/
theorem utf8ByteSize_ofList (cs : List Char) : (String.ofList cs).utf8ByteSize = byteLength cs := by
  induction cs with
  | nil => rfl
  | cons c cs ih =>
      rw [String.ofList_cons, String.utf8ByteSize_append, String.utf8ByteSize_singleton, ih,
        byteLength_cons]

theorem byteLength_append_newline (line rest : List Char) :
    byteLength (line ++ '\n' :: rest) = byteLength line + 1 + byteLength rest := by
  rw [byteLength_append, byteLength_cons, Nat.add_assoc]
  rfl

/-- A text is a last line, or a line, its newline and a text. -/
theorem line_induction {motive : List Char → Prop}
    (last : ∀ line, '\n' ∉ line → motive line)
    (next : ∀ line rest, '\n' ∉ line → motive rest → motive (line ++ '\n' :: rest))
    (cs : List Char) : motive cs := by
  induction size : cs.length using Nat.strongRecOn generalizing cs with
  | ind bound ih =>
      by_cases several : '\n' ∈ cs
      · obtain ⟨line, rest, rfl, single⟩ := List.eq_append_cons_of_mem several
        have shorter : rest.length < bound := by
          rw [← size, List.length_append, List.length_cons]
          omega
        exact next line rest single (ih _ shorter rest rfl)
      · exact last cs several

theorem lines_of_single {line : List Char} (single : '\n' ∉ line) : lines line = [line] := by
  induction line with
  | nil => rfl
  | cons c line ih =>
      rw [List.mem_cons, not_or] at single
      rw [lines, if_neg (Ne.symm single.1), ih single.2]

theorem lines_append {line : List Char} (single : '\n' ∉ line) (rest : List Char) :
    lines (line ++ '\n' :: rest) = line :: lines rest := by
  induction line with
  | nil => simp [lines]
  | cons c line ih =>
      rw [List.mem_cons, not_or] at single
      rw [List.cons_append, lines, if_neg (Ne.symm single.1), ih single.2]

theorem physicalLines_of_single {line : List Char} (single : '\n' ∉ line) :
    physicalLines line = [line] := by
  rw [physicalLines, lines_of_single single]
  rfl

theorem physicalLines_append {line : List Char} (single : '\n' ∉ line) (rest : List Char) :
    physicalLines (line ++ '\n' :: rest) = (line ++ ['\n']) :: physicalLines rest := by
  obtain ⟨next, more, found⟩ := List.exists_cons_of_ne_nil (lines_ne_nil rest)
  rw [physicalLines, physicalLines, lines_append single, found]
  rfl

/-! ## Places in lines -/

/-- A place in the first of some lines, or at its end, is found there. -/
theorem locate_line {line : List Char} {rest : List (List Char)} {offset : Nat}
    (inside : offset ≤ byteLength line) : locate (line :: rest) offset = (0, offset) := by
  cases rest with
  | nil => rfl
  | cons next rest => rw [locate, if_pos inside]

/-- A place behind the newline of the first line is found among the others. -/
theorem locate_below {line : List Char} {rest : List (List Char)} {offset : Nat}
    (several : rest ≠ []) : locate (line :: rest) (byteLength line + 1 + offset) =
      ((locate rest offset).1 + 1, (locate rest offset).2) := by
  cases rest with
  | nil => exact absurd rfl several
  | cons next rest =>
      have behind : ¬ byteLength line + 1 + offset ≤ byteLength line := by omega
      rw [locate, if_neg behind, Nat.add_sub_cancel_left]

theorem locate_first {line : List Char} {rest : List (List Char)} {offset : Nat}
    (inside : offset ≤ byteLength line) : (locate (line :: rest) offset).1 = 0 :=
  congrArg Prod.fst (locate_line inside)

theorem locate_behind {line : List Char} {rest : List (List Char)} {offset : Nat}
    (several : rest ≠ []) : (locate (line :: rest) (byteLength line + 1 + offset)).1 =
      (locate rest offset).1 + 1 :=
  congrArg Prod.fst (locate_below several)

/-- A place further on does not lie on an earlier line. -/
theorem locate_mono (lines : List (List Char)) {first second : Nat} (order : first ≤ second) :
    (locate lines first).1 ≤ (locate lines second).1 := by
  induction lines generalizing first second with
  | nil => exact Nat.le_refl 0
  | cons line lines ih =>
      cases lines with
      | nil => exact Nat.le_refl 0
      | cons next rest =>
          rw [locate, locate]
          split
          · exact Nat.zero_le _
          · rw [if_neg (by omega)]
            exact Nat.succ_le_succ (ih (by omega))

end Text

namespace Token

/-! ## Pieces of a line -/

/-- A run that stops at newlines does not see what comes behind one. -/
theorem run_append_newline {more : Char → Bool} (read : List Char → Reading) (c : Char)
    (cs rest : List Char) (stops : more '\n' = false) :
    run more read c (cs ++ '\n' :: rest) =
      { run more read c cs with rest := (run more read c cs).rest ++ '\n' :: rest } := by
  have split : cs ++ '\n' :: rest = cs.takeWhile more ++ (cs.dropWhile more ++ '\n' :: rest) := by
    rw [← List.append_assoc, List.takeWhile_append_dropWhile]
  have ends : ∀ d, (cs.dropWhile more ++ '\n' :: rest).head? = some d → more d = false := by
    intro d head
    have other := List.head?_dropWhile_not more cs
    cases dropped : cs.dropWhile more with
    | nil =>
        rw [dropped] at head
        cases head
        exact stops
    | cons e es =>
        rw [dropped] at head other
        cases head
        simpa using other
  rw [split, run_append List.all_takeWhile ends]
  rfl

theorem signPiece_append_newline (c : Char) (cs rest : List Char) :
    signPiece c (cs ++ '\n' :: rest) =
      { signPiece c cs with rest := (signPiece c cs).rest ++ '\n' :: rest } := by
  -- A newline is no second half of a sign.
  cases cs with
  | nil =>
      rw [List.nil_append]
      unfold signPiece
      split <;> simp_all
  | cons d cs =>
      rw [List.cons_append]
      unfold signPiece
      split <;> simp_all

/-- The first piece of a line does not depend on what comes behind its newline. -/
theorem firstPiece_append_newline (c : Char) (cs rest : List Char) :
    firstPiece c (cs ++ '\n' :: rest) =
      { firstPiece c cs with rest := (firstPiece c cs).rest ++ '\n' :: rest } := by
  unfold firstPiece
  split
  · exact run_append_newline _ c cs rest rfl
  · split
    · exact run_append_newline _ c cs rest rfl
    · split
      · exact run_append_newline _ c cs rest rfl
      · split
        · exact run_append_newline _ c cs rest rfl
        · exact signPiece_append_newline c cs rest

theorem byteLength_firstPiece (c : Char) (cs : List Char) :
    Text.byteLength (firstPiece c cs).text + Text.byteLength (firstPiece c cs).rest =
      Text.byteLength (c :: cs) := by
  rw [← Text.byteLength_append, firstPiece_text_append_rest]

theorem sign_eq_lineEnd {c : Char} (read : sign c = .token .lineEnd) : c = '\n' := by
  unfold sign at read
  repeat' split at read
  all_goals first | assumption | cases read

/-- Only a newline is read as one. -/
theorem firstPiece_eq_lineEnd {c : Char} {cs : List Char}
    (read : (firstPiece c cs).reading = .token .lineEnd) : c = '\n' := by
  unfold firstPiece at read
  split at read
  · cases read
  · split at read
    · cases read
    · split at read
      · simp only [run, readNumber] at read
        split at read <;> cases read
      · split at read
        · simp only [run, ofWord] at read
          repeat' split at read
          all_goals cases read
        · unfold signPiece at read
          split at read
          · cases read
          · cases read
          · exact sign_eq_lineEnd read

/-! ## Scanning line by line -/

/-- A text that begins at byte `offset` is cut into these tokens, piece by piece. -/
inductive Scans : Nat → List Char → List Lexeme → Prop
  | nil {offset : Nat} : Scans offset [] []
  | gap {offset : Nat} {c : Char} {cs : List Char} {lexemes : List Lexeme}
      (read : (firstPiece c cs).reading = .gap)
      (behind : Scans (offset + Text.byteLength (firstPiece c cs).text) (firstPiece c cs).rest
        lexemes) : Scans offset (c :: cs) lexemes
  | token {offset : Nat} {c : Char} {cs : List Char} {lexemes : List Lexeme} {token : Token}
      (read : (firstPiece c cs).reading = .token token)
      (behind : Scans (offset + Text.byteLength (firstPiece c cs).text) (firstPiece c cs).rest
        lexemes) :
      Scans offset (c :: cs)
        (⟨token, ⟨offset, offset + Text.byteLength (firstPiece c cs).text⟩⟩ :: lexemes)

theorem scan_eq_ok_iff {offset : Nat} {cs : List Char} {lexemes : List Lexeme} :
    scan offset cs = .ok lexemes ↔ Scans offset cs lexemes := by
  constructor
  · intro scanned
    fun_induction scan offset cs generalizing lexemes
    case case1 =>
      cases scanned
      exact .nil
    case case2 offset c cs piece stop read ih => exact .gap read (ih scanned)
    case case3 offset c cs piece stop token read ih =>
      cases below : scan stop piece.rest with
      | error error =>
          rw [below] at scanned
          cases scanned
      | ok more =>
          rw [below] at scanned
          cases scanned
          exact .token read (ih below)
    case case4 => cases scanned
  · intro scans
    induction scans with
    | nil => rw [scan]
    | gap read behind ih =>
        rw [scan, read]
        exact ih
    | token read behind ih =>
        rw [scan, read]
        simp only [ih]
        rfl

/-- The token of a newline at byte `offset`. -/
def newlineAt (offset : Nat) : Lexeme :=
  ⟨.lineEnd, ⟨offset, offset + 1⟩⟩

namespace Scans

/-- The tokens before a newline and those behind it are scanned apart. -/
theorem split_at_newline {offset : Nat} {line rest : List Char} {lexemes : List Lexeme}
    (scans : Scans offset (line ++ '\n' :: rest) lexemes) :
    ∃ front back, Scans offset line front ∧
      Scans (offset + Text.byteLength line + 1) rest back ∧
        lexemes = front ++ newlineAt (offset + Text.byteLength line) :: back := by
  generalize text : line ++ '\n' :: rest = cs at scans
  induction scans generalizing line with
  | nil => simp at text
  | @gap offset c cs lexemes read behind ih =>
      cases line with
      | nil =>
          cases text
          cases read
      | cons d line =>
          rw [List.cons_append, List.cons.injEq] at text
          obtain ⟨rfl, rfl⟩ := text
          rw [firstPiece_append_newline] at read ih
          obtain ⟨front, back, first, second, rfl⟩ := ih rfl
          rw [Nat.add_assoc offset, byteLength_firstPiece] at second
          refine ⟨front, back, .gap read first, second, ?_⟩
          rw [Nat.add_assoc offset, byteLength_firstPiece]
  | @token offset c cs lexemes token read behind ih =>
      cases line with
      | nil =>
          cases text
          cases read
          exact ⟨[], lexemes, .nil, behind, rfl⟩
      | cons d line =>
          rw [List.cons_append, List.cons.injEq] at text
          obtain ⟨rfl, rfl⟩ := text
          rw [firstPiece_append_newline] at read ih
          obtain ⟨front, back, first, second, rfl⟩ := ih rfl
          rw [Nat.add_assoc offset, byteLength_firstPiece] at second
          refine ⟨_ :: front, back, .token read first, second, ?_⟩
          rw [Nat.add_assoc offset, byteLength_firstPiece, firstPiece_append_newline]
          rfl

/-- Two texts that are scanned are scanned with a newline between them. -/
theorem join_at_newline {offset : Nat} {line rest : List Char} {front back : List Lexeme}
    (first : Scans offset line front)
    (second : Scans (offset + Text.byteLength line + 1) rest back) :
    Scans offset (line ++ '\n' :: rest)
      (front ++ newlineAt (offset + Text.byteLength line) :: back) := by
  induction first with
  | @nil offset => exact @token offset '\n' rest back .lineEnd rfl second
  | @gap offset c cs front read behind ih =>
      rw [← byteLength_firstPiece c cs, ← Nat.add_assoc offset] at second ⊢
      have piece := firstPiece_append_newline c cs rest
      rw [List.cons_append]
      exact .gap (by rw [piece]; exact read) (by rw [piece]; exact ih second)
  | @token offset c cs front token read behind ih =>
      rw [← byteLength_firstPiece c cs, ← Nat.add_assoc offset] at second ⊢
      have piece := firstPiece_append_newline c cs rest
      have scans := @Scans.token offset c (cs ++ '\n' :: rest) _ token
        (by rw [piece]; exact read) (by rw [piece]; exact ih second)
      rw [piece] at scans
      exact scans

/-- Scanning from elsewhere only moves the tokens. -/
theorem exists_of_shift {distance offset : Nat} {cs : List Char} {lexemes : List Lexeme}
    (scans : Scans (distance + offset) cs lexemes) :
    ∃ alone, Scans offset cs alone ∧ lexemes = alone.map (Lexeme.shift distance) := by
  generalize place : distance + offset = start at scans
  induction scans generalizing offset with
  | nil => exact ⟨[], .nil, rfl⟩
  | @gap start c cs lexemes read behind ih =>
      subst place
      obtain ⟨alone, scans, rfl⟩ := ih (Nat.add_assoc ..).symm
      exact ⟨alone, .gap read scans, rfl⟩
  | @token start c cs lexemes token read behind ih =>
      subst place
      obtain ⟨alone, scans, rfl⟩ := ih (Nat.add_assoc ..).symm
      refine ⟨_, .token read scans, ?_⟩
      rw [List.map_cons, Lexeme.shift, Span.shift, Nat.add_assoc]

/-- A line has no token of a newline. -/
theorem lineEnd_not_mem {offset : Nat} {line : List Char} {lexemes : List Lexeme}
    (scans : Scans offset line lexemes) (single : '\n' ∉ line) :
    .lineEnd ∉ lexemes.map Lexeme.token := by
  have behind : ∀ c cs, '\n' ∉ c :: cs → '\n' ∉ (firstPiece c cs).rest := by
    intro c cs single member
    rw [← firstPiece_text_append_rest, List.mem_append, not_or] at single
    exact single.2 member
  induction scans with
  | nil => exact List.not_mem_nil
  | gap read _ ih => exact ih (behind _ _ single)
  | @token offset c cs lexemes token read _ ih =>
      rw [List.map_cons, List.mem_cons, not_or]
      refine ⟨?_, ih (behind _ _ single)⟩
      rintro rfl
      exact single (firstPiece_eq_lineEnd read ▸ List.mem_cons_self)

/-- The tokens lie in the text that they were scanned from. -/
theorem span_within {offset : Nat} {cs : List Char} {lexemes : List Lexeme}
    (scans : Scans offset cs lexemes) : ∀ lexeme ∈ lexemes, offset ≤ lexeme.span.start ∧
      lexeme.span.start ≤ lexeme.span.stop ∧ lexeme.span.stop ≤ offset + Text.byteLength cs := by
  induction scans with
  | nil => exact List.forall_mem_nil _
  | @gap offset c cs lexemes read _ ih =>
      intro lexeme member
      have inside := ih lexeme member
      have size := byteLength_firstPiece c cs
      omega
  | @token offset c cs lexemes token read _ ih =>
      have size := byteLength_firstPiece c cs
      refine List.forall_mem_cons.mpr ⟨?_, fun lexeme member => ?_⟩
      · dsimp only
        omega
      · have inside := ih lexeme member
        omega

end Scans

end Token

end RegisterMachine
