import RegisterMachine.Proofs.PhysicalLines

/-!
# The table of line starts

A text has a line behind each of its newlines, so the table of its map has an entry for
every line, with the bytes in front of it.  A search in an increasing table finds a number
or the place where it is missing.  So the line of an offset is the one line that begins no
later while the next one does, and this is the line that is come to by going through the
lines of the text one by one.  Lines begin and end at newlines and so between characters,
and each can be cut out of the text.
-/

namespace RegisterMachine

namespace Text

/-! ## Newline bytes -/

/-- The bytes of some characters in UTF-8. -/
def bytes (cs : List Char) : List UInt8 :=
  cs.flatMap String.utf8EncodeChar

theorem toUTF8_eq_bytes (source : String) : source.toUTF8.data.toList = bytes source.toList := by
  conv_lhs => rw [← String.ofList_toList (s := source)]
  rw [String.toUTF8, String.toByteArray_ofList, List.utf8Encode, List.data_toByteArray,
    List.toList_toArray, bytes]

theorem bytes_append (cs ds : List Char) : bytes (cs ++ ds) = bytes cs ++ bytes ds :=
  List.flatMap_append

theorem bytes_append_newline (line rest : List Char) :
    bytes (line ++ '\n' :: rest) = bytes line ++ newlineByte :: bytes rest := by
  rw [bytes_append]
  rfl

theorem length_bytes (cs : List Char) : (bytes cs).length = byteLength cs := by
  induction cs with
  | nil => rfl
  | cons c cs ih =>
      rw [bytes, List.flatMap_cons, List.length_append, String.length_utf8EncodeChar, ← bytes, ih,
        byteLength_cons]

/-- The byte of a newline is in no other character: of several bytes all are above it. -/
theorem eq_newline_of_mem_utf8EncodeChar {c : Char}
    (member : newlineByte ∈ String.utf8EncodeChar c) : c = '\n' := by
  have code : c.val.toNat = c.toNat := rfl
  have ten : newlineByte.toNat = 10 := rfl
  simp only [String.utf8EncodeChar, code] at member
  split_ifs at member
  all_goals simp only [List.mem_cons, List.not_mem_nil, or_false, ← UInt8.toNat_inj, ten,
    UInt8.toNat_ofNat'] at member
  · exact Char.toNat_inj.mp (show c.toNat = 10 by omega)
  all_goals omega

theorem newlineByte_not_mem {line : List Char} (single : '\n' ∉ line) :
    newlineByte ∉ bytes line := by
  intro member
  obtain ⟨c, inside, found⟩ := List.mem_flatMap.mp member
  exact single (eq_newline_of_mem_utf8EncodeChar found ▸ inside)

/-! ## The entries of the table -/

/-- The table of a text that stands behind `offset` bytes. -/
def startsOf (offset : Nat) (cs : List Char) : List Nat :=
  offset :: startsFrom offset (bytes cs)

theorem startsFrom_of_not_mem {bytes : List UInt8} (single : newlineByte ∉ bytes) (offset : Nat) :
    startsFrom offset bytes = [] := by
  induction bytes generalizing offset with
  | nil => rfl
  | cons byte bytes ih =>
      rw [List.mem_cons, not_or] at single
      rw [startsFrom, if_neg (Ne.symm single.1)]
      exact ih single.2 (offset + 1)

theorem startsFrom_append {first : List UInt8} (single : newlineByte ∉ first)
    (rest : List UInt8) (offset : Nat) :
    startsFrom offset (first ++ newlineByte :: rest) =
      (offset + first.length + 1) :: startsFrom (offset + first.length + 1) rest := by
  induction first generalizing offset with
  | nil => rw [List.nil_append, startsFrom, if_pos rfl, List.length_nil, Nat.add_zero]
  | cons byte first ih =>
      rw [List.mem_cons, not_or] at single
      rw [List.cons_append, startsFrom, if_neg (Ne.symm single.1), ih single.2, List.length_cons,
        Nat.add_right_comm offset, Nat.add_assoc offset]

theorem startsOf_of_single {line : List Char} (single : '\n' ∉ line) (offset : Nat) :
    startsOf offset line = [offset] := by
  rw [startsOf, startsFrom_of_not_mem (newlineByte_not_mem single)]

theorem startsOf_append {line : List Char} (single : '\n' ∉ line) (rest : List Char)
    (offset : Nat) : startsOf offset (line ++ '\n' :: rest) =
      offset :: startsOf (offset + byteLength line + 1) rest := by
  rw [startsOf, bytes_append_newline, startsFrom_append (newlineByte_not_mem single),
    length_bytes, startsOf]

/-- The line that an offset lies on begins no later than there, and the next line does. -/
theorem exists_start_of_locate (cs : List Char) (base offset : Nat) :
    ∃ start, (startsOf base cs)[(locate (lines cs) offset).1]? = some start ∧
      start + (locate (lines cs) offset).2 = base + offset ∧
        ∀ next, (startsOf base cs)[(locate (lines cs) offset).1 + 1]? = some next →
          base + offset < next := by
  induction cs using line_induction generalizing base offset with
  | last line single =>
      rw [startsOf_of_single single, lines_of_single single]
      exact ⟨base, rfl, rfl, nofun⟩
  | next line rest single ih =>
      rw [startsOf_append single, lines_append single]
      rcases Nat.lt_or_ge (byteLength line) offset with behind | inside
      · obtain ⟨more, rfl⟩ := Nat.exists_eq_add_of_le (Nat.succ_le_of_lt behind)
        obtain ⟨start, begins, column, later⟩ := ih (base + byteLength line + 1) more
        rw [Nat.succ_eq_add_one, locate_below (lines_ne_nil rest)]
        refine ⟨start, begins, by omega, fun next found => ?_⟩
        have order := later next found
        omega
      · rw [locate_line inside]
        refine ⟨base, rfl, rfl, fun next found => ?_⟩
        obtain rfl := Option.some.inj found
        omega

/-! ## The lines of a text, cut out -/

/-- A line stands in its text between two newlines, or the ends of the text, and the table says
where. -/
structure CutsLine (cs : List Char) (index : Nat) (before line behind : List Char) : Prop where
  text_eq : cs = before ++ (line ++ behind)
  counted : before.count '\n' = index
  begins : before = [] ∨ ∃ front, before = front ++ ['\n']
  single : '\n' ∉ line
  ends : behind = [] ∨ ∃ rest, behind = '\n' :: rest
  start_eq : ∀ base, (startsOf base cs)[index]? = some (base + byteLength before)
  next_eq : ∀ base, (startsOf base cs)[index + 1]? =
    if behind = [] then none else some (base + byteLength (before ++ line) + 1)

/-- The text is cut in two behind the newline of a line as well. -/
theorem CutsLine.text_eq_next {cs before line behind : List Char} {index : Nat}
    (cuts : CutsLine cs index before line behind) :
    cs = (before ++ (line ++ behind.take 1)) ++ behind.drop 1 := by
  rw [List.append_assoc, List.append_assoc, List.take_append_drop]
  exact cuts.text_eq

theorem exists_cutsLine {cs line : List Char} {index : Nat}
    (found : (lines cs)[index]? = some line) :
    ∃ before behind, CutsLine cs index before line behind := by
  induction cs using line_induction generalizing index with
  | last last single =>
      rw [lines_of_single single, List.getElem?_singleton] at found
      obtain ⟨rfl, same⟩ := (Option.ite_none_right_eq_some).mp found
      obtain rfl := Option.some.inj same
      refine ⟨[], [], by simp, rfl, .inl rfl, single, .inl rfl, fun base => ?_, fun base => ?_⟩
      all_goals rw [startsOf_of_single single]
      all_goals rfl
  | next first rest single ih =>
      rw [lines_append single] at found
      cases index with
      | zero =>
          obtain rfl := Option.some.inj found
          refine ⟨[], '\n' :: rest, rfl, rfl, .inl rfl, single, .inr ⟨rest, rfl⟩, ?_, ?_⟩
          all_goals
            intro base
            rw [startsOf_append single]
            rfl
      | succ index =>
          obtain ⟨before, behind, cuts⟩ := ih found
          obtain ⟨rfl, counted, begins, inner, ends, start_eq, next_eq⟩ := cuts
          have size := byteLength_append_newline first before
          have longer := byteLength_append_newline first (before ++ line)
          refine ⟨first ++ '\n' :: before, behind, by simp, ?_, .inr ?_, inner, ends, ?_, ?_⟩
          · rw [List.count_append, List.count_eq_zero.mpr single, List.count_cons_self, counted,
              Nat.zero_add]
          · rcases begins with rfl | ⟨front, rfl⟩
            · exact ⟨first, rfl⟩
            · exact ⟨first ++ '\n' :: front, by simp⟩
          · intro base
            rw [startsOf_append single, List.getElem?_cons_succ, start_eq, size]
            congr 1
            omega
          · intro base
            rw [startsOf_append single, List.getElem?_cons_succ, next_eq, List.append_assoc,
              List.cons_append, longer]
            congr 2
            omega

theorem dropBytes_append (before rest : List Char) :
    dropBytes (byteLength before) (before ++ rest) = some rest := by
  induction before with
  | nil => rw [byteLength_nil, List.nil_append, dropBytes]
  | cons c before ih =>
      have positive := c.utf8Size_pos
      obtain ⟨count, size⟩ := Nat.exists_eq_add_one_of_ne_zero
        (show byteLength (c :: before) ≠ 0 by rw [byteLength_cons]; omega)
      rw [size, List.cons_append, dropBytes, ← size, byteLength_cons,
        if_pos (Nat.le_add_right _ _), Nat.add_sub_cancel_left, ih]

theorem takeBytes_append (part rest : List Char) :
    takeBytes (byteLength part) (part ++ rest) = some part := by
  induction part with
  | nil => rw [byteLength_nil, takeBytes]
  | cons c part ih =>
      have positive := c.utf8Size_pos
      obtain ⟨count, size⟩ := Nat.exists_eq_add_one_of_ne_zero
        (show byteLength (c :: part) ≠ 0 by rw [byteLength_cons]; omega)
      rw [size, List.cons_append, takeBytes, ← size, byteLength_cons,
        if_pos (Nat.le_add_right _ _), Nat.add_sub_cancel_left, ih, Option.map_some]

/-- A text can be cut where two of its parts meet. -/
theorem slice?_append (before part behind : List Char) :
    slice? (byteLength before) (byteLength (before ++ part)) (before ++ (part ++ behind)) =
      some part := by
  have order : ¬ byteLength (before ++ part) < byteLength before := by
    rw [byteLength_append]
    omega
  rw [slice?, if_neg order, dropBytes_append, byteLength_append, Nat.add_sub_cancel_left]
  exact takeBytes_append part behind

theorem dropAtEnd_of_not_mem {c : Char} {line : List Char} (absent : c ∉ line) :
    dropAtEnd c line = line := by
  have stays : line.reverse.dropWhile (· == c) = line.reverse := by
    cases reversed : line.reverse with
    | nil => rfl
    | cons last front =>
        have member : last ∈ line := List.mem_reverse.mp (reversed ▸ List.mem_cons_self)
        have other : (last == c) = false := beq_false_of_ne fun same => absent (same ▸ member)
        rw [List.dropWhile_cons, other, if_neg Bool.false_ne_true]
  rw [dropAtEnd, stays, List.reverse_reverse]

theorem dropAtEnd_append_self (c : Char) (line : List Char) :
    dropAtEnd c (line ++ [c]) = dropAtEnd c line := by
  rw [dropAtEnd, List.reverse_append, List.reverse_singleton, List.singleton_append,
    List.dropWhile_cons, beq_self_eq_true, if_pos rfl, dropAtEnd]

end Text

/-! ## The search -/

namespace Search

/-- What the result of a search says about the table. -/
def Tells (table : Array Nat) (number : Nat) : Search → Prop
  | found index => table[index]? = some number
  | missed index => index ≤ table.size ∧
      (∀ place entry, place < index → table[place]? = some entry → entry < number) ∧
        ∀ place entry, index ≤ place → table[place]? = some entry → number < entry

theorem entry_lt {table : Array Nat} (increasing : table.toList.Pairwise (· < ·))
    {first second one other : Nat} (order : first < second) (atFirst : table[first]? = some one)
    (atSecond : table[second]? = some other) : one < other := by
  obtain ⟨before, rfl⟩ := Array.getElem?_eq_some_iff.mp atFirst
  obtain ⟨behind, rfl⟩ := Array.getElem?_eq_some_iff.mp atSecond
  exact List.pairwise_iff_getElem.mp increasing first second before behind order

/-- The search keeps what is below the number in front of the part that it looks at, and what is
above the number behind it. -/
theorem between_tells {table : Array Nat} (increasing : table.toList.Pairwise (· < ·))
    {number low high : Nat} (within : high ≤ table.size) (ordered : low ≤ high)
    (below : ∀ place entry, place < low → table[place]? = some entry → entry < number)
    (above : ∀ place entry, high ≤ place → table[place]? = some entry → number < entry) :
    Tells table number (between table number low high within) := by
  fun_induction between table number low high within with
  | case1 low high within some middle inside same =>
      rw [Tells, Array.getElem?_eq_getElem inside, same]
  | case2 low high within some middle inside other less ih =>
      have limits : middle < high := by omega
      refine ih (by omega) (fun place entry before found => ?_) above
      rcases Nat.lt_or_eq_of_le (Nat.le_of_lt_succ before) with earlier | rfl
      · exact Nat.lt_trans
          (entry_lt increasing earlier found (Array.getElem?_eq_getElem inside)) less
      · rw [Array.getElem?_eq_getElem inside] at found
        exact Option.some.inj found ▸ less
  | case3 low high within some middle inside other notLess ih =>
      have greater : number < table[middle] := by omega
      refine ih (by omega) below (fun place entry behind found => ?_)
      rcases Nat.lt_or_eq_of_le behind with later | rfl
      · exact Nat.lt_trans greater
          (entry_lt increasing later (Array.getElem?_eq_getElem inside) found)
      · rw [Array.getElem?_eq_getElem inside] at found
        exact Option.some.inj found ▸ greater
  | case4 low high within none =>
      obtain rfl : low = high := by omega
      exact ⟨within, below, above⟩

end Search

namespace LineMap

/-- The line of an offset begins no later than there, and the next line does. -/
theorem lineIndex_spec (map : LineMap) (offset : Nat) :
    ∃ start, map.starts[map.lineIndex offset]? = some start ∧ start ≤ offset ∧
      ∀ next, map.starts[map.lineIndex offset + 1]? = some next → offset < next := by
  have tells : Search.Tells map.starts offset
      (Search.between map.starts offset 0 map.starts.size (Nat.le_refl _)) := by
    apply Search.between_tells map.increasing (Nat.le_refl _) (Nat.zero_le _)
    · exact fun _ _ before => absurd before (Nat.not_lt_zero _)
    · intro place entry behind found
      exact absurd (Array.getElem?_eq_some_iff.mp found).1 (Nat.not_lt.mpr behind)
  rw [lineIndex]
  generalize Search.between map.starts offset 0 map.starts.size (Nat.le_refl _) = search at tells
  cases search with
  | found index =>
      refine ⟨offset, tells, Nat.le_refl _, fun next later => ?_⟩
      exact Search.entry_lt map.increasing (Nat.lt_succ_self index) tells later
  | missed index =>
      obtain ⟨inside, below, above⟩ := tells
      -- The first line begins at zero, so no offset is missed in front of it.
      cases index with
      | zero => exact absurd (above 0 0 (Nat.le_refl 0) map.first_eq) (Nat.not_lt_zero _)
      | succ index =>
          dsimp only
          rw [Nat.add_sub_cancel]
          have found := Array.getElem?_eq_getElem (Nat.lt_of_succ_le inside)
          refine ⟨_, found, Nat.le_of_lt (below index _ (Nat.lt_succ_self _) found), ?_⟩
          exact fun next later => above _ next (Nat.le_refl _) later

/-- Only one line begins no later than an offset while the next one does. -/
theorem index_unique {map : LineMap} {offset first second one other : Nat}
    (atFirst : map.starts[first]? = some one) (firstBegins : one ≤ offset)
    (firstEnds : ∀ next, map.starts[first + 1]? = some next → offset < next)
    (atSecond : map.starts[second]? = some other) (secondBegins : other ≤ offset)
    (secondEnds : ∀ next, map.starts[second + 1]? = some next → offset < next) :
    first = second := by
  have ahead : ∀ {left right entry : Nat}, left < right → map.starts[right]? = some entry →
      entry ≤ offset → (∀ next, map.starts[left + 1]? = some next → offset < next) → False := by
    intro left right entry order found begins ends
    obtain ⟨inside, -⟩ := Array.getElem?_eq_some_iff.mp found
    have next := Array.getElem?_eq_getElem (show left + 1 < map.starts.size by omega)
    have late := ends _ next
    rcases Nat.lt_or_eq_of_le order with later | rfl
    · have behind := Search.entry_lt map.increasing later next found
      omega
    · have same := Option.some.inj (next.symm.trans found)
      omega
  rcases Nat.lt_trichotomy first second with before | same | behind
  · exact (ahead before atSecond secondBegins firstEnds).elim
  · exact same
  · exact (ahead behind atFirst firstBegins secondEnds).elim

theorem toList_starts (source : String) :
    (ofString source).starts.toList = Text.startsOf 0 source.toList := by
  rw [Text.startsOf, ← Text.toUTF8_eq_bytes]
  rfl

theorem getElem?_starts (source : String) (index : Nat) :
    (ofString source).starts[index]? = (Text.startsOf 0 source.toList)[index]? := by
  rw [← toList_starts, Array.getElem?_toList]

/-- The search gives what going through the lines gives. -/
theorem lookup_eq_locate (source : String) (offset : Nat) :
    (ofString source).lookup offset =
      ⟨(Text.locate (Text.lines source.toList) offset).1 + 1,
        (Text.locate (Text.lines source.toList) offset).2 + 1⟩ := by
  obtain ⟨start, found, begins, ends⟩ := (ofString source).lineIndex_spec offset
  obtain ⟨entry, located, column, later⟩ := Text.exists_start_of_locate source.toList 0 offset
  rw [Nat.zero_add] at column later
  rw [← getElem?_starts] at located
  have same := index_unique found begins ends located (by omega)
    fun next there => later next (getElem?_starts source _ ▸ there)
  rw [same, located] at found
  obtain rfl := Option.some.inj found
  rw [lookup, same, startOf, located, Option.getD_some, Position.mk.injEq]
  omega

/-- A line is what stands between its two offsets in the table. -/
theorem startOf_eq {source : String} {before line behind : List Char} {index : Nat}
    (cuts : Text.CutsLine source.toList index before line behind) :
    (ofString source).startOf index = Text.byteLength before := by
  rw [startOf, getElem?_starts, cuts.start_eq 0, Option.getD_some, Nat.zero_add]

theorem index_lt_size {source : String} {before line behind : List Char} {index : Nat}
    (cuts : Text.CutsLine source.toList index before line behind) :
    index < (ofString source).starts.size :=
  (Array.getElem?_eq_some_iff.mp ((getElem?_starts source index).trans (cuts.start_eq 0))).1

theorem stopOf_eq {source : String} {before line behind : List Char} {index : Nat}
    (cuts : Text.CutsLine source.toList index before line behind) :
    (ofString source).stopOf source index =
      Text.byteLength (before ++ (line ++ behind.take 1)) := by
  have next := (getElem?_starts source (index + 1)).trans (cuts.next_eq 0)
  rw [stopOf, startOf]
  rcases cuts.ends with rfl | ⟨rest, rfl⟩
  · rw [if_pos rfl] at next
    rw [if_neg (Nat.not_lt.mpr (Array.getElem?_eq_none_iff.mp next)), List.take_nil,
      ← cuts.text_eq, ← Text.utf8ByteSize_ofList, String.ofList_toList]
  · rw [if_neg (List.cons_ne_nil _ _)] at next
    rw [if_pos (Array.getElem?_eq_some_iff.mp next).1, next, Option.getD_some, Nat.zero_add,
      ← List.append_assoc, Text.byteLength_append _ (List.take 1 _)]
    rfl

theorem slice?_eq {source : String} {before line behind : List Char} {index : Nat}
    (cuts : Text.CutsLine source.toList index before line behind) :
    Text.slice? ((ofString source).startOf index) ((ofString source).stopOf source index)
      source.toList = some (line ++ behind.take 1) := by
  rw [startOf_eq cuts, stopOf_eq cuts, cuts.text_eq_next, List.append_assoc, Text.slice?_append]

/-- Every line of a text can be cut out of it. -/
theorem lineText?_eq {source : String} {index : Nat} {line : List Char}
    (found : (Text.lines source.toList)[index]? = some line) :
    (ofString source).lineText? source (index + 1) = some (Text.dropReturns line) := by
  obtain ⟨before, behind, cuts⟩ := Text.exists_cutsLine found
  have listed : ¬ (index + 1 = 0 ∨ (ofString source).starts.size < index + 1) := by
    have inside := index_lt_size cuts
    omega
  have plain := Text.dropAtEnd_of_not_mem cuts.single
  rw [lineText?, if_neg listed, Nat.add_sub_cancel, slice?_eq cuts]
  rcases cuts.ends with rfl | ⟨rest, rfl⟩
  · simp [plain]
  · simp [Text.dropAtEnd_append_self, plain]

theorem lineText_eq {source : String} {index : Nat} {line : List Char}
    (found : (Text.lines source.toList)[index]? = some line) :
    (ofString source).lineText source (index + 1) = Text.dropReturns line := by
  rw [lineText, lineText?_eq found, Option.getD_some]

end LineMap

end RegisterMachine
