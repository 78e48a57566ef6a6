import LambdaStack.Proofs.Restart

/-!
# Lines and columns

The scanner counts lines and columns as it goes along.  They can be looked up
as well: keep a **table** of the bytes at which the lines begin, search it for
the last one that is not behind a given byte, and count the characters from
there on.

    text      a b ⏎ c d e ⏎ f
    table     0     3       7
    byte                5            line 2, column 3

Looking up can go wrong in three ways.  The search can ask for an entry that is
not in the table, there can be no entry in front of the one it finds, and the
stretch to be counted can begin or end within a character.  `locate?` answers
nothing then.  For the tokens of a text it always answers, and what it answers
is what was counted.

Main statement: `positions_count_lines_and_columns`.
-/

namespace LambdaStack

/-! ### Stretches of a text -/

/-- The stretch of a text at a span.  There is none if the span cuts through a
character, ends before it begins, or leaves the text. -/
def stretch? (text : String) (span : Span) : Option String := do
  let first ← text.pos? ⟨span.start⟩
  let last ← text.pos? ⟨span.stop⟩
  let slice ← text.slice? first last
  return slice.copy

/-- The byte between two parts of a text cuts through no character. -/
theorem exists_pos? {text before after : String} (h : text = before ++ after) :
    ∃ pos, text.pos? ⟨before.utf8ByteSize⟩ = some pos ∧
      pos.Splits before after := by
  subst h
  have hvalid : before.rawEndPos.isValidForSlice
      (before ++ after).toSlice = true :=
    String.Pos.Raw.isValidForSlice_eq_true_iff.mpr
      (String.Pos.Raw.isValid_rawEndPos.append_right after).toSlice
  refine ⟨_, ?_, String.Pos.splits_append_rawEndPos⟩
  change ((before ++ after).toSlice.pos? before.rawEndPos).map _ = _
  rw [String.Slice.pos?, dif_pos hvalid]
  rfl

/-- A stretch that begins and ends between characters is cut out whole. -/
theorem stretch?_eq {text before word after : String}
    (h : text = before ++ word ++ after) :
    stretch? text ⟨before.utf8ByteSize, (before ++ word).utf8ByteSize⟩
      = some word := by
  have hlater : text = before ++ (word ++ after) := by
    rw [h, String.append_assoc]
  obtain ⟨first, hfirst, hbefore⟩ := exists_pos? hlater
  obtain ⟨last, hlast, hbehind⟩ := exists_pos? h
  obtain ⟨hle, hcopy⟩ :=
    String.copy_slice_eq_iff_splits.mpr ⟨before, after, hbefore, hbehind⟩
  have hslice : text.slice? first last = some (text.slice first last hle) := by
    rw [String.slice?, dif_pos hle]
  simp only [stretch?, hfirst, hlast, hslice, Option.bind_eq_bind,
    Option.bind_some, hcopy]
  rfl

/-! ### Searching a table -/

/-- How many values at the front of the table have the property.  This is known
to be between `base` and `base + size`, and found out by halving. -/
def partitionFrom? (values : Array Nat) (holds : Nat → Bool)
    (base size : Nat) : Option Nat :=
  if size ≤ 1 then do
    let value ← values[base]?
    return if holds value then base + 1 else base
  else do
    let value ← values[base + size / 2]?
    partitionFrom? values holds (if holds value then base + size / 2 else base)
      (size - size / 2)
termination_by size

/-- How many values at the front of the table have the property. -/
def partitionPoint? (values : Array Nat) (holds : Nat → Bool) : Option Nat :=
  if values.size = 0 then some 0
  else partitionFrom? values holds 0 values.size

/-- **Halving finds the point** at which the values cease to have the property,
and asks for no value that is not there. -/
theorem partitionFrom?_eq {values : Array Nat} {holds : Nat → Bool}
    {point base size : Nat}
    (hpoint : ∀ (index value : Nat), values[index]? = some value →
      (holds value ↔ index < point))
    (hpos : 0 < size) (hsize : base + size ≤ values.size)
    (hlow : base ≤ point) (hhigh : point ≤ base + size) :
    partitionFrom? values holds base size = some point := by
  fun_induction partitionFrom? values holds base size with
  | case1 base size hone =>
      have hget := Array.getElem?_eq_getElem (show base < values.size by omega)
      have hholds := hpoint base _ hget
      rw [hget]
      refine congrArg some ?_
      split
      · next hyes =>
        have hlt := hholds.mp hyes
        omega
      · next hno =>
        have hge := mt hholds.mpr hno
        omega
  | case2 base size hmany ih =>
      have hget := Array.getElem?_eq_getElem
        (show base + size / 2 < values.size by omega)
      have hholds := hpoint (base + size / 2) _ hget
      rw [hget]
      -- half of the values are left, on the side where the point is
      have hhalf : ∀ next, next = (if holds values[base + size / 2] then
            base + size / 2 else base) →
          next + (size - size / 2) ≤ values.size ∧ next ≤ point ∧
            point ≤ next + (size - size / 2) := by
        intro next hnext
        split at hnext
        · next hyes =>
          have hlt := hholds.mp hyes
          omega
        · next hno =>
          have hge := mt hholds.mpr hno
          omega
      obtain ⟨hsize, hlow, hhigh⟩ := hhalf _ rfl
      exact ih _ (by omega) hsize hlow hhigh

/-- A whole table is halved down to its point, and an empty one has it in
front. -/
theorem partitionPoint?_eq {values : Array Nat} {holds : Nat → Bool}
    {point : Nat}
    (hpoint : ∀ (index value : Nat), values[index]? = some value →
      (holds value ↔ index < point))
    (hle : point ≤ values.size) :
    partitionPoint? values holds = some point := by
  unfold partitionPoint?
  split
  · next hempty => exact congrArg some (by omega)
  · exact partitionFrom?_eq hpoint (by omega) (by omega) (Nat.zero_le _)
      (by omega)

/-! ### The table of line starts -/

/-- The bytes behind the line feeds of a text that begins at byte `offset`. -/
def lineStartsFrom (offset : Nat) : List Char → List Nat
  | [] => []
  | c :: cs =>
    if c = '\n' then
      (offset + 1) :: lineStartsFrom (offset + c.utf8Size) cs
    else
      lineStartsFrom (offset + c.utf8Size) cs

/-- The bytes at which the lines of a text begin. -/
def lineStarts (text : String) : Array Nat :=
  (0 :: lineStartsFrom 0 text.toList).toArray

/-- The line and the column of a byte, looked up. -/
def locate? (text : String) (offset : Nat) : Option (Nat × Nat) := do
  let starts := lineStarts text
  let line ← partitionPoint? starts fun start => start ≤ offset
  let start ← if line = 0 then none else starts[line - 1]?
  let stretch ← stretch? text ⟨start, offset⟩
  return (min line positionLimit, min (stretch.length + 1) positionLimit)

theorem textWidth_cons (c : Char) (cs : List Char) :
    textWidth (c :: cs) = c.utf8Size + textWidth cs := by
  rw [textWidth, String.ofList_cons, String.utf8ByteSize_append,
    String.utf8ByteSize_singleton]
  rfl

/-- The line starts of a second part are counted on from its offset. -/
theorem lineStartsFrom_append (offset : Nat) (left right : List Char) :
    lineStartsFrom offset (left ++ right)
      = lineStartsFrom offset left
        ++ lineStartsFrom (offset + textWidth left) right := by
  induction left generalizing offset with
  | nil => rfl
  | cons c left ih =>
      rw [List.cons_append, lineStartsFrom, lineStartsFrom, ih, textWidth_cons,
        Nat.add_assoc]
      split <;> rfl

/-- There is a line start behind each line feed. -/
theorem length_lineStartsFrom (offset : Nat) (text : List Char) :
    (lineStartsFrom offset text).length = text.count '\n' := by
  induction text generalizing offset with
  | nil => rfl
  | cons c text ih =>
      rw [lineStartsFrom]
      split
      · next hfeed => rw [List.length_cons, ih, hfeed, List.count_cons_self]
      · next hfeed => rw [ih, List.count_cons_of_ne hfeed]

/-- A line begins behind its line feed. -/
theorem bounds_of_mem_lineStartsFrom {offset start : Nat} {text : List Char}
    (h : start ∈ lineStartsFrom offset text) :
    offset < start ∧ start ≤ offset + textWidth text := by
  induction text generalizing offset with
  | nil => cases h
  | cons c text ih =>
      have hpos := c.utf8Size_pos
      rw [textWidth_cons]
      rw [lineStartsFrom] at h
      split at h
      · rcases List.mem_cons.mp h with rfl | hlater
        · omega
        · have hbounds := ih hlater
          omega
      · have hbounds := ih h
        omega

/-- A line begins behind the text: the text is empty, or ends with a line
feed. -/
def EndsLine (text : List Char) : Prop :=
  text = [] ∨ ∃ above, text = above ++ ['\n']

/-- A text is cut where its last line begins. -/
theorem exists_endsLine (text : List Char) :
    ∃ front line, text = front ++ line ∧ EndsLine front ∧ '\n' ∉ line := by
  induction text with
  | nil => exact ⟨[], [], rfl, .inl rfl, List.not_mem_nil⟩
  | cons c text ih =>
      obtain ⟨front, line, rfl, rfl | ⟨above, rfl⟩, hline⟩ := ih
      · by_cases hfeed : c = '\n'
        · exact ⟨[c], line, rfl, .inr ⟨[], by rw [hfeed]; rfl⟩, hline⟩
        · refine ⟨[], c :: line, rfl, .inl rfl, ?_⟩
          simp [hline, Ne.symm hfeed]
      · exact ⟨c :: (above ++ ['\n']), line, rfl, .inr ⟨c :: above, rfl⟩, hline⟩

/-- The entry in front of which as many lines begin as the text has line feeds
is the beginning of its last line. -/
theorem getElem?_lineStarts {front : List Char} (h : EndsLine front)
    (more : List Nat) :
    (0 :: (lineStartsFrom 0 front ++ more))[front.count '\n']?
      = some (textWidth front) := by
  rcases h with rfl | ⟨above, rfl⟩
  · rfl
  · have hcount : (above ++ ['\n']).count '\n'
        = (lineStartsFrom 0 above).length + 1 := by
      rw [List.count_append, length_lineStartsFrom, List.count_singleton_self]
    have hlast : lineStartsFrom (0 + textWidth above) ['\n']
        = [textWidth (above ++ ['\n'])] := by
      rw [textWidth_append, Nat.zero_add]
      rfl
    rw [hcount, List.getElem?_cons_succ, lineStartsFrom_append, hlast,
      List.append_assoc, List.getElem?_append_right (Nat.le_refl _),
      Nat.sub_self]
    rfl

/-- The lines that have begun at a byte come first in the table. -/
theorem le_iff_lt_of_lineStarts (before after : List Char) {index start : Nat}
    (h : (0 :: lineStartsFrom 0 (before ++ after))[index]? = some start) :
    start ≤ textWidth before ↔ index < before.count '\n' + 1 := by
  cases index with
  | zero =>
      obtain rfl : 0 = start := Option.some.inj h
      exact ⟨fun _ => Nat.succ_pos _, fun _ => Nat.zero_le _⟩
  | succ index =>
      rw [List.getElem?_cons_succ, lineStartsFrom_append, Nat.zero_add] at h
      rw [← length_lineStartsFrom 0 before, Nat.add_lt_add_iff_right]
      rcases Nat.lt_or_ge index (lineStartsFrom 0 before).length with hlt | hge
      · rw [List.getElem?_append_left hlt] at h
        have hbounds := bounds_of_mem_lineStartsFrom (List.mem_of_getElem? h)
        exact ⟨fun _ => hlt, fun _ => by omega⟩
      · rw [List.getElem?_append_right hge] at h
        have hbounds := bounds_of_mem_lineStartsFrom (List.mem_of_getElem? h)
        constructor <;> intro <;> omega

/-- **Looking up answers line and column.** -/
theorem locate?_eq {text front line rest : String}
    (htext : text = front ++ line ++ rest) (hfront : EndsLine front.toList)
    (hline : '\n' ∉ line.toList) :
    locate? text (front ++ line).utf8ByteSize
      = some (min (lineFeeds (front ++ line) + 1) positionLimit,
        min (line.length + 1) positionLimit) := by
  have hwidth : ∀ part : String, textWidth part.toList
      = part.utf8ByteSize := fun part => by
    rw [textWidth, String.ofList_toList]
  have hfeeds : lineFeeds (front ++ line) = front.toList.count '\n' := by
    rw [lineFeeds, String.toList_append, List.count_append,
      List.count_eq_zero.mpr hline, Nat.add_zero]
  have hstarts : (lineStarts text).toList
      = 0 :: (lineStartsFrom 0 front.toList
        ++ lineStartsFrom (textWidth front.toList)
          (line.toList ++ rest.toList)) := by
    rw [lineStarts, htext, String.append_assoc, String.toList_append,
      lineStartsFrom_append, Nat.zero_add, String.toList_append]
  have hstart : (lineStarts text)[lineFeeds (front ++ line)]?
      = some front.utf8ByteSize := by
    rw [← Array.getElem?_toList, hstarts, hfeeds, getElem?_lineStarts hfront,
      hwidth]
  have hpoint : partitionPoint? (lineStarts text)
      (fun start => start ≤ (front ++ line).utf8ByteSize)
      = some (lineFeeds (front ++ line) + 1) := by
    apply partitionPoint?_eq
    · intro index start hget
      rw [decide_eq_true_eq, ← hwidth, lineFeeds]
      apply le_iff_lt_of_lineStarts _ rest.toList
      rw [← String.toList_append, ← htext]
      rw [← Array.getElem?_toList] at hget
      exact hget
    · exact (Array.getElem?_eq_some_iff.mp hstart).1
  simp only [locate?, hpoint, Option.bind_eq_bind, Option.bind_some,
    Nat.add_one_ne_zero, if_false, Nat.add_sub_cancel, hstart,
    stretch?_eq htext]
  rfl

/-- The second byte is within a character, so there is nothing to count. -/
example : locate? "λ\nab" 4 = some (2, 2) ∧ locate? "λ\nab" 1 = none := by
  decide +kernel

/-! ### Counting -/

namespace Place

/-- One place comes before another: on an earlier line, or further to the left
on the same line. -/
def Before (place other : Place) : Prop :=
  place.line < other.line ∨
    place.line = other.line ∧ place.column < other.column

/-- Places are in order. -/
theorem Before.trans {place other last : Place} (h : place.Before other)
    (hother : other.Before last) : place.Before last := by
  unfold Before at h hother ⊢
  omega

/-- A character is passed forwards. -/
theorem before_step (place : Place) (c : Char) :
    place.Before (place.step c) := by
  unfold step
  split
  · exact .inl (Nat.lt_succ_self _)
  · exact .inr ⟨rfl, Nat.lt_succ_self _⟩

/-- Every character leads on. -/
theorem before_advance (place : Place) {text : List Char} (h : text ≠ []) :
    place.Before (place.advance text) := by
  induction text generalizing place with
  | nil => exact absurd rfl h
  | cons c text ih =>
      cases text with
      | nil => exact place.before_step c
      | cons d text => exact (place.before_step c).trans (ih _ (by simp))

/-- Within a line the column counts the characters. -/
theorem column_advance (place : Place) {line : List Char} (h : '\n' ∉ line) :
    (place.advance line).column = place.column + line.length := by
  induction line generalizing place with
  | nil => rfl
  | cons c line ih =>
      rw [List.mem_cons, not_or] at h
      have hstep : (place.step c).column = place.column + 1 := by
        rw [step, if_neg (Ne.symm h.1)]
      have hrest := ih (place.step c) h.2
      rw [hstep] at hrest
      rw [List.length_cons, Nat.add_comm line.length, ← Nat.add_assoc]
      exact hrest

/-- The column counts the characters since the last line end. -/
theorem column_advance_origin {front line : List Char} (hfront : EndsLine front)
    (hline : '\n' ∉ line) :
    (origin.advance (front ++ line)).column = line.length + 1 := by
  have hfirst : (origin.advance front).column = 1 := by
    rcases hfront with rfl | ⟨above, rfl⟩
    · rfl
    · rw [advance_append]
      rfl
  rw [advance_append, column_advance _ hline, hfirst, Nat.add_comm]

end Place

/-- One token comes before another: on an earlier line, or further to the left
on the same line. -/
def Token.Precedes (token other : Token) : Prop :=
  token.line < other.line ∨
    token.line = other.line ∧ token.column < other.column

/-- No line and no column of the text is beyond the largest one that is
reported. -/
structure WithinLimit (text : String) : Prop where
  lines : lineFeeds text < positionLimit
  columns : ∀ front line rest : String, text = front ++ line ++ rest →
    '\n' ∉ line.toList → line.length < positionLimit

namespace Cursor

/-- A token begins somewhere in what is left of the text. -/
theorem exists_place {cursor : Cursor} {token : Token}
    (h : token ∈ cursor.tokens) :
    ∃ gap rest word, cursor.rest = gap ++ rest ∧
      token = tokenAt (cursor.place.advance gap) token.kind word := by
  fun_induction tokens cursor with
  | case1 cursor hend =>
      rw [List.mem_singleton.mp h]
      rcases cursor.next_cases with ⟨_, htoken⟩ | ⟨_, _, _, _, _, _, hkind, _⟩
      · refine ⟨cursor.rest, [], [], (List.append_nil _).symm, ?_⟩
        rw [htoken]
        rfl
      · exact absurd hend hkind
  | case2 cursor hend ih =>
      rcases cursor.next_cases with ⟨_, htoken⟩ |
        ⟨gap, word, rest, hrest, _, _, _, _, htoken, hnext⟩
      · exact absurd (by rw [htoken]; rfl) hend
      · rcases List.mem_cons.mp h with rfl | hlater
        · exact ⟨gap, word ++ rest, word, by rw [hrest, List.append_assoc],
            htoken⟩
        · obtain ⟨more, back, other, hback, hother⟩ := ih hlater
          rw [hnext] at hback hother
          refine ⟨gap ++ word ++ more, back, other, ?_, ?_⟩
          · rw [hrest, List.append_assoc _ more, ← hback]
          · rw [Place.advance_append]
            exact hother

/-- Every place in what is left of the text can be reported. -/
def Exact (cursor : Cursor) : Prop :=
  ∀ gap rest, cursor.rest = gap ++ rest →
    (cursor.place.advance gap).line ≤ positionLimit ∧
      (cursor.place.advance gap).column ≤ positionLimit

/-- A token that comes later stands further on. -/
theorem Exact.precedes {cursor : Cursor} (h : cursor.Exact)
    {gap word more rest : List Char} (hword : word ≠ [])
    (hrest : cursor.rest = gap ++ word ++ more ++ rest)
    (kind other : Kind) (text last : List Char) :
    (tokenAt (cursor.place.advance gap) kind text).Precedes
      (tokenAt (cursor.place.advance (gap ++ word ++ more)) other last) := by
  obtain ⟨hline, hcolumn⟩ := h gap (word ++ more ++ rest) (by simp [hrest])
  obtain ⟨hlater, hright⟩ := h (gap ++ word ++ more) rest hrest
  have hbefore := (cursor.place.advance gap).before_advance
    (show word ++ more ≠ [] by simp [hword])
  rw [← Place.advance_append, ← List.append_assoc] at hbefore
  unfold Place.Before at hbefore
  simp only [Token.Precedes, tokenAt]
  omega

/-- **Tokens come one behind the other**, by induction on them. -/
theorem pairwise_precedes {cursor : Cursor} (h : cursor.Exact) :
    cursor.tokens.Pairwise Token.Precedes := by
  fun_induction tokens cursor with
  | case1 cursor hend => exact List.pairwise_singleton _ _
  | case2 cursor hend ih =>
      rcases cursor.next_cases with ⟨_, htoken⟩ |
        ⟨gap, word, rest, hrest, _, hne, _, _, htoken, hnext⟩
      · exact absurd (by rw [htoken]; rfl) hend
      · have hexact : cursor.next.2.Exact := by
          intro more back hback
          rw [hnext] at hback ⊢
          rw [← Place.advance_append]
          exact h _ back (by rw [hrest, List.append_assoc _ more, ← hback])
        refine List.pairwise_cons.mpr ⟨?_, ih hexact⟩
        intro later hlater
        obtain ⟨more, back, other, hback, hother⟩ := exists_place hlater
        rw [hnext] at hback hother
        rw [← Place.advance_append] at hother
        have hwhole : cursor.rest = gap ++ word ++ more ++ back := by
          rw [hrest, List.append_assoc _ more, ← hback]
        rw [htoken, hother]
        exact h.precedes hne hwhole _ _ _ _

end Cursor

/-- What a scanner answers, asked any number of times, is a token of the
text. -/
theorem Scanner.nextToken_after_mem (text : String) (count : Nat) :
    ((ofText text).after count).nextToken.1 ∈ tokensOf text := by
  have hread := Cursor.getElem?_tokens_getD (Cursor.ofText text) count
    Token.start
  have hlast := List.getLast?_eq_some_getLast
    (Cursor.tokens_ne_nil (Cursor.ofText text))
  rw [nextToken, cursor_after, ofText, ← hread, hlast, Option.getD_some]
  cases hget : (Cursor.ofText text).tokens[count]? with
  | none => exact List.getLast_mem _
  | some token => exact List.mem_of_getElem? hget

/-- Within the limit nothing has wrapped around at the start. -/
theorem WithinLimit.exact {text : String} (h : WithinLimit text) :
    (Cursor.ofText text).Exact := by
  intro gap rest hrest
  have htext : text = String.ofList (gap ++ rest) := by
    rw [← hrest]
    exact String.ofList_toList.symm
  obtain ⟨front, line, rfl, hfront, hline⟩ := exists_endsLine gap
  constructor
  · have hlines := h.lines
    rw [lineFeeds, htext, String.toList_ofList, List.count_append] at hlines
    rw [Place.line_advance]
    simp only [Cursor.ofText, Place.origin]
    omega
  · have hcolumns := h.columns (String.ofList front) (String.ofList line)
      (String.ofList rest) (by simp [htext, String.append_assoc])
      (by simpa using hline)
    rw [String.length_ofList] at hcolumns
    simp only [Cursor.ofText]
    rw [Place.column_advance_origin hfront hline]
    exact hcolumns

/-- A text with fewer characters than the limit is within it. -/
theorem withinLimit_of_length_lt {text : String}
    (h : text.length < positionLimit) : WithinLimit text where
  lines := by
    have hle := List.count_le_length (a := '\n') (l := text.toList)
    rw [String.length_toList] at hle
    exact Nat.lt_of_le_of_lt hle h
  columns front line rest htext _ := by
    rw [htext, String.length_append, String.length_append] at h
    omega

/-- **Lines count line feeds and columns count characters.**  Asked any number
of times, the scanner answers tokens whose line is one more than the line feeds
in front of the token, and whose column is one more than the characters between
the last of them and the token; both are cut off at the largest number that is
reported.  Looking the token up in the table of line starts answers the same,
so the table is never left and no character is cut through.  In a text within
the limit the tokens come one behind the other, up to the end of input. -/
theorem positions_count_lines_and_columns (text : String) :
    (∀ count, ∃ front line rest : String,
      let token := ((Scanner.ofText text).after count).nextToken.1
      text = front ++ line ++ rest ∧
      (front = "" ∨ ∃ above, front = above ++ "\n") ∧
      '\n' ∉ line.toList ∧
      token.span.start = (front ++ line).utf8ByteSize ∧
      token.line = min (lineFeeds (front ++ line) + 1) positionLimit ∧
      token.column = min (line.length + 1) positionLimit ∧
      locate? text token.span.start = some (token.line, token.column)) ∧
    (Scanner.ofText text).Yields (tokensOf text) ∧
    (WithinLimit text → (tokensOf text).Pairwise Token.Precedes) := by
  refine ⟨?_, Scanner.yields_tokensOf text, fun h =>
    Cursor.pairwise_precedes h.exact⟩
  intro count
  have hmem := Scanner.nextToken_after_mem text count
  generalize ((Scanner.ofText text).after count).nextToken.1 = token at hmem
  obtain ⟨gap, rest, word, hrest, htoken⟩ := Cursor.exists_place hmem
  obtain ⟨front, line, rfl, hfront, hline⟩ := exists_endsLine gap
  have htext : text
      = String.ofList front ++ String.ofList line ++ String.ofList rest := by
    rw [← String.ofList_append, ← String.ofList_append, ← hrest]
    exact String.ofList_toList.symm
  have hlines : lineFeeds (String.ofList front ++ String.ofList line)
      = (front ++ line).count '\n' := by
    rw [← String.ofList_append, lineFeeds, String.toList_ofList]
  have hstart : token.span.start
      = (String.ofList front ++ String.ofList line).utf8ByteSize := by
    rw [htoken, ← String.ofList_append]
    exact Cursor.offset_advance_origin _
  have hline' : token.line
      = min (lineFeeds (String.ofList front ++ String.ofList line) + 1)
        positionLimit := by
    rw [htoken, hlines, Nat.add_comm]
    exact congrArg (min · positionLimit) (Place.line_advance _ _)
  have hcolumn : token.column
      = min ((String.ofList line).length + 1) positionLimit := by
    rw [htoken, String.length_ofList]
    exact congrArg (min · positionLimit)
      (Place.column_advance_origin hfront hline)
  have hfound := locate?_eq htext (by simpa using hfront) (by simpa using hline)
  refine ⟨_, _, _, htext, ?_, by simpa using hline, hstart, hline', hcolumn, ?_⟩
  · rcases hfront with rfl | ⟨above, rfl⟩
    · exact .inl rfl
    · exact .inr ⟨String.ofList above, String.ofList_append⟩
  · rw [hstart, hfound, hline', hcolumn]

/-- Characters of several bytes, an empty line, and the end of input on the last
line, which is empty too. -/
theorem positions_among_wide_characters :
    let text := "λ $\n\n b\n"
    WithinLimit text ∧
      (tokensOf text).map (fun token => (token.line, token.column))
        = [(1, 1), (1, 3), (3, 2), (4, 1)] ∧
      (tokensOf text).Pairwise Token.Precedes := by
  intro text
  have hlimit : WithinLimit text := withinLimit_of_length_lt (by decide)
  exact ⟨hlimit, by decide +kernel,
    (positions_count_lines_and_columns text).2.2 hlimit⟩

end LambdaStack
