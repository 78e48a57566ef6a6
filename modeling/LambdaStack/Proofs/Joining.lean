import LambdaStack.Token.Source

/-!
# Texts joined by a line feed

A line feed ends every token and every comment, and begins a new line.  So the
tokens of two texts with a line feed between them are the tokens of the first
without its end of input, and then those of the second, each of them **moved**
by the bytes and lines in front of it:

    first          line feed    second
    its tokens                  its tokens, moved
    its end of input is gone    columns stay as they are

Nothing is lost at the seam: a comment at the end of the first text ends with
its line, and a lone slash there does not open one.

Main statement: `tokensOf_join`.
-/

namespace LambdaStack

/-! ### Moving a text -/

/-- The same place with more bytes and lines in front of the text. -/
def Place.moved (bytes lines : Nat) (place : Place) : Place :=
  ⟨place.offset + bytes, place.line + lines, place.column⟩

/-- The same token with more bytes and lines in front of the text.  A line
beyond the largest one that is reported is reported as that one. -/
def Token.moved (bytes lines : Nat) (token : Token) : Token :=
  { token with
    line := min (token.line + lines) positionLimit
    span := ⟨token.span.start + bytes, token.span.stop + bytes⟩ }

/-- The same cursor with more bytes and lines in front of the text. -/
def Cursor.moved (bytes lines : Nat) (cursor : Cursor) : Cursor :=
  ⟨cursor.rest, cursor.place.moved bytes lines⟩

section Moving

variable (bytes lines : Nat)

/-- A character counts the same wherever it stands. -/
theorem Place.step_moved (place : Place) (c : Char) :
    (place.moved bytes lines).step c = (place.step c).moved bytes lines := by
  have hswap : ∀ left middle right : Nat,
      left + middle + right = left + right + middle := by
    omega
  unfold step
  split
  · simp only [moved, hswap]
  · simp only [moved, hswap]

/-- So does a text. -/
theorem Place.advance_moved (place : Place) (text : List Char) :
    (place.moved bytes lines).advance text
      = (place.advance text).moved bytes lines := by
  induction text generalizing place with
  | nil => rfl
  | cons c text ih =>
      have hstep := ih (place.step c)
      rw [← place.step_moved] at hstep
      exact hstep

namespace Cursor

/-- What is skipped does not depend on the place. -/
theorem skip_moved (inComment : Bool) (cs : List Char) (place : Place) :
    skip inComment cs (place.moved bytes lines)
      = (skip inComment cs place).moved bytes lines := by
  induction cs generalizing inComment place with
  | nil => rfl
  | cons c cs ih =>
      unfold skip
      rw [place.step_moved, ih, ih, ih]
      split
      · rfl
      · split
        · rfl
        · split <;> rfl

/-- A token that starts elsewhere is the same token elsewhere. -/
theorem tokenAt_moved (place : Place) (kind : Kind) (text : List Char) :
    tokenAt (place.moved bytes lines) kind text
      = (tokenAt place kind text).moved bytes lines := by
  have hline : min (place.line + lines) positionLimit
      = min (min place.line positionLimit + lines) positionLimit := by
    omega
  simp only [tokenAt, Token.moved, place.advance_moved]
  simp only [Place.moved, hline]

/-- Scanning from a moved place gives the moved token, and goes on from a moved
place. -/
theorem next_moved (cursor : Cursor) :
    (cursor.moved bytes lines).next
      = (cursor.next.1.moved bytes lines, cursor.next.2.moved bytes lines) := by
  have hskip := skip_moved bytes lines false cursor.rest cursor.place
  unfold next
  simp only [moved] at hskip ⊢
  rw [hskip]
  generalize skip false cursor.rest cursor.place = found
  obtain ⟨_ | ⟨c, cs⟩, place⟩ := found
  · simp only [tokenAt_moved]
  · simp only [tokenAt_moved, place.advance_moved]

/-- **Moving a text moves its tokens.** -/
theorem tokens_moved (cursor : Cursor) :
    (cursor.moved bytes lines).tokens
      = cursor.tokens.map (Token.moved bytes lines) := by
  have hnext := next_moved bytes lines
  fun_induction tokens cursor with
  | case1 cursor hend =>
      have hmoved : (cursor.moved bytes lines).next.1.kind = .endOfInput := by
        rw [hnext]
        exact hend
      rw [tokens, dif_pos hmoved, hnext]
      rfl
  | case2 cursor hend ih =>
      have hmoved : (cursor.moved bytes lines).next.1.kind ≠ .endOfInput := by
        rw [hnext]
        exact hend
      rw [tokens, dif_neg hmoved, hnext, ih, List.map_cons]

end Cursor

end Moving

/-! ### Places in a text -/

/-- The number of line feeds in a text. -/
def lineFeeds (text : String) : Nat :=
  text.toList.count '\n'

/-- A text can be passed in two parts. -/
theorem Place.advance_append (place : Place) (left right : List Char) :
    place.advance (left ++ right) = (place.advance left).advance right :=
  List.foldl_append

/-- Every line feed counts as one line. -/
theorem Place.line_advance (place : Place) (text : List Char) :
    (place.advance text).line = place.line + text.count '\n' := by
  induction text generalizing place with
  | nil => rfl
  | cons c text ih =>
      have hrest := ih (place.step c)
      rw [List.count_cons]
      by_cases hfeed : c = '\n'
      · simp only [step, if_pos hfeed] at hrest
        simp only [advance, List.foldl_cons, step, hfeed] at hrest ⊢
        simp only [beq_self_eq_true, if_true] at hrest ⊢
        omega
      · simp only [step, if_neg hfeed] at hrest
        simp only [advance, List.foldl_cons, step, if_neg hfeed] at hrest ⊢
        simp only [beq_iff_eq, hfeed, if_false]
        omega

/-- Offsets count bytes. -/
theorem Place.offset_advance (place : Place) (text : List Char) :
    (place.advance text).offset
      = place.offset + (String.ofList text).utf8ByteSize := by
  induction text generalizing place with
  | nil => rfl
  | cons c text ih =>
      have hrest := ih (place.step c)
      have hstep : (place.step c).offset = place.offset + c.utf8Size := by
        unfold step
        split <;> rfl
      rw [hstep] at hrest
      rw [String.ofList_cons, String.utf8ByteSize_append,
        String.utf8ByteSize_singleton, ← Nat.add_assoc]
      exact hrest

/-- Line feeds of joined texts add up. -/
theorem lineFeeds_append (left right : String) :
    lineFeeds (left ++ right) = lineFeeds left + lineFeeds right := by
  rw [lineFeeds, String.toList_append, List.count_append, lineFeeds, lineFeeds]

/-- The place behind a text and a line feed. -/
theorem Place.step_advance_origin (text : String) :
    (origin.advance text.toList).step '\n'
      = origin.moved (text ++ "\n").utf8ByteSize
        (lineFeeds (text ++ "\n")) := by
  have hline := origin.line_advance text.toList
  have hoffset := origin.offset_advance text.toList
  rw [String.ofList_toList] at hoffset
  have hfeed : '\n'.utf8Size = "\n".utf8ByteSize := rfl
  have hlast : lineFeeds "\n" = 1 := rfl
  rw [step, if_pos rfl, hline, hoffset, hfeed, moved, lineFeeds_append, hlast,
    String.utf8ByteSize_append, lineFeeds]
  simp only [origin, Nat.zero_add, Nat.add_assoc]

namespace Cursor

/-- Skipping leads to the same end of the text. -/
theorem advance_skip (inComment : Bool) (cs : List Char) (place : Place) :
    (skip inComment cs place).place.advance (skip inComment cs place).rest
      = place.advance cs := by
  induction cs generalizing inComment place with
  | nil => rfl
  | cons c cs ih =>
      unfold skip
      split
      · exact ih _ (place.step c)
      · split
        · exact ih _ (place.step c)
        · split
          · exact ih _ (place.step c)
          · rfl

/-- Reading a token leads to the same end of the text. -/
theorem advance_next (cursor : Cursor) :
    cursor.next.2.place.advance cursor.next.2.rest
      = cursor.place.advance cursor.rest := by
  rw [← advance_skip false cursor.rest cursor.place]
  unfold next
  generalize skip false cursor.rest cursor.place = found
  obtain ⟨_ | ⟨c, cs⟩, place⟩ := found
  · rfl
  · have htext := Lexeme.text_append_rest_read c cs
    dsimp only
    rw [← Place.advance_append, htext]

/-- No token stands behind the last line. -/
theorem line_next_le (cursor : Cursor) :
    cursor.next.1.line ≤ (cursor.place.advance cursor.rest).line := by
  rw [← advance_skip false cursor.rest cursor.place]
  unfold next
  generalize skip false cursor.rest cursor.place = found
  obtain ⟨_ | ⟨c, cs⟩, place⟩ := found
  · exact Nat.min_le_left _ _
  · have hline := place.line_advance (c :: cs)
    have hmin := Nat.min_le_left place.line positionLimit
    simp only [tokenAt]
    omega

/-- No token starts behind the last line. -/
theorem line_le_of_mem_tokens {cursor : Cursor} {token : Token}
    (h : token ∈ cursor.tokens) :
    token.line ≤ (cursor.place.advance cursor.rest).line := by
  fun_induction tokens cursor with
  | case1 cursor hend =>
      rw [List.mem_singleton.mp h]
      exact cursor.line_next_le
  | case2 cursor hend ih =>
      rcases List.mem_cons.mp h with rfl | hlater
      · exact cursor.line_next_le
      · rw [← cursor.advance_next]
        exact ih hlater

end Cursor

/-- A text has one line more than it has line feeds, and no token starts behind
them. -/
theorem line_le_of_mem_tokensOf {text : String} {token : Token}
    (h : token ∈ tokensOf text) : token.line ≤ lineFeeds text + 1 := by
  have hle := Cursor.line_le_of_mem_tokens h
  rw [Place.line_advance] at hle
  have horigin : Place.origin.line = 1 := rfl
  simp only [Cursor.ofText, horigin] at hle
  rw [lineFeeds]
  omega

/-! ### A line feed at the end -/

namespace Cursor

/-- Where a line feed follows, skipping stops before it where it stopped
before the end, or goes on behind it where there was nothing left. -/
theorem skip_append_lineFeed (inComment : Bool) (cs more : List Char)
    (place : Place) :
    skip inComment (cs ++ '\n' :: more) place
      = match skip inComment cs place with
        | ⟨[], place⟩ => skip false more (place.step '\n')
        | ⟨c :: rest, place⟩ => ⟨c :: (rest ++ '\n' :: more), place⟩ := by
  induction cs generalizing inComment place with
  | nil =>
      -- the line feed ends a comment, and is a blank otherwise
      cases inComment <;> simp [skip, isBlank]
  | cons c cs ih =>
      have hslash : (c = '/' ∧ (cs ++ '\n' :: more).head? = some '/')
          ↔ (c = '/' ∧ cs.head? = some '/') := by
        cases cs <;> simp
      simp only [List.cons_append, skip]
      by_cases hcomment : inComment
      · simp only [if_pos hcomment, ih]
      · by_cases hblank : isBlank c
        · simp only [if_neg hcomment, if_pos hblank, ih]
        · by_cases hopen : c = '/' ∧ cs.head? = some '/'
          · simp only [if_neg hcomment, if_neg hblank, if_pos hopen,
              if_pos (hslash.mpr hopen), ih]
          · simp only [if_neg hcomment, if_neg hblank, if_neg hopen,
              if_neg (mt hslash.mp hopen)]

end Cursor

/-- What is taken from the front does not depend on what stands behind a
character that stops it. -/
theorem takeWhile_append_of_stop {p : Char → Bool} {stop : Char}
    (h : p stop = false) (cs more : List Char) :
    (cs ++ stop :: more).takeWhile p = cs.takeWhile p := by
  induction cs with
  | nil => simp [h]
  | cons c cs ih =>
      rw [List.cons_append, List.takeWhile_cons, List.takeWhile_cons, ih]

/-- What is left goes on with the character that stops it. -/
theorem dropWhile_append_of_stop {p : Char → Bool} {stop : Char}
    (h : p stop = false) (cs more : List Char) :
    (cs ++ stop :: more).dropWhile p = cs.dropWhile p ++ stop :: more := by
  induction cs with
  | nil => simp [h]
  | cons c cs ih =>
      rw [List.cons_append, List.dropWhile_cons, List.dropWhile_cons, ih]
      split <;> rfl

/-- A character with which no word goes on ends every token. -/
theorem Lexeme.read_append_stop {stop : Char}
    (hstop : isIdentifierChar stop = false) (c : Char) (cs more : List Char) :
    read c (cs ++ stop :: more)
      = { read c cs with rest := (read c cs).rest ++ stop :: more } := by
  have hname : isNameChar stop = false := by
    rw [isIdentifierChar, Bool.or_eq_false_iff] at hstop
    exact hstop.2
  unfold read
  split
  · rw [takeWhile_append_of_stop hstop, dropWhile_append_of_stop hstop]
  · split
    · rw [takeWhile_append_of_stop hname, dropWhile_append_of_stop hname]
    · rfl

namespace Cursor

variable {cursor : Cursor}

/-- A token is the same where a line feed follows. -/
theorem next_append_lineFeed (h : cursor.next.1.kind ≠ .endOfInput)
    (more : List Char) :
    next ⟨cursor.rest ++ '\n' :: more, cursor.place⟩
      = (cursor.next.1,
        ⟨cursor.next.2.rest ++ '\n' :: more, cursor.next.2.place⟩) := by
  have hskip := skip_append_lineFeed false cursor.rest more cursor.place
  unfold next at h ⊢
  dsimp only at hskip ⊢
  rw [hskip]
  generalize skip false cursor.rest cursor.place = found at h ⊢
  obtain ⟨_ | ⟨c, cs⟩, place⟩ := found
  · exact absurd rfl h
  · simp only [Lexeme.read_append_stop (show isIdentifierChar '\n' = false
      by decide)]

/-- Where the text has ended, the line feed is skipped. -/
theorem next_append_lineFeed_of_end (h : cursor.next.1.kind = .endOfInput)
    (more : List Char) :
    next ⟨cursor.rest ++ '\n' :: more, cursor.place⟩
      = next ⟨more, (cursor.place.advance cursor.rest).step '\n'⟩ := by
  have hskip := skip_append_lineFeed false cursor.rest more cursor.place
  have hplace := advance_skip false cursor.rest cursor.place
  unfold next at h ⊢
  dsimp only at hskip ⊢
  rw [hskip]
  generalize skip false cursor.rest cursor.place = found at h hplace ⊢
  obtain ⟨_ | ⟨c, cs⟩, place⟩ := found
  · rw [← hplace]
    rfl
  · exact absurd h (kind_read_ne_endOfInput c cs)

/-- Tokens depend on what is read next. -/
theorem tokens_eq_of_next_eq {other : Cursor}
    (h : cursor.next = other.next) : cursor.tokens = other.tokens := by
  rw [tokens.eq_def cursor, tokens.eq_def other, h]

/-- **A line feed at the end is followed by fresh tokens.** -/
theorem tokens_append_lineFeed (cursor : Cursor) (more : List Char) :
    tokens ⟨cursor.rest ++ '\n' :: more, cursor.place⟩
      = cursor.tokens.dropLast
        ++ tokens ⟨more, (cursor.place.advance cursor.rest).step '\n'⟩ := by
  fun_induction tokens cursor with
  | case1 cursor hend =>
      rw [tokens_eq_of_next_eq (next_append_lineFeed_of_end hend more)]
      rfl
  | case2 cursor hend ih =>
      have hnext := next_append_lineFeed hend more
      have hkind : (next ⟨cursor.rest ++ '\n' :: more,
          cursor.place⟩).1.kind ≠ .endOfInput := by
        rw [hnext]
        exact hend
      rw [tokens, dif_neg hkind, hnext, ih, cursor.advance_next,
        List.dropLast_cons_of_ne_nil (tokens_ne_nil _), List.cons_append]

end Cursor

/-- **Tokens of joined texts.** -/
theorem tokensOf_join (first second : String) :
    tokensOf (first ++ "\n" ++ second)
      = (tokensOf first).dropLast ++ (tokensOf second).map
        (Token.moved (first ++ "\n").utf8ByteSize
          (lineFeeds (first ++ "\n"))) := by
  have hchars : (first ++ "\n" ++ second).toList
      = first.toList ++ '\n' :: second.toList := by
    simp
  have hmoved := Cursor.tokens_moved (first ++ "\n").utf8ByteSize
    (lineFeeds (first ++ "\n")) (Cursor.ofText second)
  have hjoined := Cursor.tokens_append_lineFeed (Cursor.ofText first)
    second.toList
  simp only [Cursor.ofText, Place.step_advance_origin] at hjoined
  simp only [tokensOf, Cursor.ofText, hchars, hjoined]
  exact congrArg _ hmoved

end LambdaStack
