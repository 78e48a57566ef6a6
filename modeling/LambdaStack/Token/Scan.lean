import LambdaStack.Token.Basic

/-!
# Scanning a text into tokens

The scanner walks a text character by character.  Between tokens it skips
**blanks** (space, tab, carriage return, line feed, form feed) and
**comments**, which run from `//` up to the next line feed or the end of
the text.  A token is the longest stretch its class admits:

    identifier    a capital letter or digit, then letters and digits
    name          a small letter, then small letters and digits
    reserved      a name spelt `let` or `eval`
    mark          one of  =  \  .  (  )
    invalid       any other single character

A `Cursor` is the rest of the text together with the `Place` it stands
at.  `Cursor.next` reads one token; at the end of the text it answers the
end of input, and goes on answering it.  `Cursor.tokens` is everything up
to and including the first end of input.  It ends because reading a token
uses up at least one character (`Cursor.rest_next_lt`).
-/

namespace LambdaStack

/-- Characters that separate tokens. -/
def isBlank (c : Char) : Bool :=
  c = ' ' || c = '\t' || c = '\r' || c = '\n' || c = '\x0c'

/-- Small letters and digits: what a name goes on with. -/
def isNameChar (c : Char) : Bool :=
  c.isLower || c.isDigit

/-- Letters and digits: what an identifier goes on with. -/
def isIdentifierChar (c : Char) : Bool :=
  c.isUpper || isNameChar c

/-- Capital letters and digits: what an identifier begins with. -/
def isIdentifierStart (c : Char) : Bool :=
  c.isUpper || c.isDigit

/-- A position in a text: the bytes before it, its line and its column,
both counted from one. -/
structure Place where
  offset : Nat
  line : Nat
  column : Nat
  deriving DecidableEq, Repr, Inhabited

namespace Place

/-- The beginning of a text. -/
def origin : Place := ⟨0, 1, 1⟩

/-- The place after one more character.  Only a line feed begins a new
line; columns count characters, offsets count bytes. -/
def step (place : Place) (c : Char) : Place :=
  if c = '\n' then
    ⟨place.offset + c.utf8Size, place.line + 1, 1⟩
  else
    ⟨place.offset + c.utf8Size, place.line, place.column + 1⟩

/-- The place after a stretch of text. -/
def advance (place : Place) (text : List Char) : Place :=
  text.foldl step place

end Place

/-- The largest line or column that a token reports. -/
def positionLimit : Nat := 4294967295

/-- The kind of a word that begins with a small letter. -/
def wordKind (text : List Char) : Kind :=
  if text = ['l', 'e', 't'] then .letWord
  else if text = ['e', 'v', 'a', 'l'] then .evalWord
  else .name

/-- The kind of a character that is a token by itself. -/
def markKind : Char → Kind
  | '=' => .equals
  | '\\' => .lambda
  | '.' => .dot
  | '(' => .openBracket
  | ')' => .closeBracket
  | _ => .invalid

/-- A kind, the characters it covers and the characters after them. -/
structure Lexeme where
  kind : Kind
  text : List Char
  rest : List Char
  deriving DecidableEq, Repr

namespace Lexeme

/-- The longest token that begins with `c`. -/
def read (c : Char) (cs : List Char) : Lexeme :=
  if isIdentifierStart c then
    ⟨.identifier, c :: cs.takeWhile isIdentifierChar,
      cs.dropWhile isIdentifierChar⟩
  else if c.isLower then
    ⟨wordKind (c :: cs.takeWhile isNameChar), c :: cs.takeWhile isNameChar,
      cs.dropWhile isNameChar⟩
  else
    ⟨markKind c, [c], cs⟩

/-- A token and the rest make up the characters that were there. -/
theorem text_append_rest_read (c : Char) (cs : List Char) :
    (read c cs).text ++ (read c cs).rest = c :: cs := by
  unfold read
  split
  · simp
  · split <;> simp

/-- What is left after a token is no longer than what stood behind its
first character. -/
theorem length_rest_read_le (c : Char) (cs : List Char) :
    (read c cs).rest.length ≤ cs.length := by
  have h := congrArg List.length (text_append_rest_read c cs)
  have hpos : 1 ≤ (read c cs).text.length := by
    unfold read
    split
    · simp
    · split <;> simp
  simp only [List.length_append, List.length_cons] at h
  omega

end Lexeme

/-- The rest of a text and the place where it begins. -/
structure Cursor where
  rest : List Char
  place : Place
  deriving DecidableEq, Repr

namespace Cursor

/-- The cursor at the beginning of a text. -/
def ofText (text : String) : Cursor :=
  ⟨text.toList, Place.origin⟩

/-- Skips blanks and comments.  `inComment` holds while the characters
belong to a comment; the line feed that ends one is itself a blank. -/
def skip (inComment : Bool) : List Char → Place → Cursor
  | [], place => ⟨[], place⟩
  | c :: cs, place =>
    if inComment then
      skip (c ≠ '\n') cs (place.step c)
    else if isBlank c then
      skip false cs (place.step c)
    else if c = '/' ∧ cs.head? = some '/' then
      skip true cs (place.step c)
    else
      ⟨c :: cs, place⟩

/-- Skipping never adds characters. -/
theorem length_rest_skip_le (inComment : Bool) (cs : List Char)
    (place : Place) : (skip inComment cs place).rest.length ≤ cs.length := by
  induction cs generalizing inComment place with
  | nil => simp [skip]
  | cons c cs ih =>
    unfold skip
    split
    · exact Nat.le_succ_of_le (ih _ _)
    · split
      · exact Nat.le_succ_of_le (ih _ _)
      · split
        · exact Nat.le_succ_of_le (ih _ _)
        · exact Nat.le_refl _

/-- The token of a given kind and text that begins at `place`. -/
def tokenAt (place : Place) (kind : Kind) (text : List Char) : Token where
  kind
  line := min place.line positionLimit
  column := min place.column positionLimit
  text := if kind.carriesText then some (String.ofList text) else none
  span := ⟨place.offset, (place.advance text).offset⟩

/-- Reads the next token.  At the end of the text this is the end of
input, and the cursor stays there. -/
def next (cursor : Cursor) : Token × Cursor :=
  match skip false cursor.rest cursor.place with
  | ⟨[], place⟩ => (tokenAt place .endOfInput [], ⟨[], place⟩)
  | ⟨c :: cs, place⟩ =>
    let lexeme := Lexeme.read c cs
    (tokenAt place lexeme.kind lexeme.text,
      ⟨lexeme.rest, place.advance lexeme.text⟩)

/-- No word or mark is mistaken for the end of the input. -/
theorem kind_read_ne_endOfInput (c : Char) (cs : List Char) :
    (Lexeme.read c cs).kind ≠ .endOfInput := by
  unfold Lexeme.read
  split
  · simp
  · split
    · simp only [wordKind]
      split
      · simp
      · split <;> simp
    · simp only [markKind]
      split <;> simp

/-- Every token but the end of input uses up at least one character. -/
theorem rest_next_lt {cursor : Cursor}
    (h : cursor.next.1.kind ≠ .endOfInput) :
    cursor.next.2.rest.length < cursor.rest.length := by
  have hskip := length_rest_skip_le false cursor.rest cursor.place
  unfold next at h ⊢
  split at h
  · exact absurd rfl h
  · next c cs place heq =>
    rw [heq] at hskip
    have hread := Lexeme.length_rest_read_le c cs
    simp only [List.length_cons] at hskip
    exact Nat.lt_of_le_of_lt hread hskip

/-- The tokens from the cursor on, up to and including the first end of
input. -/
def tokens (cursor : Cursor) : List Token :=
  if _ : cursor.next.1.kind = .endOfInput then
    [cursor.next.1]
  else
    cursor.next.1 :: tokens cursor.next.2
termination_by cursor.rest.length
decreasing_by exact rest_next_lt ‹_›

end Cursor

/-- The tokens of a text, the end of input last. -/
def tokensOf (text : String) : List Token :=
  (Cursor.ofText text).tokens

/-- A scanner that is asked for tokens one at a time.  It can be read as
an endless supply (`nextToken`) or as a finite one (`next?`). -/
structure Scanner where
  cursor : Cursor
  /-- set once `next?` has handed out the end of input -/
  finished : Bool := false
  deriving DecidableEq, Repr

namespace Scanner

/-- A scanner at the beginning of a text. -/
def ofText (text : String) : Scanner :=
  { cursor := Cursor.ofText text }

/-- The next token; after the last one, the end of input again and
again. -/
def nextToken (scanner : Scanner) : Token × Scanner :=
  (scanner.cursor.next.1, { scanner with cursor := scanner.cursor.next.2 })

/-- The next token, or nothing once this function has handed out the end
of input. -/
def next? (scanner : Scanner) : Option Token × Scanner :=
  if scanner.finished then
    (none, scanner)
  else
    let (token, scanner) := scanner.nextToken
    (some token, { scanner with finished := token.kind = .endOfInput })

end Scanner

/-- What is said of a character that begins no token. -/
def invalidTokenMessage : String :=
  "invalid token encountered"

end LambdaStack
