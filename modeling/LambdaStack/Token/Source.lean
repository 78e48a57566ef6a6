import LambdaStack.Token.Scan

/-!
# Token sources

A parser pulls its tokens from a **tape**: an endless sequence of which
it remembers only how many tokens it has taken.  The tapes that occur are
finite lists continued by one **closing** token, which is answered
forever once the list is used up.

`Source.ofTokens` closes with an end of input that has no place.
`Source.ofText` scans the whole text beforehand and closes with the end
of input at its end.  Main statement: `Source.tape_ofText`, by which this
is the same as scanning the text token by token, as far as one cares to
read.
-/

namespace LambdaStack

namespace Cursor

/-- The cursor after `count` tokens. -/
def skipTokens : Nat → Cursor → Cursor
  | 0, cursor => cursor
  | count + 1, cursor => skipTokens count cursor.next.2

/-- Once the input has ended, it stays ended. -/
theorem next_of_endOfInput {cursor : Cursor}
    (h : cursor.next.1.kind = .endOfInput) :
    cursor.next.2.next = cursor.next := by
  unfold next at h ⊢
  split at h
  · rfl
  · next c cs place heq =>
    exact absurd h (kind_read_ne_endOfInput c cs)

/-- After the end of the input, further reading changes nothing. -/
theorem next_skipTokens_of_endOfInput {cursor : Cursor}
    (h : cursor.next.1.kind = .endOfInput) (count : Nat) :
    (cursor.skipTokens count).next = cursor.next := by
  induction count generalizing cursor with
  | zero => rfl
  | succ count ih =>
    have hnext := next_of_endOfInput h
    rw [skipTokens, ih (by rw [hnext]; exact h), hnext]

/-- There is always a last token, the end of input. -/
theorem tokens_ne_nil (cursor : Cursor) : cursor.tokens ≠ [] := by
  rw [tokens]
  split <;> simp

/-- Reading tokens one by one gives the listed tokens, and then the last
of them forever. -/
theorem getElem?_tokens_getD (cursor : Cursor) (index : Nat)
    (token : Token) :
    cursor.tokens[index]?.getD (cursor.tokens.getLast?.getD token)
      = (cursor.skipTokens index).next.1 := by
  fun_induction tokens cursor generalizing index with
  | case1 cursor h =>
    rw [next_skipTokens_of_endOfInput h]
    cases index <;> simp
  | case2 cursor h ih =>
    cases index with
    | zero => rfl
    | succ index =>
      rw [skipTokens, ← ih index, List.getElem?_cons_succ,
        List.getLast?_cons, Option.getD_some,
        List.getLast?_eq_some_getLast (tokens_ne_nil _)]
      rfl

end Cursor

/-- An endless sequence of tokens. -/
abbrev Tape := Nat → Token

/-- A finite list of tokens and the token answered after them. -/
structure Source where
  tokens : Array Token
  closing : Token
  deriving Inhabited

namespace Source

/-- The tokens of a text. -/
def ofText (text : String) : Source :=
  let tokens := (tokensOf text).toArray
  ⟨tokens, tokens.back?.getD Token.endOfInput⟩

/-- A list of tokens as it stands. -/
def ofTokens (tokens : List Token) : Source :=
  ⟨tokens.toArray, Token.endOfInput⟩

/-- The tokens of a source in the order of reading. -/
def tape (source : Source) : Tape :=
  fun n => source.tokens.getD n source.closing

/-- The tape of a text is what scanning the text token by token
answers. -/
theorem tape_ofText (text : String) (n : Nat) :
    (ofText text).tape n = ((Cursor.ofText text).skipTokens n).next.1 := by
  rw [← Cursor.getElem?_tokens_getD _ _ Token.endOfInput]
  simp [ofText, tape, tokensOf]

/-- The number of tokens before the closing one begins to repeat. -/
def length (source : Source) : Nat :=
  source.tokens.size

end Source

end LambdaStack
