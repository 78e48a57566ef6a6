import LambdaStack.Proofs.Tiling

/-!
# A line feed starts the scanner afresh

Whatever a text ends in (a comment that is still open, the beginning of a
reserved word, a lone slash, a carriage return), the scanner that comes to the
line feed behind it is where it would be at the beginning of a text, apart from
the place.  So two texts with a line feed between them are scanned like the
first, without its end of input, and then like the second:

    kinds, texts, columns    as they were
    spans                    moved by the bytes of the first text, and one
    lines                    moved by the line feeds of the first text, and one

Lines are reported up to a limit, and are exact as long as the joined text has
no more lines than that.

What a scanner hands out is said by `Scanner.Yields`, in terms of single calls.

Main statement: `lineFeed_restarts_scanning`.
-/

namespace LambdaStack

/-! ### What a scanner hands out -/

/-- Asked again and again, the scanner hands out these tokens, and then nothing
for ever. -/
inductive Scanner.Yields : Scanner → List Token → Prop
  | done {scanner : Scanner} (hnext : scanner.next? = (none, scanner)) :
      Yields scanner []
  | token {scanner rest : Scanner} {token : Token} {tokens : List Token}
      (hnext : scanner.next? = (some token, rest))
      (tail : Yields rest tokens) : Yields scanner (token :: tokens)

theorem Scanner.next?_of_not_finished (cursor : Cursor) :
    next? ⟨cursor, false⟩
      = (some cursor.next.1,
        ⟨cursor.next.2, cursor.next.1.kind = .endOfInput⟩) := rfl

/-- A scanner that has handed out the end of input is finished. -/
theorem Scanner.yields_nil (cursor : Cursor) : Yields ⟨cursor, true⟩ [] :=
  .done rfl

/-- **A scanner hands out the tokens of the text**, by induction on them. -/
theorem Scanner.yields_tokens (cursor : Cursor) :
    Yields ⟨cursor, false⟩ cursor.tokens := by
  fun_induction Cursor.tokens cursor with
  | case1 cursor hend =>
      have hnext := next?_of_not_finished cursor
      rw [decide_eq_true hend] at hnext
      exact .token hnext (yields_nil _)
  | case2 cursor hend ih =>
      have hnext := next?_of_not_finished cursor
      rw [decide_eq_false hend] at hnext
      exact .token hnext ih

theorem Scanner.yields_tokensOf (text : String) :
    (ofText text).Yields (tokensOf text) :=
  yields_tokens (Cursor.ofText text)

/-- Only the last token is the end of input. -/
theorem Cursor.kind_ne_of_mem_dropLast {cursor : Cursor} {token : Token}
    (h : token ∈ cursor.tokens.dropLast) : token.kind ≠ .endOfInput := by
  fun_induction tokens cursor with
  | case1 cursor hend => cases h
  | case2 cursor hend ih =>
      rw [List.dropLast_cons_of_ne_nil (tokens_ne_nil _)] at h
      rcases List.mem_cons.mp h with rfl | hlater
      · exact hend
      · exact ih hlater

/-! ### Below the limit -/

/-- The same token so many bytes and lines further on. -/
def Token.displaced (bytes lines : Nat) (token : Token) : Token :=
  { token with
    line := token.line + lines
    span := ⟨token.span.start + bytes, token.span.stop + bytes⟩ }

theorem Token.moved_eq_displaced {token : Token} {lines : Nat}
    (h : token.line + lines ≤ positionLimit) (bytes : Nat) :
    token.moved bytes lines = token.displaced bytes lines := by
  rw [moved, Nat.min_eq_left h, displaced]

/-- In a text that is not too long, no line is cut short. -/
theorem map_moved_eq_map_displaced {first second : String}
    (h : lineFeeds (first ++ "\n" ++ second) < positionLimit) (bytes : Nat) :
    (tokensOf second).map (Token.moved bytes (lineFeeds first + 1))
      = (tokensOf second).map
        (Token.displaced bytes (lineFeeds first + 1)) := by
  apply List.map_congr_left
  intro token htoken
  have hline := line_le_of_mem_tokensOf htoken
  have hfeed : lineFeeds "\n" = 1 := rfl
  rw [lineFeeds_append, lineFeeds_append, hfeed] at h
  exact Token.moved_eq_displaced (by omega) bytes

/-- **A line feed starts the scanner afresh.**  Joined by a line feed, two texts
are scanned like the first, up to its end of input, and then like the second,
with every token so many bytes and lines further on as the first text and the
line feed have.  Kinds, texts and columns stay as they are, and so do the lines
if the joined text has no more of them than can be reported. -/
theorem lineFeed_restarts_scanning (first second : String) :
    ∃ front closing rest,
      (Scanner.ofText first).Yields (front ++ [closing]) ∧
      closing.kind = .endOfInput ∧
      (∀ token ∈ front, token.kind ≠ .endOfInput) ∧
      (Scanner.ofText second).Yields rest ∧
      (Scanner.ofText (first ++ "\n" ++ second)).Yields
        (front ++ rest.map
          (Token.moved (first.utf8ByteSize + 1) (lineFeeds first + 1))) ∧
      (lineFeeds (first ++ "\n" ++ second) < positionLimit →
        (Scanner.ofText (first ++ "\n" ++ second)).Yields
          (front ++ rest.map (Token.displaced (first.utf8ByteSize + 1)
            (lineFeeds first + 1)))) := by
  have hfirst := Scanner.yields_tokensOf first
  have hconcat := Cursor.tokens_eq_concat (Cursor.ofText first)
  have hjoined := Scanner.yields_tokensOf (first ++ "\n" ++ second)
  have hbytes : (first ++ "\n").utf8ByteSize = first.utf8ByteSize + 1 :=
    String.utf8ByteSize_append
  have hlines : lineFeeds (first ++ "\n") = lineFeeds first + 1 :=
    lineFeeds_append first "\n"
  rw [tokensOf, hconcat] at hfirst
  rw [tokensOf_join, hbytes, hlines] at hjoined
  refine ⟨(tokensOf first).dropLast, _, tokensOf second, hfirst, rfl,
    fun token => Cursor.kind_ne_of_mem_dropLast,
    Scanner.yields_tokensOf second, hjoined, ?_⟩
  intro hlimit
  rw [← map_moved_eq_map_displaced hlimit]
  exact hjoined

/-- Two slashes that meet at a line feed open no comment. -/
theorem slashes_apart_restart :
    lineFeeds ("let X = a /" ++ "\n" ++ "/ b\nc") < positionLimit ∧
    ∃ front closing rest,
      (Scanner.ofText "let X = a /").Yields (front ++ [closing]) ∧
      (Scanner.ofText "/ b\nc").Yields rest ∧
      (Scanner.ofText ("let X = a /" ++ "\n" ++ "/ b\nc")).Yields
        (front ++ rest.map (Token.displaced 12 1)) := by
  have hlimit : lineFeeds ("let X = a /" ++ "\n" ++ "/ b\nc")
      < positionLimit := by decide
  obtain ⟨front, closing, rest, hfirst, _, _, hsecond, _, hexact⟩ :=
    lineFeed_restarts_scanning "let X = a /" "/ b\nc"
  exact ⟨hlimit, front, closing, rest, hfirst, hsecond, hexact hlimit⟩

end LambdaStack
