import LambdaStack.Proofs.Joining

/-!
# The tokens tile the text

A text is laid out with tokens from its first character to its last.  What lies
between two of them, in front of the first and behind the last, is **filler**:
blanks and comments.

    text      filler  word  filler  word  ...  filler
    tokens            first         second

`lexemeKind?` says which texts are tokens, whole and by themselves.  A token of
a text is one of them, and the longest that begins where it begins; or it is a
single character with which none of them begins, and no filler either.  This is
what `Token.Covers` says of one token, and `Tiles` of all of them: every
character belongs to one word or to one filler.

Main statement: `tokens_tile_text`.
-/

namespace LambdaStack

/-! ### Words and fillers -/

/-- Spelt `[A-Z0-9][A-Za-z0-9]*`. -/
def isIdentifierText : List Char → Bool
  | [] => false
  | c :: cs => (c.isUpper || c.isDigit)
    && cs.all fun c => c.isUpper || c.isLower || c.isDigit

/-- Spelt `[a-z][a-z0-9]*`. -/
def isNameText : List Char → Bool
  | [] => false
  | c :: cs => c.isLower && cs.all fun c => c.isLower || c.isDigit

/-- The kind of the token that a whole text is.  A reserved word is spelt like
a name and is none. -/
def lexemeKind? (text : List Char) : Option Kind :=
  if text = ['l', 'e', 't'] then some .letWord
  else if text = ['e', 'v', 'a', 'l'] then some .evalWord
  else if isIdentifierText text then some .identifier
  else if isNameText text then some .name
  else
    match text with
    | ['='] => some .equals
    | ['\\'] => some .lambda
    | ['.'] => some .dot
    | ['('] => some .openBracket
    | [')'] => some .closeBracket
    | _ => none

/-- Blanks and comments in front of `rest`.  A comment runs from two slashes up
to the next line feed, or to the end of the text. -/
inductive Filler : List Char → List Char → Prop
  | nil (rest : List Char) : Filler [] rest
  | blank {c : Char} {gap rest : List Char}
      (hblank : c ∈ [' ', '\t', '\r', '\n', '\x0c'])
      (tail : Filler gap rest) : Filler (c :: gap) rest
  | comment {body gap rest : List Char} (hbody : '\n' ∉ body)
      (hend : ∀ c ∈ (gap ++ rest).head?, c = '\n')
      (tail : Filler gap rest) : Filler ('/' :: '/' :: (body ++ gap)) rest

/-- The token is the `word` in front of `rest`: the longest token there, or a
single character that begins neither a token nor a filler. -/
structure Token.Covers (token : Token) (word rest : List Char) : Prop where
  longest : ∀ more, more ≠ [] → more <+: rest →
    lexemeKind? (word ++ more) = none
  kind : lexemeKind? word = some token.kind ∨
    token.kind = .invalid ∧ lexemeKind? word = none ∧
      ∃ c, word = [c] ∧ c ∉ [' ', '\t', '\r', '\n', '\x0c'] ∧
        ¬ ['/', '/'] <+: c :: rest
  text : token.text
    = if token.kind ∈ [.identifier, .name, .invalid] then
        some (String.ofList word)
      else none

/-- The number of bytes of a text. -/
def textWidth (text : List Char) : Nat :=
  (String.ofList text).utf8ByteSize

/-- Behind `before` the text goes on with `rest`, and the tokens tile it. -/
inductive Tiles : List Char → List Char → List Token → Prop
  | done {before rest : List Char} (hgap : Filler rest []) :
      Tiles before rest []
  | token {before gap word rest : List Char} {token : Token}
      {tokens : List Token} (hgap : Filler gap (word ++ rest))
      (hword : word ≠ []) (hcovers : token.Covers word rest)
      (hspan : token.span
        = ⟨textWidth (before ++ gap), textWidth (before ++ gap ++ word)⟩)
      (tail : Tiles (before ++ gap ++ word) rest tokens) :
      Tiles before (gap ++ word ++ rest) (token :: tokens)

/-! ### Skipping -/

/-- There are five blanks. -/
theorem isBlank_iff {c : Char} :
    isBlank c ↔ c ∈ [' ', '\t', '\r', '\n', '\x0c'] := by
  simp [isBlank, or_assoc]

/-- What was skipped in front of `rest`.  In a comment, its end comes first. -/
def Skipped (inComment : Bool) (gap rest : List Char) : Prop :=
  if inComment then
    ∃ body tail, gap = body ++ tail ∧ '\n' ∉ body ∧
      (∀ c ∈ (tail ++ rest).head?, c = '\n') ∧ Filler tail rest
  else Filler gap rest

/-- No filler begins here. -/
def Solid (rest : List Char) : Prop :=
  ∀ c cs, rest = c :: cs → isBlank c = false ∧ ¬ ['/', '/'] <+: c :: cs

/-- A comment is opened by two slashes. -/
theorem opens_comment_iff (c : Char) (cs : List Char) :
    c = '/' ∧ cs.head? = some '/' ↔ ['/', '/'] <+: c :: cs := by
  cases cs with
  | nil => simp
  | cons d cs => simp [List.cons_prefix_cons, eq_comm]

/-- **Skipping takes fillers and nothing else.** -/
theorem Cursor.exists_skipped (inComment : Bool) (cs : List Char)
    (place : Place) :
    ∃ gap rest, skip inComment cs place = ⟨rest, place.advance gap⟩ ∧
      cs = gap ++ rest ∧ Skipped inComment gap rest ∧ Solid rest := by
  induction cs generalizing inComment place with
  | nil =>
      refine ⟨[], [], rfl, rfl, ?_, by simp [Solid]⟩
      cases inComment with
      | false => exact Filler.nil []
      | true => exact ⟨[], [], rfl, by simp, by simp, Filler.nil []⟩
  | cons c cs ih =>
      have hadvance : ∀ gap, place.advance (c :: gap)
          = (place.step c).advance gap := fun gap => rfl
      simp only [skip]
      by_cases hcomment : inComment
      · rw [if_pos hcomment, hcomment]
        by_cases hfeed : c = '\n'
        · -- the line feed that ends the comment is a blank
          have hmode : decide (c ≠ '\n') = false := by simp [hfeed]
          obtain ⟨gap, rest, hskip, rfl, hgap, hsolid⟩ :=
            ih false (place.step c)
          refine ⟨c :: gap, rest, ?_, rfl, ?_, hsolid⟩
          · rw [hmode, hskip, hadvance]
          · refine ⟨[], c :: gap, rfl, by simp, by simp [hfeed], ?_⟩
            exact Filler.blank (by simp [hfeed]) hgap
        · have hmode : decide (c ≠ '\n') = true := by simp [hfeed]
          obtain ⟨gap, rest, hskip, rfl, ⟨body, tail, rfl, hbody, hend, htail⟩,
            hsolid⟩ := ih true (place.step c)
          refine ⟨c :: (body ++ tail), rest, ?_, rfl, ?_, hsolid⟩
          · rw [hmode, hskip, hadvance]
          · refine ⟨c :: body, tail, rfl, ?_, hend, htail⟩
            simp [hbody, Ne.symm hfeed]
      · rw [if_neg hcomment]
        obtain rfl : inComment = false := by simpa using hcomment
        by_cases hblank : isBlank c
        · obtain ⟨gap, rest, hskip, rfl, hgap, hsolid⟩ :=
            ih false (place.step c)
          refine ⟨c :: gap, rest, ?_, rfl, ?_, hsolid⟩
          · rw [if_pos hblank, hskip, hadvance]
          · exact Filler.blank (isBlank_iff.mp hblank) hgap
        · rw [if_neg hblank]
          by_cases hopen : c = '/' ∧ cs.head? = some '/'
          · obtain ⟨gap, rest, hskip, rfl,
              ⟨body, tail, rfl, hbody, hend, htail⟩, hsolid⟩ :=
              ih true (place.step c)
            refine ⟨c :: (body ++ tail), rest, ?_, rfl, ?_, hsolid⟩
            · rw [if_pos hopen, hskip, hadvance]
            · -- the second slash belongs to the comment, which has not ended
              obtain ⟨rfl, hslash⟩ := hopen
              cases body with
              | nil => cases hend '/' (by simpa using hslash)
              | cons d body =>
                  obtain rfl : d = '/' := by simpa using hslash
                  have hlater : '\n' ∉ body := by
                    simpa using hbody
                  exact Filler.comment hlater hend htail
          · refine ⟨[], c :: cs, ?_, rfl, Filler.nil (c :: cs), ?_⟩
            · rw [if_neg hopen]
              rfl
            · intro d ds heq
              obtain ⟨rfl, rfl⟩ := List.cons.inj heq
              rw [← opens_comment_iff]
              exact ⟨by simpa using hblank, hopen⟩

/-! ### Reading -/

/-- A text is no token if it is spelt like no word and is no mark. -/
theorem lexemeKind?_eq_none {text : List Char}
    (hidentifier : isIdentifierText text = false)
    (hname : isNameText text = false)
    (hmark : ∀ c, text = [c] → markKind c = .invalid) :
    lexemeKind? text = none := by
  unfold lexemeKind?
  split
  · next heq =>
    rw [heq] at hname
    cases hname
  split
  · next heq =>
    rw [heq] at hname
    cases hname
  rw [if_neg (by simp [hidentifier]), if_neg (by simp [hname])]
  split
  all_goals first | rfl | cases hmark _ rfl

/-- A capital letter or a digit is no small letter. -/
theorem isLower_of_isIdentifierStart {c : Char}
    (h : isIdentifierStart c = true) : c.isLower = false := by
  have hlarge : (decide (65 ≤ c.val ∧ c.val ≤ 90)
      || (decide (48 ≤ c.val) && decide (c.val ≤ 57))) = true := h
  change (decide (97 ≤ c.val) && decide (c.val ≤ 122)) = false
  grind

/-- What a run of characters takes in, and nothing longer, is in the class. -/
theorem all_takeWhile_append {p : Char → Bool} {cs more : List Char}
    (hne : more ≠ []) (hmore : more <+: cs.dropWhile p) :
    (cs.takeWhile p).all p = true ∧ (cs.takeWhile p ++ more).all p = false := by
  refine ⟨List.all_takeWhile, ?_⟩
  obtain ⟨d, ds, rfl⟩ := List.exists_cons_of_ne_nil hne
  obtain ⟨after, hafter⟩ := hmore
  have hstop : p d = false := by
    have hhead := List.head?_dropWhile_not p cs
    rw [← hafter] at hhead
    simpa using hhead
  rw [List.all_append, List.all_cons, hstop]
  simp

namespace Lexeme

variable {c : Char}

theorem isNameText_cons (c : Char) (cs : List Char) :
    isNameText (c :: cs) = (c.isLower && cs.all isNameChar) := rfl

/-- An identifier has a first character of its own kind. -/
theorem isIdentifierText_cons (c : Char) (cs : List Char) :
    isIdentifierText (c :: cs)
      = (isIdentifierStart c && cs.all isIdentifierChar) := by
  simp only [isIdentifierText, isIdentifierStart, Bool.or_assoc]
  rfl

/-- The longest identifier. -/
theorem longest_identifier (h : isIdentifierStart c) (cs : List Char) :
    (read c cs).kind = .identifier ∧
      lexemeKind? (read c cs).text = some .identifier ∧
      ∀ more, more ≠ [] → more <+: (read c cs).rest →
        lexemeKind? ((read c cs).text ++ more) = none := by
  have hlower := isLower_of_isIdentifierStart h
  have hread : read c cs = ⟨.identifier, c :: cs.takeWhile isIdentifierChar,
      cs.dropWhile isIdentifierChar⟩ := by
    rw [read, if_pos h]
  have hfirst : ∀ d ds, d.isLower → c :: cs.takeWhile isIdentifierChar
      ≠ d :: ds := by
    rintro d ds hd heq
    obtain ⟨rfl, -⟩ := List.cons.inj heq
    rw [hlower] at hd
    cases hd
  rw [hread]
  refine ⟨rfl, ?_, ?_⟩
  · have hspelt : isIdentifierText (c :: cs.takeWhile isIdentifierChar) := by
      rw [isIdentifierText_cons, h, List.all_takeWhile]
      rfl
    simp only [lexemeKind?]
    rw [if_neg (hfirst 'l' _ rfl), if_neg (hfirst 'e' _ rfl), if_pos hspelt]
  · intro more hne hmore
    apply lexemeKind?_eq_none
    · rw [List.cons_append, isIdentifierText_cons,
        (all_takeWhile_append hne hmore).2, Bool.and_false]
    · rw [List.cons_append, isNameText_cons, hlower, Bool.false_and]
    · intro d heq
      simp [hne] at heq

/-- The longest word that begins with a small letter. -/
theorem longest_word (h : c.isLower) (hstart : isIdentifierStart c = false)
    (cs : List Char) :
    lexemeKind? (read c cs).text = some (read c cs).kind ∧
      ∀ more, more ≠ [] → more <+: (read c cs).rest →
        lexemeKind? ((read c cs).text ++ more) = none := by
  have hread : read c cs = ⟨wordKind (c :: cs.takeWhile isNameChar),
      c :: cs.takeWhile isNameChar, cs.dropWhile isNameChar⟩ := by
    rw [read, if_neg (by simp [hstart]), if_pos h]
  rw [hread]
  refine ⟨?_, ?_⟩
  · have hspelt : isNameText (c :: cs.takeWhile isNameChar) := by
      rw [isNameText_cons, h, List.all_takeWhile]
      rfl
    have hother : isIdentifierText (c :: cs.takeWhile isNameChar) = false := by
      rw [isIdentifierText_cons, hstart, Bool.false_and]
    simp only [lexemeKind?, wordKind, hspelt, hother]
    split
    · rfl
    · split <;> rfl
  · intro more hne hmore
    apply lexemeKind?_eq_none
    · rw [List.cons_append, isIdentifierText_cons, hstart, Bool.false_and]
    · rw [List.cons_append, isNameText_cons,
        (all_takeWhile_append hne hmore).2, Bool.and_false]
    · intro d heq
      simp [hne] at heq

/-- A single character that is no word: a mark, or no token at all. -/
theorem longest_mark (h : c.isLower = false)
    (hstart : isIdentifierStart c = false) (cs : List Char) :
    read c cs = ⟨markKind c, [c], cs⟩ ∧
      lexemeKind? [c]
        = (if markKind c = .invalid then none else some (markKind c)) ∧
      ∀ more, more ≠ [] → lexemeKind? (c :: more) = none := by
  have hread : read c cs = ⟨markKind c, [c], cs⟩ := by
    rw [read, if_neg (by simp [hstart]), if_neg (by simp [h])]
  have hidentifier : ∀ more, isIdentifierText (c :: more) = false := by
    intro more
    rw [isIdentifierText_cons, hstart, Bool.false_and]
  have hname : ∀ more, isNameText (c :: more) = false := by
    intro more
    rw [isNameText_cons, h, Bool.false_and]
  refine ⟨hread, ?_, ?_⟩
  · split
    · next hmark =>
      apply lexemeKind?_eq_none (hidentifier []) (hname [])
      intro d heq
      obtain ⟨rfl, -⟩ := List.cons.inj heq
      exact hmark
    · next hmark =>
      unfold markKind at hmark ⊢
      split at hmark
      all_goals first | rfl | exact absurd rfl hmark
  · intro more hne
    apply lexemeKind?_eq_none (hidentifier more) (hname more)
    intro d heq
    simp [hne] at heq

end Lexeme

/-- Three kinds of tokens carry their text. -/
theorem carriesText_iff (kind : Kind) :
    kind.carriesText ↔ kind ∈ [Kind.identifier, .name, .invalid] := by
  cases kind <;> decide

namespace Cursor

/-- **A token is the longest that begins where it begins.** -/
theorem covers_read {c : Char} {cs : List Char} (h : Solid (c :: cs))
    (place : Place) :
    (tokenAt place (Lexeme.read c cs).kind (Lexeme.read c cs).text).Covers
      (Lexeme.read c cs).text (Lexeme.read c cs).rest := by
  have htext : ∀ kind text, (tokenAt place kind text).text
      = if kind ∈ [.identifier, .name, .invalid] then
          some (String.ofList text)
        else none := by
    intro kind text
    simp only [tokenAt, carriesText_iff]
  by_cases hstart : isIdentifierStart c
  · obtain ⟨hkind, hword, hlongest⟩ := Lexeme.longest_identifier hstart cs
    exact ⟨hlongest, Or.inl (by rw [hword, hkind]; rfl), htext _ _⟩
  · rw [Bool.not_eq_true] at hstart
    by_cases hlower : c.isLower
    · obtain ⟨hword, hlongest⟩ := Lexeme.longest_word hlower hstart cs
      exact ⟨hlongest, Or.inl hword, htext _ _⟩
    · rw [Bool.not_eq_true] at hlower
      obtain ⟨hread, hmark, hlongest⟩ := Lexeme.longest_mark hlower hstart
        cs
      rw [hread]
      refine ⟨fun more hne _ => hlongest more hne, ?_, htext _ _⟩
      obtain ⟨hblank, hcomment⟩ := h c cs rfl
      split at hmark
      · next hinvalid =>
        refine Or.inr ⟨hinvalid, hmark, c, rfl, ?_, hcomment⟩
        rw [← isBlank_iff, hblank]
        exact Bool.false_ne_true
      · exact Or.inl hmark

/-- Where no filler begins, a token does. -/
theorem tokens_of_solid {c : Char} {cs : List Char} (h : Solid (c :: cs))
    (place : Place) :
    tokens ⟨c :: cs, place⟩
      = tokenAt place (Lexeme.read c cs).kind (Lexeme.read c cs).text
        :: tokens ⟨(Lexeme.read c cs).rest,
          place.advance (Lexeme.read c cs).text⟩ := by
  obtain ⟨hblank, hcomment⟩ := h c cs rfl
  rw [← opens_comment_iff] at hcomment
  have hskip : skip false (c :: cs) place = ⟨c :: cs, place⟩ := by
    rw [skip, if_neg Bool.false_ne_true, if_neg (by simp [hblank]),
      if_neg hcomment]
  have hnext : next ⟨c :: cs, place⟩
      = (tokenAt place (Lexeme.read c cs).kind (Lexeme.read c cs).text,
        ⟨(Lexeme.read c cs).rest, place.advance (Lexeme.read c cs).text⟩) := by
    simp only [next, hskip]
  have hkind : (next ⟨c :: cs, place⟩).1.kind ≠ .endOfInput := by
    rw [hnext]
    exact kind_read_ne_endOfInput c cs
  rw [tokens, dif_neg hkind, hnext]

/-- Blanks are no tokens. -/
theorem tokens_blanks {gap : List Char} (h : ∀ c ∈ gap, isBlank c)
    (rest : List Char) (place : Place) :
    tokens ⟨gap ++ rest, place⟩ = tokens ⟨rest, place.advance gap⟩ := by
  induction gap generalizing place with
  | nil => rfl
  | cons c gap ih =>
      have hstep : tokens ⟨c :: (gap ++ rest), place⟩
          = tokens ⟨gap ++ rest, place.step c⟩ := by
        apply tokens_eq_of_next_eq
        simp only [next, skip, if_neg Bool.false_ne_true,
          if_pos (h c List.mem_cons_self)]
      rw [List.cons_append, hstep,
        ih fun d hd => h d (List.mem_cons_of_mem c hd)]
      rfl

/-- **What is read next**: nothing but a filler is left, or the token behind a
filler. -/
theorem next_cases (cursor : Cursor) :
    (Filler cursor.rest [] ∧
      cursor.next.1
        = tokenAt (cursor.place.advance cursor.rest) .endOfInput []) ∨
    ∃ gap word rest, cursor.rest = gap ++ word ++ rest ∧
      Filler gap (word ++ rest) ∧ word ≠ [] ∧
      cursor.next.1.kind ≠ .endOfInput ∧ cursor.next.1.Covers word rest ∧
      cursor.next.1
        = tokenAt (cursor.place.advance gap) cursor.next.1.kind word ∧
      cursor.next.2 = ⟨rest, cursor.place.advance (gap ++ word)⟩ := by
  obtain ⟨gap, rest, hskip, hrest, hgap, hsolid⟩ :=
    exists_skipped false cursor.rest cursor.place
  cases rest with
  | nil =>
      rw [List.append_nil] at hrest
      refine Or.inl ⟨hrest ▸ hgap, ?_⟩
      rw [next, hskip, hrest]
  | cons c cs =>
      have hwhole := Lexeme.text_append_rest_read c cs
      have hnext : cursor.next
          = (tokenAt (cursor.place.advance gap) (Lexeme.read c cs).kind
              (Lexeme.read c cs).text,
            ⟨(Lexeme.read c cs).rest, cursor.place.advance
              (gap ++ (Lexeme.read c cs).text)⟩) := by
        rw [next, hskip, Place.advance_append]
      have hne : (Lexeme.read c cs).text ≠ [] := by
        intro hnil
        have hle := Lexeme.length_rest_read_le c cs
        rw [hnil, List.nil_append] at hwhole
        rw [hwhole, List.length_cons] at hle
        omega
      rw [hnext]
      refine Or.inr ⟨gap, _, _, ?_, ?_, hne, kind_read_ne_endOfInput c cs,
        covers_read hsolid _, rfl, rfl⟩
      · rw [List.append_assoc, hwhole]
        exact hrest
      · rw [hwhole]
        exact hgap

theorem offset_advance_origin (text : List Char) :
    (Place.origin.advance text).offset = textWidth text := by
  rw [Place.offset_advance, textWidth]
  exact Nat.zero_add _

/-- **The tokens tile what is left of the text**, by induction on the
tokens. -/
theorem tiles (cursor : Cursor) {before : List Char}
    (hplace : cursor.place = Place.origin.advance before) :
    Tiles before cursor.rest cursor.tokens.dropLast := by
  fun_induction tokens cursor generalizing before with
  | case1 cursor hend =>
      rcases cursor.next_cases with ⟨hgap, _⟩ | ⟨_, _, _, _, _, _, hkind, _⟩
      · exact Tiles.done hgap
      · exact absurd hend hkind
  | case2 cursor hend ih =>
      rcases cursor.next_cases with ⟨_, hnext⟩ |
        ⟨gap, word, rest, hrest, hgap, hne, _, hcovers, htoken, hnext⟩
      · exact absurd (by rw [hnext]; rfl) hend
      · have hmoved : ∀ text, cursor.place.advance text
            = Place.origin.advance (before ++ text) := by
          intro text
          rw [hplace, ← Place.advance_append]
        have hlater : cursor.next.2.place
            = Place.origin.advance (before ++ gap ++ word) := by
          rw [hnext, hmoved, List.append_assoc]
        have htail := ih hlater
        rw [hnext] at htail
        have hspan := congrArg Token.span htoken
        simp only [tokenAt] at hspan
        rw [← Place.advance_append, hmoved, hmoved, offset_advance_origin,
          offset_advance_origin, ← List.append_assoc] at hspan
        rw [List.dropLast_cons_of_ne_nil (tokens_ne_nil _), hrest, hnext]
        exact Tiles.token hgap hne hcovers hspan htail

/-- The last token stands at the end of the text. -/
theorem tokens_eq_concat (cursor : Cursor) :
    cursor.tokens = cursor.tokens.dropLast
      ++ [tokenAt (cursor.place.advance cursor.rest) .endOfInput []] := by
  fun_induction tokens cursor with
  | case1 cursor hend =>
      rcases cursor.next_cases with ⟨_, hnext⟩ | ⟨_, _, _, _, _, _, hkind, _⟩
      · rw [← hnext]
        rfl
      · exact absurd hend hkind
  | case2 cursor hend ih =>
      rw [List.dropLast_cons_of_ne_nil (tokens_ne_nil _), List.cons_append,
        ← cursor.advance_next, ← ih]

end Cursor

/-! ### Tiled texts -/

/-- Widths add up. -/
theorem textWidth_append (left right : List Char) :
    textWidth (left ++ right) = textWidth left + textWidth right := by
  rw [textWidth, String.ofList_append, String.utf8ByteSize_append]
  rfl

/-- Only the empty text has no width. -/
theorem textWidth_pos {text : List Char} (h : text ≠ []) :
    0 < textWidth text := by
  obtain ⟨c, cs, rfl⟩ := List.exists_cons_of_ne_nil h
  rw [textWidth, String.ofList_cons, String.utf8ByteSize_append,
    String.utf8ByteSize_singleton]
  have hpos := c.utf8Size_pos
  omega

namespace Tiles

variable {before rest : List Char} {tokens : List Token}

/-- Every token is a stretch of the text. -/
theorem exists_word (h : Tiles before rest tokens) {token : Token}
    (hmem : token ∈ tokens) :
    ∃ front word back, before ++ rest = front ++ word ++ back ∧ word ≠ [] ∧
      textWidth before ≤ textWidth front ∧
      token.span = ⟨textWidth front, textWidth (front ++ word)⟩ ∧
      token.Covers word back := by
  induction h with
  | done => cases hmem
  | @token before gap word rest first tokens _ hne hcovers hspan _ ih =>
      rcases List.mem_cons.mp hmem with rfl | hlater
      · refine ⟨before ++ gap, word, rest, by simp, hne, ?_, hspan, hcovers⟩
        rw [textWidth_append]
        omega
      · obtain ⟨front, other, back, heq, hother, hle, hlast⟩ := ih hlater
        refine ⟨front, other, back, ?_, hother, ?_, hlast⟩
        · rw [← heq]
          simp
        · rw [textWidth_append, textWidth_append] at hle
          omega

/-- Each token begins behind the one before it. -/
theorem pairwise_span (h : Tiles before rest tokens) :
    tokens.Pairwise fun first second =>
      first.span.stop ≤ second.span.start := by
  induction h with
  | done => exact List.Pairwise.nil
  | token _ _ _ hspan tail ih =>
      refine List.Pairwise.cons ?_ ih
      intro later hlater
      obtain ⟨_, _, _, _, _, hle, hlast, _⟩ := tail.exists_word hlater
      rw [hspan, hlast]
      exact hle

end Tiles

/-- The word of a token that is reserved, and of no other. -/
theorem Token.Covers.reserved {token : Token} {word : String}
    {rest : List Char} (h : token.Covers word.toList rest) :
    (token.kind = .letWord ↔ word = "let") ∧
      (token.kind = .evalWord ↔ word = "eval") ∧
      token.kind ≠ .endOfInput := by
  have hlet : word = "let" ↔ word.toList = ['l', 'e', 't'] :=
    String.toList_inj.symm
  have heval : word = "eval" ↔ word.toList = ['e', 'v', 'a', 'l'] :=
    String.toList_inj.symm
  have hkind := h.kind
  rw [hlet, heval]
  unfold lexemeKind? at hkind
  grind

/-- The scanner after some tokens. -/
def Scanner.after : Nat → Scanner → Scanner
  | 0, scanner => scanner
  | count + 1, scanner => after count scanner.nextToken.2

/-- The scanner stands where its tokens end. -/
theorem Scanner.cursor_after (count : Nat) (scanner : Scanner) :
    (scanner.after count).cursor = scanner.cursor.skipTokens count := by
  induction count generalizing scanner with
  | zero => rfl
  | succ count ih => exact ih scanner.nextToken.2

/-- **The tokens tile the text.**  Words and fillers make up the whole text.
Each token in front of the end of input has a span of its own, between two
characters and behind the spans before it; its word, the stretch of the text at
that span, is the longest token there, or a single character that begins none
and no comment; and it carries its word if it is an identifier, a name or
invalid.  The end of input stands behind the last byte, and is answered however
often the scanner is asked again. -/
theorem tokens_tile_text (text : String) :
    ∃ tokens closing, tokensOf text = tokens ++ [closing] ∧
      Tiles [] text.toList tokens ∧
      (∀ token ∈ tokens, token.kind ≠ .endOfInput ∧
        token.span.start < token.span.stop ∧
        ∃ before word after : String, text = before ++ word ++ after ∧
          token.span
            = ⟨before.utf8ByteSize, (before ++ word).utf8ByteSize⟩ ∧
          token.Covers word.toList after.toList ∧
          (token.kind = .letWord ↔ word = "let") ∧
          (token.kind = .evalWord ↔ word = "eval")) ∧
      tokens.Pairwise (fun first second =>
        first.span.stop ≤ second.span.start) ∧
      closing.kind = .endOfInput ∧ closing.text = none ∧
      closing.span = ⟨text.utf8ByteSize, text.utf8ByteSize⟩ ∧
      ∀ count, ((Scanner.ofText text).after count).nextToken.1
        = tokens[count]?.getD closing := by
  have htiles : Tiles [] text.toList (tokensOf text).dropLast :=
    (Cursor.ofText text).tiles rfl
  have hconcat := Cursor.tokens_eq_concat (Cursor.ofText text)
  have hend : (Place.origin.advance text.toList).offset
      = text.utf8ByteSize := by
    rw [Cursor.offset_advance_origin, textWidth, String.ofList_toList]
  refine ⟨(tokensOf text).dropLast, _, hconcat, htiles, ?_,
    htiles.pairwise_span, rfl, rfl, ?_, ?_⟩
  · intro token hmem
    obtain ⟨front, word, back, htext, hne, _, hspan, hcovers⟩ :=
      htiles.exists_word hmem
    have hcovers' : token.Covers (String.ofList word).toList
        (String.ofList back).toList := by
      simpa using hcovers
    obtain ⟨hlet, heval, hkind⟩ := hcovers'.reserved
    refine ⟨hkind, ?_, String.ofList front, String.ofList word,
      String.ofList back, ?_, ?_, hcovers', hlet, heval⟩
    · have hpos := textWidth_pos hne
      simp only [hspan, textWidth_append]
      omega
    · rw [← String.ofList_append, ← String.ofList_append, ← htext,
        List.nil_append, String.ofList_toList]
    · rw [hspan, ← String.ofList_append]
      rfl
  · simp only [Cursor.tokenAt]
    rw [← hend]
    rfl
  · intro count
    have hread := Cursor.getElem?_tokens_getD (Cursor.ofText text) count
      Token.start
    rw [hconcat, List.getLast?_concat, Option.getD_some] at hread
    rw [Scanner.nextToken, Scanner.cursor_after, Scanner.ofText, ← hread,
      tokensOf]
    -- behind the tokens stands the end of input, and then nothing
    rcases Nat.lt_or_ge count (Cursor.ofText text).tokens.dropLast.length with
      hlt | hge
    · rw [List.getElem?_append_left hlt]
    · rw [List.getElem?_append_right hge, List.getElem?_eq_none hge]
      cases count - (Cursor.ofText text).tokens.dropLast.length <;> rfl

end LambdaStack
