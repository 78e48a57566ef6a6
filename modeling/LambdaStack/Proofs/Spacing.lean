import Mathlib.Data.List.Forall2
import LambdaStack.Proofs.Positions

/-!
# Words with blanks between them

A text that is one token by itself stays this token wherever blanks stand around
it: nothing that it could take in begins with a blank, and a slash with a blank
behind it opens no comment.  So words are scanned one by one, if there are
blanks between them:

    words     w1          w2          ...    wn
    text      w1   gap    w2   gap    ...    wn
    tokens    as the words by themselves, so many bytes further on

The other way round, the word of a token in a text is that token by itself too,
for what is the longest token of a longer text is one of a shorter text
(`Token.Covers.whole`).  So a text can be written anew, with single spaces
between its words, and has the same tokens.

Main statement: `words_scan_as_by_themselves`.
-/

namespace LambdaStack

/-! ### Words -/

/-- The whole text is one token of this kind. -/
structure Whole (word : List Char) (kind : Kind) : Prop where
  solid : Solid word
  read : ∃ c cs, word = c :: cs ∧ Lexeme.read c cs = ⟨kind, c :: cs, []⟩

/-- No token begins with a blank or a slash. -/
theorem lexemeKind?_eq_none_of_mem {c : Char}
    (h : c ∈ [' ', '\t', '\r', '\n', '\x0c', '/']) (cs : List Char) :
    lexemeKind? (c :: cs) = none := by
  have hclass : ∀ c ∈ [' ', '\t', '\r', '\n', '\x0c', '/'],
      isIdentifierStart c = false ∧ c.isLower = false ∧
        markKind c = .invalid := by
    simp [isIdentifierStart, markKind]
  obtain ⟨hstart, hlower, hmark⟩ := hclass c h
  apply lexemeKind?_eq_none
  · rw [Lexeme.isIdentifierText_cons, hstart, Bool.false_and]
  · rw [Lexeme.isNameText_cons, hlower, Bool.false_and]
  · intro d heq
    obtain ⟨rfl, -⟩ := List.cons.inj heq
    exact hmark

theorem solid_of_lexemeKind? {word : List Char} {kind : Kind}
    (h : lexemeKind? word = some kind) : Solid word := by
  rintro c cs rfl
  have hfirst : c ∉ [' ', '\t', '\r', '\n', '\x0c', '/'] := by
    intro hmem
    rw [lexemeKind?_eq_none_of_mem hmem] at h
    cases h
  constructor
  · rw [← Bool.not_eq_true, isBlank_iff]
    intro hblank
    exact hfirst (List.mem_append_left ['/'] hblank)
  · rw [← opens_comment_iff]
    rintro ⟨rfl, -⟩
    exact hfirst (by simp)

namespace Token.Covers

variable {token : Token} {word rest : List Char}

/-- No filler begins where a word does, even if nothing stands behind it. -/
theorem solid (h : token.Covers word rest) : Solid word := by
  rcases h.kind with hkind | ⟨_, _, c, rfl, hblank, _⟩
  · exact solid_of_lexemeKind? hkind
  · rintro _ _ heq
    obtain ⟨rfl, rfl⟩ := List.cons.inj heq
    refine ⟨?_, by simp⟩
    rw [← Bool.not_eq_true, isBlank_iff]
    exact hblank

/-- The kind of a token depends on its word only. -/
theorem kind_eq (h : token.Covers word rest) {other : Token}
    {more : List Char} (hother : other.Covers word more) :
    token.kind = other.kind := by
  rcases h.kind with hkind | ⟨hinvalid, hnone, _⟩
  · rcases hother.kind with hsame | ⟨_, hnone, _⟩
    · exact Option.some.inj (hkind.symm.trans hsame)
    · rw [hkind] at hnone
      cases hnone
  · rcases hother.kind with hkind | ⟨hsame, _⟩
    · rw [hkind] at hnone
      cases hnone
    · rw [hinvalid, hsame]

/-- **A word is a token by itself**, whatever stood behind it. -/
theorem whole (h : token.Covers word rest) (hword : word ≠ []) :
    Whole word token.kind := by
  have hsolid := h.solid
  obtain ⟨c, cs, rfl⟩ := List.exists_cons_of_ne_nil hword
  have hcovers := Cursor.covers_read hsolid Place.origin
  have htext := Lexeme.text_append_rest_read c cs
  have hrest : (Lexeme.read c cs).rest = [] := by
    rcases h.kind with hkind | ⟨_, _, d, hchar, _⟩
    · -- otherwise the longest token would be shorter than the word
      by_contra hmore
      have hnone := hcovers.longest _ hmore (List.prefix_refl _)
      rw [htext, hkind] at hnone
      cases hnone
    · have hle := Lexeme.length_rest_read_le c cs
      rw [(List.cons.inj hchar).2] at hle ⊢
      exact List.eq_nil_of_length_eq_zero (Nat.le_zero.mp hle)
  rw [hrest, List.append_nil] at htext
  have hkind : (Lexeme.read c cs).kind = token.kind := by
    rw [htext] at hcovers
    exact hcovers.kind_eq h
  refine ⟨hsolid, c, cs, rfl, ?_⟩
  have heta : Lexeme.read c cs = ⟨(Lexeme.read c cs).kind,
    (Lexeme.read c cs).text, (Lexeme.read c cs).rest⟩ := rfl
  rw [heta, hkind, htext, hrest]

end Token.Covers

/-- No word goes on with a blank. -/
theorem isIdentifierChar_of_isBlank {c : Char} (h : isBlank c) :
    isIdentifierChar c = false := by
  have hblanks : ∀ c ∈ [' ', '\t', '\r', '\n', '\x0c'],
      isIdentifierChar c = false := by
    simp [isIdentifierChar, isNameChar]
  exact hblanks c (isBlank_iff.mp h)

/-- **A word is scanned as by itself**, at the end of the text and in front of a
blank. -/
theorem Whole.tokens {word : List Char} {kind : Kind} (h : Whole word kind)
    {rest : List Char} (hrest : ∀ c ∈ rest.head?, isBlank c) (place : Place) :
    Cursor.tokens ⟨word ++ rest, place⟩
      = Cursor.tokenAt place kind word
        :: Cursor.tokens ⟨rest, place.advance word⟩ := by
  obtain ⟨hsolid, c, cs, rfl, hread⟩ := h
  have hbehind : Lexeme.read c (cs ++ rest) = ⟨kind, c :: cs, rest⟩ := by
    cases rest with
    | nil => rw [List.append_nil, hread]
    | cons d rest =>
        have hstop := isIdentifierChar_of_isBlank (hrest d rfl)
        rw [Lexeme.read_append_stop hstop, hread]
        rfl
  have hsolid' : Solid (c :: (cs ++ rest)) := by
    rintro _ _ heq
    obtain ⟨rfl, rfl⟩ := List.cons.inj heq
    obtain ⟨hblank, hcomment⟩ := hsolid c cs rfl
    refine ⟨hblank, ?_⟩
    rw [← opens_comment_iff] at hcomment ⊢
    rintro ⟨rfl, hslash⟩
    cases cs with
    | nil => cases hrest '/' hslash
    | cons d cs => exact hcomment ⟨rfl, hslash⟩
  rw [List.cons_append, Cursor.tokens_of_solid hsolid', hbehind]

/-! ### Texts made of words -/

/-- The token is this word: of the same kind, and with the same text. -/
structure Token.Spells (token : Token) (word : String) : Prop where
  whole : Whole word.toList token.kind
  text : token.text = if token.kind.carriesText then some word else none

/-- What a token is, wherever it stands. -/
def Token.lexeme (token : Token) : Kind × Option String :=
  (token.kind, token.text)

/-- The text is one token by itself, from its first byte to its last. -/
structure StandsAlone (word : String) (token : Token) : Prop where
  scan : ∃ closing, tokensOf word = [token, closing]
  span : token.span = ⟨0, word.utf8ByteSize⟩

theorem standsAlone_iff {word : String} {token : Token} :
    StandsAlone word token ↔
      (tokensOf word).length = 2 ∧ (tokensOf word).head? = some token ∧
        token.span = ⟨0, word.utf8ByteSize⟩ := by
  constructor
  · rintro ⟨⟨closing, hscan⟩, hspan⟩
    rw [hscan]
    exact ⟨rfl, rfl, hspan⟩
  · rintro ⟨hlength, hhead, hspan⟩
    obtain ⟨first, closing, hscan⟩ := List.length_eq_two.mp hlength
    rw [hscan, List.head?_cons, Option.some.injEq] at hhead
    exact ⟨⟨closing, by rw [hscan, hhead]⟩, hspan⟩

instance (word : String) (token : Token) : Decidable (StandsAlone word token) :=
  decidable_of_iff' _ standsAlone_iff

/-- A text between two words: blanks, and at least one. -/
structure IsGap (gap : String) : Prop where
  nonempty : gap ≠ ""
  blank : ∀ c ∈ gap.toList, c ∈ [' ', '\t', '\r', '\n', '\x0c']

/-- The words with gaps between them. -/
def spaced (gap : Nat → String) : List String → String
  | [] => ""
  | [word] => word
  | word :: next :: words =>
    word ++ gap 0 ++ spaced (fun index => gap (index + 1)) (next :: words)

/-- Where the words are in a text with gaps that begins at byte `offset`. -/
def placed (gap : Nat → String) (offset : Nat) : List String → List Span
  | [] => []
  | word :: words =>
    let stop := offset + word.utf8ByteSize
    ⟨offset, stop⟩ :: placed (fun index => gap (index + 1))
      (stop + (gap 0).utf8ByteSize) words

theorem Token.Covers.spells {token : Token} {word rest : List Char}
    (h : token.Covers word rest) (hword : word ≠ []) :
    token.Spells (String.ofList word) where
  whole := by
    rw [String.toList_ofList]
    exact h.whole hword
  text := by
    simp only [h.text, carriesText_iff]

/-- Every token of a text is the word at its span. -/
theorem spells_stretch {text : String} {token : Token}
    (h : token ∈ (tokensOf text).dropLast) :
    ∃ word, stretch? text token.span = some word ∧ token.Spells word := by
  have htiles : Tiles [] text.toList (tokensOf text).dropLast :=
    Cursor.tiles (Cursor.ofText text) rfl
  obtain ⟨front, word, back, hrest, hword, _, hspan, hcovers⟩ :=
    htiles.exists_word h
  have htext : text = String.ofList front ++ String.ofList word
      ++ String.ofList back := by
    rw [← String.ofList_append, ← String.ofList_append, ← hrest]
    exact String.ofList_toList.symm
  refine ⟨String.ofList word, ?_, hcovers.spells hword⟩
  rw [hspan, textWidth, textWidth, String.ofList_append]
  exact stretch?_eq htext

/-- The words of a text. -/
theorem exists_words (text : String) :
    ∃ words : List String,
      (tokensOf text).dropLast.map (fun token => stretch? text token.span)
        = words.map some ∧
      List.Forall₂ (fun word token => Token.Spells token word) words
        (tokensOf text).dropLast := by
  have hword := fun token => @spells_stretch text token
  generalize (tokensOf text).dropLast = tokens at hword
  induction tokens with
  | nil => exact ⟨[], rfl, .nil⟩
  | cons token tokens ih =>
      obtain ⟨word, hstretch, hspells⟩ := hword token List.mem_cons_self
      obtain ⟨words, hstretches, hwords⟩ :=
        ih fun other hmem => hword other (List.mem_cons_of_mem token hmem)
      refine ⟨word :: words, ?_, .cons hspells hwords⟩
      rw [List.map_cons, List.map_cons, hstretch, hstretches]

/-- A text that is one token by itself is the word of it. -/
theorem StandsAlone.spells {word : String} {token : Token}
    (h : StandsAlone word token) : token.Spells word := by
  obtain ⟨⟨closing, hscan⟩, hspan⟩ := h
  have hmem : token ∈ (tokensOf word).dropLast := by
    rw [hscan]
    exact List.mem_cons_self
  obtain ⟨other, hother, hspells⟩ := spells_stretch hmem
  have hword : word = "" ++ word ++ "" := by simp
  have hwhole := stretch?_eq hword
  rw [String.empty_append] at hwhole
  rw [hspan] at hother
  obtain rfl : other = word := Option.some.inj (hother.symm.trans hwhole)
  exact hspells

theorem IsGap.head_isBlank {gap : String} (h : IsGap gap) (more : List Char) :
    ∀ c ∈ (gap.toList ++ more).head?, isBlank c := by
  intro c hc
  cases hchars : gap.toList with
  | nil => exact absurd (String.toList_eq_nil_iff.mp hchars) h.nonempty
  | cons d cs =>
      rw [hchars, List.cons_append, List.head?_cons, Option.mem_some] at hc
      rw [isBlank_iff, ← hc]
      exact h.blank d (by rw [hchars]; exact List.mem_cons_self)

theorem isGap_space : IsGap " " where
  nonempty := by decide
  blank := by simp

namespace Cursor

/-- Behind the first word nothing is left, or a gap and then the other words. -/
theorem exists_rest_spaced (word : String) (words : List String)
    {gap : Nat → String} (hgap : ∀ index, IsGap (gap index)) :
    ∃ rest, (spaced gap (word :: words)).toList = word.toList ++ rest ∧
      (∀ c ∈ rest.head?, isBlank c) ∧
      ∀ place : Place, ∃ other : Place,
        tokens ⟨rest, place⟩
          = tokens ⟨(spaced (fun index => gap (index + 1)) words).toList,
            other⟩ ∧
        placed (fun index => gap (index + 1)) other.offset words
          = placed (fun index => gap (index + 1))
            (place.offset + (gap 0).utf8ByteSize) words := by
  cases words with
  | nil =>
      refine ⟨[], (List.append_nil _).symm, by simp, ?_⟩
      exact fun place => ⟨place, rfl, rfl⟩
  | cons next words =>
      refine ⟨(gap 0).toList ++ (spaced (fun index => gap (index + 1))
        (next :: words)).toList, ?_, (hgap 0).head_isBlank _, ?_⟩
      · simp only [spaced, String.toList_append, List.append_assoc]
      · intro place
        refine ⟨place.advance (gap 0).toList, ?_, ?_⟩
        · exact tokens_blanks
            (fun c hc => isBlank_iff.mpr ((hgap 0).blank c hc)) _ place
        · rw [Place.offset_advance, String.ofList_toList]

/-- **Words are scanned one by one**, by induction on them. -/
theorem exists_tokens_spaced {words : List String} {alone : List Token}
    (h : List.Forall₂ (fun word token => token.Spells word) words alone)
    {gap : Nat → String} (hgap : ∀ index, IsGap (gap index)) (place : Place) :
    ∃ found closing,
      tokens ⟨(spaced gap words).toList, place⟩ = found ++ [closing] ∧
      closing.lexeme = (.endOfInput, none) ∧
      found.map Token.lexeme = alone.map Token.lexeme ∧
      found.map Token.span = placed gap place.offset words := by
  induction h generalizing gap place with
  | nil =>
      have hend : (next ⟨[], place⟩).1.kind = .endOfInput := rfl
      refine ⟨[], tokenAt place .endOfInput [], ?_, rfl, rfl, rfl⟩
      rw [spaced, String.toList_empty, tokens, dif_pos hend]
      rfl
  | @cons word token words alone hword _ ih =>
      have hlexeme : (tokenAt place token.kind word.toList).lexeme
          = token.lexeme := by
        simp only [Token.lexeme, tokenAt, hword.text, String.ofList_toList]
      have hoffset := place.offset_advance word.toList
      rw [String.ofList_toList] at hoffset
      obtain ⟨rest, hchars, hblank, hbehind⟩ :=
        exists_rest_spaced word words hgap
      obtain ⟨other, hother, hplaced⟩ := hbehind (place.advance word.toList)
      obtain ⟨found, closing, hfound, hclosing, hlexemes, hspans⟩ :=
        ih (fun index => hgap (index + 1)) other
      refine ⟨tokenAt place token.kind word.toList :: found, closing, ?_,
        hclosing, ?_, ?_⟩
      · rw [hchars, hword.whole.tokens hblank, hother, hfound, List.cons_append]
      · rw [List.map_cons, List.map_cons, hlexeme, hlexemes]
      · rw [List.map_cons, hspans, hplaced, placed, hoffset]
        simp only [tokenAt, hoffset]

end Cursor

theorem spaced_space (words : List String) :
    spaced (fun _ => " ") words = " ".intercalate words := by
  induction words with
  | nil => rw [spaced, String.intercalate_nil]
  | cons word words ih =>
      cases words with
      | nil => rw [spaced, String.intercalate_singleton]
      | cons next words => rw [spaced, ih, String.intercalate_cons_cons]

/-- **Words are scanned as by themselves.**  If each word is one token by
itself, from its first byte to its last, and there is a gap of blanks between
any two neighbours, then the text has one token for each word, of the same kind
and with the same text, where the word is; and then the end of input.  So the
words of a text, written with single spaces between them, have the tokens of the
text. -/
theorem words_scan_as_by_themselves :
    (∀ (words : List String) (alone : List Token) (gap : Nat → String),
      List.Forall₂ StandsAlone words alone → (∀ index, IsGap (gap index)) →
      ∃ found closing, tokensOf (spaced gap words) = found ++ [closing] ∧
        closing.kind = .endOfInput ∧
        (∀ token ∈ found, token.kind ≠ .endOfInput) ∧
        found.length = words.length ∧
        found.map Token.lexeme = alone.map Token.lexeme ∧
        found.map Token.span = placed gap 0 words) ∧
    (∀ text : String, ∃ words : List String,
      (tokensOf text).dropLast.map (fun token => stretch? text token.span)
        = words.map some ∧
      (tokensOf (" ".intercalate words)).map Token.lexeme
        = (tokensOf text).map Token.lexeme) := by
  constructor
  · intro words alone gap hwords hgap
    obtain ⟨found, closing, hfound, hclosing, hlexemes, hspans⟩ :=
      Cursor.exists_tokens_spaced (hwords.imp fun _ _ h => h.spells) hgap
        Place.origin
    refine ⟨found, closing, hfound, congrArg Prod.fst hclosing, ?_, ?_,
      hlexemes, hspans⟩
    · intro token hmem
      have hlast : token ∈ (tokensOf (spaced gap words)).dropLast := by
        rw [tokensOf, Cursor.ofText, hfound, List.dropLast_concat]
        exact hmem
      exact Cursor.kind_ne_of_mem_dropLast hlast
    · have hlength := congrArg List.length hlexemes
      rw [List.length_map, List.length_map] at hlength
      rw [hlength, hwords.length_eq]
  · intro text
    obtain ⟨words, hstretches, hwords⟩ := exists_words text
    refine ⟨words, hstretches, ?_⟩
    obtain ⟨found, closing, hfound, hclosing, hlexemes, _⟩ :=
      Cursor.exists_tokens_spaced hwords (fun _ => isGap_space) Place.origin
    rw [spaced_space] at hfound
    have hlast : (tokensOf text).map Token.lexeme
        = (tokensOf text).dropLast.map Token.lexeme
          ++ [(.endOfInput, none)] := by
      have hconcat := congrArg (List.map Token.lexeme)
        (Cursor.tokens_eq_concat (Cursor.ofText text))
      rw [List.map_append] at hconcat
      exact hconcat
    rw [hlast, ← hlexemes, ← hclosing, ← List.map_singleton,
      ← List.map_append, ← hfound]
    rfl

/-- A slash in front of another, a reserved word in front of a letter, and a
character of two bytes. -/
theorem words_among_blanks :
    let words := ["/", "/", "let", "s", "λ"]
    let gap := fun index => if index = 0 then " " else "\r\n\t"
    (∀ index, IsGap (gap index)) ∧
    ∃ found closing, tokensOf (spaced gap words) = found ++ [closing] ∧
      found.map Token.lexeme
        = [(.invalid, some "/"), (.invalid, some "/"), (.letWord, none),
          (.name, some "s"), (.invalid, some "λ")] ∧
      found.map Token.span = [⟨0, 1⟩, ⟨2, 3⟩, ⟨6, 9⟩, ⟨12, 13⟩, ⟨16, 18⟩] := by
  intro words gap
  have hgap : ∀ index, IsGap (gap index) := by
    intro index
    change IsGap (if index = 0 then " " else "\r\n\t")
    split
    · exact isGap_space
    · exact ⟨by decide, by simp⟩
  have halone : List.Forall₂ StandsAlone words
      (words.filterMap fun word => (tokensOf word).head?) := by
    decide +kernel
  obtain ⟨found, closing, hscan, -, -, -, hlexemes, hspans⟩ :=
    words_scan_as_by_themselves.1 words _ gap halone hgap
  exact ⟨hgap, found, closing, hscan, hlexemes.trans (by decide +kernel),
    hspans⟩

end LambdaStack
