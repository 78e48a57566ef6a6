import LambdaStack.Proofs.Derivation

/-!
# Phrases

A **phrase** is an expression taken apart: an identifier, a name, a group in
brackets, a function or an application.  The grammar is ambiguous, and the
same tokens belong to many phrases.  One of them is read **greedily**: an
application takes its applicands one by one, each of them not an application
itself, and a function body takes in all that follows, so that nothing can be
applied to the right of an open function.

    a b c        ((a b) c)            the applied part grows
    \x.a b       \x.(a b)             the body grows
    a \x.b c     (a (\x.(b c)))       and only the last applicand is open

In the same way a **statement** takes in the expression after it, so only the
first statement of a program can be a bare expression.  Main statements:
`exists_greedy_reading`, by which every sentence has a greedy reading, and
`mem_language_of_statements`, by which whatever can be read is a sentence.
-/

namespace LambdaStack.Grammar

/-- A token of a given kind. -/
abbrev Word (kind : Kind) := { token : Token // token.kind = kind }

/-- An expression may begin with a token of this kind. -/
def beginsPhrase : Kind → Bool
  | .identifier | .name | .lambda | .openBracket => true
  | _ => false

/-- An expression with all its tokens. -/
inductive Phrase where
  | identifier (word : Word .identifier)
  | name (word : Word .name)
  | group (opening : Word .openBracket) (inner : Phrase)
      (closing : Word .closeBracket)
  | function (lambda : Word .lambda) (parameter : Word .name)
      (dot : Word .dot) (body : Phrase)
  | application (applied applicand : Phrase)

namespace Phrase

/-- The tokens of a phrase, from left to right. -/
def tokens : Phrase → List Token
  | identifier word => [word.1]
  | name word => [word.1]
  | group opening inner closing => opening.1 :: inner.tokens ++ [closing.1]
  | function lambda parameter dot body =>
    lambda.1 :: parameter.1 :: dot.1 :: body.tokens
  | application applied applicand => applied.tokens ++ applicand.tokens

/-- Every phrase has a first token, with which an expression may begin. -/
theorem exists_tokens_eq_cons (phrase : Phrase) :
    ∃ first rest, phrase.tokens = first :: rest ∧
      beginsPhrase first.kind = true := by
  induction phrase with
  | identifier word => exact ⟨word.1, [], rfl, by rw [word.2]; rfl⟩
  | name word => exact ⟨word.1, [], rfl, by rw [word.2]; rfl⟩
  | group bracket inner closing _ =>
      exact ⟨bracket.1, _, rfl, by rw [bracket.2]; rfl⟩
  | function lambda parameter dot body _ =>
      exact ⟨lambda.1, _, rfl, by rw [lambda.2]; rfl⟩
  | application applied applicand ih _ =>
      obtain ⟨first, rest, htokens, hfirst⟩ := ih
      exact ⟨first, rest ++ applicand.tokens, by rw [tokens, htokens]; rfl,
        hfirst⟩

/-- The phrase ends with a function body, which would take in more. -/
def isOpen : Phrase → Bool
  | function _ _ _ _ => true
  | application _ applicand => applicand.isOpen
  | _ => false

/-- The phrase is no application. -/
def isAtom : Phrase → Bool
  | application _ _ => false
  | _ => true

/-- The phrase is read greedily. -/
def Greedy : Phrase → Prop
  | identifier _ | name _ => True
  | group _ inner _ => inner.Greedy
  | function _ _ _ body => body.Greedy
  | application applied applicand =>
    applied.Greedy ∧ applicand.Greedy ∧ applied.isOpen = false ∧
      applicand.isAtom = true

/-- Applies `left` to the applicands of `right` one by one. -/
def takeIn (left : Phrase) : Phrase → Phrase
  | application applied applicand =>
    application (left.takeIn applied) applicand
  | right => application left right

/-- The greedy phrase of two phrases side by side. -/
def beside : Phrase → Phrase → Phrase
  | function lambda parameter dot body, right =>
    function lambda parameter dot (body.beside right)
  | application applied (function lambda parameter dot body), right =>
    application applied (function lambda parameter dot (body.beside right))
  | left, right => left.takeIn right

/-- Taking a phrase in puts its tokens behind the others. -/
theorem tokens_takeIn (left right : Phrase) :
    (left.takeIn right).tokens = left.tokens ++ right.tokens := by
  induction right with
  | application applied applicand ih _ =>
      rw [takeIn, tokens, ih, tokens, List.append_assoc]
  | _ => rfl

/-- Taking in a phrase leaves the end as open as it was. -/
theorem isOpen_takeIn (left right : Phrase) :
    (left.takeIn right).isOpen = right.isOpen := by
  cases right <;> rfl

/-- A closed phrase that takes in a greedy one is greedy. -/
theorem greedy_takeIn {left right : Phrase} (hleft : left.Greedy)
    (hclosed : left.isOpen = false) (hright : right.Greedy) :
    (left.takeIn right).Greedy := by
  induction right with
  | application applied applicand ih _ =>
      obtain ⟨happlied, happlicand, hapart, hatom⟩ := hright
      refine ⟨ih happlied, happlicand, ?_, hatom⟩
      rw [isOpen_takeIn]
      exact hapart
  | _ => exact ⟨hleft, hright, hclosed, rfl⟩

/-- A greedy phrase that ends with a function body is a function, or an
application to one. -/
theorem isOpen_cases {left : Phrase} (hgreedy : left.Greedy)
    (hopen : left.isOpen = true) :
    (∃ lambda parameter dot body,
      left = function lambda parameter dot body) ∨
    ∃ applied lambda parameter dot body,
      left = application applied (function lambda parameter dot body) := by
  cases left with
  | function lambda parameter dot body => exact Or.inl ⟨_, _, _, _, rfl⟩
  | application applied applicand =>
      obtain ⟨_, _, _, hatom⟩ := hgreedy
      cases applicand with
      | function lambda parameter dot body =>
          exact Or.inr ⟨_, _, _, _, _, rfl⟩
      | application _ _ => cases hatom
      | _ => cases hopen
  | _ => cases hopen

/-- A phrase beside another adds its tokens to it. -/
theorem tokens_beside (left right : Phrase) :
    (left.beside right).tokens = left.tokens ++ right.tokens := by
  fun_induction beside left right with
  | case1 right lambda parameter dot body ih => simp [tokens, ih]
  | case2 right applied lambda parameter dot body ih => simp [tokens, ih]
  | case3 left right _ _ => exact tokens_takeIn left right

/-- Two greedy phrases beside each other read as one greedy phrase. -/
theorem greedy_beside {left right : Phrase} (hleft : left.Greedy)
    (hright : right.Greedy) : (left.beside right).Greedy := by
  fun_induction beside left right with
  | case1 right lambda parameter dot body ih => exact ih hleft hright
  | case2 right applied lambda parameter dot body ih =>
      obtain ⟨happlied, hbody, hclosed, _⟩ := hleft
      exact ⟨happlied, ih hbody hright, hclosed, rfl⟩
  | case3 left right hfunction happlication =>
      apply greedy_takeIn hleft _ hright
      cases hopen : left.isOpen with
      | false => rfl
      | true =>
          rcases isOpen_cases hleft hopen with
            ⟨lambda, parameter, dot, body, rfl⟩ |
            ⟨applied, lambda, parameter, dot, body, rfl⟩
          · exact absurd rfl (hfunction lambda parameter dot body)
          · exact absurd rfl (happlication applied lambda parameter dot body)

end Phrase

/-- A statement with all its tokens. -/
inductive Statement where
  | declaration (letWord : Word .letWord) (name : Word .identifier)
      (equals : Word .equals) (value : Phrase)
  | evaluatedDeclaration (letWord : Word .letWord) (name : Word .identifier)
      (equals : Word .equals) (evalWord : Word .evalWord) (value : Phrase)
  | evaluation (evalWord : Word .evalWord) (value : Phrase)
  | print (value : Phrase)

namespace Statement

/-- The expression at the end of a statement. -/
def value : Statement → Phrase
  | declaration _ _ _ value | evaluatedDeclaration _ _ _ _ value
  | evaluation _ value | print value => value

/-- The tokens before the expression of a statement. -/
def lead : Statement → List Token
  | declaration letWord name equals _ => [letWord.1, name.1, equals.1]
  | evaluatedDeclaration letWord name equals evalWord _ =>
    [letWord.1, name.1, equals.1, evalWord.1]
  | evaluation evalWord _ => [evalWord.1]
  | print _ => []

/-- The tokens of a statement, from left to right. -/
def tokens (statement : Statement) : List Token :=
  statement.lead ++ statement.value.tokens

/-- The statement is a bare expression. -/
def isPrint : Statement → Bool
  | print _ => true
  | _ => false

/-- Every statement has a first token, with which an expression may begin only
if the statement is a bare one. -/
theorem exists_tokens_eq_cons (statement : Statement) :
    ∃ first rest, statement.tokens = first :: rest ∧
      beginsPhrase first.kind = statement.isPrint := by
  cases statement with
  | declaration letWord name equals value =>
      exact ⟨letWord.1, _, rfl, by rw [letWord.2]; rfl⟩
  | evaluatedDeclaration letWord name equals evalWord value =>
      exact ⟨letWord.1, _, rfl, by rw [letWord.2]; rfl⟩
  | evaluation evalWord value =>
      exact ⟨evalWord.1, _, rfl, by rw [evalWord.2]; rfl⟩
  | print value => exact value.exists_tokens_eq_cons

/-- The statement with more to the right of its expression. -/
def extend : Statement → Phrase → Statement
  | declaration letWord name equals value, more =>
    declaration letWord name equals (value.beside more)
  | evaluatedDeclaration letWord name equals evalWord value, more =>
    evaluatedDeclaration letWord name equals evalWord (value.beside more)
  | evaluation evalWord value, more => evaluation evalWord (value.beside more)
  | print value, more => print (value.beside more)

/-- A statement is extended in its value. -/
@[simp]
theorem value_extend (statement : Statement) (more : Phrase) :
    (statement.extend more).value = statement.value.beside more := by
  cases statement <;> rfl

/-- An extended statement is of the same kind. -/
@[simp]
theorem isPrint_extend (statement : Statement) (more : Phrase) :
    (statement.extend more).isPrint = statement.isPrint := by
  cases statement <;> rfl

/-- An extended statement has the new tokens at its end. -/
theorem tokens_extend (statement : Statement) (more : Phrase) :
    (statement.extend more).tokens = statement.tokens ++ more.tokens := by
  have hlead : (statement.extend more).lead = statement.lead := by
    cases statement <;> rfl
  rw [tokens, hlead, value_extend, Phrase.tokens_beside, tokens,
    List.append_assoc]

end Statement

/-- The statements are read greedily: so are their expressions, and none but
the first is a bare expression. -/
structure GreedyProgram (statements : List Statement) : Prop where
  greedy : ∀ statement ∈ statements, statement.value.Greedy
  bare : ∀ statement ∈ statements.tail, statement.isPrint = false

/-- The tokens of a list of statements. -/
def statementTokens (statements : List Statement) : List Token :=
  statements.flatMap Statement.tokens

/-- The tokens of statements are those of the first and those of the others. -/
@[simp]
theorem statementTokens_cons (statement : Statement) (rest : List Statement) :
    statementTokens (statement :: rest)
      = statement.tokens ++ statementTokens rest := rfl

/-- Adds an expression at the end of a program: the last statement takes it
in. -/
def absorb : List Statement → Phrase → List Statement
  | [], more => [.print more]
  | [last], more => [last.extend more]
  | statement :: next :: rest, more => statement :: absorb (next :: rest) more

/-- Absorbing a phrase puts its tokens behind all others. -/
theorem statementTokens_absorb (statements : List Statement) (more : Phrase) :
    statementTokens (absorb statements more)
      = statementTokens statements ++ more.tokens := by
  fun_induction absorb statements more with
  | case1 more =>
      simp [statementTokens, Statement.tokens, Statement.lead, Statement.value]
  | case2 last more => simp [statementTokens, Statement.tokens_extend]
  | case3 statement next rest more ih =>
      rw [statementTokens_cons, ih, ← List.append_assoc]
      rfl

/-- Statements that absorb a greedy phrase stay greedy. -/
theorem greedy_absorb {statements : List Statement} {more : Phrase}
    (hgreedy : ∀ statement ∈ statements, statement.value.Greedy)
    (hmore : more.Greedy) :
    ∀ statement ∈ absorb statements more, statement.value.Greedy := by
  fun_induction absorb statements more with
  | case1 more =>
      intro statement hmem
      rw [List.mem_singleton.mp hmem]
      exact hmore
  | case2 last more =>
      intro statement hmem
      rw [List.mem_singleton.mp hmem, Statement.value_extend]
      exact Phrase.greedy_beside (hgreedy last List.mem_cons_self) hmore
  | case3 statement next rest more ih =>
      intro other hmem
      rcases List.mem_cons.mp hmem with rfl | hrest
      · exact hgreedy other List.mem_cons_self
      · exact ih (fun s hs => hgreedy s (List.mem_cons_of_mem _ hs)) hmore
          other hrest

/-- A program that is not empty keeps the sorts of its statements. -/
theorem map_isPrint_absorb {statements : List Statement} (more : Phrase)
    (hne : statements ≠ []) :
    (absorb statements more).map Statement.isPrint
      = statements.map Statement.isPrint := by
  fun_induction absorb statements more with
  | case1 more => exact absurd rfl hne
  | case2 last more => simp
  | case3 statement next rest more ih =>
      rw [List.map_cons, ih (by simp)]
      rfl

/-- A greedy program that absorbs a greedy phrase is a greedy program. -/
theorem GreedyProgram.absorb {statements : List Statement} {more : Phrase}
    (h : GreedyProgram statements) (hmore : more.Greedy) :
    GreedyProgram (absorb statements more) := by
  refine ⟨greedy_absorb h.greedy hmore, ?_⟩
  cases statements with
  | nil => simp [Grammar.absorb]
  | cons first rest =>
      intro statement hmem
      have hsame := congrArg List.tail
        (map_isPrint_absorb more (List.cons_ne_nil first rest))
      rw [← List.map_tail, ← List.map_tail] at hsame
      have hprint := List.mem_map_of_mem (f := Statement.isPrint) hmem
      rw [hsame] at hprint
      obtain ⟨other, hother, heq⟩ := List.mem_map.mp hprint
      rw [← heq]
      exact h.bare other hother

/-- Adding a statement that is no bare expression. -/
theorem GreedyProgram.concat {statements : List Statement}
    {statement : Statement} (h : GreedyProgram statements)
    (hgreedy : statement.value.Greedy) (hbare : statement.isPrint = false) :
    GreedyProgram (statements ++ [statement]) := by
  constructor
  · intro other hmem
    rcases List.mem_append.mp hmem with hold | hnew
    · exact h.greedy other hold
    · rw [List.mem_singleton.mp hnew]
      exact hgreedy
  · intro other hmem
    cases statements with
    | nil => simp at hmem
    | cons first rest =>
        rcases List.mem_append.mp hmem with hold | hnew
        · exact h.bare other hold
        · rw [List.mem_singleton.mp hnew]
          exact hbare

/-! ### Every sentence has a greedy reading -/

/-- The tokens can be read greedily as the given symbol. -/
def Reads : GrammarSymbol → List Token → Prop
  | .terminal kind, tokens => ∃ word : Word kind, tokens = [word.1]
  | .nonterminal .expression, tokens | .nonterminal .function, tokens
  | .nonterminal .application, tokens | .nonterminal .print, tokens =>
    ∃ phrase : Phrase, phrase.Greedy ∧ tokens = phrase.tokens
  | .nonterminal .evaluation, tokens =>
    ∃ (evalWord : Word .evalWord) (value : Phrase), value.Greedy ∧
      tokens = evalWord.1 :: value.tokens
  | .nonterminal .declaration, tokens =>
    ∃ statement : Statement, statement.value.Greedy ∧
      statement.isPrint = false ∧ tokens = statement.tokens
  | .nonterminal .program, tokens =>
    ∃ statements, GreedyProgram statements ∧
      tokens = statementTokens statements
  | .nonterminal .accept, tokens =>
    ∃ statements, ∃ last : Word .endOfInput, GreedyProgram statements ∧
      tokens = statementTokens statements ++ [last.1]

/-- The tokens can be cut into readings of the given symbols. -/
def ReadsAll : List GrammarSymbol → List Token → Prop
  | [], tokens => tokens = []
  | symbol :: symbols, tokens => ∃ first rest, tokens = first ++ rest ∧
    Reads symbol first ∧ ReadsAll symbols rest

/-- Greedy readings of the right-hand side of a rule make up one of its
left-hand symbol. -/
theorem reads_of_rule {rule : Nat} {p : Rule} {tokens : List Token}
    (hrule : production rule = some p) (h : ReadsAll p.output tokens) :
    Reads (.nonterminal p.input) tokens := by
  unfold production at hrule
  split at hrule <;> cases hrule
  · obtain ⟨_, _, rfl, ⟨statements, hprogram, rfl⟩, _, _, rfl,
      ⟨last, rfl⟩, rfl⟩ := h
    exact ⟨statements, last, hprogram, by simp⟩
  · obtain ⟨_, _, rfl, ⟨statements, hprogram, rfl⟩, _, _, rfl,
      ⟨statement, hgreedy, hbare, rfl⟩, rfl⟩ := h
    exact ⟨_, hprogram.concat hgreedy hbare, by simp [statementTokens]⟩
  · obtain ⟨_, _, rfl, ⟨statements, hprogram, rfl⟩, _, _, rfl,
      ⟨evalWord, value, hgreedy, rfl⟩, rfl⟩ := h
    have hmore : GreedyProgram (statements ++ [.evaluation evalWord value]) :=
      hprogram.concat hgreedy rfl
    exact ⟨_, hmore, by simp [statementTokens, Statement.tokens,
      Statement.lead, Statement.value]⟩
  · obtain ⟨_, _, rfl, ⟨statements, hprogram, rfl⟩, _, _, rfl,
      ⟨value, hgreedy, rfl⟩, rfl⟩ := h
    exact ⟨_, hprogram.absorb hgreedy, by simp [statementTokens_absorb]⟩
  · obtain rfl := h
    exact ⟨[], ⟨by simp, by simp⟩, rfl⟩
  · obtain ⟨_, _, rfl, ⟨letWord, rfl⟩, _, _, rfl, ⟨name, rfl⟩, _, _, rfl,
      ⟨equals, rfl⟩, _, _, rfl, ⟨value, hgreedy, rfl⟩, rfl⟩ := h
    exact ⟨.declaration letWord name equals value, hgreedy, rfl,
      by simp [Statement.tokens, Statement.lead, Statement.value]⟩
  · obtain ⟨_, _, rfl, ⟨letWord, rfl⟩, _, _, rfl, ⟨name, rfl⟩, _, _, rfl,
      ⟨equals, rfl⟩, _, _, rfl, ⟨evalWord, value, hgreedy, rfl⟩, rfl⟩ := h
    exact ⟨.evaluatedDeclaration letWord name equals evalWord value, hgreedy,
      rfl, by simp [Statement.tokens, Statement.lead, Statement.value]⟩
  · obtain ⟨_, _, rfl, ⟨evalWord, rfl⟩, _, _, rfl, ⟨value, hgreedy, rfl⟩,
      rfl⟩ := h
    exact ⟨evalWord, value, hgreedy, by simp⟩
  · obtain ⟨_, _, rfl, ⟨value, hgreedy, rfl⟩, rfl⟩ := h
    exact ⟨value, hgreedy, by simp⟩
  · obtain ⟨_, _, rfl, ⟨word, rfl⟩, rfl⟩ := h
    exact ⟨.identifier word, trivial, rfl⟩
  · obtain ⟨_, _, rfl, ⟨word, rfl⟩, rfl⟩ := h
    exact ⟨.name word, trivial, rfl⟩
  · obtain ⟨_, _, rfl, ⟨value, hgreedy, rfl⟩, rfl⟩ := h
    exact ⟨value, hgreedy, by simp⟩
  · obtain ⟨_, _, rfl, ⟨value, hgreedy, rfl⟩, rfl⟩ := h
    exact ⟨value, hgreedy, by simp⟩
  · obtain ⟨_, _, rfl, ⟨opening, rfl⟩, _, _, rfl, ⟨inner, hgreedy, rfl⟩,
      _, _, rfl, ⟨closing, rfl⟩, rfl⟩ := h
    exact ⟨.group opening inner closing, hgreedy, by simp [Phrase.tokens]⟩
  · obtain ⟨_, _, rfl, ⟨lambda, rfl⟩, _, _, rfl, ⟨parameter, rfl⟩, _, _, rfl,
      ⟨dot, rfl⟩, _, _, rfl, ⟨body, hgreedy, rfl⟩, rfl⟩ := h
    exact ⟨.function lambda parameter dot body, hgreedy,
      by simp [Phrase.tokens]⟩
  · obtain ⟨_, _, rfl, ⟨left, hleft, rfl⟩, _, _, rfl, ⟨right, hright, rfl⟩,
      rfl⟩ := h
    exact ⟨left.beside right, Phrase.greedy_beside hleft hright,
      by simp [Phrase.tokens_beside]⟩

/-- What a string of symbols spells can be read greedily. -/
theorem readsAll_of_spells {symbols : List GrammarSymbol} {kinds : List Kind}
    (h : Spells symbols kinds) {tokens : List Token}
    (htokens : tokens.map Token.kind = kinds) : ReadsAll symbols tokens := by
  induction h generalizing tokens with
  | nil => exact List.map_eq_nil_iff.mp htokens
  | terminal kind tail ih =>
      obtain ⟨token, rest, rfl, hkind, hrest⟩ := List.map_eq_cons_iff.mp htokens
      exact ⟨[token], rest, rfl, ⟨⟨token, hkind⟩, rfl⟩, ih hrest⟩
  | rule hrule inner tail ihinner ihtail =>
      obtain ⟨first, rest, rfl, hfirst, hrest⟩ :=
        List.map_eq_append_iff.mp htokens
      exact ⟨first, rest, rfl, reads_of_rule hrule (ihinner hfirst),
        ihtail hrest⟩

/-- **Every sentence has a greedy reading.** -/
theorem exists_greedy_reading {tokens : List Token}
    (h : tokens.map Token.kind ∈ grammar.language) :
    ∃ statements, GreedyProgram statements ∧
      statementTokens statements = tokens := by
  have hspells : Spells [.nonterminal .program] (tokens.map Token.kind) :=
    spells_iff_derives.mpr h
  obtain ⟨first, rest, rfl, ⟨statements, hprogram, rfl⟩, rfl⟩ :=
    readsAll_of_spells hspells rfl
  exact ⟨statements, hprogram, (List.append_nil _).symm⟩

/-! ### Every reading is of a sentence -/

/-- The tokens of a phrase spell an expression. -/
theorem Phrase.spells (phrase : Phrase) :
    Spells [.nonterminal .expression] (phrase.tokens.map Token.kind) := by
  induction phrase with
  | identifier word =>
      have hrule : production 10 = some _ := rfl
      rw [tokens, List.map_singleton, word.2]
      exact Spells.of_rule hrule (spells_terminals [.identifier])
  | name word =>
      have hrule : production 11 = some _ := rfl
      rw [tokens, List.map_singleton, word.2]
      exact Spells.of_rule hrule (spells_terminals [.name])
  | group bracket inner closing ih =>
      have hrule : production 14 = some _ := rfl
      rw [tokens, List.map_append, List.map_cons, List.map_singleton,
        bracket.2, closing.2]
      exact Spells.of_rule hrule (Spells.terminal _
        (ih.append (spells_terminals [.closeBracket])))
  | function lambda parameter dot body ih =>
      have hrule : production 15 = some _ := rfl
      have hfunction : production 12 = some _ := rfl
      rw [tokens, List.map_cons, List.map_cons, List.map_cons, lambda.2,
        parameter.2, dot.2]
      exact Spells.of_rule hfunction (Spells.of_rule hrule
        ((spells_terminals [.lambda, .name, .dot]).append ih))
  | application applied applicand ihapplied ihapplicand =>
      have hrule : production 16 = some _ := rfl
      have happlication : production 13 = some _ := rfl
      rw [tokens, List.map_append]
      exact Spells.of_rule happlication
        (Spells.of_rule hrule (ihapplied.append ihapplicand))

/-- A statement goes on from what its program spells. -/
theorem Statement.spells_append (statement : Statement) {kinds : List Kind}
    (h : Spells [.nonterminal .program] kinds) :
    Spells [.nonterminal .program]
      (kinds ++ statement.tokens.map Token.kind) := by
  have hvalue := statement.value.spells
  rw [tokens, List.map_append]
  cases statement with
  | declaration letWord name equals value =>
      have hrule : production 6 = some _ := rfl
      have hmore : production 2 = some _ := rfl
      have hlead : (declaration letWord name equals value).lead.map Token.kind
          = [.letWord, .identifier, .equals] := by
        simp [lead, letWord.2, name.2, equals.2]
      rw [hlead]
      exact Spells.of_rule hmore (h.append (Spells.of_rule hrule
        ((spells_terminals [.letWord, .identifier, .equals]).append hvalue)))
  | evaluatedDeclaration letWord name equals evalWord value =>
      have heval : production 8 = some _ := rfl
      have hrule : production 7 = some _ := rfl
      have hmore : production 2 = some _ := rfl
      have hlead : (evaluatedDeclaration letWord name equals evalWord
          value).lead.map Token.kind
          = [.letWord, .identifier, .equals, .evalWord] := by
        simp [lead, letWord.2, name.2, equals.2, evalWord.2]
      rw [hlead]
      exact Spells.of_rule hmore (h.append (Spells.of_rule hrule
        ((spells_terminals [.letWord, .identifier, .equals]).append
          (Spells.of_rule heval ((spells_terminals [.evalWord]).append
            hvalue)))))
  | evaluation evalWord value =>
      have heval : production 8 = some _ := rfl
      have hmore : production 3 = some _ := rfl
      have hlead : (evaluation evalWord value).lead.map Token.kind
          = [.evalWord] := by
        simp [lead, evalWord.2]
      rw [hlead]
      exact Spells.of_rule hmore (h.append
        (Spells.of_rule heval ((spells_terminals [.evalWord]).append hvalue)))
  | print value =>
      have hprint : production 9 = some _ := rfl
      have hmore : production 4 = some _ := rfl
      exact Spells.of_rule hmore (h.append (Spells.of_rule hprint hvalue))

/-- **Every reading is of a sentence.** -/
theorem mem_language_of_statements (statements : List Statement) :
    (statementTokens statements).map Token.kind ∈ grammar.language := by
  have hspells : ∀ statements kinds, Spells [.nonterminal .program] kinds →
      Spells [.nonterminal .program]
        (kinds ++ (statementTokens statements).map Token.kind) := by
    intro statements
    induction statements with
    | nil =>
        intro kinds h
        simpa [statementTokens] using h
    | cons statement rest ih =>
        intro kinds h
        rw [statementTokens_cons, List.map_append, ← List.append_assoc]
        exact ih _ (statement.spells_append h)
  have hempty : production 5 = some _ := rfl
  exact spells_iff_derives.mp
    (hspells statements [] (Spells.of_rule hempty Spells.nil))

end LambdaStack.Grammar
