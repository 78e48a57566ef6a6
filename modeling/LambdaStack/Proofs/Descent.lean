import LambdaStack.Proofs.Phrase

/-!
# Reading by recursive descent

A second way of reading, without tables and states.  `phrase?` reads an
expression: it reads atom after atom for as long as another one can begin, and
applies what it has so far to each of them.  An atom is an identifier, a name,
a bracketed expression or a function, and the body of a function is again read
for as long as it can go on.  `statement?` and `statements?` look at the first
token to see what follows.

Every reader answers what it read and the tokens behind it.  The depth to
which `phrase?` may go is bounded by a number; one more than there are tokens
is enough.

Main statement: `program?_statementTokens`, by which this finds the greedy
reading of a program.
-/

namespace LambdaStack.Grammar

/-- Reads a token of the given kind. -/
def word? (kind : Kind) : List Token → Option (Word kind × List Token)
  | [] => none
  | token :: rest =>
    if h : token.kind = kind then some (⟨token, h⟩, rest) else none

/-- The kind of the next token. -/
def nextKind? (tokens : List Token) : Option Kind :=
  tokens.head?.map Token.kind

/-- An expression may begin here. -/
def phraseAhead (tokens : List Token) : Bool :=
  (nextKind? tokens).any beginsPhrase

/-- Reads an atom; `inner` reads the expression inside it. -/
def atom? (inner : List Token → Option (Phrase × List Token))
    (tokens : List Token) : Option (Phrase × List Token) :=
  match nextKind? tokens with
  | some .identifier => do
    let (word, rest) ← word? .identifier tokens
    return (.identifier word, rest)
  | some .name => do
    let (word, rest) ← word? .name tokens
    return (.name word, rest)
  | some .openBracket => do
    let (bracket, rest) ← word? .openBracket tokens
    let (phrase, rest) ← inner rest
    let (closing, rest) ← word? .closeBracket rest
    return (.group bracket phrase closing, rest)
  | some .lambda => do
    let (lambda, rest) ← word? .lambda tokens
    let (parameter, rest) ← word? .name rest
    let (dot, rest) ← word? .dot rest
    let (body, rest) ← inner rest
    return (.function lambda parameter dot body, rest)
  | _ => none

/-- Applies the phrase that was read before, if there is one. -/
def Phrase.appliedBy (atom : Phrase) : Option Phrase → Phrase
  | none => atom
  | some head => .application head atom

/-- Reads atoms for as long as they come, and applies to each of them what was
read before. -/
def phrase? : Nat → Option Phrase → List Token → Option (Phrase × List Token)
  | 0, _, _ => none
  | depth + 1, head, tokens =>
    if phraseAhead tokens then do
      let (atom, rest) ← atom? (phrase? depth none) tokens
      phrase? depth (some (atom.appliedBy head)) rest
    else
      head.map fun phrase => (phrase, tokens)

/-- Reads an expression. -/
def expression? (tokens : List Token) : Option (Phrase × List Token) :=
  phrase? (tokens.length + 1) none tokens

/-- Reads a statement. -/
def statement? (tokens : List Token) : Option (Statement × List Token) :=
  match nextKind? tokens with
  | some .letWord => do
    let (letWord, rest) ← word? .letWord tokens
    let (name, rest) ← word? .identifier rest
    let (equals, rest) ← word? .equals rest
    match nextKind? rest with
    | some .evalWord =>
      let (evalWord, rest) ← word? .evalWord rest
      let (value, rest) ← expression? rest
      return (.evaluatedDeclaration letWord name equals evalWord value, rest)
    | _ =>
      let (value, rest) ← expression? rest
      return (.declaration letWord name equals value, rest)
  | some .evalWord => do
    let (evalWord, rest) ← word? .evalWord tokens
    let (value, rest) ← expression? rest
    return (.evaluation evalWord value, rest)
  | _ => do
    let (value, rest) ← expression? tokens
    return (.print value, rest)

/-- Reads at most `count` statements, up to the last token. -/
def statements? : Nat → List Token → Option (List Statement)
  | _, [] => some []
  | 0, _ :: _ => none
  | count + 1, token :: tokens => do
    let (statement, rest) ← statement? (token :: tokens)
    let statements ← statements? count rest
    return statement :: statements

/-- Reads a program. -/
def program? (tokens : List Token) : Option (List Statement) :=
  statements? tokens.length tokens

/-! ### Greedy phrases are found -/

/-- A word of the right kind is read. -/
@[simp]
theorem word?_cons {kind : Kind} (word : Word kind) (rest : List Token) :
    word? kind (word.1 :: rest) = some (word, rest) := by
  simp [word?, word.2]

@[simp]
theorem nextKind?_cons {kind : Kind} (word : Word kind) (rest : List Token) :
    nextKind? (word.1 :: rest) = some kind := by
  simp [nextKind?, word.2]

namespace Phrase

/-- The number of atoms side by side. -/
def breadth : Phrase → Nat
  | application applied _ => applied.breadth + 1
  | _ => 1

/-- The phrase with what was read before it. -/
def takenBy (phrase : Phrase) : Option Phrase → Phrase
  | none => phrase
  | some head => head.takeIn phrase

/-- The tokens of a phrase begin one. -/
theorem phraseAhead_tokens_append (phrase : Phrase) (more : List Token) :
    phraseAhead (phrase.tokens ++ more) = true := by
  obtain ⟨first, rest, htokens, hfirst⟩ := phrase.exists_tokens_eq_cons
  rw [htokens]
  exact hfirst

/-- A phrase is no broader than it has tokens. -/
theorem breadth_le_length (phrase : Phrase) :
    phrase.breadth ≤ phrase.tokens.length := by
  induction phrase with
  | application applied applicand ih _ =>
      obtain ⟨first, rest, htokens, _⟩ := applicand.exists_tokens_eq_cons
      rw [breadth, tokens, List.length_append, htokens, List.length_cons]
      omega
  | _ => simp [breadth, tokens]

/-- Reading goes through the tokens of the phrase, and takes the phrase in. -/
def IsRead (phrase : Phrase) : Prop :=
  ∀ depth head more, (phrase.isOpen = true → phraseAhead more = false) →
    phrase.tokens.length ≤ depth + phrase.breadth →
    phrase? (depth + phrase.breadth) head (phrase.tokens ++ more)
      = phrase? depth (some (phrase.takenBy head)) more

/-- A phrase that reading goes through is what it finds before tokens that
begin no expression. -/
theorem IsRead.eq_some {phrase : Phrase} (h : phrase.IsRead) {depth : Nat}
    {rest : List Token} (hrest : phraseAhead rest = false)
    (hdepth : phrase.tokens.length < depth) :
    phrase? depth none (phrase.tokens ++ rest) = some (phrase, rest) := by
  have hbreadth := phrase.breadth_le_length
  obtain ⟨less, rfl⟩ : ∃ less, depth = less + 1 + phrase.breadth :=
    ⟨depth - phrase.breadth - 1, by omega⟩
  rw [h (less + 1) none rest (fun _ => hrest) (by omega), phrase?, hrest]
  rfl

/-- Reading goes through an atom in one step. -/
theorem isRead_of_atom {phrase : Phrase} (hatom : phrase.isAtom = true)
    (h : ∀ depth more, (phrase.isOpen = true → phraseAhead more = false) →
      phrase.tokens.length ≤ depth + 1 →
      atom? (phrase? depth none) (phrase.tokens ++ more)
        = some (phrase, more)) : phrase.IsRead := by
  have hbreadth : phrase.breadth = 1 := by
    cases phrase <;> first | rfl | cases hatom
  intro depth head more hopen hdepth
  have htaken : phrase.takenBy head = phrase.appliedBy head := by
    cases head with
    | none => rfl
    | some head => cases phrase <;> first | rfl | cases hatom
  rw [hbreadth] at hdepth ⊢
  rw [phrase?, phraseAhead_tokens_append, if_pos rfl,
    h depth more hopen hdepth, htaken]
  rfl

/-- **Reading goes through greedy phrases.** -/
theorem isRead_of_greedy {phrase : Phrase} (hgreedy : phrase.Greedy) :
    phrase.IsRead := by
  induction phrase with
  | identifier word =>
      apply isRead_of_atom rfl
      intro depth more _ _
      simp [atom?, tokens]
  | name word =>
      apply isRead_of_atom rfl
      intro depth more _ _
      simp [atom?, tokens]
  | group bracket inner closing ih =>
      apply isRead_of_atom rfl
      intro depth more _ hdepth
      have hahead : phraseAhead (closing.1 :: more) = false := by
        simp [phraseAhead, beginsPhrase]
      have hlength : inner.tokens.length < depth := by
        simp only [tokens, List.length_cons, List.length_append] at hdepth
        omega
      have hinner := (ih hgreedy).eq_some hahead hlength
      simp [atom?, tokens, hinner]
  | function lambda parameter dot body ih =>
      apply isRead_of_atom rfl
      intro depth more hopen hdepth
      have hlength : body.tokens.length < depth := by
        simp only [tokens, List.length_cons] at hdepth
        omega
      have hbody := (ih hgreedy).eq_some (hopen rfl) hlength
      simp [atom?, tokens, hbody]
  | application applied applicand ihapplied ihapplicand =>
      obtain ⟨happlied, happlicand, hclosed, hatom⟩ := hgreedy
      intro depth head more hopen hdepth
      have hbreadth := applied.breadth_le_length
      have hone : applicand.breadth = 1 := by
        cases applicand <;> first | rfl | cases hatom
      simp only [tokens, breadth, List.length_append] at hdepth
      have hfirst := ihapplied happlied (depth + 1) head
        (applicand.tokens ++ more) (by simp [hclosed]) (by omega)
      have hsecond := ihapplicand happlicand depth
        (some (applied.takenBy head)) more hopen (by omega)
      have htaken : applicand.takenBy (some (applied.takenBy head))
          = (application applied applicand).takenBy head := by
        cases head <;> cases applicand <;> first | rfl | cases hatom
      rw [hone] at hsecond
      rw [tokens, breadth, List.append_assoc,
        show depth + (applied.breadth + 1) = depth + 1 + applied.breadth by
          omega, hfirst, hsecond, htaken]

end Phrase

/-- An expression that is not followed by another one is found. -/
theorem expression?_append {phrase : Phrase} (hgreedy : phrase.Greedy)
    {rest : List Token} (hrest : phraseAhead rest = false) :
    expression? (phrase.tokens ++ rest) = some (phrase, rest) := by
  apply (Phrase.isRead_of_greedy hgreedy).eq_some hrest
  rw [List.length_append]
  omega

/-! ### Greedy programs are found -/

/-- A reserved word is not ahead where an expression may begin. -/
theorem nextKind?_ne_of_phraseAhead {tokens : List Token}
    (h : phraseAhead tokens = true) :
    nextKind? tokens ≠ some .letWord ∧ nextKind? tokens ≠ some .evalWord := by
  constructor
  · intro hnext
    rw [phraseAhead, hnext] at h
    cases h
  · intro hnext
    rw [phraseAhead, hnext] at h
    cases h

/-- A statement that is not followed by an expression is found. -/
theorem statement?_append {statement : Statement}
    (hgreedy : statement.value.Greedy) {rest : List Token}
    (hrest : phraseAhead rest = false) :
    statement? (statement.tokens ++ rest) = some (statement, rest) := by
  have hvalue := expression?_append hgreedy hrest
  obtain ⟨hlet, heval⟩ :=
    nextKind?_ne_of_phraseAhead (statement.value.phraseAhead_tokens_append rest)
  cases statement with
  | declaration letWord name equals value =>
      simp only [Statement.value] at hvalue heval
      -- `heval` rules out the case of an evaluated declaration
      simp [statement?, Statement.tokens, Statement.lead, Statement.value,
        hvalue]
  | evaluatedDeclaration letWord name equals evalWord value =>
      simp only [Statement.value] at hvalue
      simp [statement?, Statement.tokens, Statement.lead, Statement.value,
        hvalue]
  | evaluation evalWord value =>
      simp only [Statement.value] at hvalue
      simp [statement?, Statement.tokens, Statement.lead, Statement.value,
        hvalue]
  | print value =>
      simp only [Statement.value] at hvalue hlet heval
      simp [statement?, Statement.tokens, Statement.lead, Statement.value,
        hvalue]

/-- An expression is not ahead of a statement that is no bare one. -/
theorem phraseAhead_of_not_isPrint {statement : Statement}
    (hbare : statement.isPrint = false) (rest : List Token) :
    phraseAhead (statement.tokens ++ rest) = false := by
  obtain ⟨first, others, htokens, hfirst⟩ := statement.exists_tokens_eq_cons
  rw [htokens]
  exact hfirst.trans hbare

/-- The statements of a greedy program are read back from their tokens. -/
theorem statements?_statementTokens {statements : List Statement}
    (hgreedy : ∀ statement ∈ statements, statement.value.Greedy)
    (hbare : ∀ statement ∈ statements.tail, statement.isPrint = false)
    {count : Nat} (hcount : (statementTokens statements).length ≤ count) :
    statements? count (statementTokens statements) = some statements := by
  induction statements generalizing count with
  | nil => exact statements?.eq_1 count
  | cons statement rest ih =>
      have hrest : phraseAhead (statementTokens rest) = false := by
        cases rest with
        | nil => rfl
        | cons second others =>
            exact phraseAhead_of_not_isPrint
              (hbare second List.mem_cons_self) (statementTokens others)
      have hfirst := statement?_append
        (hgreedy statement List.mem_cons_self) hrest
      obtain ⟨token, tokens, htokens, _⟩ := statement.exists_tokens_eq_cons
      rw [statementTokens_cons, htokens] at hcount ⊢
      rw [htokens] at hfirst
      cases count with
      | zero => simp at hcount
      | succ count =>
          have hlength : (statementTokens rest).length ≤ count := by
            rw [List.length_append, List.length_cons] at hcount
            omega
          have hlater := ih
            (fun other hother => hgreedy other (List.mem_cons_of_mem _ hother))
            (fun other hother => hbare other (List.mem_of_mem_tail hother))
            hlength
          rw [List.cons_append] at hfirst ⊢
          rw [statements?, hfirst]
          simp [hlater]

/-- **Recursive descent finds the greedy reading.** -/
theorem program?_statementTokens {statements : List Statement}
    (h : GreedyProgram statements) :
    program? (statementTokens statements) = some statements :=
  statements?_statementTokens h.greedy h.bare (Nat.le_refl _)

end LambdaStack.Grammar
