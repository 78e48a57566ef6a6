import LambdaStack.Proofs.Uses

/-!
# What is in scope

A declaration is in scope behind its own statement, and a statement takes in
the whole expression that follows.  Here this is put down twice, for walks and
for positions.

* A walk over statements that are not `Scoped` stops in the first statement
  with a use that is not bound.  By then the bound names are those from before
  and those that the statements in front of it declare (`exists_stop`).
* `Covers statements number index` says which statement a token belongs to.
  The identifiers in the expression of a statement are the uses among the
  tokens that it covers (`exists_use_of_mem`, `mem_of_use`).
-/

namespace LambdaStack.Grammar

open Automaton

/-! ### Names behind a statement -/

theorem mem_names_insert_iff {symbols : Symbols} {name other : String}
    (value : Operand) :
    other ∈ (symbols.insert name value).names ↔
      other = name ∨ other ∈ symbols.names := by
  refine ⟨fun h => ?_, mem_names_insert value⟩
  by_cases hsame : other = name
  · exact Or.inl hsame
  · rw [mem_names_iff, Symbols.get?_insert_of_ne symbols value hsame,
      ← mem_names_iff] at h
    exact Or.inr h

/-- An expression binds nothing. -/
theorem Phrase.symbols_elaborate {phrase : Phrase} {program after : Program}
    {value : Operand} (h : phrase.elaborate program = some (after, value)) :
    after.symbols = program.symbols := by
  induction phrase generalizing program after value with
  | identifier word =>
      obtain ⟨name, _, h⟩ := Option.bind_eq_some_iff.mp h
      obtain ⟨found, _, h⟩ := Option.bind_eq_some_iff.mp h
      cases h
      rfl
  | name word =>
      obtain ⟨name, _, h⟩ := Option.bind_eq_some_iff.mp h
      cases h
      rfl
  | group bracket inner closing ih => exact ih h
  | function lambda parameter dot body ih =>
      obtain ⟨⟨middle, found⟩, hbody, h⟩ := Option.bind_eq_some_iff.mp h
      obtain ⟨name, _, h⟩ := Option.bind_eq_some_iff.mp h
      cases h
      have hsame := ih hbody
      exact hsame
  | application applied applicand ihapplied ihapplicand =>
      obtain ⟨⟨first, left⟩, hleft, h⟩ := Option.bind_eq_some_iff.mp h
      obtain ⟨⟨second, right⟩, hright, h⟩ := Option.bind_eq_some_iff.mp h
      cases h
      exact (ihapplicand hright).trans (ihapplied hleft)

/-- A statement binds the name that it declares. -/
theorem Statement.mem_names_elaborate {statement : Statement}
    {program after : Program} (h : statement.elaborate program = some after)
    {name : String} :
    name ∈ after.symbols.names ↔
      statement.declared? = some name ∨ name ∈ program.symbols.names := by
  cases statement with
  | declaration letWord word equals phrase =>
      obtain ⟨⟨middle, value⟩, hvalue, h⟩ := Option.bind_eq_some_iff.mp h
      obtain ⟨text, htext, h⟩ := Option.bind_eq_some_iff.mp h
      cases h
      rw [Program.declare, mem_names_insert_iff,
        Phrase.symbols_elaborate hvalue, Statement.declared?, htext,
        Option.some.injEq, eq_comm]
  | evaluatedDeclaration letWord word equals evalWord phrase =>
      obtain ⟨⟨middle, value⟩, hvalue, h⟩ := Option.bind_eq_some_iff.mp h
      obtain ⟨text, htext, h⟩ := Option.bind_eq_some_iff.mp h
      cases h
      rw [Program.declare, mem_names_insert_iff, Program.emit,
        Phrase.symbols_elaborate hvalue, Statement.declared?, htext,
        Option.some.injEq, eq_comm]
  | evaluation evalWord phrase =>
      obtain ⟨⟨middle, value⟩, hvalue, h⟩ := Option.bind_eq_some_iff.mp h
      cases h
      simp [Program.emit, Phrase.symbols_elaborate hvalue,
        Statement.declared?]
  | print phrase =>
      obtain ⟨⟨middle, value⟩, hvalue, h⟩ := Option.bind_eq_some_iff.mp h
      cases h
      simp [Program.emit, Phrase.symbols_elaborate hvalue,
        Statement.declared?]

/-! ### Walks that stop -/

/-- All identifiers that a phrase uses are bound. -/
def Phrase.Bound (phrase : Phrase) (names : List String) : Prop :=
  ∀ token ∈ phrase.identifiers, ∃ name ∈ token.text, name ∈ names

/-- The walk over a phrase from a draft stops at the use of a name that is not
bound. -/
structure Stops (draft : Draft) (phrase : Phrase) (after : Draft)
    (token : Token) (name : String) : Prop where
  walk : phrase.walk semantics draft = (after, .error (.undefined name))
  mem : token ∈ phrase.identifiers
  text : token.text = some name
  unbound : name ∉ draft.names
  names : after.names = draft.names

/-- **The walk over a phrase with an unbound use stops at one.** -/
theorem Phrase.exists_stops {phrase : Phrase} {draft : Draft}
    (hprogram : draft.program.WellFormed) (hworded : Worded phrase.tokens)
    (hunbound : ¬ phrase.Bound draft.names) :
    ∃ after token name, Stops draft phrase after token name := by
  induction phrase generalizing draft with
  | identifier word =>
      obtain ⟨name, htext⟩ := hworded.exists_text List.mem_cons_self
        (Or.inl word.2)
      have hname : name ∉ draft.names := by
        intro hname
        apply hunbound
        intro token hmem
        obtain rfl := List.mem_singleton.mp hmem
        exact ⟨name, htext, hname⟩
      refine ⟨draft, word.1, name, ?_, List.mem_cons_self, htext, hname, rfl⟩
      rw [Phrase.walk]
      show semantics.reduce draft 10 [tokenValue word.1] = _
      rw [tokenValue_of_text htext,
        reduce_undefined (not_mem_names_iff.mp hname)]
  | name word =>
      refine absurd ?_ hunbound
      intro token hmem
      cases hmem
  | group bracket inner closing ih =>
      obtain ⟨after, token, name, h⟩ := ih hprogram
        (hworded.mono fun token hmem => by simp [Phrase.tokens, hmem])
        hunbound
      refine ⟨after, token, name, ?_, h.mem, h.text, h.unbound, h.names⟩
      rw [Phrase.walk]
      show andThen (inner.walk semantics draft) _ = _
      rw [h.walk]
      rfl
  | function lambda parameter dot body ih =>
      obtain ⟨after, token, name, h⟩ := ih hprogram
        (hworded.mono fun token hmem => by simp [Phrase.tokens, hmem])
        hunbound
      refine ⟨after, token, name, ?_, h.mem, h.text, h.unbound, h.names⟩
      rw [Phrase.walk]
      show andThen (body.walk semantics draft) _ = _
      rw [h.walk]
      rfl
  | application applied applicand ihapplied ihapplicand =>
      have hleftWords : Worded applied.tokens :=
        hworded.mono fun token hmem => by simp [Phrase.tokens, hmem]
      have hrightWords : Worded applicand.tokens :=
        hworded.mono fun token hmem => by simp [Phrase.tokens, hmem]
      by_cases hleft : applied.Bound draft.names
      · -- the walk gets through the applied part, which binds nothing
        obtain ⟨middle, value, happlied⟩ :=
          Phrase.exists_elaborated hprogram hleftWords hleft
        have hsame : ({ draft with program := middle } : Draft).names
            = draft.names := by
          rw [Draft.names, happlied.symbols]
        have hright : ¬ applicand.Bound
            ({ draft with program := middle } : Draft).names := by
          rw [hsame]
          intro hright
          apply hunbound
          intro token hmem
          rcases List.mem_append.mp hmem with hfirst | hsecond
          · exact hleft token hfirst
          · exact hright token hsecond
        obtain ⟨after, token, name, h⟩ :=
          ihapplicand happlied.wellFormed hrightWords hright
        refine ⟨after, token, name, ?_, List.mem_append_right _ h.mem, h.text,
          hsame ▸ h.unbound, h.names.trans hsame⟩
        rw [Phrase.walk, happlied.walk]
        show andThen (applicand.walk semantics { draft with program := middle })
          _ = _
        rw [h.walk]
        rfl
      · obtain ⟨after, token, name, h⟩ := ihapplied hprogram hleftWords hleft
        refine ⟨after, token, name, ?_, List.mem_append_left _ h.mem, h.text,
          h.unbound, h.names⟩
        rw [Phrase.walk, h.walk]
        rfl

/-- The walk over a statement stops where that over its expression does. -/
theorem Statement.walk_of_stops {statement : Statement} {draft after : Draft}
    {token : Token} {name : String}
    (h : Stops draft statement.value after token name) (before : Value) :
    statement.walk semantics before draft
      = (after, .error (.undefined name)) := by
  have hwalk := h.walk
  cases statement with
  | declaration letWord word equals phrase =>
      rw [Statement.walk]
      show andThen (phrase.walk semantics draft) _ = _
      rw [show phrase.walk semantics draft = _ from hwalk]
      rfl
  | evaluatedDeclaration letWord word equals evalWord phrase =>
      rw [Statement.walk]
      show andThen (phrase.walk semantics draft) _ = _
      rw [show phrase.walk semantics draft = _ from hwalk]
      rfl
  | evaluation evalWord phrase =>
      rw [Statement.walk]
      show andThen (phrase.walk semantics draft) _ = _
      rw [show phrase.walk semantics draft = _ from hwalk]
      rfl
  | print phrase =>
      rw [Statement.walk, show phrase.walk semantics draft = _ from hwalk]
      rfl

/-! ### Scoped statements -/

theorem Scoped.mono {statements : List Statement} {names others : List String}
    (h : Scoped names statements) (hnames : ∀ name ∈ names, name ∈ others) :
    Scoped others statements := by
  induction statements generalizing names others with
  | nil => trivial
  | cons statement rest ih =>
      obtain ⟨huses, hrest⟩ := h
      refine ⟨?_, ih hrest ?_⟩
      · intro token hmem
        obtain ⟨name, htext, hname⟩ := huses token hmem
        exact ⟨name, htext, hnames name hname⟩
      · intro name hname
        rcases List.mem_append.mp hname with hdeclared | hold
        · exact List.mem_append_left _ hdeclared
        · exact List.mem_append_right _ (hnames name hold)

/-- Where statements are scoped, a use is bound from before or declared by an
earlier statement. -/
theorem Scoped.bound {statements : List Statement} {names : List String}
    (h : Scoped names statements) {number : Nat} {current : Statement}
    (hcurrent : statements[number]? = some current) {token : Token}
    (hmem : token ∈ current.value.identifiers) {name : String}
    (htext : token.text = some name) :
    name ∈ names ∨
      ∃ statement ∈ statements.take number,
        statement.declared? = some name := by
  induction statements generalizing names number with
  | nil => cases hcurrent
  | cons statement rest ih =>
      obtain ⟨huses, hrest⟩ := h
      cases number with
      | zero =>
          obtain rfl := Option.some.inj hcurrent
          obtain ⟨found, hfound, hname⟩ := huses token hmem
          rw [htext] at hfound
          obtain rfl := Option.some.inj hfound
          exact Or.inl hname
      | succ number =>
          rw [List.take_succ_cons]
          rcases ih hrest hcurrent with hname | ⟨earlier, hearlier, hdeclared⟩
          · rcases List.mem_append.mp hname with hfirst | hold
            · exact Or.inr ⟨statement, List.mem_cons_self,
                Option.mem_toList.mp hfirst⟩
            · exact Or.inl hold
          · exact Or.inr ⟨earlier, List.mem_cons_of_mem _ hearlier, hdeclared⟩

/-- The walk over statements stops in the statement with the given number, at
the use of a name that is not bound; the statements in front of it are scoped,
and what they declare is bound. -/
structure StopsIn (draft : Draft) (statements : List Statement)
    (before : Value) (number : Nat) (name : String) (after : Draft) :
    Prop where
  walk : walkStatements semantics statements draft before
    = (after, .error (.undefined name))
  used : ∃ current, statements[number]? = some current ∧
    ∃ token ∈ current.value.identifiers, token.text = some name
  inScope : Scoped draft.names (statements.take number)
  names : ∀ other, other ∈ after.names ↔ other ∈ draft.names ∨
    ∃ statement ∈ statements.take number, statement.declared? = some other
  unbound : name ∉ after.names

/-- **The walk over statements that are not scoped stops.** -/
theorem exists_stop {statements : List Statement} {draft : Draft}
    (hprogram : draft.program.WellFormed)
    (hworded : Worded (statementTokens statements))
    (h : ¬ Scoped draft.names statements) (before : Value) :
    ∃ number name after,
      StopsIn draft statements before number name after := by
  induction statements generalizing draft with
  | nil => exact absurd trivial h
  | cons statement rest ih =>
      rw [statementTokens_cons] at hworded
      have hwords : Worded statement.tokens :=
        hworded.mono (List.subset_append_left _ _)
      by_cases hbound : statement.value.Bound draft.names
      · obtain ⟨middle, helaborated⟩ :=
          Statement.exists_elaborated hprogram hwords hbound before
        have hnames : ∀ name,
            name ∈ ({ draft with program := middle } : Draft).names ↔
              name ∈ statement.declared?.toList ++ draft.names := by
          intro name
          rw [List.mem_append, Option.mem_toList]
          exact Statement.mem_names_elaborate helaborated.elaborate
        have hrest : ¬ Scoped ({ draft with program := middle } : Draft).names
            rest := by
          intro hscoped
          exact h ⟨hbound, hscoped.mono fun name => (hnames name).mp⟩
        obtain ⟨number, name, after, hstop⟩ := ih helaborated.wellFormed
          (hworded.mono (List.subset_append_right _ _)) hrest
        refine ⟨number + 1, name, after, ?_, hstop.used, ?_, ?_,
          hstop.unbound⟩
        · rw [walkStatements, helaborated.walk]
          exact hstop.walk
        · rw [List.take_succ_cons]
          exact ⟨hbound, hstop.inScope.mono fun name => (hnames name).mp⟩
        · intro other
          rw [hstop.names, hnames, List.mem_append, Option.mem_toList,
            List.take_succ_cons]
          simp only [List.mem_cons, exists_eq_or_imp]
          tauto
      · obtain ⟨after, token, name, hstops⟩ := Phrase.exists_stops hprogram
          (hwords.mono fun token hmem => by simp [Statement.tokens, hmem])
          hbound
        refine ⟨0, name, after, ?_, ⟨statement, rfl, token, hstops.mem,
          hstops.text⟩, trivial, ?_, ?_⟩
        · rw [walkStatements, Statement.walk_of_stops hstops]
          rfl
        · simp [hstops.names]
        · rw [hstops.names]
          exact hstops.unbound

/-! ### Which statement a token belongs to -/

/-- The token with the given index belongs to the statement with the given
number. -/
def Covers (statements : List Statement) (number index : Nat) : Prop :=
  (statementTokens (statements.take number)).length ≤ index ∧
    index < (statementTokens (statements.take (number + 1))).length

section Positions

variable {statements : List Statement} {number index : Nat} {name : String}

theorem statementTokens_append (left right : List Statement) :
    statementTokens (left ++ right)
      = statementTokens left ++ statementTokens right :=
  List.flatMap_append

/-- More statements have no fewer tokens. -/
theorem length_statementTokens_take_le (statements : List Statement)
    {number later : Nat} (h : number ≤ later) :
    (statementTokens (statements.take number)).length
      ≤ (statementTokens (statements.take later)).length := by
  obtain ⟨more, rfl⟩ := Nat.exists_eq_add_of_le h
  rw [List.take_add, statementTokens_append, List.length_append]
  exact Nat.le_add_right _ _

/-- Every token belongs to a statement. -/
theorem exists_covers (h : index < (statementTokens statements).length) :
    ∃ number, Covers statements number index := by
  have hexists : ∃ number,
      index < (statementTokens (statements.take (number + 1))).length := by
    refine ⟨statements.length, ?_⟩
    rw [List.take_of_length_le (Nat.le_succ _)]
    exact h
  refine ⟨Nat.find hexists, ?_, Nat.find_spec hexists⟩
  cases hnumber : Nat.find hexists with
  | zero => simp [statementTokens]
  | succ number =>
      have hmin := Nat.find_min hexists (m := number) (by omega)
      omega

/-- Tokens stand in the order of their statements. -/
theorem Covers.le_of_le {later place : Nat} (h : Covers statements number index)
    (hlater : Covers statements later place) (hle : index ≤ place) :
    number ≤ later := by
  by_contra hgt
  have hlength := length_statementTokens_take_le statements
    (show later + 1 ≤ number by omega)
  have hbegin := h.1
  have hend := hlater.2
  omega

/-- The statement that a token belongs to is there, and the tokens of a program
are those in front of it, its own, and those behind it. -/
theorem Covers.exists_split (h : Covers statements number index) :
    ∃ current, statements[number]? = some current ∧
      statementTokens statements
        = statementTokens (statements.take number)
          ++ (current.tokens
            ++ statementTokens (statements.drop (number + 1))) ∧
      index < (statementTokens (statements.take number)).length
        + current.tokens.length := by
  obtain ⟨hbegin, hend⟩ := h
  rw [List.take_add_one, statementTokens_append, List.length_append] at hend
  cases hcurrent : statements[number]? with
  | none =>
      have hnone : (statementTokens []).length = 0 := rfl
      rw [hcurrent, Option.toList_none, hnone] at hend
      omega
  | some current =>
      obtain ⟨hlt, hget⟩ := List.getElem?_eq_some_iff.mp hcurrent
      have hwhole : statements = statements.take number
          ++ current :: statements.drop (number + 1) := by
        rw [← hget, ← List.drop_eq_getElem_cons hlt, List.take_append_drop]
      refine ⟨current, rfl, ?_, ?_⟩
      · rw [← statementTokens_cons, ← statementTokens_append, ← hwhole]
      · simpa [hcurrent, statementTokens] using hend

/-! ### Uses and the expressions of statements -/

theorem EndsWithLet.append {tokens : List Token} (h : EndsWithLet tokens)
    (front : List Token) : EndsWithLet (front ++ tokens) := by
  unfold EndsWithLet at h ⊢
  rw [List.getLast?_append]
  cases hlast : tokens.getLast? with
  | none =>
      rw [hlast] at h
      cases h
  | some last =>
      rw [hlast] at h
      exact h

/-- What is used behind other tokens is used by itself. -/
theorem UsedAt.of_append {front tokens : List Token} {offset : Nat}
    (h : UsedAt (front ++ tokens) (front.length + offset) name) :
    UsedAt tokens offset name := by
  obtain ⟨⟨token, htoken, hkind⟩, hlet⟩ := h
  rw [List.getElem?_append_right (Nat.le_add_right _ _),
    Nat.add_sub_cancel_left] at htoken
  rw [List.take_length_add_append] at hlet
  exact ⟨⟨token, htoken, hkind⟩, fun hends => hlet (hends.append front)⟩

theorem not_endsWithLet_append {left right : List Token}
    (hleft : ¬ EndsWithLet left) (hright : ¬ EndsWithLet right) :
    ¬ EndsWithLet (left ++ right) := by
  unfold EndsWithLet at hleft hright ⊢
  rw [List.getLast?_append]
  cases hlast : right.getLast? with
  | none => exact hleft
  | some last =>
      rw [hlast] at hright
      exact hright

theorem not_endsWithLet_of_forall {tokens : List Token}
    (h : ∀ token ∈ tokens, token.kind ≠ .letWord) : ¬ EndsWithLet tokens := by
  intro hends
  obtain ⟨last, hlast, hkind⟩ := Option.map_eq_some_iff.mp hends
  exact h last (List.mem_of_getLast? hlast) hkind

/-- There is no `let` in an expression. -/
theorem Phrase.kind_ne_letWord (phrase : Phrase) :
    ∀ token ∈ phrase.tokens, token.kind ≠ .letWord := by
  induction phrase with
  | identifier word =>
      intro token hmem
      rw [List.mem_singleton.mp hmem, word.2]
      decide
  | name word =>
      intro token hmem
      rw [List.mem_singleton.mp hmem, word.2]
      decide
  | group bracket inner closing ih =>
      intro token hmem
      simp only [tokens, List.cons_append, List.mem_cons, List.mem_append,
        List.not_mem_nil, or_false] at hmem
      rcases hmem with rfl | hinner | rfl
      · rw [bracket.2]
        decide
      · exact ih token hinner
      · rw [closing.2]
        decide
  | function lambda parameter dot body ih =>
      intro token hmem
      simp only [tokens, List.mem_cons] at hmem
      rcases hmem with rfl | rfl | rfl | hbody
      · rw [lambda.2]
        decide
      · rw [parameter.2]
        decide
      · rw [dot.2]
        decide
      · exact ih token hbody
  | application applied applicand ihapplied ihapplicand =>
      intro token hmem
      rcases List.mem_append.mp hmem with hleft | hright
      · exact ihapplied token hleft
      · exact ihapplicand token hright

/-- The identifiers of an expression are its tokens of that kind. -/
theorem Phrase.mem_identifiers_iff {phrase : Phrase} {token : Token} :
    token ∈ phrase.identifiers ↔
      token ∈ phrase.tokens ∧ token.kind = .identifier := by
  induction phrase with
  | identifier word =>
      simp only [identifiers, tokens, List.mem_singleton]
      exact ⟨fun h => ⟨h, h ▸ word.2⟩, fun h => h.1⟩
  | name word =>
      simp only [identifiers, tokens, List.mem_singleton, List.not_mem_nil,
        false_iff]
      rintro ⟨rfl, hkind⟩
      rw [word.2] at hkind
      cases hkind
  | group bracket inner closing ih =>
      have hopening := bracket.2
      have hclosing := closing.2
      simp only [identifiers, tokens, List.cons_append, List.mem_cons,
        List.mem_append, List.not_mem_nil, or_false, ih]
      grind
  | function lambda parameter dot body ih =>
      have hlambda := lambda.2
      have hparameter := parameter.2
      have hdot := dot.2
      simp only [identifiers, tokens, List.mem_cons, ih]
      grind
  | application applied applicand ihapplied ihapplicand =>
      simp only [identifiers, tokens, List.mem_append, ihapplied, ihapplicand]
      tauto

/-- Tokens do not end with a `let`, and no identifier among them is used, if
their kinds show it. -/
theorem unused_of_kinds {tokens : List Token} {kinds : List Kind}
    (hkinds : tokens.map Token.kind = kinds)
    (hlast : kinds.getLast? ≠ some .letWord)
    (h : ∀ index < kinds.length, kinds[index]? = some .identifier →
      (kinds.take index).getLast? = some .letWord) :
    ¬ EndsWithLet tokens ∧ ∀ index name, ¬ UsedAt tokens index name := by
  subst hkinds
  refine ⟨by rwa [EndsWithLet, ← List.getLast?_map], ?_⟩
  intro index name hused
  have hlt := hused.lt_length
  obtain ⟨⟨token, htoken, hkind, _⟩, hlet⟩ := hused
  apply hlet
  rw [EndsWithLet, ← List.getLast?_map, List.map_take]
  apply h index (by rwa [List.length_map])
  rw [List.getElem?_map, htoken, ← hkind]
  rfl

/-- The tokens before the expression of a statement do not end with a `let`,
and no identifier among them is used. -/
theorem Statement.lead_unused (statement : Statement) :
    ¬ EndsWithLet statement.lead ∧
      ∀ index name, ¬ UsedAt statement.lead index name := by
  cases statement with
  | declaration letWord word equals value =>
      have hkinds : [letWord.1, word.1, equals.1].map Token.kind
          = [.letWord, .identifier, .equals] := by
        simp [letWord.2, word.2, equals.2]
      exact unused_of_kinds hkinds (by decide) (by decide)
  | evaluatedDeclaration letWord word equals evalWord value =>
      have hkinds : [letWord.1, word.1, equals.1, evalWord.1].map Token.kind
          = [.letWord, .identifier, .equals, .evalWord] := by
        simp [letWord.2, word.2, equals.2, evalWord.2]
      exact unused_of_kinds hkinds (by decide) (by decide)
  | evaluation evalWord value =>
      have hkinds : [evalWord.1].map Token.kind = [.evalWord] := by
        simp [evalWord.2]
      exact unused_of_kinds hkinds (by decide) (by decide)
  | print value =>
      have hkinds : ([] : List Token).map Token.kind = [] := rfl
      exact unused_of_kinds hkinds (by decide) (by decide)

theorem not_endsWithLet_statementTokens (statements : List Statement) :
    ¬ EndsWithLet (statementTokens statements) := by
  induction statements with
  | nil => simp [EndsWithLet, statementTokens]
  | cons statement rest ih =>
      rw [statementTokens_cons]
      refine not_endsWithLet_append ?_ ih
      exact not_endsWithLet_append statement.lead_unused.1
        (not_endsWithLet_of_forall statement.value.kind_ne_letWord)

/-- An identifier in the expression of a statement is a use that belongs to the
statement. -/
theorem exists_use_of_mem {current : Statement} {token : Token}
    (hcurrent : statements[number]? = some current)
    (hmem : token ∈ current.value.identifiers)
    (htext : token.text = some name) :
    ∃ index, Covers statements number index ∧
      UsedAt (statementTokens statements) index name := by
  obtain ⟨htoken, hkind⟩ := Phrase.mem_identifiers_iff.mp hmem
  obtain ⟨front, back, hvalue⟩ := List.append_of_mem htoken
  obtain ⟨hlt, hget⟩ := List.getElem?_eq_some_iff.mp hcurrent
  have hwhole : statements = statements.take number
      ++ current :: statements.drop (number + 1) := by
    rw [← hget, ← List.drop_eq_getElem_cons hlt, List.take_append_drop]
  have hfront : ¬ EndsWithLet (statementTokens (statements.take number)
      ++ current.lead ++ front) := by
    apply not_endsWithLet_append
    · exact not_endsWithLet_append (not_endsWithLet_statementTokens _)
        current.lead_unused.1
    · apply not_endsWithLet_of_forall
      intro other hother
      apply current.value.kind_ne_letWord
      rw [hvalue]
      exact List.mem_append_left _ hother
  have htokens : statementTokens statements
      = (statementTokens (statements.take number) ++ current.lead ++ front
        ++ [token]) ++ (back ++ statementTokens
          (statements.drop (number + 1))) := by
    conv_lhs => rw [hwhole]
    simp [statementTokens_append, Statement.tokens, hvalue]
  refine ⟨(statementTokens (statements.take number) ++ current.lead
    ++ front).length, ⟨?_, ?_⟩, ?_⟩
  · simp only [List.length_append]
    omega
  · rw [List.take_add_one, hcurrent, statementTokens_append]
    simp [statementTokens, Statement.tokens, hvalue]
  · rw [htokens, usedAt_append (by simp), usedAt_concat]
    exact ⟨hkind, htext, hfront⟩

/-- A use that belongs to a statement is an identifier in its expression. -/
theorem mem_of_use (hcovers : Covers statements number index)
    (hused : UsedAt (statementTokens statements) index name) :
    ∃ current, statements[number]? = some current ∧
      ∃ token ∈ current.value.identifiers, token.text = some name := by
  obtain ⟨current, hcurrent, htokens, hend⟩ := hcovers.exists_split
  refine ⟨current, hcurrent, ?_⟩
  obtain ⟨offset, rfl⟩ := Nat.exists_eq_add_of_le hcovers.1
  rw [htokens] at hused
  have hown : UsedAt current.tokens offset name := by
    rw [← usedAt_append (by omega)]
    exact hused.of_append
  rcases Nat.lt_or_ge offset current.lead.length with hlead | hvalue
  · rw [Statement.tokens, usedAt_append hlead] at hown
    exact absurd hown (current.lead_unused.2 offset name)
  · obtain ⟨⟨token, htoken, hkind, htext⟩, _⟩ := hown
    rw [Statement.tokens, List.getElem?_append_right hvalue] at htoken
    exact ⟨token, Phrase.mem_identifiers_iff.mpr
      ⟨List.mem_of_getElem? htoken, hkind⟩, htext⟩

end Positions

end LambdaStack.Grammar
