import LambdaStack.Proofs.Descent
import LambdaStack.Proofs.Reachable
import LambdaStack.Proofs.Recognition

/-!
# Reading builds what recursive descent elaborates

`elaborate?` says what program a list of tokens stands for, without tables,
states or stack.  It takes the tokens apart by recursive descent and walks the
phrases from left to right and from the inside out:

    name          a new variable
    identifier    what it is bound to, nothing new
    group         what stands in the brackets
    function      after its body, a new variable, then the function; `func`
    application   after both parts, the application; `apply`
    eval          `eval`, whose result is its value
    declaration   the binding, a new identifier; `assign`
    expression    `print`

The main statement is the last one.  If the tokens are a sentence in which
every identifier is bound when its statement begins, reading them on top of a
well-formed program is accepted, and leaves the elaborated program.

The automaton walks the greedy phrases too (`run_of_greedy`), so what is left
is to see that its semantics never refuses anything on the way: an operand on
the stack can be used as long as the program is well formed.
-/

namespace LambdaStack

namespace Program

/-- Adds a node at the end of the graph. -/
def addNode (program : Program) (node : Node) : Program :=
  { program with graph := program.graph.add node }

/-- Adds an instruction at the end of the code. -/
def emit (program : Program) (instruction : Instruction) : Program :=
  { program with code := program.code.push instruction }

/-- Binds a name, adds an identifier for it and assigns the value to it. -/
def declare (program : Program) (name : String) (value : Operand) : Program :=
  { graph := program.graph.add (.identifier name)
    code := program.code.push (.assign value (.node program.graph.size))
    symbols := program.symbols.insert name value }

end Program

namespace Grammar

open Automaton

/-! ### The elaborator -/

/-- The program with what the phrase adds to it, and the value of the
phrase. -/
def Phrase.elaborate : Phrase → Program → Option (Program × Operand)
  | identifier word, program => do
    let name ← word.1.text
    let value ← program.symbols.get? name
    return (program, value)
  | name word, program => do
    let name ← word.1.text
    return (program.addNode (.var name), .node program.graph.size)
  | group _ inner _, program => inner.elaborate program
  | function _ parameter _ body, program => do
    let (program, value) ← body.elaborate program
    let name ← parameter.1.text
    let bound := program.graph.size
    let program := (program.addNode (.var name)).addNode (.lam bound value)
    return (program.emit (.func (.node bound) value), .node (bound + 1))
  | application applied applicand, program => do
    let (program, left) ← applied.elaborate program
    let (program, right) ← applicand.elaborate program
    let index := program.graph.size
    let program := program.addNode (.app left right)
    return (program.emit (.apply left right), .node index)

/-- The program with what the statement adds to it. -/
def Statement.elaborate : Statement → Program → Option Program
  | declaration _ name _ value, program => do
    let (program, value) ← value.elaborate program
    let name ← name.1.text
    return program.declare name value
  | evaluatedDeclaration _ name _ _ value, program => do
    let (program, value) ← value.elaborate program
    let name ← name.1.text
    let index := program.code.size
    return (program.emit (.eval value)).declare name (.result index)
  | evaluation _ value, program => do
    let (program, value) ← value.elaborate program
    return program.emit (.eval value)
  | print value, program => do
    let (program, value) ← value.elaborate program
    return program.emit (.print value)

/-- The program with what the statements add to it, one after the other. -/
def elaborateStatements : List Statement → Program → Option Program
  | [], program => some program
  | statement :: rest, program => do
    let program ← statement.elaborate program
    elaborateStatements rest program

/-- The program that the tokens stand for on top of another one. -/
def elaborate? (tokens : List Token) (program : Program) : Option Program := do
  let statements ← program? tokens
  elaborateStatements statements program

/-- The identifiers that an expression uses. -/
def Phrase.identifiers : Phrase → List Token
  | identifier word => [word.1]
  | name _ => []
  | group _ inner _ => inner.identifiers
  | function _ _ _ body => body.identifiers
  | application applied applicand =>
    applied.identifiers ++ applicand.identifiers

/-- The name that a statement declares. -/
def Statement.declared? : Statement → Option String
  | declaration _ name _ _ | evaluatedDeclaration _ name _ _ _ => name.1.text
  | evaluation _ _ | print _ => none

/-- Every identifier that a statement uses is bound when the statement begins:
it is among the names known before, or was declared by an earlier
statement. -/
def Scoped : List String → List Statement → Prop
  | _, [] => True
  | names, statement :: rest =>
    (∀ token ∈ statement.value.identifiers,
      ∃ name ∈ token.text, name ∈ names) ∧
    Scoped (statement.declared?.toList ++ names) rest

/-- Every identifier and every name has its text. -/
def Worded (tokens : List Token) : Prop :=
  ∀ token ∈ tokens, token.kind = .identifier ∨ token.kind = .name →
    token.text.isSome

instance (tokens : List Token) : Decidable (Worded tokens) :=
  inferInstanceAs (Decidable (∀ token ∈ tokens, _ → _))

/-! ### Bound names -/

/-- The listed names are those that are bound. -/
theorem mem_names_iff {symbols : Symbols} {name : String} :
    name ∈ symbols.names ↔ ∃ value, symbols.get? name = some value := by
  constructor
  · intro h
    cases hget : symbols.get? name with
    | some value => exact ⟨value, rfl⟩
    | none =>
        obtain ⟨entry, hentry, rfl⟩ := List.mem_map.mp h
        have hne := List.lookup_eq_none_iff.mp hget entry hentry
        simp at hne
  · rintro ⟨value, h⟩
    exact List.mem_map_of_mem (Symbols.mem_entries_of_get? h)

/-- Binding a name adds it to the bound names and removes none of them. -/
theorem mem_names_insert {symbols : Symbols} {name other : String}
    (value : Operand) (h : other = name ∨ other ∈ symbols.names) :
    other ∈ (symbols.insert name value).names := by
  rw [mem_names_iff]
  by_cases hsame : other = name
  · rw [hsame, Symbols.get?_insert_self]
    exact ⟨value, rfl⟩
  · rw [Symbols.get?_insert_of_ne symbols value hsame]
    exact mem_names_iff.mp (h.resolve_left hsame)

/-! ### Phrases -/

/-- An operand that can be used is not refused. -/
theorem operandAt_of_uses {program : Program} {operand : Operand}
    (h : program.Uses operand) (gap : Gap) :
    operandAt program.graph (some (.operand operand)) gap = .ok operand := by
  have hplain := h.2
  unfold operandAt
  dsimp only
  split
  · next name hname =>
    rw [Graph.isIdentifier, hname] at hplain
    cases hplain
  · rfl

/-- The value of a word is its text. -/
theorem tokenValue_of_text {token : Token} {text : String}
    (h : token.text = some text) : tokenValue token = .text text := by
  rw [tokenValue, h]

section Meanings

variable {program : Program} {name : String} {value left right : Operand}

/-- An identifier that is bound means what it is bound to. -/
theorem meaning_identifier (h : program.symbols.get? name = some value) :
    Production.identifier.meaning program [.text name]
      = .ok { value := .operand value } := by
  simp [Production.meaning, identifierUse, wordAt, bind, Except.bind, h, pure,
    Except.pure]

/-- A function adds its variable and itself. -/
theorem meaning_function (h : program.Uses value) (name : String)
    (first mark : Value) :
    Production.function.meaning program
      [.operand value, mark, .text name, first]
      = .ok
        { nodes := [.var name, .lam program.graph.size value]
          instruction := some (.func (.node program.graph.size) value)
          value := .operand (.node (program.graph.size + 1)) } := by
  simp [Production.meaning, function, wordAt, operandAt_of_uses h, bind,
    Except.bind, pure, Except.pure]

/-- An application adds itself. -/
theorem meaning_application (hleft : program.Uses left)
    (hright : program.Uses right) :
    Production.application.meaning program [.operand right, .operand left]
      = .ok
        { nodes := [.app left right]
          instruction := some (.apply left right)
          value := .operand (.node program.graph.size) } := by
  simp [Production.meaning, application, operandAt_of_uses hleft,
    operandAt_of_uses hright, bind, Except.bind, pure, Except.pure]

/-- A declaration binds its name and assigns to it. -/
theorem meaning_declaration (h : program.Uses value) (name : String)
    (first mark : Value) :
    Production.declaration.meaning program
      [.operand value, mark, .text name, first]
      = .ok
        { binding := some (name, value)
          nodes := [.identifier name]
          instruction := some (.assign value (.node program.graph.size)) } := by
  simp [Production.meaning, declaration, wordAt, operandAt_of_uses h, bind,
    Except.bind, pure, Except.pure]

/-- An evaluation means its own result. -/
theorem meaning_evaluation (h : program.Uses value) (first : Value) :
    Production.evaluation.meaning program [.operand value, first]
      = .ok
        { instruction := some (.eval value)
          value := .operand (.result program.code.size) } := by
  simp [Production.meaning, evaluation, operandAt_of_uses h, bind, Except.bind,
    pure, Except.pure]

/-- Printing adds its instruction, and means nothing. -/
theorem meaning_print (h : program.Uses value) :
    Production.print.meaning program [.operand value]
      = .ok { instruction := some (.print value) } := by
  simp [Production.meaning, printing, operandAt_of_uses h, bind, Except.bind,
    pure, Except.pure]

end Meanings

/-- **A production that means something is reduced.**  It adds what it means to
the program, which stays well formed. -/
theorem reduction_of_meaning (draft : Draft) (rule : Nat)
    (hprogram : draft.program.WellFormed) {frame : List Value}
    (hframe : ∀ value ∈ frame, Holds draft.program value)
    {contribution : Contribution}
    (h : (Production.ofRule rule).meaning draft.program frame
      = .ok contribution) :
    semantics.reduce draft rule frame
      = ({ draft with program := contribution.addTo draft.program },
        .ok contribution.value) ∧
      (contribution.addTo draft.program).WellFormed ∧
      Holds (contribution.addTo draft.program) contribution.value ∧
      draft.program.Grows (contribution.addTo draft.program) := by
  have hfits := fits_meaning hprogram hframe h
  exact ⟨by simp [semantics, h], Contribution.wellFormed_addTo hprogram hfits,
    hfits.value, contribution.grows draft.program⟩

/-- The walk over a phrase from a draft comes to a program and a value. -/
structure Elaborated (draft : Draft) (phrase : Phrase) (program : Program)
    (value : Operand) : Prop where
  elaborate : phrase.elaborate draft.program = some (program, value)
  walk : phrase.walk semantics draft
    = ({ draft with program }, .ok (.operand value))
  wellFormed : program.WellFormed
  uses : program.Uses value
  grows : draft.program.Grows program
  symbols : program.symbols = draft.program.symbols

/-- Fewer tokens are worded if all were. -/
theorem Worded.mono {tokens others : List Token} (h : Worded tokens)
    (hsub : others ⊆ tokens) : Worded others :=
  fun token hmem => h token (hsub hmem)

/-- A word has its text. -/
theorem Worded.exists_text {tokens : List Token} (h : Worded tokens)
    {token : Token} (hmem : token ∈ tokens)
    (hkind : token.kind = .identifier ∨ token.kind = .name) :
    ∃ text, token.text = some text :=
  Option.isSome_iff_exists.mp (h token hmem hkind)

/-- **The walk over a phrase elaborates it.** -/
theorem Phrase.exists_elaborated {phrase : Phrase} {draft : Draft}
    (hprogram : draft.program.WellFormed) (hworded : Worded phrase.tokens)
    (hscoped : ∀ token ∈ phrase.identifiers,
      ∃ name ∈ token.text, name ∈ draft.program.symbols.names) :
    ∃ program value, Elaborated draft phrase program value := by
  induction phrase generalizing draft with
  | identifier word =>
      obtain ⟨name, htext, hname⟩ := hscoped word.1 List.mem_cons_self
      rw [Option.mem_def] at htext
      obtain ⟨value, hvalue⟩ := mem_names_iff.mp hname
      obtain ⟨hreduce, hwellFormed, huses, hgrows⟩ :=
        reduction_of_meaning draft 10 hprogram (by simp)
          (meaning_identifier hvalue)
      refine ⟨_, value, ⟨?_, ?_, hwellFormed, huses, hgrows, rfl⟩⟩
      · simp [Phrase.elaborate, htext, hvalue]
        rfl
      · rw [Phrase.walk]
        show semantics.reduce draft 10 [tokenValue word.1] = _
        rw [tokenValue_of_text htext, hreduce]
  | name word =>
      obtain ⟨text, htext⟩ := hworded.exists_text List.mem_cons_self
        (Or.inr word.2)
      have hmeaning : Production.name.meaning draft.program [.text text] = .ok
          { nodes := [.var text]
            value := .operand (.node draft.program.graph.size) } := rfl
      obtain ⟨hreduce, hwellFormed, huses, hgrows⟩ :=
        reduction_of_meaning draft 11 hprogram (by simp) hmeaning
      refine ⟨_, _, ⟨?_, ?_, hwellFormed, huses, hgrows, rfl⟩⟩
      · simp [Phrase.elaborate, htext]
        rfl
      · rw [Phrase.walk]
        show semantics.reduce draft 11 [tokenValue word.1] = _
        rw [tokenValue_of_text htext, hreduce]
  | group bracket inner closing ih =>
      obtain ⟨program, value, h⟩ := ih hprogram
        (hworded.mono fun token hmem => by simp [Phrase.tokens, hmem]) hscoped
      refine ⟨program, value,
        ⟨h.elaborate, ?_, h.wellFormed, h.uses, h.grows, h.symbols⟩⟩
      rw [Phrase.walk]
      show andThen (inner.walk semantics draft) _ = _
      rw [h.walk]
      rfl
  | function lambda parameter dot body ih =>
      obtain ⟨name, htext⟩ : ∃ name, parameter.1.text = some name :=
        hworded.exists_text (by simp [Phrase.tokens]) (Or.inr parameter.2)
      obtain ⟨program, value, h⟩ := ih hprogram
        (hworded.mono fun token hmem => by simp [Phrase.tokens, hmem]) hscoped
      have hmeaning := meaning_function h.uses name (tokenValue lambda.1)
        (tokenValue dot.1)
      have hframe : ∀ found ∈ [Value.operand value, tokenValue dot.1,
          .text name, tokenValue lambda.1], Holds program found := by
        simpa using h.uses
      obtain ⟨hreduce, hwellFormed, huses, hgrows⟩ :=
        reduction_of_meaning { draft with program } 15 h.wellFormed hframe
          hmeaning
      refine ⟨_, _, ⟨?_, ?_, hwellFormed, huses, h.grows.trans hgrows,
        h.symbols⟩⟩
      · simp [Phrase.elaborate, h.elaborate, htext]
        rfl
      · rw [Phrase.walk]
        show andThen (body.walk semantics draft) _ = _
        rw [h.walk]
        show andThen (semantics.reduce { draft with program } 15
          [.operand value, tokenValue dot.1, tokenValue parameter.1,
            tokenValue lambda.1]) _ = _
        rw [tokenValue_of_text htext, hreduce]
        rfl
  | application applied applicand ihapplied ihapplicand =>
      obtain ⟨middle, left, hleft⟩ := ihapplied hprogram
        (hworded.mono fun token hmem => by simp [Phrase.tokens, hmem])
        (fun token hmem => hscoped token (by simp [Phrase.identifiers, hmem]))
      have hbound : ∀ token ∈ applicand.identifiers,
          ∃ name ∈ token.text, name ∈ middle.symbols.names := by
        intro token hmem
        rw [hleft.symbols]
        exact hscoped token (by simp [Phrase.identifiers, hmem])
      obtain ⟨program, right, hright⟩ : ∃ program value, Elaborated
          { draft with program := middle } applicand program value :=
        ihapplicand hleft.wellFormed
          (hworded.mono fun token hmem => by simp [Phrase.tokens, hmem]) hbound
      -- the program has only grown since the left value was worked out
      have huses := hright.grows.uses hleft.uses
      have hframe : ∀ found ∈ [Value.operand right, .operand left],
          Holds program found := by
        simpa using ⟨hright.uses, huses⟩
      obtain ⟨hreduce, hwellFormed, hnew, hgrows⟩ :=
        reduction_of_meaning { draft with program } 16 hright.wellFormed hframe
          (meaning_application huses hright.uses)
      refine ⟨_, _, ⟨?_, ?_, hwellFormed, hnew,
        (hleft.grows.trans hright.grows).trans hgrows,
        hright.symbols.trans hleft.symbols⟩⟩
      · simp [Phrase.elaborate, hleft.elaborate, hright.elaborate]
        rfl
      · rw [Phrase.walk, hleft.walk]
        show andThen (applicand.walk semantics { draft with program := middle })
          _ = _
        rw [hright.walk]
        show andThen (semantics.reduce { draft with program } 16 _) _ = _
        rw [hreduce]
        rfl

/-! ### Statements -/

/-- The walk over a statement from a draft comes to a program. -/
structure StatementElaborated (draft : Draft) (statement : Statement)
    (before : Value) (program : Program) : Prop where
  elaborate : statement.elaborate draft.program = some program
  walk : statement.walk semantics before draft
    = ({ draft with program }, .ok before)
  wellFormed : program.WellFormed
  names : ∀ name ∈ statement.declared?.toList ++ draft.program.symbols.names,
    name ∈ program.symbols.names

/-- **The walk over a statement elaborates it.** -/
theorem Statement.exists_elaborated {statement : Statement} {draft : Draft}
    (hprogram : draft.program.WellFormed) (hworded : Worded statement.tokens)
    (hscoped : ∀ token ∈ statement.value.identifiers,
      ∃ name ∈ token.text, name ∈ draft.program.symbols.names)
    (before : Value) :
    ∃ program, StatementElaborated draft statement before program := by
  obtain ⟨program, value, h⟩ := Phrase.exists_elaborated hprogram
    (hworded.mono fun token hmem => by simp [Statement.tokens, hmem]) hscoped
  cases statement with
  | declaration letWord name equals phrase =>
      change Elaborated draft phrase program value at h
      obtain ⟨text, htext⟩ : ∃ text, name.1.text = some text :=
        hworded.exists_text (by simp [Statement.tokens, Statement.lead])
          (Or.inl name.2)
      obtain ⟨hreduce, hwellFormed, _, _⟩ :=
        reduction_of_meaning { draft with program } 6 h.wellFormed
          (by simpa using h.uses) (meaning_declaration h.uses text
            (tokenValue letWord.1) (tokenValue equals.1))
      refine ⟨_, ⟨?_, ?_, hwellFormed, ?_⟩⟩
      · simp [Statement.elaborate, h.elaborate, htext]
        rfl
      · rw [Statement.walk]
        show andThen (phrase.walk semantics draft) _ = _
        rw [h.walk]
        show andThen (semantics.reduce { draft with program } 6
          [.operand value, tokenValue equals.1, tokenValue name.1,
            tokenValue letWord.1]) _ = _
        rw [tokenValue_of_text htext, hreduce]
        rfl
      · intro other hother
        apply mem_names_insert value
        simpa [Statement.declared?, htext, h.symbols, eq_comm] using hother
  | evaluatedDeclaration letWord name equals evalWord phrase =>
      change Elaborated draft phrase program value at h
      obtain ⟨text, htext⟩ : ∃ text, name.1.text = some text :=
        hworded.exists_text (by simp [Statement.tokens, Statement.lead])
          (Or.inl name.2)
      obtain ⟨heval, hevaluated, huses, _⟩ :=
        reduction_of_meaning { draft with program } 8 h.wellFormed
          (by simpa using h.uses)
          (meaning_evaluation h.uses (tokenValue evalWord.1))
      change (program.emit (.eval value)).Uses (.result program.code.size)
        at huses
      obtain ⟨hreduce, hwellFormed, _, _⟩ :=
        reduction_of_meaning
          { draft with program := program.emit (.eval value) } 7 hevaluated
          (by simpa using huses) (meaning_declaration huses text
            (tokenValue letWord.1) (tokenValue equals.1))
      refine ⟨_, ⟨?_, ?_, hwellFormed, ?_⟩⟩
      · simp [Statement.elaborate, h.elaborate, htext]
        rfl
      · rw [Statement.walk]
        show andThen (phrase.walk semantics draft) _ = _
        rw [h.walk]
        show andThen (semantics.reduce { draft with program } 8
          [.operand value, tokenValue evalWord.1]) _ = _
        rw [heval]
        show andThen (semantics.reduce
          { draft with program := program.emit (.eval value) } 7
          [.operand (.result program.code.size), tokenValue equals.1,
            tokenValue name.1, tokenValue letWord.1]) _ = _
        rw [tokenValue_of_text htext, hreduce]
        rfl
      · intro other hother
        apply mem_names_insert (.result program.code.size)
        show other = text ∨ other ∈ program.symbols.names
        simpa [Statement.declared?, htext, h.symbols, eq_comm] using hother
  | evaluation evalWord phrase =>
      change Elaborated draft phrase program value at h
      obtain ⟨hreduce, hwellFormed, _, _⟩ :=
        reduction_of_meaning { draft with program } 8 h.wellFormed
          (by simpa using h.uses)
          (meaning_evaluation h.uses (tokenValue evalWord.1))
      refine ⟨_, ⟨?_, ?_, hwellFormed, ?_⟩⟩
      · simp [Statement.elaborate, h.elaborate]
        rfl
      · rw [Statement.walk]
        show andThen (phrase.walk semantics draft) _ = _
        rw [h.walk]
        show andThen (semantics.reduce { draft with program } 8
          [.operand value, tokenValue evalWord.1]) _ = _
        rw [hreduce]
        rfl
      · intro other hother
        show other ∈ program.symbols.names
        rw [h.symbols]
        exact hother
  | print phrase =>
      change Elaborated draft phrase program value at h
      obtain ⟨hreduce, hwellFormed, _, _⟩ :=
        reduction_of_meaning { draft with program } 9 h.wellFormed
          (by simpa using h.uses) (meaning_print h.uses)
      refine ⟨_, ⟨?_, ?_, hwellFormed, ?_⟩⟩
      · simp [Statement.elaborate, h.elaborate]
        rfl
      · rw [Statement.walk, h.walk]
        show andThen (semantics.reduce { draft with program } 9
          [.operand value]) _ = _
        rw [hreduce]
        rfl
      · intro other hother
        show other ∈ program.symbols.names
        rw [h.symbols]
        exact hother

/-- The walk over statements elaborates them, if they are scoped among names
that are bound. -/
theorem exists_elaborateStatements {statements : List Statement}
    {names : List String} {draft : Draft}
    (hprogram : draft.program.WellFormed)
    (hworded : Worded (statementTokens statements))
    (hscoped : Scoped names statements)
    (hnames : ∀ name ∈ names, name ∈ draft.program.symbols.names)
    (before : Value) :
    ∃ program, elaborateStatements statements draft.program = some program ∧
      walkStatements semantics statements draft before
        = ({ draft with program }, .ok before) := by
  induction statements generalizing names draft with
  | nil => exact ⟨draft.program, rfl, rfl⟩
  | cons statement rest ih =>
      obtain ⟨huses, hlater⟩ := hscoped
      rw [statementTokens_cons] at hworded
      have hbound : ∀ token ∈ statement.value.identifiers,
          ∃ name ∈ token.text, name ∈ draft.program.symbols.names := by
        intro token hmem
        obtain ⟨name, htext, hname⟩ := huses token hmem
        exact ⟨name, htext, hnames name hname⟩
      obtain ⟨middle, h⟩ := Statement.exists_elaborated hprogram
        (hworded.mono (List.subset_append_left _ _)) hbound before
      have hmiddle : ∀ name ∈ statement.declared?.toList ++ names,
          name ∈ middle.symbols.names := by
        intro name hname
        apply h.names
        rcases List.mem_append.mp hname with hdeclared | hold
        · exact List.mem_append_left _ hdeclared
        · exact List.mem_append_right _ (hnames name hold)
      have hnext : ({ draft with program := middle } : Draft).program.WellFormed :=
        h.wellFormed
      obtain ⟨program, helaborate, hwalk⟩ := ih hnext
        (hworded.mono (List.subset_append_right _ _)) hlater hmiddle
      refine ⟨program, ?_, ?_⟩
      · rw [elaborateStatements, h.elaborate]
        exact helaborate
      · rw [walkStatements, h.walk]
        exact hwalk

/-! ### Sources -/

/-- A scanned identifier or name has its text. -/
theorem isSome_text_next (cursor : Cursor)
    (h : cursor.next.1.kind = .identifier ∨ cursor.next.1.kind = .name) :
    cursor.next.1.text.isSome := by
  have htext : ∀ place kind text, (Cursor.tokenAt place kind text).kind.carriesText
      → (Cursor.tokenAt place kind text).text.isSome := by
    intro place kind text hcarries
    have hkind : kind.carriesText := hcarries
    simp [Cursor.tokenAt, hkind]
  have hcarries : cursor.next.1.kind.carriesText := by
    rcases h with h | h <;> rw [h] <;> rfl
  unfold Cursor.next at hcarries ⊢
  split at hcarries
  · exact htext _ _ _ hcarries
  · exact htext _ _ _ hcarries

/-- Every word of a text has its text. -/
theorem worded_tokens (cursor : Cursor) : Worded cursor.tokens := by
  fun_induction Cursor.tokens cursor with
  | case1 cursor hend =>
      intro token hmem
      rw [List.mem_singleton.mp hmem]
      exact isSome_text_next cursor
  | case2 cursor hend ih =>
      intro token hmem
      rcases List.mem_cons.mp hmem with rfl | hlater
      · exact isSome_text_next cursor
      · exact ih token hlater

/-- The last token of a text is the end of input. -/
theorem kind_getLast?_tokens (cursor : Cursor) :
    cursor.tokens.getLast?.map Token.kind = some .endOfInput := by
  fun_induction Cursor.tokens cursor with
  | case1 cursor hend => simpa using hend
  | case2 cursor hend ih =>
      rw [List.getLast?_cons]
      obtain ⟨last, hlast, hkind⟩ := Option.map_eq_some_iff.mp ih
      simp [hlast, hkind]

/-- The tokens of a text close with an end of input. -/
theorem kind_closing_ofText (text : String) :
    (Source.ofText text).closing.kind = .endOfInput := by
  obtain ⟨last, hlast, hkind⟩ := Option.map_eq_some_iff.mp
    (kind_getLast?_tokens (Cursor.ofText text))
  have hback : (tokensOf text).toArray.back? = some last := by
    rw [List.back?_toArray]
    exact hlast
  simp only [Source.ofText, hback]
  exact hkind

/-- The source is a text, or a list of tokens in which no word lacks its
text. -/
def Readable (source : Source) : Prop :=
  (∃ text, source = .ofText text) ∨
    ∃ tokens, source = .ofTokens tokens ∧ Worded tokens

/-- A readable source closes with an end of input. -/
theorem Readable.closing {source : Source} (h : Readable source) :
    source.closing.kind = .endOfInput := by
  rcases h with ⟨text, rfl⟩ | ⟨tokens, rfl, _⟩
  · exact kind_closing_ofText text
  · rfl

/-- A readable source has its words spelt out. -/
theorem Readable.worded {source : Source} (h : Readable source) :
    Worded source.tokens.toList := by
  rcases h with ⟨text, rfl⟩ | ⟨tokens, rfl, hworded⟩
  · exact worded_tokens (Cursor.ofText text)
  · exact hworded

/-- **Reading builds what recursive descent elaborates.**  A sentence in which
every identifier is bound when its statement begins is accepted on top of any
well-formed program, and the program it leaves is the elaborated one, node by
node, instruction by instruction and binding by binding. -/
theorem reading_eq_elaboration (program : Program)
    (hprogram : program.WellFormed) (source : Source)
    (hsource : Readable source)
    (hsentence : (sentenceOf source.tokens.toList).map Token.kind
      ∈ grammar.language)
    (hscoped : ∀ statements,
      program? (sentenceOf source.tokens.toList) = some statements →
      Scoped program.symbols.names statements) :
    (Reading.resume source program).attempt.outcome = some .accepted ∧
      elaborate? (sentenceOf source.tokens.toList) program
        = some (Reading.resume source program).attempt.reading.program := by
  obtain ⟨hcarries, hend⟩ := carries_source hsource.closing
  rw [← Nat.zero_add (List.length _)] at hend
  have hworded : Worded (sentenceOf source.tokens.toList) :=
    hsource.worded.mono (List.takeWhile_subset _)
  have hlength : (sentenceOf source.tokens.toList).length ≤ source.length :=
    length_sentenceOf_le source.tokens.toList
  obtain ⟨statements, hgreedy, htokens⟩ := exists_greedy_reading hsentence
  rw [← htokens] at hcarries hend hworded hscoped hlength ⊢
  have hread := program?_statementTokens hgreedy
  have hdraft : ({ program } : Draft).program.WellFormed := hprogram
  obtain ⟨final, helaborate, hwalk⟩ := exists_elaborateStatements hdraft
    hworded (hscoped statements hread) (fun _ hname => hname) .empty
  -- the start of input and the empty program cost nothing
  have hwhole : walkProgram semantics statements { program }
      = ({ program := final }, .ok .empty) := hwalk
  obtain ⟨config, hreach, houtcome⟩ :=
    run_of_greedy semantics { program } hgreedy hcarries rfl hend
  rw [hwhole] at houtcome
  have hover : config.isHalted := by rw [Config.isHalted, houtcome.1]
  have hhalted := isHalted_run semantics source.tape { program } hend hlength
    (Nat.le_refl _)
  have hrun : (Config.initial semantics (Reading.resume source program).draft
      (Reading.resume source program).taken).run tables semantics
      (Reading.resume source program).source.tape
      (Reading.fuel (Reading.resume source program).source.length) = config :=
    run_eq_of_reaches hreach hover hhalted
  rw [attempt_eq hrun, houtcome.2]
  refine ⟨by rw [Config.halt?, houtcome.1], ?_⟩
  rw [elaborate?, hread]
  exact helaborate

/-- The statements of `let J = eval I \x. x I` and `eval J`. -/
def nestedStatements : List Statement :=
  [.evaluatedDeclaration ⟨.bare .letWord none, rfl⟩
      ⟨.bare .identifier (some "J"), rfl⟩ ⟨.bare .equals none, rfl⟩
      ⟨.bare .evalWord none, rfl⟩
      (.application (.identifier ⟨.bare .identifier (some "I"), rfl⟩)
        (.function ⟨.bare .lambda none, rfl⟩ ⟨.bare .name (some "x"), rfl⟩
          ⟨.bare .dot none, rfl⟩
          (.application (.name ⟨.bare .name (some "x"), rfl⟩)
            (.identifier ⟨.bare .identifier (some "I"), rfl⟩)))),
    .evaluation ⟨.bare .evalWord none, rfl⟩
      (.identifier ⟨.bare .identifier (some "J"), rfl⟩)]

/-- Their tokens as a source. -/
def nestedSource : Source :=
  .ofTokens (statementTokens nestedStatements)

/-- A function is declared and evaluated on top of another program, and is read
as it is elaborated. -/
theorem nested_reading_eq_elaboration :
    identityProgram.WellFormed ∧ Readable nestedSource ∧
      (sentenceOf nestedSource.tokens.toList).map Token.kind
        ∈ grammar.language ∧
      (∀ statements,
        program? (sentenceOf nestedSource.tokens.toList) = some statements →
        Scoped identityProgram.symbols.names statements) ∧
      (Reading.resume nestedSource identityProgram).attempt.outcome
        = some .accepted ∧
      elaborate? (sentenceOf nestedSource.tokens.toList) identityProgram
        = some (Reading.resume nestedSource
          identityProgram).attempt.reading.program := by
  have hprogram : identityProgram.WellFormed := by decide
  have hsource : Readable nestedSource := Or.inr ⟨_, rfl, by decide⟩
  have hsame : sentenceOf nestedSource.tokens.toList
      = statementTokens nestedStatements := by
    decide
  have hsentence : (sentenceOf nestedSource.tokens.toList).map Token.kind
      ∈ grammar.language := by
    rw [hsame]
    exact mem_language_of_statements nestedStatements
  have hscoped : ∀ statements,
      program? (sentenceOf nestedSource.tokens.toList) = some statements →
      Scoped identityProgram.symbols.names statements := by
    intro statements h
    have hread : program? (statementTokens nestedStatements)
        = some nestedStatements := rfl
    rw [hsame, hread] at h
    obtain rfl := Option.some.inj h
    simp [nestedStatements, Scoped, Statement.value, Phrase.identifiers,
      Statement.declared?, Token.bare, identityProgram, Symbols.names]
  exact ⟨hprogram, hsource, hsentence, hscoped, reading_eq_elaboration
    identityProgram hprogram nestedSource hsource hsentence hscoped⟩

end Grammar

end LambdaStack
