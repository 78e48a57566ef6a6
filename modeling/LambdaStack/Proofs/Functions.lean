import LambdaStack.Proofs.Undefined

/-!
# The functions of a text and the instructions that make them

An accepted text is scoped and has been elaborated (`exists_elaboration`).  So
its program can be compared with its statements, phrase by phrase.

A phrase stands for a **variable** if it is a name, in brackets or not, or a
global name that stands for one where the phrase is written; a declaration
hands on what its expression stands for.

    let X = (x)   let Y = X   let F = \x.Y      Y stands for the variable x
    let X = \y.y  let F = \x.X                  X stands for no variable

`Phrase.functions` lists the functions of a phrase in the order in which they
are complete, from left to right and from the inside out.  Main statement:
`made_of_accepted`, by which the `func` instructions of an accepted text make
these functions, one by one in that order: the bound variable of the
instruction is named as the parameter, and its body is the variable that the
body of the function stands for, if it stands for one.
-/

namespace LambdaStack

/-- The name of a variable. -/
def Node.varName? : Node → Option String
  | var name => some name
  | _ => none

/-- The name of the variable that an operand is, if it is one. -/
def Graph.varName? (graph : Graph) (operand : Operand) : Option String :=
  (graph.resolve? operand).bind Node.varName?

theorem Graph.varName?_of_node? {graph : Graph} {index : Nat} {node : Node}
    (h : graph.node? index = some node) :
    graph.varName? (.node index) = node.varName? := by
  rw [varName?, resolve?, h, Option.bind_some]

namespace Program

/-- The instructions that make functions, in order. -/
def makers (program : Program) : List Instruction :=
  program.code.toList.filter fun instruction => instruction.operation = .func

/-- An operand that is there stays the variable that it is. -/
theorem Grows.varName? {before after : Program} (h : Grows before after)
    {operand : Operand} (hhas : before.Has operand) :
    after.graph.varName? operand = before.graph.varName? operand := by
  rw [Graph.varName?, h.resolve? hhas, Graph.varName?]

theorem grows_emit (program : Program) (instruction : Instruction) :
    Grows program (program.emit instruction) :=
  Grammar.Contribution.grows { instruction := some instruction } program

theorem grows_declare (program : Program) (name : String) (value : Operand) :
    Grows program (program.declare name value) :=
  Grammar.Contribution.grows
    { binding := some (name, value)
      nodes := [.identifier name]
      instruction := some (.assign value (.node program.graph.size)) } program

/-- A function that is made comes last. -/
theorem makers_emit_func (program : Program) (bound body : Operand) :
    (program.emit (.func bound body)).makers
      = program.makers ++ [.func bound body] := by
  rw [makers, emit, Array.toList_push, List.filter_append, makers]
  rfl

theorem makers_emit_of_ne (program : Program) {instruction : Instruction}
    (h : instruction.operation ≠ .func) :
    (program.emit instruction).makers = program.makers := by
  rw [makers, emit, Array.toList_push, List.filter_append,
    List.filter_cons_of_neg (by simpa using h), List.filter_nil,
    List.append_nil, makers]

theorem makers_declare (program : Program) (name : String) (value : Operand) :
    (program.declare name value).makers = program.makers :=
  program.makers_emit_of_ne (show Operation.assign ≠ .func from nofun)

end Program

namespace Grammar

open Automaton

/-! ### Accepted texts -/

/-- **An accepted source has been elaborated.**  Its sentence can be read as
statements in which every identifier is bound when its statement begins, and
the program is what they elaborate to. -/
theorem exists_elaboration {source : Source} (hsource : Readable source)
    {program : Program} (hprogram : program.WellFormed)
    (haccepted : (Reading.resume source program).attempt.outcome
      = some .accepted) :
    ∃ statements, program? (sentenceOf source.tokens.toList)
        = some statements ∧
      statementTokens statements = sentenceOf source.tokens.toList ∧
      Scoped program.symbols.names statements ∧
      elaborateStatements statements program
        = some (Reading.resume source program).attempt.reading.program := by
  obtain ⟨hcarries, hend⟩ := carries_source hsource.closing
  rw [← Nat.zero_add (List.length _)] at hend
  generalize hrun : (Config.initial semantics { program } 0).run tables
    semantics source.tape (Reading.fuel source.length) = final
  have hattempt : (Reading.resume source program).attempt = _ :=
    attempt_eq hrun
  rw [hattempt] at haccepted ⊢
  have hphase := phase_of_halt? haccepted
  -- what an accepted run has shifted is the sentence on the tape
  obtain ⟨symbols, htracked, hrecorded⟩ := exists_tracked_run
    (Recorded source.tape 0) (fun _ h hmove => hmove.recorded h)
    (tracked_initial semantics { program } 0)
    (recorded_initial semantics _ { program } 0) (Reading.fuel source.length)
  rw [hrun] at htracked hrecorded
  obtain ⟨found, last, hshifted, hlast, hfound, _⟩ :=
    hrecorded.exists_sentence htracked.path hphase
  have hsame := hrecorded.sentence_eq hshifted hlast hfound hcarries hend
  rw [hsame] at hfound
  obtain ⟨statements, hgreedy, htokens⟩ := exists_greedy_reading hfound
  rw [← htokens] at hcarries hend ⊢
  have hdraft : ({ program } : Draft).program.WellFormed := hprogram
  obtain ⟨other, hreach, houtcome⟩ :=
    outcome_cases hsource.wordedTape hdraft hgreedy hcarries hend
  have hover : other.isHalted := by
    rcases houtcome with ⟨_, hother, _⟩ | ⟨_, _, _, hother, _⟩ <;>
      rw [Config.isHalted, hother]
  have hhalted : final.isHalted := by rw [Config.isHalted, hphase]
  rw [← hrun] at hhalted
  obtain rfl : final = other :=
    hrun.symm.trans (run_eq_of_reaches hreach hover hhalted)
  rcases houtcome with ⟨hscoped, _, helaborate⟩ | ⟨_, _, _, hfailed, _⟩
  · exact ⟨statements, program?_statementTokens hgreedy, rfl, hscoped,
      helaborate⟩
  · rw [hphase] at hfailed
    cases hfailed

/-! ### Functions and variables -/

/-- What the global names stand for: a variable, or nothing of the kind.  The
first entry of a name counts. -/
abbrev VariableScope := List (String × Option String)

/-- The variable that a phrase stands for, if it stands for one. -/
def Phrase.varName? (scope : VariableScope) : Phrase → Option String
  | identifier word => word.1.text.bind fun name => (scope.lookup name).join
  | name word => word.1.text
  | group _ inner _ => inner.varName? scope
  | function _ _ _ _ | application _ _ => none

/-- A function of a text, and what the global names stand for there. -/
structure FunctionText where
  scope : VariableScope
  parameter : Word .name
  body : Phrase

/-- The functions of a phrase, in the order in which they are complete. -/
def Phrase.functions (scope : VariableScope) : Phrase → List FunctionText
  | identifier _ | name _ => []
  | group _ inner _ => inner.functions scope
  | function _ parameter _ body =>
    body.functions scope ++ [⟨scope, parameter, body⟩]
  | application applied applicand =>
    applied.functions scope ++ applicand.functions scope

/-- What the global names stand for after a statement.  The result of an
evaluation is no variable. -/
def Statement.scopeAfter (scope : VariableScope) : Statement → VariableScope
  | declaration _ name _ value =>
    (name.1.text.map fun text => (text, value.varName? scope)).toList ++ scope
  | evaluatedDeclaration _ name _ _ _ =>
    (name.1.text.map fun text => (text, none)).toList ++ scope
  | evaluation _ _ | print _ => scope

/-- The functions of a list of statements. -/
def functionsOf : VariableScope → List Statement → List FunctionText
  | _, [] => []
  | scope, statement :: rest =>
    statement.value.functions scope
      ++ functionsOf (statement.scopeAfter scope) rest

/-! ### Instructions for functions -/

/-- The instruction makes the function: its bound variable is named as the
parameter, and its body is the variable that the body stands for. -/
def Makes (graph : Graph) (function : FunctionText)
    (instruction : Instruction) : Prop :=
  ∃ bound body, instruction = .func bound body ∧
    (∃ name, function.parameter.1.text = some name ∧
      graph.resolve? bound = some (.var name)) ∧
    graph.varName? body = function.body.varName? function.scope

/-- The functions are those that the program makes. -/
def Made (functions : List FunctionText) (program : Program) : Prop :=
  List.Forall₂ (Makes program.graph) functions program.makers

/-- Every bound name stands for the variable that it is bound to. -/
def ScopeFits (scope : VariableScope) (program : Program) : Prop :=
  ∀ name value, program.symbols.get? name = some value →
    scope.lookup name = some (program.graph.varName? value)

/-- Names go on standing for what they are bound to. -/
theorem ScopeFits.grow {scope : VariableScope} {before after : Program}
    (h : ScopeFits scope before) (hbefore : before.WellFormed)
    (hgrows : before.Grows after) (hsymbols : after.symbols = before.symbols) :
    ScopeFits scope after := by
  intro name value hget
  rw [hsymbols] at hget
  have huses := hbefore.bindings _ (Symbols.mem_entries_of_get? hget)
  rw [h name value hget, hgrows.varName? huses.1]

/-- A name that is declared stands for what it was bound to. -/
theorem ScopeFits.declare {scope : VariableScope} {program : Program}
    (h : ScopeFits scope program) (hprogram : program.WellFormed)
    {value : Operand} (hvalue : program.Has value) (name : String) :
    ScopeFits ((name, program.graph.varName? value) :: scope)
      (program.declare name value) := by
  have hgrows := program.grows_declare name value
  intro other found hget
  by_cases hname : other = name
  · rw [hname] at hget ⊢
    have hfound : some value = some found :=
      (Symbols.get?_insert_self program.symbols name value).symm.trans hget
    obtain rfl := Option.some.inj hfound
    rw [List.lookup_cons_self, hgrows.varName? hvalue]
  · have hold : program.symbols.get? other = some found :=
      (Symbols.get?_insert_of_ne program.symbols value hname).symm.trans hget
    have huses := hprogram.bindings _ (Symbols.mem_entries_of_get? hold)
    rw [List.lookup_cons, beq_false_of_ne hname, h other found hold,
      hgrows.varName? huses.1]

/-- An instruction whose operands are there goes on making the function. -/
theorem Makes.grow {function : FunctionText} {instruction : Instruction}
    {before after : Program} (h : Makes before.graph function instruction)
    (hgrows : before.Grows after)
    (hhas : ∀ operand ∈ instruction.operands, before.Has operand) :
    Makes after.graph function instruction := by
  obtain ⟨bound, body, rfl, ⟨name, hname, hbound⟩, hbody⟩ := h
  have hfirst := hhas bound List.mem_cons_self
  have hsecond := hhas body (List.mem_cons_of_mem _ List.mem_cons_self)
  refine ⟨bound, body, rfl, ⟨name, hname, ?_⟩, ?_⟩
  · rw [hgrows.resolve? hfirst, hbound]
  · rw [hgrows.varName? hsecond, hbody]

/-- A relation between the elements of two lists may be exchanged for one that
follows for the elements of the second. -/
theorem forall₂_imp_of_mem {α β : Type} {first second : α → β → Prop}
    {left : List α} {right : List β} (h : List.Forall₂ first left right)
    (himp : ∀ b ∈ right, ∀ a, first a b → second a b) :
    List.Forall₂ second left right := by
  induction h with
  | nil => exact List.Forall₂.nil
  | @cons a b left right hab _ ih =>
      obtain ⟨hhead, htail⟩ := List.forall_mem_cons.mp himp
      exact List.Forall₂.cons (hhead a hab) (ih htail)

/-- **What has been made stays made**, if what is new makes the new
functions. -/
theorem Made.grow {functions added : List FunctionText}
    {before after : Program} {new : List Instruction}
    (h : Made functions before) (hbefore : before.WellFormed)
    (hgrows : before.Grows after)
    (hmakers : after.makers = before.makers ++ new)
    (hnew : List.Forall₂ (Makes after.graph) added new) :
    Made (functions ++ added) after := by
  rw [Made, hmakers]
  refine List.rel_append ?_ hnew
  apply forall₂_imp_of_mem h
  intro instruction hmem function hmakes
  exact hmakes.grow hgrows
    (hbefore.has_of_mem (List.mem_of_mem_filter hmem)).2

/-- Making nothing new. -/
theorem Made.of_makers_eq {functions : List FunctionText}
    {before after : Program} (h : Made functions before)
    (hbefore : before.WellFormed) (hgrows : before.Grows after)
    (hmakers : after.makers = before.makers) : Made functions after := by
  have hgrown : Made (functions ++ []) after :=
    h.grow hbefore hgrows (by rw [hmakers, List.append_nil]) List.Forall₂.nil
  rwa [List.append_nil] at hgrown

/-- What the elaboration of a phrase leaves. -/
structure Leaves (before after : Program) (value : Operand) : Prop where
  wellFormed : after.WellFormed
  uses : after.Uses value
  grows : before.Grows after

/-- A production that means something leaves its value. -/
theorem leaves_of_meaning {before : Program} (hbefore : before.WellFormed)
    {production : Production} {frame : List Value}
    (hframe : ∀ value ∈ frame, Holds before value)
    {contribution : Contribution}
    (h : production.meaning before frame = .ok contribution)
    {value : Operand} (hvalue : contribution.value = .operand value) :
    Leaves before (contribution.addTo before) value := by
  have hfits := fits_meaning hbefore hframe h
  refine ⟨Contribution.wellFormed_addTo hbefore hfits, ?_,
    contribution.grows before⟩
  rw [← holds_operand, ← hvalue]
  exact hfits.value

/-- Elaborating a phrase leaves a well-formed program and a value in it. -/
theorem Phrase.leaves {phrase : Phrase} {before after : Program}
    {value : Operand} (hbefore : before.WellFormed)
    (h : phrase.elaborate before = some (after, value)) :
    Leaves before after value := by
  induction phrase generalizing before after value with
  | identifier word =>
      obtain ⟨name, _, h⟩ := Option.bind_eq_some_iff.mp h
      obtain ⟨found, hfound, h⟩ := Option.bind_eq_some_iff.mp h
      cases h
      exact leaves_of_meaning hbefore (by simp) (meaning_identifier hfound) rfl
  | name word =>
      obtain ⟨name, _, h⟩ := Option.bind_eq_some_iff.mp h
      cases h
      have hmeaning : Production.name.meaning before [.text name] = .ok
          { nodes := [.var name]
            value := .operand (.node before.graph.size) } := rfl
      exact leaves_of_meaning hbefore (by simp) hmeaning rfl
  | group bracket inner closing ih => exact ih hbefore h
  | function lambda parameter dot body ih =>
      obtain ⟨⟨middle, inside⟩, hbody, h⟩ := Option.bind_eq_some_iff.mp h
      obtain ⟨name, _, h⟩ := Option.bind_eq_some_iff.mp h
      cases h
      have hinside := ih hbefore hbody
      have hleaves := leaves_of_meaning hinside.wellFormed
        (by simpa using hinside.uses)
        (meaning_function hinside.uses name .empty .empty) rfl
      exact ⟨hleaves.wellFormed, hleaves.uses,
        hinside.grows.trans hleaves.grows⟩
  | application applied applicand ihapplied ihapplicand =>
      obtain ⟨⟨first, left⟩, happlied, h⟩ := Option.bind_eq_some_iff.mp h
      obtain ⟨⟨second, right⟩, happlicand, h⟩ := Option.bind_eq_some_iff.mp h
      cases h
      have hleft := ihapplied hbefore happlied
      have hright := ihapplicand hleft.wellFormed happlicand
      have huses := hright.grows.uses hleft.uses
      have hleaves := leaves_of_meaning hright.wellFormed
        (by simpa using ⟨hright.uses, huses⟩)
        (meaning_application huses hright.uses) rfl
      exact ⟨hleaves.wellFormed, hleaves.uses,
        (hleft.grows.trans hright.grows).trans hleaves.grows⟩

/-- **Elaborating a phrase makes its functions**, and its value is the variable
that it stands for. -/
theorem Phrase.made {phrase : Phrase} {before after : Program}
    {value : Operand} (hbefore : before.WellFormed) {scope : VariableScope}
    (hscope : ScopeFits scope before) {functions : List FunctionText}
    (hmade : Made functions before)
    (h : phrase.elaborate before = some (after, value)) :
    after.graph.varName? value = phrase.varName? scope ∧
      Made (functions ++ phrase.functions scope) after := by
  induction phrase generalizing before functions after value with
  | identifier word =>
      obtain ⟨name, htext, h⟩ := Option.bind_eq_some_iff.mp h
      obtain ⟨found, hfound, h⟩ := Option.bind_eq_some_iff.mp h
      cases h
      refine ⟨?_, ?_⟩
      · rw [Phrase.varName?, htext, Option.bind_some, hscope name _ hfound,
          Option.join_some]
      · rwa [Phrase.functions, List.append_nil]
  | name word =>
      obtain ⟨name, htext, h⟩ := Option.bind_eq_some_iff.mp h
      cases h
      refine ⟨?_, ?_⟩
      · rw [Phrase.varName?, htext]
        exact Graph.varName?_of_node? (before.graph.node?_add_size (.var name))
      · rw [Phrase.functions, List.append_nil]
        exact hmade.of_makers_eq hbefore
          (Contribution.grows { nodes := [.var name] } before) rfl
  | group bracket inner closing ih => exact ih hbefore hscope hmade h
  | function lambda parameter dot body ih =>
      obtain ⟨⟨middle, inside⟩, hbody, h⟩ := Option.bind_eq_some_iff.mp h
      obtain ⟨name, htext, h⟩ := Option.bind_eq_some_iff.mp h
      cases h
      have hinside := body.leaves hbefore hbody
      obtain ⟨hvariable, hmiddle⟩ := ih hbefore hscope hmade hbody
      let added : Contribution :=
        { nodes := [.var name, .lam middle.graph.size inside]
          instruction := some (.func (.node middle.graph.size) inside) }
      have hgrows : middle.Grows (added.addTo middle) := added.grows middle
      refine ⟨Graph.varName?_of_node? (added.node?_addTo middle 1), ?_⟩
      rw [Phrase.functions, ← List.append_assoc]
      apply hmiddle.grow hinside.wellFormed hgrows
        (Program.makers_emit_func _ _ _)
      refine List.Forall₂.cons ⟨_, _, rfl, ⟨name, htext, ?_⟩, ?_⟩ .nil
      · exact added.node?_addTo middle 0
      · exact (hgrows.varName? hinside.uses.1).trans hvariable
  | application applied applicand ihapplied ihapplicand =>
      obtain ⟨⟨first, left⟩, happlied, h⟩ := Option.bind_eq_some_iff.mp h
      obtain ⟨⟨second, right⟩, happlicand, h⟩ := Option.bind_eq_some_iff.mp h
      cases h
      have hleft := applied.leaves hbefore happlied
      have hright := applicand.leaves hleft.wellFormed happlicand
      obtain ⟨_, hfirst⟩ := ihapplied hbefore hscope hmade happlied
      -- the applied part binds nothing, so the names stand for what they did
      have hstill := hscope.grow hbefore hleft.grows
        (Phrase.symbols_elaborate happlied)
      obtain ⟨_, hsecond⟩ := ihapplicand hleft.wellFormed hstill hfirst
        happlicand
      let added : Contribution :=
        { nodes := [.app left right]
          instruction := some (.apply left right) }
      refine ⟨Graph.varName?_of_node? (added.node?_addTo second 0), ?_⟩
      rw [Phrase.functions, ← List.append_assoc]
      exact hsecond.of_makers_eq hright.wellFormed (added.grows second)
        (Program.makers_emit_of_ne _ nofun)

/-- The program with an evaluation at the end, whose result is there. -/
theorem leaves_emit_eval {program : Program} (hprogram : program.WellFormed)
    {value : Operand} (hvalue : program.Uses value) :
    Leaves program (program.emit (.eval value)) (.result program.code.size) :=
  leaves_of_meaning hprogram (by simpa using hvalue)
    (meaning_evaluation hvalue .empty) rfl

theorem wellFormed_declare {program : Program} (hprogram : program.WellFormed)
    {value : Operand} (hvalue : program.Uses value) (name : String) :
    (program.declare name value).WellFormed :=
  Contribution.wellFormed_addTo hprogram
    (fits_meaning hprogram (by simpa using hvalue)
      (meaning_declaration hvalue name .empty .empty))

/-- **Elaborating a statement makes its functions**, and leaves the global names
standing for what they are bound to. -/
theorem Statement.made {statement : Statement} {before after : Program}
    (hbefore : before.WellFormed) {scope : VariableScope}
    (hscope : ScopeFits scope before) {functions : List FunctionText}
    (hmade : Made functions before)
    (h : statement.elaborate before = some after) :
    after.WellFormed ∧ ScopeFits (statement.scopeAfter scope) after ∧
      Made (functions ++ statement.value.functions scope) after := by
  cases statement with
  | declaration letWord word equals phrase =>
      obtain ⟨⟨middle, value⟩, hvalue, h⟩ := Option.bind_eq_some_iff.mp h
      obtain ⟨text, htext, h⟩ := Option.bind_eq_some_iff.mp h
      cases h
      have hleaves := phrase.leaves hbefore hvalue
      have hsymbols : middle.symbols = before.symbols :=
        Phrase.symbols_elaborate hvalue
      obtain ⟨hvarName, hmiddle⟩ := phrase.made hbefore hscope hmade hvalue
      have hstill := hscope.grow hbefore hleaves.grows hsymbols
      refine ⟨wellFormed_declare hleaves.wellFormed hleaves.uses text, ?_, ?_⟩
      · rw [Statement.scopeAfter, htext, ← hvarName]
        exact hstill.declare hleaves.wellFormed hleaves.uses.1 text
      · exact hmiddle.of_makers_eq hleaves.wellFormed
          (middle.grows_declare text value) (middle.makers_declare text value)
  | evaluatedDeclaration letWord word equals evalWord phrase =>
      obtain ⟨⟨middle, value⟩, hvalue, h⟩ := Option.bind_eq_some_iff.mp h
      obtain ⟨text, htext, h⟩ := Option.bind_eq_some_iff.mp h
      cases h
      have hleaves := phrase.leaves hbefore hvalue
      have hsymbols : middle.symbols = before.symbols :=
        Phrase.symbols_elaborate hvalue
      have heval := leaves_emit_eval hleaves.wellFormed hleaves.uses
      obtain ⟨_, hmiddle⟩ := phrase.made hbefore hscope hmade hvalue
      have hstill := hscope.grow hbefore (hleaves.grows.trans heval.grows)
        hsymbols
      have hnothing := hmiddle.of_makers_eq hleaves.wellFormed heval.grows
        (middle.makers_emit_of_ne nofun)
      refine ⟨wellFormed_declare heval.wellFormed heval.uses text, ?_, ?_⟩
      · rw [Statement.scopeAfter, htext]
        exact hstill.declare heval.wellFormed heval.uses.1 text
      · exact hnothing.of_makers_eq heval.wellFormed
          (Program.grows_declare _ text _) (Program.makers_declare _ text _)
  | evaluation evalWord phrase =>
      obtain ⟨⟨middle, value⟩, hvalue, h⟩ := Option.bind_eq_some_iff.mp h
      cases h
      have hleaves := phrase.leaves hbefore hvalue
      have hsymbols : middle.symbols = before.symbols :=
        Phrase.symbols_elaborate hvalue
      have heval := leaves_emit_eval hleaves.wellFormed hleaves.uses
      obtain ⟨_, hmiddle⟩ := phrase.made hbefore hscope hmade hvalue
      refine ⟨heval.wellFormed, ?_, ?_⟩
      · exact hscope.grow hbefore (hleaves.grows.trans heval.grows)
          hsymbols
      · exact hmiddle.of_makers_eq hleaves.wellFormed heval.grows
          (middle.makers_emit_of_ne nofun)
  | print phrase =>
      obtain ⟨⟨middle, value⟩, hvalue, h⟩ := Option.bind_eq_some_iff.mp h
      cases h
      have hleaves := phrase.leaves hbefore hvalue
      have hsymbols : middle.symbols = before.symbols :=
        Phrase.symbols_elaborate hvalue
      obtain ⟨_, hmiddle⟩ := phrase.made hbefore hscope hmade hvalue
      have hgrows := middle.grows_emit (.print value)
      refine ⟨?_, ?_, ?_⟩
      · exact Contribution.wellFormed_addTo hleaves.wellFormed
          (fits_meaning hleaves.wellFormed (by simpa using hleaves.uses)
            (meaning_print hleaves.uses))
      · exact hscope.grow hbefore (hleaves.grows.trans hgrows)
          hsymbols
      · exact hmiddle.of_makers_eq hleaves.wellFormed hgrows
          (middle.makers_emit_of_ne nofun)

/-- Elaborating statements makes their functions. -/
theorem made_elaborateStatements {statements : List Statement}
    {before after : Program} (hbefore : before.WellFormed)
    {scope : VariableScope} (hscope : ScopeFits scope before)
    {functions : List FunctionText} (hmade : Made functions before)
    (h : elaborateStatements statements before = some after) :
    Made (functions ++ functionsOf scope statements) after := by
  induction statements generalizing before scope functions with
  | nil =>
      cases h
      rwa [functionsOf, List.append_nil]
  | cons statement rest ih =>
      obtain ⟨middle, hstatement, hrest⟩ := Option.bind_eq_some_iff.mp h
      obtain ⟨hmiddle, hstill, hfirst⟩ :=
        statement.made hbefore hscope hmade hstatement
      rw [functionsOf, ← List.append_assoc]
      exact ih hmiddle hstill hfirst hrest

/-- **The `func` instructions of an accepted text make its functions**, one by
one, in the order in which they are complete. -/
theorem made_of_accepted {text : String}
    (haccepted : (readText text .empty).outcome = some .accepted) :
    ∃ statements, program? (sentenceOf (tokensOf text)) = some statements ∧
      statementTokens statements = sentenceOf (tokensOf text) ∧
      Made (functionsOf [] statements)
        (readText text .empty).reading.program := by
  have hsource : Readable (.ofText text) := Or.inl ⟨text, rfl⟩
  obtain ⟨statements, hread, htokens, _, helaborate⟩ :=
    exists_elaboration hsource Program.wellFormed_empty haccepted
  refine ⟨statements, hread, htokens, ?_⟩
  have hscope : ScopeFits [] .empty := by
    intro name value hget
    cases hget
  have hmade : Made [] .empty := List.Forall₂.nil
  exact made_elaborateStatements Program.wellFormed_empty hscope hmade
    helaborate

end Grammar

end LambdaStack
