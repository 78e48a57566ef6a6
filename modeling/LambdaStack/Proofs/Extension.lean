import LambdaStack.Proofs.Growth
import LambdaStack.Proofs.InPlace

/-!
# Reading adds to a program, and the table keeps pace

A run only ever puts something behind a program.  What it puts there tells
what became of the table:

    nodes           those of the program come first, in their old order
    instructions    so do these, and the lines they are written as
    names           no name that was declared loses its place
    bindings        the table is the old one with the new assignments
                    replayed on top of it, in order

The last line does not ask that the old table has anything to do with the old
instructions: it is about what was added.  It holds after every step because a
declaration binds a name, adds a node for it and emits its assignment in one
contribution, which is worked out before any of the three is done.  A refused
production has no contribution, and changes nothing; nor does it when its edits
are made in place, one after the other (`Editing.reduceInPlace`).

Later nodes do not matter to an assignment whose target is there, so the
replays of two stretches of a run follow each other (`Extends.trans`).

Main statement: `reading_extends_program`.
-/

namespace LambdaStack

/-! ### Nodes and names -/

/-- Added nodes come last. -/
theorem Graph.toList_foldl_add (graph : Graph) (nodes : List Node) :
    (nodes.foldl add graph).nodes.toList = graph.nodes.toList ++ nodes := by
  induction nodes generalizing graph with
  | nil => simp
  | cons node nodes ih =>
      rw [List.foldl_cons, ih]
      simp [add]

namespace Symbols

/-- Binding a name takes no place from another. -/
theorem names_prefix_insert (symbols : Symbols) (name : String)
    (value : Operand) : symbols.names <+: (symbols.insert name value).names := by
  rw [names_insert]
  split
  · exact List.prefix_refl _
  · exact List.prefix_append _ _

/-- Binding names takes no place from a name that is listed. -/
theorem names_prefix_insertAll (symbols : Symbols)
    (bindings : List (String × Operand)) :
    symbols.names <+: (symbols.insertAll bindings).names := by
  induction bindings generalizing symbols with
  | nil => exact List.prefix_refl _
  | cons binding bindings ih =>
      exact (symbols.names_prefix_insert binding.1 binding.2).trans (ih _)

end Symbols

/-! ### Assignments -/

namespace Instruction

/-- If the instruction is an assignment, its target is an identifier node of
the graph. -/
def HasTarget (graph : Graph) (instruction : Instruction) : Prop :=
  instruction.operation = .assign →
    ∃ index name, instruction.second = some (.node index) ∧
      graph.node? index = some (.identifier name)

/-- Only assignments bind. -/
theorem binding?_of_ne {instruction : Instruction}
    (h : instruction.operation ≠ .assign) (graph : Graph) :
    instruction.binding? graph = none := by
  obtain ⟨operation, first, second⟩ := instruction
  cases operation with
  | assign => exact absurd rfl h
  | func | apply | eval | print => rfl

/-- What binds something has a target whose name it binds. -/
theorem hasTarget_of_binding? {graph : Graph} {instruction : Instruction}
    {binding : String × Operand}
    (h : instruction.binding? graph = some binding) :
    instruction.HasTarget graph := by
  intro hassign
  obtain ⟨operation, first, second⟩ := instruction
  obtain rfl : operation = .assign := hassign
  cases second with
  | none => cases h
  | some target =>
      cases target with
      | result number => cases h
      | node index =>
          cases hnode : graph.node? index with
          | none => simp [binding?, Graph.resolve?, hnode] at h
          | some node =>
              cases node with
              | identifier name => exact ⟨index, name, rfl, hnode⟩
              | var name | lam bound body | app applied applicand =>
                  simp [binding?, Graph.resolve?, hnode] at h

end Instruction

namespace Program

namespace Grows

variable {before after : Program}

/-- A node that is there stays what it is. -/
theorem node?_eq_some (h : Grows before after) {index : Nat} {node : Node}
    (hnode : before.graph.node? index = some node) :
    after.graph.node? index = some node := by
  have hindex : index < before.graph.size := by
    by_contra hle
    rw [Graph.node?, Array.getElem?_eq_none (Nat.le_of_not_lt hle)] at hnode
    cases hnode
  rw [h.node? index hindex, hnode]

/-- A target stays a target. -/
theorem hasTarget (h : Grows before after) {instruction : Instruction}
    (htarget : instruction.HasTarget before.graph) :
    instruction.HasTarget after.graph := by
  intro hassign
  obtain ⟨index, name, hsecond, hnode⟩ := htarget hassign
  exact ⟨index, name, hsecond, h.node?_eq_some hnode⟩

/-- An instruction whose target is there binds what it bound.  Nothing is asked
of its value, nor of the other operations, which bind nothing. -/
theorem binding?_of_hasTarget (h : Grows before after)
    {instruction : Instruction} (htarget : instruction.HasTarget before.graph) :
    instruction.binding? after.graph = instruction.binding? before.graph := by
  by_cases hassign : instruction.operation = .assign
  · obtain ⟨index, name, hsecond, hnode⟩ := htarget hassign
    simp only [Instruction.binding?, hassign, hsecond, Graph.resolve?, hnode,
      h.node?_eq_some hnode]
  · rw [Instruction.binding?_of_ne hassign, Instruction.binding?_of_ne hassign]

end Grows

/-! ### Extensions -/

/-- The second program is the first with some nodes and the given instructions
put behind it, and with what these instructions assign bound in its table. -/
structure Extends (before after : Program) (added : List Instruction) :
    Prop where
  nodes : before.graph.nodes.toList <+: after.graph.nodes.toList
  code : after.code.toList = before.code.toList ++ added
  targets : ∀ instruction ∈ added, instruction.HasTarget after.graph
  symbols : after.symbols = before.symbols.insertAll
    (added.filterMap (Instruction.binding? after.graph))

namespace Extends

variable {before after later : Program} {added more : List Instruction}

/-- A program extends itself by nothing. -/
theorem refl (program : Program) : Extends program program [] where
  nodes := List.prefix_refl _
  code := (List.append_nil _).symm
  targets := by simp
  symbols := rfl

/-- Nodes and instructions keep their numbers. -/
theorem grows (h : Extends before after added) : Grows before after where
  size_le := by simpa [Graph.size] using h.nodes.length_le
  node? := by
    intro index hindex
    obtain ⟨nodes, hnodes⟩ := h.nodes
    rw [Graph.node?, Graph.node?, ← Array.getElem?_toList, ← hnodes,
      List.getElem?_append_left (by simpa [Graph.size] using hindex),
      Array.getElem?_toList]
  code := by
    intro index hindex
    rw [← Array.getElem?_toList, h.code,
      List.getElem?_append_left (by simpa using hindex),
      Array.getElem?_toList]

/-- An extension keeps the names in their places. -/
theorem names_prefix (h : Extends before after added) :
    before.symbols.names <+: after.symbols.names := by
  rw [h.symbols]
  exact Symbols.names_prefix_insertAll _ _

/-- What comes later does not change what an extension has bound. -/
theorem trans (h : Extends before after added)
    (hlater : Extends after later more) :
    Extends before later (added ++ more) where
  nodes := h.nodes.trans hlater.nodes
  code := by rw [hlater.code, h.code, List.append_assoc]
  targets := by
    intro instruction hmem
    rcases List.mem_append.mp hmem with hfirst | hsecond
    · exact hlater.grows.hasTarget (h.targets instruction hfirst)
    · exact hlater.targets instruction hsecond
  symbols := by
    have hsame : added.filterMap (Instruction.binding? later.graph)
        = added.filterMap (Instruction.binding? after.graph) := by
      apply List.filterMap_congr
      intro instruction hmem
      exact hlater.grows.binding?_of_hasTarget (h.targets instruction hmem)
    rw [hlater.symbols, h.symbols, List.filterMap_append, hsame,
      Symbols.insertAll_append]

end Extends

end Program

namespace Grammar

open Automaton

/-! ### Contributions -/

/-- A contribution that assigns also binds: only declarations do either. -/
theorem exists_binding_of_meaning {program : Program} {production : Production}
    {frame : List Value} {contribution : Contribution}
    {instruction : Instruction}
    (h : production.meaning program frame = .ok contribution)
    (hinstruction : contribution.instruction = some instruction)
    (hassign : instruction.operation = .assign) :
    ∃ binding, contribution.binding = some binding := by
  cases production with
  | declaration =>
      obtain ⟨name, _, h⟩ := exists_of_bind_eq_ok h
      obtain ⟨value, _, h⟩ := exists_of_bind_eq_ok h
      obtain rfl := Except.ok.inj h
      exact ⟨_, rfl⟩
  | evaluation =>
      obtain ⟨value, _, h⟩ := exists_of_bind_eq_ok h
      obtain rfl := Except.ok.inj h
      obtain rfl := Option.some.inj hinstruction
      cases hassign
  | print =>
      obtain ⟨value, _, h⟩ := exists_of_bind_eq_ok h
      obtain rfl := Except.ok.inj h
      obtain rfl := Option.some.inj hinstruction
      cases hassign
  | identifier =>
      obtain ⟨name, _, h⟩ := exists_of_bind_eq_ok h
      split at h
      · obtain rfl := Except.ok.inj h
        cases hinstruction
      · cases h
  | name =>
      obtain ⟨name, _, h⟩ := exists_of_bind_eq_ok h
      obtain rfl := Except.ok.inj h
      cases hinstruction
  | group =>
      obtain rfl := Except.ok.inj h
      cases hinstruction
  | function =>
      obtain ⟨name, _, h⟩ := exists_of_bind_eq_ok h
      obtain ⟨body, _, h⟩ := exists_of_bind_eq_ok h
      obtain rfl := Except.ok.inj h
      obtain rfl := Option.some.inj hinstruction
      cases hassign
  | application =>
      obtain ⟨applied, _, h⟩ := exists_of_bind_eq_ok h
      obtain ⟨applicand, _, h⟩ := exists_of_bind_eq_ok h
      obtain rfl := Except.ok.inj h
      obtain rfl := Option.some.inj hinstruction
      cases hassign
  | pass =>
      obtain rfl := Except.ok.inj h
      cases hinstruction

/-- **A reduction extends the program by its instruction**, and binds what that
instruction assigns. -/
theorem extends_addTo {program : Program} {production : Production}
    {frame : List Value} {contribution : Contribution}
    (h : production.meaning program frame = .ok contribution) :
    program.Extends (contribution.addTo program)
      contribution.instruction.toList where
  nodes := by
    show _ <+: (contribution.nodes.foldl Graph.add _).nodes.toList
    rw [Graph.toList_foldl_add]
    exact List.prefix_append _ _
  code := by
    unfold Contribution.addTo
    cases contribution.instruction with
    | none => simp
    | some instruction => simp
  targets := by
    intro instruction hmem hassign
    have hinstruction := Option.mem_toList.mp hmem
    obtain ⟨binding, hbinding⟩ :=
      exists_binding_of_meaning h hinstruction hassign
    have hbinds := binding_of_meaning h
    rw [hinstruction, Option.bind_some, hbinding] at hbinds
    exact Instruction.hasTarget_of_binding? hbinds hassign
  symbols := by
    have hbinds : contribution.instruction.toList.filterMap
        (Instruction.binding? (contribution.addTo program).graph)
          = contribution.binding.toList := by
      rw [← binding_of_meaning h]
      cases contribution.instruction with
      | none => rfl
      | some instruction =>
          rw [Option.toList_some, filterMap_cons_toList, List.filterMap_nil,
            List.append_nil, Option.bind_some]
    rw [hbinds]
    unfold Contribution.addTo
    cases contribution.binding <;> rfl

/-- A refused production changes neither the program nor the syntax errors. -/
theorem reduce_of_error {draft : Draft} {rule : Nat} {frame : List Value}
    {refusal : Refusal}
    (h : (semantics.reduce draft rule frame).2 = .error refusal) :
    (semantics.reduce draft rule frame).1 = draft := by
  simp only [semantics] at h ⊢
  cases hmeaning : (Production.ofRule rule).meaning draft.program frame with
  | error refusal => rfl
  | ok contribution =>
      rw [hmeaning] at h
      cases h

/-- A refused production has changed nothing by the time it is refused, also if
its edits are made in place. -/
theorem reduceInPlace_of_error {draft : Draft} {rule : Nat}
    {frame : List Value} {refusal : Refusal}
    (h : ((Editing.reduceInPlace rule frame).answer draft).2
      = .error refusal) :
    ((Editing.reduceInPlace rule frame).answer draft).1 = draft := by
  rw [Editing.answer_reduceInPlace] at h ⊢
  exact reduce_of_error h

/-! ### Runs -/

/-- Whatever a run does, it extends the program that it began with. -/
theorem semantics_keeps_extending (start : Program) :
    semantics.Keeps (fun draft => ∃ added, start.Extends draft.program added)
      (fun _ _ => True) where
  blank _ := trivial
  token draft token h := ⟨h, trivial, fun _ _ => trivial⟩
  reduce draft rule frame h _ := by
    refine ⟨?_, fun _ _ => trivial, fun _ _ => trivial⟩
    obtain ⟨added, h⟩ := h
    simp only [semantics]
    cases hmeaning : (Production.ofRule rule).meaning draft.program frame with
    | error refusal => exact ⟨added, h⟩
    | ok contribution =>
        exact ⟨_, h.trans (extends_addTo hmeaning)⟩
  complain _ _ h := ⟨h, fun _ _ => trivial⟩

/-- Every run extends the program by something. -/
theorem ReadsOn.exists_extends {before after : Program} (h : ReadsOn before after) :
    ∃ added, before.Extends after added := by
  obtain ⟨complaints, tape, taken, fuel, rfl⟩ := h
  have hkept := Kept.initial (semantics_keeps_extending before)
    ⟨before, complaints⟩ ⟨[], Program.Extends.refl before⟩ taken
  exact (hkept.run (semantics_keeps_extending before) tables tape fuel).memory

/-- **Reading extends a program.**  Any run over any tape, at every step of it
and so however it ends, leaves the old nodes and instructions in front, the old
names in their places and the old table with the new assignments replayed; and
the lines of a well-formed program stay as they are.  Every attempt to read a
source is such a run.  A production that is refused leaves all as it was.  All
reductions can be made in place, by checks and changes one after the other:
they come to the same, and one that is refused has not changed anything yet. -/
theorem reading_extends_program :
    (∀ before after : Program, ReadsOn before after →
      (∃ added, before.Extends after added) ∧
      before.symbols.names <+: after.symbols.names ∧
      (before.WellFormed → before.lines <+: after.lines)) ∧
    (∀ reading : Reading,
      ReadsOn reading.program reading.attempt.reading.program) ∧
    (∀ (draft : Draft) (rule : Nat) (frame : List Value) (refusal : Refusal),
      (semantics.reduce draft rule frame).2 = .error refusal →
      (semantics.reduce draft rule frame).1 = draft) ∧
    (∀ (draft : Draft) (rule : Nat) (frame : List Value),
      (Editing.reduceInPlace rule frame).answer draft
        = semantics.reduce draft rule frame) ∧
    (∀ (draft : Draft) (rule : Nat) (frame : List Value) (refusal : Refusal),
      ((Editing.reduceInPlace rule frame).answer draft).2 = .error refusal →
      ((Editing.reduceInPlace rule frame).answer draft).1 = draft) := by
  refine ⟨?_, readsOn_attempt, fun _ _ _ _ => reduce_of_error,
    fun draft rule frame => Editing.answer_reduceInPlace rule frame draft,
    fun _ _ _ _ => reduceInPlace_of_error⟩
  intro before after h
  obtain ⟨added, hextends⟩ := h.exists_extends
  exact ⟨⟨added, hextends⟩, hextends.names_prefix,
    hextends.grows.lines_prefix⟩

/-- Reads `let I = v let K = I eval J` on top of `let I = \x. x`: a name is
declared again and another one anew, and then one is used that is not
declared. -/
def redeclaring : Reading :=
  .resume (Source.ofTokens
    [.bare .letWord none, .bare .identifier (some "I"), .bare .equals none,
      .bare .name (some "v"), .bare .letWord none,
      .bare .identifier (some "K"), .bare .equals none,
      .bare .identifier (some "I"), .bare .evalWord none,
      .bare .identifier (some "J")]) identityProgram

/-- The declarations before the refusal count, and the refusal adds nothing. -/
theorem extends_until_refusal :
    identityProgram.WellFormed ∧
    redeclaring.attempt.outcome = some (.failed (.undefined "J")) ∧
    redeclaring.attempt.reading.program.symbols
      = ⟨[("I", .node 4), ("K", .node 4)]⟩ ∧
    (∃ added,
      identityProgram.Extends redeclaring.attempt.reading.program added) ∧
    identityProgram.symbols.names
      <+: redeclaring.attempt.reading.program.symbols.names ∧
    identityProgram.lines <+: redeclaring.attempt.reading.program.lines ∧
    (semantics.reduce ⟨identityProgram, #[]⟩ 10 [.text "J"]).2
      = .error (.undefined "J") ∧
    (semantics.reduce ⟨identityProgram, #[]⟩ 10 [.text "J"]).1
      = ⟨identityProgram, #[]⟩ ∧
    (Editing.reduceInPlace 10 [.text "J"]).answer ⟨identityProgram, #[]⟩
      = (⟨identityProgram, #[]⟩, .error (.undefined "J")) := by
  obtain ⟨hreads, hattempt, hrefused, _, hinPlace⟩ := reading_extends_program
  have hwellFormed : identityProgram.WellFormed := by decide
  have hfails : (semantics.reduce ⟨identityProgram, #[]⟩ 10 [.text "J"]).2
      = .error (.undefined "J") := by decide
  have hedits : ((Editing.reduceInPlace 10 [.text "J"]).answer
      ⟨identityProgram, #[]⟩).2 = .error (.undefined "J") := by decide
  obtain ⟨hextends, hnames, hlines⟩ :=
    hreads identityProgram _ (hattempt redeclaring)
  exact ⟨hwellFormed, by decide +kernel, by decide +kernel, hextends, hnames,
    hlines hwellFormed, hfails, hrefused _ _ _ _ hfails,
    Prod.ext (hinPlace _ _ _ _ hedits) hedits⟩

end Grammar

end LambdaStack
