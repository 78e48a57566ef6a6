import LambdaStack.Proofs.Typing
import LambdaStack.Proofs.Resumption
import LambdaStack.Proofs.Tiling

/-!
# How the names of a program are spelt

A program that was read from texts and from nothing else is **written**.  Texts
may have been accepted, rejected or given up half-way; what they left behind
counts all the same.

In a written program variables are spelt like names and identifiers like
identifiers.  A text has no other words, and a rule takes each word from where
its right-hand side has it: the variable of a function stands two symbols in
front of its body, and on the path of the run that symbol is a name
(`SpeltStack`).

So no variable has the reserved name, which begins with a capital letter, and
no name of any sort has a line end in it.
-/

namespace LambdaStack

/-- A variable is spelt like a name and an identifier like an identifier. -/
def Node.Spelt : Node → Prop
  | var name => isNameText name.toList
  | identifier name => isIdentifierText name.toList
  | lam _ _ | app _ _ => True

/-- All nodes are spelt as they should be. -/
def Graph.Spelt (graph : Graph) : Prop :=
  ∀ index, ∀ node ∈ graph.node? index, node.Spelt

namespace Grammar

open Automaton

/-- The value is a word spelt as its symbol requires, or no word. -/
def SpeltAs : GrammarSymbol → Value → Prop
  | .terminal .identifier, .text text => isIdentifierText text.toList
  | .terminal .name, .text text => isNameText text.toList
  | _, _ => True

/-- Words are spelt as the symbols beside them require. -/
def SpeltStack (symbols : List GrammarSymbol) (values : List Value) : Prop :=
  ∀ depth : Nat, ∀ symbol ∈ symbols[depth]?, ∀ value ∈ values[depth]?,
    SpeltAs symbol value

/-! ### Tokens -/

/-- A word of a text is spelt as its kind requires. -/
theorem speltAs_tokenValue {text : String} {token : Token}
    (h : token ∈ tokensOf text) :
    SpeltAs (.terminal token.kind) (tokenValue token) := by
  have htiles : Tiles [] text.toList (tokensOf text).dropLast :=
    (Cursor.ofText text).tiles rfl
  rw [tokensOf, Cursor.tokens_eq_concat] at h
  rcases List.mem_append.mp h with hmem | hlast
  · obtain ⟨_, word, _, _, _, _, _, hcovers⟩ := htiles.exists_word hmem
    have hkind := hcovers.kind
    have htext := hcovers.text
    have hspelt : (token.kind = .identifier → isIdentifierText word) ∧
        (token.kind = .name → isNameText word) := by
      unfold lexemeKind? at hkind
      grind
    rw [tokenValue, htext]
    cases hname : token.kind with
    | identifier => simpa [SpeltAs] using hspelt.1 hname
    | name => simpa [SpeltAs] using hspelt.2 hname
    | _ => trivial
  · rw [List.mem_singleton.mp hlast]
    trivial

/-! ### Productions -/

section Productions

variable {program : Program} {frame : List Value} {rule : Nat} {p : Rule}
  {contribution : Contribution}

/-- A word is found where one stands. -/
theorem eq_of_wordAt {value : Option Value} {gap : Gap} {name : String}
    (h : wordAt value gap = .ok name) : value = some (.text name) := by
  unfold wordAt at h
  split at h
  · cases h
    rfl
  · cases h

/-- Where a production takes the names of its nodes from. -/
def Production.word? : Production → Option (Nat × Kind)
  | .declaration => some (2, .identifier)
  | .name => some (0, .name)
  | .function => some (2, .name)
  | _ => none

/-- A word is taken from where the right-hand side has a word of its kind. -/
theorem symbol_of_word? (hrule : production rule = some p) {place : Nat}
    {kind : Kind} (h : (Production.ofRule rule).word? = some (place, kind)) :
    p.output.reverse[place]? = some (.terminal kind) := by
  unfold production at hrule
  split at hrule <;> cases hrule
  all_goals cases h
  all_goals rfl

/-- Nodes are named by one word. -/
theorem node_cases {production : Production}
    (h : production.meaning program frame = .ok contribution) {node : Node}
    (hnode : node ∈ contribution.nodes) :
    (∃ name place, frame[place]? = some (.text name) ∧
      (node = .identifier name ∧
          production.word? = some (place, .identifier) ∨
        node = .var name ∧ production.word? = some (place, .name))) ∨
    node.Spelt := by
  cases production with
  | declaration =>
      obtain ⟨name, hname, h⟩ := exists_of_bind_eq_ok h
      obtain ⟨value, _, h⟩ := exists_of_bind_eq_ok h
      obtain rfl := Except.ok.inj h
      obtain rfl := List.mem_singleton.mp hnode
      exact Or.inl ⟨name, 2, eq_of_wordAt hname, Or.inl ⟨rfl, rfl⟩⟩
  | evaluation =>
      obtain ⟨value, _, h⟩ := exists_of_bind_eq_ok h
      obtain rfl := Except.ok.inj h
      cases hnode
  | print =>
      obtain ⟨value, _, h⟩ := exists_of_bind_eq_ok h
      obtain rfl := Except.ok.inj h
      cases hnode
  | identifier =>
      obtain ⟨name, _, h⟩ := exists_of_bind_eq_ok h
      split at h
      · obtain rfl := Except.ok.inj h
        cases hnode
      · cases h
  | name =>
      obtain ⟨name, hname, h⟩ := exists_of_bind_eq_ok h
      obtain rfl := Except.ok.inj h
      obtain rfl := List.mem_singleton.mp hnode
      exact Or.inl ⟨name, 0, eq_of_wordAt hname, Or.inr ⟨rfl, rfl⟩⟩
  | group =>
      obtain rfl := Except.ok.inj h
      cases hnode
  | function =>
      obtain ⟨name, hname, h⟩ := exists_of_bind_eq_ok h
      obtain ⟨body, _, h⟩ := exists_of_bind_eq_ok h
      obtain rfl := Except.ok.inj h
      rcases List.mem_cons.mp hnode with rfl | hself
      · exact Or.inl ⟨name, 2, eq_of_wordAt hname, Or.inr ⟨rfl, rfl⟩⟩
      · obtain rfl := List.mem_singleton.mp hself
        exact Or.inr trivial
  | application =>
      obtain ⟨applied, _, h⟩ := exists_of_bind_eq_ok h
      obtain ⟨applicand, _, h⟩ := exists_of_bind_eq_ok h
      obtain rfl := Except.ok.inj h
      obtain rfl := List.mem_singleton.mp hnode
      exact Or.inr trivial
  | pass =>
      obtain rfl := Except.ok.inj h
      cases hnode

/-- **What a rule makes of words that are spelt well is spelt well.** -/
theorem spelt_of_meaning (hrule : production rule = some p)
    (hframe : SpeltStack p.output.reverse frame)
    (h : (Production.ofRule rule).meaning program frame = .ok contribution)
    {node : Node} (hnode : node ∈ contribution.nodes) : node.Spelt := by
  rcases node_cases h hnode with
    ⟨name, place, hname, ⟨rfl, hword⟩ | ⟨rfl, hword⟩⟩ | hspelt
  · exact hframe place _ (symbol_of_word? hrule hword) _ hname
  · exact hframe place _ (symbol_of_word? hrule hword) _ hname
  · exact hspelt

/-- Adding nodes with proper names keeps all names proper. -/
theorem spelt_addTo (h : program.graph.Spelt)
    (hnodes : ∀ node ∈ contribution.nodes, node.Spelt) :
    (contribution.addTo program).graph.Spelt := by
  intro index node hnode
  have hfound : (contribution.nodes.foldl Graph.add program.graph).node? index
      = some node := hnode
  rw [Graph.node?_foldl_add] at hfound
  split at hfound
  · exact h index node hfound
  · exact hnodes node (List.mem_of_getElem? hfound)

/-- A reduction adds nodes that are spelt well, and a refusal adds none. -/
theorem spelt_reduce {draft after : Draft} {result : Except Refusal Value}
    (h : draft.program.graph.Spelt)
    (hnodes : ∀ contribution,
      (Production.ofRule rule).meaning draft.program frame = .ok contribution →
      ∀ node ∈ contribution.nodes, node.Spelt)
    (hreduce : semantics.reduce draft rule frame = (after, result)) :
    after.program.graph.Spelt := by
  simp only [semantics] at hreduce
  split at hreduce
  · next contribution hmeaning =>
    obtain ⟨rfl, -⟩ := Prod.mk.inj hreduce
    exact spelt_addTo h (hnodes contribution hmeaning)
  · obtain ⟨rfl, -⟩ := Prod.mk.inj hreduce
    exact h

end Productions

/-! ### Runs -/

namespace SpeltStack

variable {symbols front below : List GrammarSymbol} {values : List Value}

/-- A value that suits its symbol can be put on top. -/
theorem cons (h : SpeltStack symbols values) {symbol : GrammarSymbol}
    {value : Value} (hfirst : SpeltAs symbol value) :
    SpeltStack (symbol :: symbols) (value :: values) := by
  intro depth other hother found hfound
  cases depth with
  | zero =>
      obtain rfl := Option.some.inj hother
      obtain rfl := Option.some.inj hfound
      exact hfirst
  | succ depth => exact h depth other hother found hfound

/-- Symbols side by side have their words side by side. -/
theorem split (h : SpeltStack (front ++ below) values) :
    SpeltStack front (values.take front.length) ∧
      SpeltStack below (values.drop front.length) := by
  refine ⟨?_, ?_⟩
  · intro depth symbol hsymbol value hvalue
    have hlt := (List.getElem?_eq_some_iff.mp hsymbol).1
    rw [List.getElem?_take_of_lt hlt] at hvalue
    refine h depth symbol ?_ value hvalue
    rw [List.getElem?_append_left hlt]
    exact hsymbol
  · intro depth symbol hsymbol value hvalue
    rw [List.getElem?_drop] at hvalue
    refine h (front.length + depth) symbol ?_ value hvalue
    rw [List.getElem?_append_right (Nat.le_add_right _ _),
      Nat.add_sub_cancel_left]
    exact hsymbol

end SpeltStack

/-- All words that a run has put on its stack or into its program are spelt
well. -/
structure SpeltRun (tape : Tape) (start : Nat)
    (config : Config Draft Value Refusal) (symbols : List GrammarSymbol) :
    Prop where
  reads : config.ReadsFrom tape start
  stack : SpeltStack symbols (stackValues config.stack)
  graph : config.memory.program.graph.Spelt

section Moves

variable {tape : Tape} {start : Nat}
  {config next : Config Draft Value Refusal}
  {symbols after : List GrammarSymbol}

/-- A syntax error leaves the graph alone. -/
theorem graph_complain (config : Config Draft Value Refusal) :
    (config.complain semantics).memory.program.graph
      = config.memory.program.graph := by
  unfold Config.complain
  split <;> rfl

/-- Moves keep to the spelling. -/
theorem Move.speltRun (hmove : Move semantics tape config symbols next after)
    (htape : ∀ index,
      SpeltAs (.terminal (tape index).kind) (tokenValue (tape index)))
    (h : SpeltRun tape start config symbols) :
    SpeltRun tape start next after := by
  refine ⟨hmove.readsFrom h.reads, ?_, ?_⟩
  · have hstack := h.stack
    cases hmove with
    | shift hphase hfinal hedge =>
        obtain ⟨index, hlook⟩ := exists_look_eq h.reads
        have hspelt := htape index
        rw [← hlook] at hspelt
        rw [← Config.stack_look config tape] at hstack
        exact hstack.cons hspelt
    | pass hphase hfinal hnext hlooks =>
        rw [← Config.stack_look config tape] at hstack
        exact hstack
    | @reduce below rule target p memory value rest hphase hreducible hrule
        hvalue hentries =>
        have hbelow := hstack.split.2
        rw [List.length_reverse, stackValues, ← List.map_drop, ← hentries]
          at hbelow
        exact hbelow.cons trivial
    | complain hphase =>
        rw [← Config.stack_complain config semantics] at hstack
        exact hstack
    | accept | blind | choose | despair | refuse | giveUp => exact hstack
  · have hgraph := h.graph
    cases hmove with
    | shift hphase hfinal hedge | pass hphase hfinal hnext hlooks =>
        rw [← Config.memory_look config tape] at hgraph
        exact hgraph
    | @reduce below rule target p memory value rest hphase hreducible hrule
        hvalue hentries =>
        have hframe := h.stack.split.1
        rw [List.length_reverse, stackValues, ← List.map_take] at hframe
        apply spelt_reduce hgraph ?_ hvalue
        intro contribution hmeaning node hnode
        exact spelt_of_meaning hrule hframe hmeaning hnode
    | refuse hphase hrule hvalue =>
        apply spelt_reduce hgraph ?_ hvalue
        intro contribution hmeaning
        simp only [semantics, hmeaning] at hvalue
        cases hvalue
    | complain hphase =>
        rw [← graph_complain config] at hgraph
        exact hgraph
    | accept | blind | choose | despair | giveUp => exact hgraph

end Moves

/-- A run over a text keeps to the spelling. -/
theorem spelt_run {program : Program} (h : program.graph.Spelt)
    (complaints : Array Complaint) (text : String) (start fuel : Nat) :
    ((Config.initial semantics ⟨program, complaints⟩ start).run tables
      semantics (Source.ofText text).tape fuel).memory.program.graph.Spelt := by
  obtain ⟨symbols, _, hrun⟩ := exists_tracked_run
    (SpeltRun (Source.ofText text).tape start)
    (fun _ hspelt hmove => hmove.speltRun
      (fun index => speltAs_tokenValue (tape_ofText_mem text index)) hspelt)
    (tracked_initial semantics ⟨program, complaints⟩ start)
    ⟨Config.readsFrom_initial semantics _, by simp [SpeltStack], h⟩ fuel
  exact hrun.graph

/-! ### Written programs -/

/-- One program is read on to another by an attempt to read a text, any part of
which may have been read before, and with whatever outcome. -/
def ReadsTextOn (before after : Program) : Prop :=
  ∃ (text : String) (taken : Nat) (complaints : Array Complaint),
    (Reading.attempt ⟨Source.ofText text, taken,
      ⟨before, complaints⟩⟩).reading.program = after

/-- Texts alone have led from nothing to the program. -/
def Written : Program → Prop :=
  Relation.ReflTransGen ReadsTextOn Program.empty

/-- Reading a text is a run over its tokens. -/
theorem readsTextOn_readText (text : String) (program : Program) :
    ReadsTextOn program (readText text program).reading.program :=
  ⟨text, 0, #[], rfl⟩

/-- A program stays one that was written in texts. -/
theorem Written.readText {program : Program} (h : Written program)
    (text : String) : Written (readText text program).reading.program :=
  h.tail (readsTextOn_readText text program)

/-- What was written in texts was reached by runs. -/
theorem Written.reachable {program : Program} (h : Written program) :
    Reachable Program.empty program := by
  induction h with
  | refl => exact Relation.ReflTransGen.refl
  | tail _ hstep ih =>
      obtain ⟨text, taken, complaints, rfl⟩ := hstep
      exact ih.tail (readsOn_attempt
        ⟨Source.ofText text, taken, ⟨_, complaints⟩⟩)

/-- What was written in texts is well-formed. -/
theorem Written.wellFormed {program : Program} (h : Written program) :
    program.WellFormed :=
  h.reachable.wellFormed Program.wellFormed_empty

/-- **The names of a written program are spelt as a text spells them.** -/
theorem Written.spelt {program : Program} (h : Written program) :
    program.graph.Spelt := by
  induction h with
  | refl =>
      intro index node hnode
      cases hnode
  | tail _ hstep ih =>
      obtain ⟨text, taken, complaints, rfl⟩ := hstep
      have hrun := spelt_run ih complaints text taken
        (Reading.fuel (Source.ofText text).length)
      generalize hfinal : (Config.initial semantics ⟨_, complaints⟩ taken).run
        tables semantics (Source.ofText text).tape _ = final at hrun
      have hattempt : Reading.attempt ⟨Source.ofText text, taken,
          ⟨_, complaints⟩⟩ = _ := attempt_eq hfinal
      rw [hattempt]
      exact hrun

end Grammar

end LambdaStack
