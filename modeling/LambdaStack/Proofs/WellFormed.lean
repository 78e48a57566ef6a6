import Mathlib.Data.List.Basic
import LambdaStack.Grammar.Reading

/-!
# Well-formed programs

Nodes, instructions and bindings refer to each other by number, and nothing
in their types says that the numbers are good.  A program is **well formed**
if they are:

* a function and its bound variable, a node and its parts: the number of the
  part is the smaller one, so the graph has no cycles;
* nothing is made of a bare identifier node;
* whatever refers to the result of an instruction refers to an `eval`, and in
  the instructions themselves to an earlier one;
* each instruction has the operands that its operation calls for.

A reduction adds nodes, an instruction and a binding at the end, all made of
values that wait on the stack.  So the stack belongs to the invariant: each
operand on it can be **used**, which means that it is there and is no bare
identifier (`Program.Uses`).  Since programs only grow (`Program.Grows`), what
can be used once can be used ever after.

Main statement: `fits_meaning`, by which whatever a production contributes
fits where it is added.
-/

namespace LambdaStack

/-! ### Well-formedness -/

namespace Node

/-- The node is a variable. -/
def isVar : Node → Bool
  | var _ => true
  | _ => false

/-- The node is an identifier. -/
def isIdentifier : Node → Bool
  | identifier _ => true
  | _ => false

end Node

namespace Graph

/-- The operand is a variable of the graph. -/
def isVar (graph : Graph) (operand : Operand) : Bool :=
  (graph.resolve? operand).any Node.isVar

/-- The operand is a bare identifier of the graph. -/
def isIdentifier (graph : Graph) (operand : Operand) : Bool :=
  (graph.resolve? operand).any Node.isIdentifier

end Graph

namespace Instruction

/-- All operands of an instruction. -/
def operands (instruction : Instruction) : List Operand :=
  instruction.first :: instruction.second.toList

/-- The instruction has the operands that its operation calls for. -/
def isShaped (graph : Graph) (instruction : Instruction) : Bool :=
  match instruction.operation, instruction.second with
  | .assign, some target =>
    !graph.isIdentifier instruction.first && graph.isIdentifier target
  | .func, some body =>
    graph.isVar instruction.first && !graph.isIdentifier body
  | .apply, some _ | .eval, none | .print, none => true
  | _, _ => false

end Instruction

namespace Program

/-- The instruction with the given number is an `eval`. -/
def IsEval (program : Program) (index : Nat) : Prop :=
  program.code[index]?.map Instruction.operation = some .eval

instance (program : Program) (index : Nat) :
    Decidable (program.IsEval index) :=
  inferInstanceAs (Decidable (_ = _))

/-- The operand is there: a node of the graph, or the result of an `eval`. -/
def Has (program : Program) : Operand → Prop
  | .node index => index < program.graph.size
  | .result instruction => program.IsEval instruction

instance (program : Program) (operand : Operand) :
    Decidable (program.Has operand) :=
  match operand with
  | .node _ => inferInstanceAs (Decidable (_ < _))
  | .result _ => inferInstanceAs (Decidable (program.IsEval _))

/-- The operand is there and is no bare identifier. -/
def Uses (program : Program) (operand : Operand) : Prop :=
  program.Has operand ∧
    program.graph.isIdentifier operand = false

instance (program : Program) (operand : Operand) :
    Decidable (program.Uses operand) :=
  inferInstanceAs (Decidable (_ ∧ _))

/-- The operand may be part of the node with the given number: if it is a
node itself, its number is smaller. -/
def UsesBelow (program : Program) (index : Nat) (operand : Operand) : Prop :=
  program.Uses operand ∧
    match operand with
    | .node part => part < index
    | .result _ => True

instance (program : Program) (index : Nat) (operand : Operand) :
    Decidable (program.UsesBelow index operand) :=
  match operand with
  | .node _ => inferInstanceAs (Decidable (_ ∧ _))
  | .result _ => inferInstanceAs (Decidable (_ ∧ _))

/-- The node may have the given number. -/
def NodeFits (program : Program) (index : Nat) : Node → Prop
  | .var _ | .identifier _ => True
  | .lam bound body => bound < index ∧
    program.graph.isVar (.node bound) ∧ program.UsesBelow index body
  | .app applied applicand =>
    program.UsesBelow index applied ∧ program.UsesBelow index applicand

instance (program : Program) (index : Nat) (node : Node) :
    Decidable (program.NodeFits index node) :=
  match node with
  | .var _ | .identifier _ => inferInstanceAs (Decidable True)
  | .lam _ _ => inferInstanceAs (Decidable (_ ∧ _ ∧ _))
  | .app _ _ => inferInstanceAs (Decidable (_ ∧ _))

/-- The operand may belong to the instruction with the given number: if it is
a result itself, it is that of an earlier instruction. -/
def HasBefore (program : Program) (index : Nat) (operand : Operand) : Prop :=
  program.Has operand ∧
    match operand with
    | .node _ => True
    | .result instruction => instruction < index

instance (program : Program) (index : Nat) (operand : Operand) :
    Decidable (program.HasBefore index operand) :=
  match operand with
  | .node _ => inferInstanceAs (Decidable (_ ∧ _))
  | .result _ => inferInstanceAs (Decidable (_ ∧ _))

/-- The instruction may have the given number. -/
def InstructionFits (program : Program) (index : Nat)
    (instruction : Instruction) : Prop :=
  instruction.isShaped program.graph ∧
    ∀ operand ∈ instruction.operands, program.HasBefore index operand

instance (program : Program) (index : Nat) (instruction : Instruction) :
    Decidable (program.InstructionFits index instruction) :=
  inferInstanceAs (Decidable (_ ∧ _))

/-- All references of a program are good. -/
structure WellFormed (program : Program) : Prop where
  nodes : ∀ index < program.graph.size,
    ∀ node ∈ program.graph.node? index, program.NodeFits index node
  code : ∀ index < program.code.size,
    ∀ instruction ∈ program.code[index]?,
      program.InstructionFits index instruction
  bindings : ∀ entry ∈ program.symbols.entries, program.Uses entry.2

instance (program : Program) : Decidable program.WellFormed :=
  decidable_of_iff
    ((∀ index < program.graph.size,
      ∀ node ∈ program.graph.node? index, program.NodeFits index node) ∧
    (∀ index < program.code.size, ∀ instruction ∈ program.code[index]?,
      program.InstructionFits index instruction) ∧
    ∀ entry ∈ program.symbols.entries, program.Uses entry.2)
    ⟨fun h => ⟨h.1, h.2.1, h.2.2⟩, fun h => ⟨h.nodes, h.code, h.bindings⟩⟩

/-- The instructions of a well-formed program have their operands, and these
are there. -/
theorem WellFormed.has_of_mem {program : Program} (h : program.WellFormed)
    {instruction : Instruction} (hmem : instruction ∈ program.code.toList) :
    instruction.isShaped program.graph ∧
      ∀ operand ∈ instruction.operands, program.Has operand := by
  obtain ⟨index, hindex, hget⟩ := List.mem_iff_getElem.mp hmem
  rw [Array.length_toList] at hindex
  rw [Array.getElem_toList] at hget
  obtain ⟨hshaped, hoperands⟩ := h.code index hindex instruction
    (Array.getElem?_eq_some_iff.mpr ⟨hindex, hget⟩)
  exact ⟨hshaped, fun operand hoperand => (hoperands operand hoperand).1⟩

/-- The program without anything in it is well formed. -/
theorem wellFormed_empty : empty.WellFormed := by
  decide

/-! ### Growing -/

/-- The second program has all nodes and instructions of the first under the
same numbers. -/
structure Grows (before after : Program) : Prop where
  size_le : before.graph.size ≤ after.graph.size
  node? : ∀ index < before.graph.size,
    after.graph.node? index = before.graph.node? index
  code : ∀ index < before.code.size,
    after.code[index]? = before.code[index]?

namespace Grows

variable {before after : Program}

/-- An evaluation stays one. -/
theorem isEval (h : Grows before after) {index : Nat}
    (heval : before.IsEval index) : after.IsEval index := by
  have hindex : index < before.code.size := by
    by_contra hle
    rw [IsEval, Array.getElem?_eq_none (Nat.le_of_not_lt hle)] at heval
    cases heval
  rw [IsEval, h.code index hindex]
  exact heval

/-- An operand that is there stays there. -/
theorem has (h : Grows before after) {operand : Operand}
    (hhas : before.Has operand) : after.Has operand := by
  cases operand with
  | node index => exact Nat.lt_of_lt_of_le hhas h.size_le
  | result instruction => exact h.isEval hhas

/-- Programs grow in stretches. -/
theorem trans {later : Program} (h : Grows before after)
    (hlater : Grows after later) : Grows before later where
  size_le := Nat.le_trans h.size_le hlater.size_le
  node? := by
    intro index hindex
    rw [hlater.node? index (Nat.lt_of_lt_of_le hindex h.size_le),
      h.node? index hindex]
  code := by
    intro index hindex
    have hafter : index < after.code.size := by
      by_contra hle
      have hsame := h.code index hindex
      rw [Array.getElem?_eq_none (Nat.le_of_not_lt hle),
        Array.getElem?_eq_getElem hindex] at hsame
      cases hsame
    rw [hlater.code index hafter, h.code index hindex]

/-- An operand that is there stays what it is. -/
theorem resolve? (h : Grows before after) {operand : Operand}
    (hhas : before.Has operand) :
    after.graph.resolve? operand = before.graph.resolve? operand := by
  cases operand with
  | node index => exact h.node? index hhas
  | result instruction => rfl

/-- A value stays a value. -/
theorem uses (h : Grows before after) {operand : Operand}
    (huses : before.Uses operand) : after.Uses operand := by
  refine ⟨h.has huses.1, ?_⟩
  rw [Graph.isIdentifier, h.resolve? huses.1]
  exact huses.2

/-- A value of an earlier instruction stays one. -/
theorem usesBelow (h : Grows before after) {index : Nat} {operand : Operand}
    (huses : before.UsesBelow index operand) : after.UsesBelow index operand :=
  ⟨h.uses huses.1, huses.2⟩

/-- A node that fits at its place fits there in a larger program. -/
theorem nodeFits (h : Grows before after) {index : Nat} {node : Node}
    (hindex : index ≤ before.graph.size)
    (hfits : before.NodeFits index node) : after.NodeFits index node := by
  cases node with
  | var name => trivial
  | identifier name => trivial
  | lam bound body =>
      obtain ⟨hlt, hvar, hbody⟩ := hfits
      refine ⟨hlt, ?_, h.usesBelow hbody⟩
      have hhas : before.Has (.node bound) := Nat.lt_of_lt_of_le hlt hindex
      rw [Graph.isVar, h.resolve? hhas]
      exact hvar
  | app applied applicand => exact ⟨h.usesBelow hfits.1, h.usesBelow hfits.2⟩

/-- An instruction all whose operands are there keeps its shape. -/
theorem isShaped (h : Grows before after) {instruction : Instruction}
    (hhas : ∀ operand ∈ instruction.operands, before.Has operand) :
    instruction.isShaped after.graph = instruction.isShaped before.graph := by
  obtain ⟨operation, first, second⟩ := instruction
  have hfirst := h.resolve? (hhas first List.mem_cons_self)
  cases second with
  | none => cases operation <;> rfl
  | some second =>
      have hsecond := h.resolve? (hhas second
        (List.mem_cons_of_mem _ List.mem_cons_self))
      cases operation <;>
        simp only [Instruction.isShaped, Graph.isVar, Graph.isIdentifier,
          hfirst, hsecond]

/-- So does an instruction. -/
theorem instructionFits (h : Grows before after) {index : Nat}
    {instruction : Instruction}
    (hfits : before.InstructionFits index instruction) :
    after.InstructionFits index instruction := by
  obtain ⟨hshaped, hoperands⟩ := hfits
  refine ⟨?_, fun operand hmem => ?_⟩
  · rw [h.isShaped fun operand hmem => (hoperands operand hmem).1]
    exact hshaped
  · exact ⟨h.has (hoperands operand hmem).1, (hoperands operand hmem).2⟩

end Grows

/-- **What has been well formed stays so** if everything that is new fits. -/
theorem WellFormed.grow {before after : Program} (h : before.WellFormed)
    (hgrows : Grows before after)
    (hnodes : ∀ index, before.graph.size ≤ index →
      ∀ node ∈ after.graph.node? index, after.NodeFits index node)
    (hcode : ∀ index, before.code.size ≤ index →
      ∀ instruction ∈ after.code[index]?,
        after.InstructionFits index instruction)
    (hbindings : ∀ entry ∈ after.symbols.entries,
      entry ∈ before.symbols.entries ∨ after.Uses entry.2) :
    after.WellFormed where
  nodes := by
    intro index _ node hnode
    by_cases hold : index < before.graph.size
    · rw [hgrows.node? index hold] at hnode
      exact hgrows.nodeFits (Nat.le_of_lt hold)
        (h.nodes index hold node hnode)
    · exact hnodes index (Nat.le_of_not_lt hold) node hnode
  code := by
    intro index _ instruction hinstruction
    by_cases hold : index < before.code.size
    · rw [hgrows.code index hold] at hinstruction
      exact hgrows.instructionFits (h.code index hold _ hinstruction)
    · exact hcode index (Nat.le_of_not_lt hold) _ hinstruction
  bindings := by
    intro entry hentry
    rcases hbindings entry hentry with hold | hnew
    · exact hgrows.uses (h.bindings entry hold)
    · exact hnew

end Program

/-! ### Contributions -/

namespace Graph

/-- Nodes that are added get the next numbers, in order. -/
theorem size_foldl_add (graph : Graph) (nodes : List Node) :
    (nodes.foldl add graph).size = graph.size + nodes.length := by
  induction nodes generalizing graph with
  | nil => rfl
  | cons node nodes ih =>
      rw [List.foldl_cons, ih, size_add, List.length_cons]
      omega

/-- Old nodes keep their indices, and the new ones come behind them in order.
-/
theorem node?_foldl_add (graph : Graph) (nodes : List Node) (index : Nat) :
    (nodes.foldl add graph).node? index
      = if index < graph.size then graph.node? index
        else nodes[index - graph.size]? := by
  induction nodes generalizing graph with
  | nil =>
      split
      · rfl
      · next hle =>
        have hnone : graph.node? index = none :=
          Array.getElem?_eq_none (Nat.le_of_not_lt hle)
        simpa using hnone
  | cons node nodes ih =>
      rw [List.foldl_cons, ih, size_add]
      rcases Nat.lt_trichotomy index graph.size with hlt | rfl | hgt
      · rw [if_pos (by omega), if_pos hlt, node?_add_of_lt hlt]
      · rw [if_pos (by omega), if_neg (by omega), node?_add_size, Nat.sub_self]
        rfl
      · rw [if_neg (by omega), if_neg (by omega)]
        obtain ⟨offset, hoffset⟩ : ∃ offset, index - graph.size = offset + 1 :=
          ⟨index - graph.size - 1, by omega⟩
        have hless : index - (graph.size + 1) = offset := by omega
        rw [hless, hoffset, List.getElem?_cons_succ]

end Graph

namespace Symbols

/-- Setting an entry brings in no other. -/
theorem mem_setEntry {name : String} {value : Operand}
    {entries : List (String × Operand)} {entry : String × Operand}
    (h : entry ∈ setEntry name value entries) :
    entry = (name, value) ∨ entry ∈ entries := by
  induction entries with
  | nil => exact Or.inl (List.mem_singleton.mp h)
  | cons first rest ih =>
      unfold setEntry at h
      split at h
      · exact (List.mem_cons.mp h).imp_right (List.mem_cons_of_mem _)
      · rcases List.mem_cons.mp h with rfl | hrest
        · exact Or.inr List.mem_cons_self
        · exact (ih hrest).imp_right (List.mem_cons_of_mem _)

/-- What a name is bound to stands in the table. -/
theorem mem_entries_of_get? {symbols : Symbols} {name : String}
    {value : Operand} (h : symbols.get? name = some value) :
    (name, value) ∈ symbols.entries := by
  obtain ⟨front, back, hentries, _⟩ := List.lookup_eq_some_iff.mp h
  rw [hentries]
  exact List.mem_append_right _ List.mem_cons_self

end Symbols

namespace Grammar

open Automaton

/-- The value may wait on the stack: if it is an operand, it can be used. -/
def Holds (program : Program) : Value → Prop
  | .operand operand => program.Uses operand
  | .empty | .text _ => True

/-- An operand on the stack is a value of the program. -/
@[simp]
theorem holds_operand (program : Program) (operand : Operand) :
    Holds program (.operand operand) ↔ program.Uses operand := Iff.rfl

@[simp]
theorem holds_empty (program : Program) : Holds program .empty := trivial

@[simp]
theorem holds_text (program : Program) (text : String) :
    Holds program (.text text) := trivial

/-- The value of a token is a word or nothing, and holds of any program. -/
@[simp]
theorem holds_tokenValue (program : Program) (token : Token) :
    Holds program (tokenValue token) := by
  unfold tokenValue
  split <;> trivial

/-- What holds of a program holds of a larger one. -/
theorem Holds.grow {before after : Program} (hgrows : before.Grows after)
    {value : Value} (h : Holds before value) : Holds after value := by
  cases value with
  | operand operand => exact hgrows.uses h
  | empty => trivial
  | text text => trivial

/-- Everything that a contribution adds to the program fits there. -/
structure Contribution.Fits (contribution : Contribution)
    (program : Program) : Prop where
  nodes : ∀ offset, ∀ node ∈ contribution.nodes[offset]?,
    (contribution.addTo program).NodeFits (program.graph.size + offset) node
  instruction : ∀ instruction ∈ contribution.instruction,
    (contribution.addTo program).InstructionFits program.code.size instruction
  binding : ∀ binding ∈ contribution.binding,
    (contribution.addTo program).Uses binding.2
  value : Holds (contribution.addTo program) contribution.value

namespace Contribution

variable {contribution : Contribution} {program : Program}

/-- A contribution only adds. -/
theorem grows (contribution : Contribution) (program : Program) :
    program.Grows (contribution.addTo program) where
  size_le := by
    show program.graph.size ≤ (contribution.nodes.foldl Graph.add _).size
    rw [Graph.size_foldl_add]
    exact Nat.le_add_right _ _
  node? := by
    intro index hindex
    show (contribution.nodes.foldl Graph.add _).node? index = _
    rw [Graph.node?_foldl_add, if_pos hindex]
  code := by
    intro index hindex
    unfold addTo
    cases contribution.instruction with
    | none => rfl
    | some instruction =>
        show (program.code.push instruction)[index]? = _
        rw [Array.getElem?_push_lt hindex, Array.getElem?_eq_getElem hindex]

/-- The contributed nodes get the next numbers. -/
theorem node?_addTo (contribution : Contribution) (program : Program)
    (offset : Nat) :
    (contribution.addTo program).graph.node? (program.graph.size + offset)
      = contribution.nodes[offset]? := by
  show (contribution.nodes.foldl Graph.add _).node? _ = _
  rw [Graph.node?_foldl_add, if_neg (by omega), Nat.add_sub_cancel_left]

/-- A contributed node is there. -/
theorem has_addTo (program : Program) {offset : Nat} {node : Node}
    (h : contribution.nodes[offset]? = some node) :
    (contribution.addTo program).Has (.node (program.graph.size + offset)) := by
  have hoffset := (List.getElem?_eq_some_iff.mp h).1
  show _ < (contribution.nodes.foldl Graph.add _).size
  rw [Graph.size_foldl_add]
  omega

/-- A contributed node is a variable in the program if it is one by itself. -/
theorem isVar_addTo (program : Program) {offset : Nat} {node : Node}
    (h : contribution.nodes[offset]? = some node) :
    (contribution.addTo program).graph.isVar
      (.node (program.graph.size + offset)) = node.isVar := by
  rw [Graph.isVar, Graph.resolve?, node?_addTo, h]
  rfl

/-- The same for identifiers. -/
theorem isIdentifier_addTo (program : Program) {offset : Nat} {node : Node}
    (h : contribution.nodes[offset]? = some node) :
    (contribution.addTo program).graph.isIdentifier
      (.node (program.graph.size + offset)) = node.isIdentifier := by
  rw [Graph.isIdentifier, Graph.resolve?, node?_addTo, h]
  rfl

/-- The only new instruction is the contributed one. -/
theorem mem_code_addTo {index : Nat} {instruction : Instruction}
    (hindex : program.code.size ≤ index)
    (h : instruction ∈ (contribution.addTo program).code[index]?) :
    index = program.code.size ∧ instruction ∈ contribution.instruction := by
  unfold addTo at h
  cases hadded : contribution.instruction with
  | none =>
      simp only [hadded] at h
      rw [Array.getElem?_eq_none hindex] at h
      cases h
  | some added =>
      simp only [hadded] at h
      rw [Array.getElem?_push] at h
      split at h
      · next heq => exact ⟨heq, h⟩
      · rw [Array.getElem?_eq_none hindex] at h
        cases h

/-- The only new binding is the contributed one. -/
theorem mem_symbols_addTo {entry : String × Operand}
    (h : entry ∈ (contribution.addTo program).symbols.entries) :
    entry ∈ program.symbols.entries ∨ entry ∈ contribution.binding := by
  unfold addTo at h
  cases hbinding : contribution.binding with
  | none =>
      simp only [hbinding] at h
      exact Or.inl h
  | some binding =>
      simp only [hbinding] at h
      rcases Symbols.mem_setEntry h with rfl | hold
      · exact Or.inr rfl
      · exact Or.inl hold

/-- **A contribution that fits keeps the program well formed.** -/
theorem wellFormed_addTo (h : program.WellFormed)
    (hfits : contribution.Fits program) :
    (contribution.addTo program).WellFormed := by
  apply h.grow (contribution.grows program)
  · intro index hindex node hnode
    obtain ⟨offset, rfl⟩ := Nat.exists_eq_add_of_le hindex
    rw [node?_addTo] at hnode
    exact hfits.nodes offset node hnode
  · intro index hindex instruction hinstruction
    obtain ⟨rfl, hadded⟩ := mem_code_addTo hindex hinstruction
    exact hfits.instruction instruction hadded
  · intro entry hentry
    exact (mem_symbols_addTo hentry).imp_right (hfits.binding entry)

end Contribution

/-! ### Productions -/

/-- An operand that a production takes from its frame can be used. -/
theorem uses_of_operandAt {program : Program} {frame : List Value}
    {place : Nat} {gap : Gap} {operand : Operand}
    (hframe : ∀ value ∈ frame, Holds program value)
    (h : operandAt program.graph frame[place]? gap = .ok operand) :
    program.Uses operand := by
  unfold operandAt at h
  split at h
  · next found hvalue =>
    have hmem : Value.operand found ∈ frame := List.mem_of_getElem? hvalue
    have hfound : program.Uses found := hframe _ hmem
    split at h
    · cases h
    · cases h
      exact hfound
  · cases h

/-- What a sequence of two steps answers, the first one answered too. -/
theorem exists_of_bind_eq_ok {α β ε : Type} {first : Except ε α}
    {next : α → Except ε β} {result : β}
    (h : (first >>= next) = .ok result) :
    ∃ value, first = .ok value ∧ next value = .ok result := by
  cases first with
  | error reason => cases h
  | ok value => exact ⟨value, rfl, h⟩

section Productions

variable {program after : Program} {frame : List Value}
  {contribution : Contribution}

/-- An operand that could be used before may be part of a new node. -/
theorem usesBelow_of_grows (hgrows : program.Grows after) {operand : Operand}
    (huses : program.Uses operand) {index : Nat}
    (hindex : program.graph.size ≤ index) :
    after.UsesBelow index operand := by
  refine ⟨hgrows.uses huses, ?_⟩
  cases operand with
  | node part => exact Nat.lt_of_lt_of_le huses.1 hindex
  | result instruction => trivial

/-- An operand that could be used before may belong to a new instruction. -/
theorem hasBefore_of_grows (hgrows : program.Grows after) {operand : Operand}
    (huses : program.Uses operand) :
    after.HasBefore program.code.size operand := by
  refine ⟨hgrows.has huses.1, ?_⟩
  cases operand with
  | node part => trivial
  | result instruction =>
      by_contra hle
      have heval : program.IsEval instruction := huses.1
      rw [Program.IsEval, Array.getElem?_eq_none (Nat.le_of_not_lt hle)] at heval
      cases heval

/-- An instruction with two operands that may belong to it. -/
theorem instructionFits_pair {operation : Operation} {first second : Operand}
    {index : Nat} (hfirst : program.HasBefore index first)
    (hsecond : program.HasBefore index second)
    (hshaped : (⟨operation, first, some second⟩ : Instruction).isShaped
      program.graph) :
    program.InstructionFits index ⟨operation, first, some second⟩ := by
  refine ⟨hshaped, ?_⟩
  simpa [Instruction.operands] using ⟨hfirst, hsecond⟩

/-- An instruction with one operand that may belong to it. -/
theorem instructionFits_single {operation : Operation} {first : Operand}
    {index : Nat} (hfirst : program.HasBefore index first)
    (hshaped : (⟨operation, first, none⟩ : Instruction).isShaped
      program.graph) :
    program.InstructionFits index ⟨operation, first, none⟩ := by
  refine ⟨hshaped, ?_⟩
  simpa [Instruction.operands] using hfirst

/-- A declaration binds a value and assigns it to an identifier of its own. -/
theorem fits_declaration (hframe : ∀ value ∈ frame, Holds program value)
    (h : declaration program frame = .ok contribution) :
    contribution.Fits program := by
  obtain ⟨name, _, h⟩ := exists_of_bind_eq_ok h
  obtain ⟨value, hvalue, h⟩ := exists_of_bind_eq_ok h
  have huses := uses_of_operandAt hframe hvalue
  have hgrows := contribution.grows program
  have hnode : contribution.nodes[0]? = some (.identifier name) := by
    obtain rfl := Except.ok.inj h
    rfl
  have htarget := Contribution.isIdentifier_addTo program hnode
  have hhas := Contribution.has_addTo program hnode
  have hvalue := hgrows.uses huses
  obtain rfl := Except.ok.inj h
  refine ⟨?_, ?_, ?_, trivial⟩
  · intro offset node hnode
    obtain rfl := List.mem_singleton.mp (List.mem_of_getElem? hnode)
    trivial
  · intro instruction hinstruction
    obtain rfl := Option.some.inj hinstruction
    apply instructionFits_pair (hasBefore_of_grows hgrows huses)
      ⟨hhas, trivial⟩
    rw [Instruction.isShaped, Bool.and_eq_true, Bool.not_eq_true']
    exact ⟨hvalue.2, htarget⟩
  · intro binding hbinding
    obtain rfl := Option.some.inj hbinding
    exact hvalue

/-- An evaluation refers to a value, and its result is an evaluation. -/
theorem fits_evaluation (hframe : ∀ value ∈ frame, Holds program value)
    (h : evaluation program frame = .ok contribution) :
    contribution.Fits program := by
  obtain ⟨value, hvalue, h⟩ := exists_of_bind_eq_ok h
  have huses := uses_of_operandAt hframe hvalue
  have hgrows := contribution.grows program
  obtain rfl := Except.ok.inj h
  refine ⟨by simp, ?_, by simp, ?_⟩
  · intro instruction hinstruction
    obtain rfl := Option.some.inj hinstruction
    exact instructionFits_single (hasBefore_of_grows hgrows huses) rfl
  · refine ⟨?_, rfl⟩
    show (program.code.push (.eval value))[program.code.size]?.map _ = _
    rw [Array.getElem?_push_size]
    rfl

/-- Printing refers to a value. -/
theorem fits_printing (hframe : ∀ value ∈ frame, Holds program value)
    (h : printing program frame = .ok contribution) :
    contribution.Fits program := by
  obtain ⟨value, hvalue, h⟩ := exists_of_bind_eq_ok h
  have huses := uses_of_operandAt hframe hvalue
  have hgrows := contribution.grows program
  obtain rfl := Except.ok.inj h
  refine ⟨by simp, ?_, by simp, trivial⟩
  intro instruction hinstruction
  obtain rfl := Option.some.inj hinstruction
  exact instructionFits_single (hasBefore_of_grows hgrows huses) rfl

/-- An identifier stands for a value, since the table holds only values. -/
theorem fits_identifierUse (hprogram : program.WellFormed)
    (h : identifierUse program frame = .ok contribution) :
    contribution.Fits program := by
  obtain ⟨name, _, h⟩ := exists_of_bind_eq_ok h
  have hgrows := contribution.grows program
  split at h
  · next value hget =>
    have huses := hprogram.bindings _ (Symbols.mem_entries_of_get? hget)
    obtain rfl := Except.ok.inj h
    exact ⟨by simp, by simp, by simp, hgrows.uses huses⟩
  · cases h

/-- A name is a new variable. -/
theorem fits_nameUse (h : nameUse program frame = .ok contribution) :
    contribution.Fits program := by
  obtain ⟨name, _, h⟩ := exists_of_bind_eq_ok h
  have hnode : contribution.nodes[0]? = some (.var name) := by
    obtain rfl := Except.ok.inj h
    rfl
  have hhas := Contribution.has_addTo program hnode
  have hplain := Contribution.isIdentifier_addTo program hnode
  obtain rfl := Except.ok.inj h
  refine ⟨?_, by simp, by simp, hhas, hplain⟩
  intro offset node hnode
  obtain rfl := List.mem_singleton.mp (List.mem_of_getElem? hnode)
  trivial

/-- A function refers to its own variable and to a value as body. -/
theorem fits_function (hframe : ∀ value ∈ frame, Holds program value)
    (h : function program frame = .ok contribution) :
    contribution.Fits program := by
  obtain ⟨name, _, h⟩ := exists_of_bind_eq_ok h
  obtain ⟨body, hbody, h⟩ := exists_of_bind_eq_ok h
  have huses := uses_of_operandAt hframe hbody
  have hgrows := contribution.grows program
  have hbound : contribution.nodes[0]? = some (.var name) := by
    obtain rfl := Except.ok.inj h
    rfl
  have hself : contribution.nodes[1]?
      = some (.lam program.graph.size body) := by
    obtain rfl := Except.ok.inj h
    rfl
  have hvar := Contribution.isVar_addTo program hbound
  have hhas := Contribution.has_addTo program hbound
  have hselfHas := Contribution.has_addTo program hself
  have hselfPlain := Contribution.isIdentifier_addTo program hself
  have hbody := hgrows.uses huses
  obtain rfl := Except.ok.inj h
  refine ⟨?_, ?_, by simp, hselfHas, hselfPlain⟩
  · intro offset node hnode
    match offset, hnode with
    | 0, hnode =>
        obtain rfl := Option.some.inj hnode
        trivial
    | 1, hnode =>
        obtain rfl := Option.some.inj hnode
        exact ⟨Nat.lt_succ_self _, hvar,
          usesBelow_of_grows hgrows huses (Nat.le_succ _)⟩
  · intro instruction hinstruction
    obtain rfl := Option.some.inj hinstruction
    apply instructionFits_pair ⟨hhas, trivial⟩
      (hasBefore_of_grows hgrows huses)
    rw [Instruction.isShaped, Bool.and_eq_true, Bool.not_eq_true']
    exact ⟨hvar, hbody.2⟩

/-- An application refers to two values. -/
theorem fits_application (hframe : ∀ value ∈ frame, Holds program value)
    (h : application program frame = .ok contribution) :
    contribution.Fits program := by
  obtain ⟨applied, happlied, h⟩ := exists_of_bind_eq_ok h
  obtain ⟨applicand, happlicand, h⟩ := exists_of_bind_eq_ok h
  have hfirst := uses_of_operandAt hframe happlied
  have hsecond := uses_of_operandAt hframe happlicand
  have hgrows := contribution.grows program
  have hself : contribution.nodes[0]? = some (.app applied applicand) := by
    obtain rfl := Except.ok.inj h
    rfl
  have hhas := Contribution.has_addTo program hself
  have hplain := Contribution.isIdentifier_addTo program hself
  obtain rfl := Except.ok.inj h
  refine ⟨?_, ?_, by simp, hhas, hplain⟩
  · intro offset node hnode
    obtain rfl := List.mem_singleton.mp (List.mem_of_getElem? hnode)
    exact ⟨usesBelow_of_grows hgrows hfirst (Nat.le_add_right _ _),
      usesBelow_of_grows hgrows hsecond (Nat.le_add_right _ _)⟩
  · intro instruction hinstruction
    obtain rfl := Option.some.inj hinstruction
    exact instructionFits_pair (hasBefore_of_grows hgrows hfirst)
      (hasBefore_of_grows hgrows hsecond) rfl

/-- A value that is passed on from the frame. -/
theorem fits_value {value : Value} (h : Holds program value) :
    ({ value } : Contribution).Fits program :=
  ⟨by simp, by simp, by simp, h.grow (Contribution.grows _ program)⟩

/-- A value that may be missing holds if it holds where it is there. -/
theorem holds_getD {value : Option Value}
    (h : ∀ found ∈ value, Holds program found) :
    Holds program (value.getD .empty) := by
  cases value with
  | none => trivial
  | some found => exact h found rfl

/-- **Whatever a production contributes fits.** -/
theorem fits_meaning (hprogram : program.WellFormed)
    (hframe : ∀ value ∈ frame, Holds program value) {production : Production}
    (h : production.meaning program frame = .ok contribution) :
    contribution.Fits program := by
  cases production with
  | declaration => exact fits_declaration hframe h
  | evaluation => exact fits_evaluation hframe h
  | print => exact fits_printing hframe h
  | identifier => exact fits_identifierUse hprogram h
  | name => exact fits_nameUse h
  | group =>
      obtain rfl := Except.ok.inj h
      apply fits_value
      apply holds_getD
      exact fun found hfound => hframe found (List.mem_of_getElem? hfound)
  | function => exact fits_function hframe h
  | application => exact fits_application hframe h
  | pass =>
      obtain rfl := Except.ok.inj h
      apply fits_value
      apply holds_getD
      exact fun found hfound => hframe found (List.mem_of_getLast? hfound)

end Productions

end Grammar

end LambdaStack
