import Mathlib.Data.List.Forall2
import Mathlib.Logic.Equiv.Basic
import LambdaStack.Proofs.Assembly

/-!
# Spelling does not matter

Names are compared, looked up and numbered in the order in which they are asked
for; how they are spelt never decides anything, except for the one reserved
name.  So if all variables and all identifiers of a program are renamed, each
to a name of its own, lowering does the same as before:

    program                      renamed program
    bytes                        the same bytes
    name with a given code       its new name, with the same code
    error at an instruction      the same error there, with new names in it

A `Renaming` has to leave the reserved name alone, or a parameter could be
taken for it.

Main statement: `lowering_ignores_spelling`.
-/

namespace LambdaStack.Bytecode

/-- New names for identifiers and variables.  No two names become the same, and
the reserved name stays. -/
structure Renaming where
  identifier : String → String
  bound : String → String
  identifier_injective : Function.Injective identifier
  bound_injective : Function.Injective bound
  bound_substitute : bound substitute = substitute

namespace Renaming

variable (renames : Renaming)

/-- The new name of a name of the given class. -/
def name : NameClass → String → String
  | .identifier => renames.identifier
  | .bound => renames.bound

/-- The node with its new name. -/
def node : Node → Node
  | .var name => .var (renames.bound name)
  | .identifier name => .identifier (renames.identifier name)
  | .lam bound body => .lam bound body
  | .app applied applicand => .app applied applicand

/-- The graph with new names. -/
def graph (graph : Graph) : Graph :=
  ⟨graph.nodes.map renames.node⟩

/-- The same bindings under new names. -/
def symbols (symbols : Symbols) : Symbols :=
  ⟨symbols.entries.map fun entry => (renames.identifier entry.1, entry.2)⟩

/-- New names with the old codes. -/
def names (nameClass : NameClass) (names : Names) : Names :=
  ⟨names.list.map (renames.name nameClass)⟩

/-- The same bytes, and new names everywhere else. -/
def assembler (assembler : Assembler) : Assembler where
  bytes := assembler.bytes
  symbols := renames.symbols assembler.symbols
  identifierNames := renames.names .identifier assembler.identifierNames
  variableNames := renames.names .bound assembler.variableNames

/-- The same error, with new names in it. -/
inductive SameError (graph : Graph) : LoweringError → LoweringError → Prop
  | undefined (index : Nat) (name : String) :
      SameError graph (.undefined index name)
        (.undefined index (renames.identifier name))
  | missingOperand (index : Nat) (operation : Operation) :
      SameError graph (.missingOperand index operation)
        (.missingOperand index operation)
  | shape (index : Nat) (expected : NameClass) (operand : Operand) :
      SameError graph (.shape index expected (graph.render operand))
        (.shape index expected ((renames.graph graph).render operand))
  | tooManyNames (nameClass : NameClass) :
      SameError graph (.tooManyNames nameClass) (.tooManyNames nameClass)

/-- The same step, with new names in it. -/
inductive SameStep (graph : Graph) : Step → Step → Prop
  | bind (name : String) (value : Operand) :
      SameStep graph (.bind name value)
        (.bind (renames.identifier name) value)
  | bare (command : Command) : SameStep graph (.bare command) (.bare command)
  | named (command : Command) (name : String) :
      SameStep graph (.named command name)
        (.named command (renames.name command.nameClass name))
  | fail {error other : LoweringError}
      (herror : renames.SameError graph error other) :
      SameStep graph (.fail error) (.fail other)

/-- The other assembly has done the same, with new names. -/
structure SameAssembly (graph : Graph) (assembly other : Assembly) :
    Prop where
  assembler : other.assembler = renames.assembler assembly.assembler
  error : Option.Rel (renames.SameError graph) assembly.error? other.error?

/-! ### Looking up names -/

section LookUps

/-- No two names of a class become the same. -/
theorem name_injective (nameClass : NameClass) :
    Function.Injective (renames.name nameClass) := by
  cases nameClass with
  | identifier => exact renames.identifier_injective
  | bound => exact renames.bound_injective

/-- The node behind an operand is the old one with its new name. -/
theorem resolve?_graph (graph : Graph) (operand : Operand) :
    (renames.graph graph).resolve? operand
      = (graph.resolve? operand).map renames.node := by
  cases operand with
  | node index => exact Array.getElem?_map
  | result instruction => rfl

/-- A name is bound, under its new spelling, to what it was bound to. -/
theorem get?_symbols (symbols : Symbols) (name : String) :
    (renames.symbols symbols).get? (renames.identifier name)
      = symbols.get? name := by
  obtain ⟨entries⟩ := symbols
  simp only [Symbols.get?, Renaming.symbols]
  induction entries with
  | nil => rfl
  | cons entry entries ih =>
      have hsame : (renames.identifier name == renames.identifier entry.1)
          = (name == entry.1) := by
        simp only [Bool.beq_eq_decide_eq,
          renames.identifier_injective.eq_iff]
      rw [List.map_cons, List.lookup_cons, List.lookup_cons, hsame, ih]

/-- The same names are bound. -/
theorem contains_symbols (symbols : Symbols) (name : String) :
    (renames.symbols symbols).contains (renames.identifier name)
      = symbols.contains name := by
  rw [Symbols.contains, get?_symbols, Symbols.contains]

/-- Binding a new name gives the bindings after binding the old one, renamed.
-/
theorem insert_symbols (symbols : Symbols) (name : String)
    (value : Operand) :
    (renames.symbols symbols).insert (renames.identifier name) value
      = renames.symbols (symbols.insert name value) := by
  obtain ⟨entries⟩ := symbols
  simp only [Symbols.insert, Renaming.symbols]
  congr 1
  induction entries with
  | nil => rfl
  | cons entry entries ih =>
      simp only [List.map_cons, Symbols.setEntry,
        renames.identifier_injective.eq_iff, ih]
      split <;> rfl

/-- A name stands under its new spelling where it stood before. -/
theorem position?_names (nameClass : NameClass) (names : Names)
    (name : String) :
    (renames.names nameClass names).position? (renames.name nameClass name)
      = names.position? name := by
  obtain ⟨⟨list⟩⟩ := names
  simp only [Names.position?, Renaming.names, List.map_toArray,
    List.idxOf?_toArray]
  induction list with
  | nil => rfl
  | cons first list ih =>
      have hsame : (renames.name nameClass first
          == renames.name nameClass name) = (first == name) := by
        simp only [Bool.beq_eq_decide_eq,
          (renames.name_injective nameClass).eq_iff]
      rw [List.map_cons, List.idxOf?_cons, List.idxOf?_cons, hsame, ih]

/-- **A name that is asked for gets the same code under its new name.** -/
theorem intern_names (nameClass : NameClass) (names : Names)
    (name : String) :
    (renames.names nameClass names).intern (renames.name nameClass name)
      = ((names.intern name).1,
        renames.names nameClass (names.intern name).2) := by
  simp only [Names.intern, position?_names]
  split
  · rfl
  · simp [Names.add, Renaming.names]

end LookUps

/-! ### Planning -/

section Planning

variable (graph : Graph) (table : Symbols) (index : Nat)

/-- An operand of the wrong kind is complained about in both graphs, each time
as it is written there. -/
theorem sameStep_shape (expected : NameClass) (operand : Operand) :
    renames.SameStep graph
      (.fail (.shape index expected (graph.render operand)))
      (.fail (.shape index expected ((renames.graph graph).render operand))) :=
  .fail (.shape index expected operand)

/-- An assignment calls for the same steps: whether its value is a variable or
a bound identifier does not depend on any spelling. -/
theorem sameSteps_planAssign (value target : Operand) :
    List.Forall₂ (renames.SameStep graph)
      (planAssign graph table index value target)
      (planAssign (renames.graph graph) (renames.symbols table) index value
        target) := by
  have hshape := renames.sameStep_shape graph index .identifier target
  simp only [planAssign, resolve?_graph]
  cases graph.resolve? target with
  | none => exact .cons hshape .nil
  | some targetNode =>
      cases targetNode with
      | identifier name =>
          have hstore : renames.SameStep graph (.named .store name)
              (.named .store (renames.identifier name)) := .named .store name
          cases graph.resolve? value with
          | none => exact .cons hstore .nil
          | some valueNode =>
              cases valueNode with
              | var source =>
                  exact .cons (.bind name value)
                    (.cons (.named .push source) (.cons hstore .nil))
              | identifier source =>
                  simp only [Option.map_some, node, get?_symbols]
                  cases table.get? source with
                  | none => exact .cons (.fail (.undefined index source)) .nil
                  | some meaning =>
                      exact .cons (.bind name meaning)
                        (.cons (.named .load source) (.cons hstore .nil))
              | _ => exact .cons hstore .nil
      | _ => exact .cons hshape .nil

/-- A body is the parameter under the new names if it was so under the old. -/
theorem sameSteps_planBody (parameter : String) (body : Operand) :
    List.Forall₂ (renames.SameStep graph)
      (planBody graph table index parameter body)
      (planBody (renames.graph graph) (renames.symbols table) index
        (renames.bound parameter) body) := by
  simp only [planBody, resolve?_graph]
  cases graph.resolve? body with
  | none => exact .nil
  | some bodyNode =>
      cases bodyNode with
      | identifier name =>
          simp only [Option.map_some, node, contains_symbols]
          split
          · exact .cons (.named .load name) .nil
          · exact .cons (.fail (.undefined index name)) .nil
      | var name =>
          simp only [Option.map_some, node,
            renames.bound_injective.eq_iff]
          split
          · have hreserved : renames.SameStep graph (.named .push substitute)
                (.named .push (renames.bound substitute)) :=
              .named .push substitute
            rw [renames.bound_substitute] at hreserved
            exact .cons hreserved .nil
          · exact .cons (.named .push name) .nil
      | _ => exact .nil

/-- A function calls for the same steps, its parameter renamed. -/
theorem sameSteps_planFunc (bound body : Operand) :
    List.Forall₂ (renames.SameStep graph)
      (planFunc graph table index bound body)
      (planFunc (renames.graph graph) (renames.symbols table) index bound
        body) := by
  have hshape := renames.sameStep_shape graph index .bound bound
  simp only [planFunc, resolve?_graph]
  cases graph.resolve? bound with
  | none => exact .cons hshape .nil
  | some boundNode =>
      cases boundNode with
      | var parameter =>
          refine .cons (.named .push parameter) ?_
          exact List.rel_append
            (renames.sameSteps_planBody graph table index parameter body)
            (.cons (.bare .func) .nil)
      | _ => exact .cons hshape .nil

/-- **An instruction calls for the same steps.** -/
theorem sameSteps_plan (instruction : Instruction) :
    List.Forall₂ (renames.SameStep graph)
      (plan graph table index instruction)
      (plan (renames.graph graph) (renames.symbols table) index
        instruction) := by
  obtain ⟨operation, first, second⟩ := instruction
  cases operation with
  | assign =>
      cases second with
      | none => exact .cons (.fail (.missingOperand index .assign)) .nil
      | some target =>
          exact renames.sameSteps_planAssign graph table index first target
  | func =>
      cases second with
      | none => exact .cons (.fail (.missingOperand index .func)) .nil
      | some body =>
          exact renames.sameSteps_planFunc graph table index first body
  | apply => exact .nil
  | eval => exact .cons (.bare .eval) .nil
  | print => exact .cons (.bare .print) .nil

end Planning

/-! ### Performing -/

section Performing

variable {graph : Graph}

/-- The names of a class are renamed by the names of that class. -/
theorem names_assembler (assembler : Assembler) (nameClass : NameClass) :
    (renames.assembler assembler).names nameClass
      = renames.names nameClass (assembler.names nameClass) := by
  cases nameClass <;> rfl

/-- Names can be put in place before or after they are renamed. -/
theorem setNames_assembler (assembler : Assembler) (nameClass : NameClass)
    (names : Names) :
    (renames.assembler assembler).setNames nameClass
        (renames.names nameClass names)
      = renames.assembler (assembler.setNames nameClass names) := by
  cases nameClass <;> rfl

/-- Asking for a code renames nothing but the name that is asked for. -/
theorem code_assembler (assembler : Assembler) (nameClass : NameClass)
    (name : String) :
    (renames.assembler assembler).code nameClass (renames.name nameClass name)
      = ((assembler.code nameClass name).1,
        renames.assembler (assembler.code nameClass name).2) := by
  simp only [Assembler.code, names_assembler, intern_names,
    setNames_assembler]

/-- **A step does the same.** -/
theorem sameAssembly_perform (assembler : Assembler) {step other : Step}
    (h : renames.SameStep graph step other) :
    renames.SameAssembly graph (assembler.perform step)
      ((renames.assembler assembler).perform other) := by
  cases h with
  | bind name value =>
      refine ⟨?_, .none⟩
      simp only [Assembler.perform, Renaming.assembler, insert_symbols]
  | bare command => exact ⟨rfl, .none⟩
  | named command name =>
      simp only [Assembler.perform, code_assembler]
      rcases hcode : assembler.code command.nameClass name with
        ⟨error | byte, interned⟩
      · refine ⟨rfl, .some ?_⟩
        -- only the number of names can be in the way
        rw [Assembler.error_of_code hcode]
        exact .tooManyNames command.nameClass
      · exact ⟨rfl, .none⟩
  | fail herror => exact ⟨rfl, .some herror⟩

variable {renames} in
/-- Either both go on, or both were stopped by the same error. -/
theorem SameAssembly.cases {assembly other : Assembly}
    (h : renames.SameAssembly graph assembly other) :
    (∃ after, assembly = ⟨after, none⟩ ∧
      other = ⟨renames.assembler after, none⟩) ∨
    ∃ after error same, assembly = ⟨after, some error⟩ ∧
      other = ⟨renames.assembler after, some same⟩ ∧
      renames.SameError graph error same := by
  obtain ⟨after, error⟩ := assembly
  obtain ⟨renamed, same⟩ := other
  obtain ⟨rfl, herror⟩ := h
  cases herror with
  | none => exact Or.inl ⟨after, rfl, rfl⟩
  | some hsame => exact Or.inr ⟨after, _, _, rfl, rfl, hsame⟩

/-- Steps that are the same one by one do the same, up to the first that fails.
-/
theorem sameAssembly_performAll (assembler : Assembler)
    {steps others : List Step}
    (h : List.Forall₂ (renames.SameStep graph) steps others) :
    renames.SameAssembly graph (assembler.performAll steps)
      ((renames.assembler assembler).performAll others) := by
  induction h generalizing assembler with
  | nil => exact ⟨rfl, .none⟩
  | cons hstep _ ih =>
      rcases (renames.sameAssembly_perform assembler hstep).cases with
        ⟨after, hdone, hredone⟩ | ⟨after, error, same, hdone, hredone, hsame⟩
      · simp only [Assembler.performAll, hdone, hredone]
        exact ih after
      · simp only [Assembler.performAll, hdone, hredone]
        exact ⟨rfl, .some hsame⟩

/-- An instruction does the same. -/
theorem sameAssembly_lower (graph : Graph) (index : Nat)
    (instruction : Instruction) (assembler : Assembler) :
    renames.SameAssembly graph (assembler.lower graph index instruction)
      ((renames.assembler assembler).lower (renames.graph graph) index
        instruction) :=
  renames.sameAssembly_performAll assembler
    (renames.sameSteps_plan graph assembler.symbols index instruction)

/-- **Instructions are lowered to the same**, as far as they can be. -/
theorem sameAssembly_assembleFrom (graph : Graph) (index : Nat)
    (instructions : List Instruction) (assembler : Assembler) :
    renames.SameAssembly graph
      (Assembler.assembleFrom graph index instructions assembler)
      (Assembler.assembleFrom (renames.graph graph) index instructions
        (renames.assembler assembler)) := by
  induction instructions generalizing index assembler with
  | nil => exact ⟨rfl, .none⟩
  | cons instruction instructions ih =>
      rcases (renames.sameAssembly_lower graph index instruction
          assembler).cases with
        ⟨after, hdone, hredone⟩ | ⟨after, error, same, hdone, hredone, hsame⟩
      · simp only [Assembler.assembleFrom, hdone, hredone]
        exact ih (index + 1) after
      · simp only [Assembler.assembleFrom, hdone, hredone]
        exact ⟨rfl, .some hsame⟩

/-- At the start only the reserved name is there, and it stays. -/
theorem assembler_initial (table : Symbols) :
    renames.assembler (Assembler.initial table)
      = Assembler.initial (renames.symbols table) := by
  simp [assembler, Assembler.initial, names, name, renames.bound_substitute]

end Performing

end Renaming

/-- **Lowering ignores how names are spelt.**  If the variables and identifiers
of a graph and its bindings are renamed, each to a name of its own and the
reserved name to itself, then lowering the same instructions writes the same
bytes, gives every new name the code that the old one had, and binds the new
names to what the old ones were bound to.  It goes equally far: after any number
of instructions both have been stopped, by the same error about the same
instruction, or neither has. -/
theorem lowering_ignores_spelling (renames : Renaming) (graph : Graph)
    (symbols : Symbols) (instructions : List Instruction) :
    let lowered := fun count => (Assembler.initial symbols).assemble graph
      (instructions.take count)
    let renamed := fun count =>
      (Assembler.initial (renames.symbols symbols)).assemble
        (renames.graph graph) (instructions.take count)
    ∀ count,
      (renamed count).assembler.bytes = (lowered count).assembler.bytes ∧
      (∀ nameClass code,
        ((renamed count).assembler.names nameClass).name? code
          = (((lowered count).assembler.names nameClass).name? code).map
            (renames.name nameClass)) ∧
      (renamed count).assembler.symbols
        = renames.symbols (lowered count).assembler.symbols ∧
      Option.Rel (renames.SameError graph) (lowered count).error?
        (renamed count).error? := by
  intro lowered renamed count
  have hsame : renames.SameAssembly graph (lowered count) (renamed count) := by
    have hinitial := renames.sameAssembly_assembleFrom graph 0
      (instructions.take count) (Assembler.initial symbols)
    rw [renames.assembler_initial] at hinitial
    exact hinitial
  refine ⟨?_, ?_, ?_, hsame.error⟩
  · rw [hsame.assembler]
    rfl
  · intro nameClass code
    rw [hsame.assembler, renames.names_assembler]
    exact Array.getElem?_map
  · rw [hsame.assembler]
    rfl

/-- Two variables trade their names, and so do two identifiers. -/
def Renaming.trade (left right first second : String)
    (hleft : substitute ≠ left) (hright : substitute ≠ right) : Renaming where
  identifier := Equiv.swap first second
  bound := Equiv.swap left right
  identifier_injective := (Equiv.swap first second).injective
  bound_injective := (Equiv.swap left right).injective
  bound_substitute := Equiv.swap_apply_of_ne_of_ne hleft hright

/-- Two variables and two identifiers. -/
def fourNames : Graph :=
  ⟨#[.var "x", .var "y", .identifier "F", .identifier "G"]⟩

/-- Makes `\x.y`, assigns `y` to `F`, and then assigns `G` to it, which is not
bound to anything. -/
def threeSteps : List Instruction :=
  [.func (.node 0) (.node 1), .assign (.node 1) (.node 2),
    .assign (.node 3) (.node 2)]

/-- The names trade places in all tables and in the error, while the bytes stay
as they are. -/
theorem lowering_of_traded_names :
    let renames := Renaming.trade "x" "y" "F" "G" (by decide) (by decide)
    let lowered := (Assembler.initial {}).assemble fourNames threeSteps
    let renamed := (Assembler.initial (renames.symbols {})).assemble
      (renames.graph fourNames) threeSteps
    (renames.graph fourNames
        = ⟨#[.var "y", .var "x", .identifier "G", .identifier "F"]⟩ ∧
      lowered.assembler = ⟨#[1, 1, 1, 2, 4, 1, 2, 2, 0],
        ⟨[("F", .node 1)]⟩, ⟨#["F"]⟩, ⟨#[substitute, "x", "y"]⟩⟩ ∧
      renamed.assembler = ⟨#[1, 1, 1, 2, 4, 1, 2, 2, 0],
        ⟨[("G", .node 1)]⟩, ⟨#["G"]⟩, ⟨#[substitute, "y", "x"]⟩⟩ ∧
      lowered.error? = some (.undefined 2 "G") ∧
      renamed.error? = some (.undefined 2 "F")) ∧
    renamed.assembler.bytes = lowered.assembler.bytes ∧
    (∀ nameClass code,
      (renamed.assembler.names nameClass).name? code
        = ((lowered.assembler.names nameClass).name? code).map
          (renames.name nameClass)) ∧
    renamed.assembler.symbols
      = renames.symbols lowered.assembler.symbols ∧
    Option.Rel (renames.SameError fourNames) lowered.error? renamed.error? :=
  ⟨by decide +kernel,
    lowering_ignores_spelling _ fourNames {} threeSteps 3⟩

end LambdaStack.Bytecode
