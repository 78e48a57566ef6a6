import LambdaStack.Proofs.Bindings
import LambdaStack.Proofs.Marker
import LambdaStack.Proofs.Script
import LambdaStack.Proofs.Spelling

/-!
# How many names a program may have

Whether a program can be lowered is decided by counting.  In a program that was
read from texts every instruction has the operands it calls for, no operand is
a bare identifier, and so nothing has to be looked up: what an instruction says
(`utterance`) depends on the graph alone.

    assign value target    PUSH value if it is a variable, STORE target
    func bound body        PUSH bound, PUSH body if it is a variable, FUNC
    apply                  nothing
    eval, print            EVAL, PRINT

The one thing that can go wrong is that a name gets no code.  There are 256
codes for the targets of assignments and 256 for variables, and the first of
the latter belongs to the reserved name, which no variable has.
-/

namespace LambdaStack

/-- The names of the variables that an instruction mentions, except that a
function whose body is named as its bound variable mentions the name once. -/
def Instruction.variableNames (graph : Graph) (instruction : Instruction) :
    List String :=
  match instruction.operation, instruction.second with
  | .assign, some _ => (graph.varName? instruction.first).toList
  | .func, some body =>
    (graph.varName? instruction.first).toList.flatMap fun parameter =>
      parameter :: (graph.varName? body).toList.filter (· ≠ parameter)
  | _, _ => []

namespace Program

/-- The names of the targets of assignments, in order. -/
def targetNames (program : Program) : List String :=
  program.bindings.map Prod.fst

/-- The names of bound variables, of variables that are the body of a function
with another bound variable, and of variables that are assigned. -/
def variableNames (program : Program) : List String :=
  program.code.toList.flatMap (Instruction.variableNames program.graph)

end Program

namespace Bytecode

/-! ### What instructions say -/

/-- The lines of an instruction that has the operands it calls for. -/
def utterance (graph : Graph) (instruction : Instruction) : List Line :=
  match instruction.operation, instruction.second with
  | .assign, some _ =>
    (graph.varName? instruction.first).toList.map
        (fun name => ⟨.push, some name⟩)
      ++ (instruction.binding? graph).toList.map
        (fun binding => ⟨.store, some binding.1⟩)
  | .func, some body =>
    (graph.varName? instruction.first).toList.flatMap fun parameter =>
      ⟨.push, some parameter⟩
        :: ((graph.varName? body).toList.map
          (fun name => ⟨.push, some (pushedName parameter name)⟩)
        ++ [⟨.func, none⟩])
  | .eval, _ => [⟨.eval, none⟩]
  | .print, _ => [⟨.print, none⟩]
  | _, _ => []

/-- The line that a step writes. -/
def Step.line? : Step → Option Line
  | .bare command => some ⟨command, none⟩
  | .named command name => some ⟨command, some name⟩
  | .bind _ _ | .fail _ => none

/-- The step does not give up. -/
def Step.isDoable : Step → Bool
  | .fail _ => false
  | _ => true

/-- **The plan of an instruction with its operands** says what the instruction
says, whatever is bound, and never gives up. -/
theorem plan_of_isShaped {graph : Graph} {instruction : Instruction}
    (h : instruction.isShaped graph) (symbols : Symbols) (index : Nat) :
    (plan graph symbols index instruction).all Step.isDoable ∧
      (plan graph symbols index instruction).filterMap Step.line?
        = utterance graph instruction := by
  obtain ⟨operation, first, second⟩ := instruction
  cases operation with
  | assign =>
      cases second with
      | none => cases h
      | some target =>
          rw [Instruction.isShaped, Bool.and_eq_true, Bool.not_eq_true'] at h
          obtain ⟨hplain, htarget⟩ := h
          obtain ⟨name, hname⟩ := Graph.exists_name_of_isIdentifier htarget
          simp only [plan, planAssign, utterance, Instruction.binding?, hname,
            Graph.varName?]
          cases hvalue : graph.resolve? first with
          | none => exact ⟨rfl, rfl⟩
          | some node =>
              cases node with
              | identifier source =>
                  rw [Graph.isIdentifier, hvalue] at hplain
                  cases hplain
              | var source => exact ⟨rfl, rfl⟩
              | lam bound body => exact ⟨rfl, rfl⟩
              | app applied applicand => exact ⟨rfl, rfl⟩
  | func =>
      cases second with
      | none => cases h
      | some body =>
          rw [Instruction.isShaped, Bool.and_eq_true, Bool.not_eq_true'] at h
          obtain ⟨hbound, hplain⟩ := h
          simp only [plan, planFunc, utterance, Graph.varName?]
          cases hfirst : graph.resolve? first with
          | none =>
              rw [Graph.isVar, hfirst] at hbound
              cases hbound
          | some node =>
              cases node with
              | var parameter =>
                  dsimp only
                  rw [Assembler.planBody_of_plain hplain, Graph.varName?]
                  cases (graph.resolve? body).bind Node.varName? with
                  | none => exact ⟨rfl, rfl⟩
                  | some name => exact ⟨rfl, rfl⟩
              | identifier | lam | app =>
                  rw [Graph.isVar, hfirst] at hbound
                  cases hbound
  | apply =>
      cases second with
      | none => cases h
      | some second => exact ⟨rfl, rfl⟩
  | eval => exact ⟨rfl, rfl⟩
  | print => exact ⟨rfl, rfl⟩

/-! ### Saying lines -/

/-- The names of a class that lines ask for. -/
def namesIn (nameClass : NameClass) (lines : List Line) : List String :=
  lines.filterMap fun line =>
    if line.command.nameClass = nameClass then line.name else none

theorem namesIn_append (nameClass : NameClass) (lines more : List Line) :
    namesIn nameClass (lines ++ more)
      = namesIn nameClass lines ++ namesIn nameClass more :=
  List.filterMap_append

/-- All names that were asked for have codes. -/
def Script.Roomy (script : Script) : Prop :=
  ∀ nameClass, (script.asked nameClass).dedup.length ≤ 256

/-- On top of a script the lines were said and their names asked for; or there
are too many names of a class, and that was the error. -/
def Says (script : Script) (lines : List Line) (recital : Recital) : Prop :=
  (recital.2 = none ∧ recital.1.lines = script.lines ++ lines ∧
    (∀ nameClass, recital.1.asked nameClass
      = script.asked nameClass ++ namesIn nameClass lines) ∧
    recital.1.Roomy) ∨
  ∃ nameClass, recital.2 = some (.tooManyNames nameClass) ∧
    256 < (script.asked nameClass ++ namesIn nameClass lines).dedup.length

theorem length_dedup_le_append (names more : List String) :
    names.dedup.length ≤ (names ++ more).dedup.length := by
  rw [← List.card_toFinset, ← List.card_toFinset, List.toFinset_append]
  exact Finset.card_le_card Finset.subset_union_left

/-- A name that was just asked for has a code if there are not too many names,
given that there were not too many before. -/
theorem rank_concat_lt_iff {asked : List String}
    (h : asked.dedup.length ≤ 256) (name : String) :
    rank (asked ++ [name]) name < 256 ↔
      (asked ++ [name]).dedup.length ≤ 256 := by
  by_cases hmem : name ∈ asked
  · -- the names that were asked for before it do not make up the whole count
    obtain ⟨before, rest, hsplit, hbefore⟩ := List.eq_append_cons_of_mem hmem
    have hfirst : asked = (before ++ [name]) ++ rest := by
      rw [hsplit, List.append_assoc, List.singleton_append]
    have hrank : rank asked name = before.dedup.length := by
      rw [hfirst, rank_append (by simp), rank_concat_of_notMem hbefore]
    have hcount : before.dedup.length + 1 ≤ asked.dedup.length := by
      rw [← length_dedup_concat_of_notMem hbefore, hfirst]
      exact length_dedup_le_append _ _
    rw [rank_append hmem, hrank, length_dedup_concat_of_mem hmem]
    omega
  · rw [rank_concat_of_notMem hmem, length_dedup_concat_of_notMem hmem]
    omega

namespace Says

variable {script : Script} {lines more : List Line} {recital : Recital}

theorem nil (h : script.Roomy) : Says script [] (script, none) :=
  Or.inl ⟨rfl, by simp, by simp [namesIn], h⟩

/-- Going on. -/
theorem andThen (h : Says script lines recital)
    {next : Script → Recital}
    (hnext : ∀ after : Script, after.Roomy → Says after more (next after)) :
    Says script (lines ++ more) (recital.andThen next) := by
  obtain ⟨after, error⟩ := recital
  rcases h with ⟨rfl, hlines, hasked, hroomy⟩ | ⟨nameClass, rfl, hmany⟩
  · rcases hnext after hroomy with
      ⟨hdone, hmore, hlater, hfits⟩ | ⟨nameClass, hfailed, hmany⟩
    · refine Or.inl ⟨hdone, ?_, ?_, hfits⟩
      · rw [← List.append_assoc, ← hlines]
        exact hmore
      · intro nameClass
        rw [namesIn_append, ← List.append_assoc, ← hasked]
        exact hlater nameClass
    · refine Or.inr ⟨nameClass, hfailed, ?_⟩
      rw [namesIn_append, ← List.append_assoc, ← hasked]
      exact hmany
  · refine Or.inr ⟨nameClass, rfl, ?_⟩
    rw [namesIn_append, ← List.append_assoc]
    exact Nat.lt_of_lt_of_le hmany (length_dedup_le_append _ _)

theorem say (h : script.Roomy) (command : Command) :
    Says script [⟨command, none⟩] (script.say command) := by
  refine Or.inl ⟨rfl, rfl, ?_, h⟩
  intro nameClass
  simp [namesIn, Script.say, Script.add]

/-- **A name can be said** unless it is one too many. -/
theorem sayName (h : script.Roomy) (command : Command) (name : String) :
    Says script [⟨command, some name⟩] (script.sayName command name) := by
  have hasked : ∀ nameClass,
      (script.ask command.nameClass name).asked nameClass
        = script.asked nameClass
          ++ namesIn nameClass [⟨command, some name⟩] := by
    intro nameClass
    rw [Script.asked_ask]
    by_cases hsame : nameClass = command.nameClass
    · simp [namesIn, hsame]
    · simp [namesIn, hsame, Ne.symm hsame]
  have hself := script.asked_ask_self command.nameClass name
  have hrank := rank_concat_lt_iff (h command.nameClass) name
  rw [← hself] at hrank
  simp only [Script.sayName]
  by_cases hlt : rank ((script.ask command.nameClass name).asked
      command.nameClass) name < 256
  · rw [if_pos hlt]
    refine Or.inl ⟨rfl, rfl, hasked, ?_⟩
    intro nameClass
    by_cases hsame : nameClass = command.nameClass
    · rw [hsame]
      exact hrank.mp hlt
    · have hother := hasked nameClass
      simp only [namesIn, Ne.symm hsame, List.filterMap_cons, if_false,
        List.filterMap_nil, List.append_nil] at hother
      show ((script.ask command.nameClass name).asked nameClass).dedup.length
        ≤ 256
      rw [hother]
      exact h nameClass
  · rw [if_neg hlt]
    refine Or.inr ⟨command.nameClass, rfl, ?_⟩
    rw [← hasked]
    rw [hrank] at hlt
    omega

end Says

/-! ### Programs -/

namespace Script

variable {graph : Graph}

/-- Steps that do not give up say their lines. -/
theorem says_performAll {steps : List Step} (h : steps.all Step.isDoable)
    {script : Script} (hroomy : script.Roomy) :
    Says script (steps.filterMap Step.line?) (performAll steps script) := by
  induction steps generalizing script with
  | nil => exact Says.nil hroomy
  | cons step steps ih =>
      rw [List.all_cons, Bool.and_eq_true] at h
      cases step with
      | bind name value =>
          have hbound : (script.bind name value).Roomy := hroomy
          exact ih h.2 hbound
      | bare command =>
          exact (Says.say hroomy command).andThen fun after hafter =>
            ih h.2 hafter
      | named command name =>
          exact (Says.sayName hroomy command name).andThen fun after hafter =>
            ih h.2 hafter
      | fail error => cases h.1

/-- **Instructions with their operands say what they say** one after the
other. -/
theorem says_lowerFrom {instructions : List Instruction}
    (h : ∀ instruction ∈ instructions, instruction.isShaped graph)
    (index : Nat) {script : Script} (hroomy : script.Roomy) :
    Says script (instructions.flatMap (utterance graph))
      (lowerFrom graph index instructions script) := by
  induction instructions generalizing index script with
  | nil => exact Says.nil hroomy
  | cons instruction instructions ih =>
      obtain ⟨hdoable, hlines⟩ := plan_of_isShaped
        (h instruction List.mem_cons_self) script.symbols index
      have hfirst := says_performAll hdoable hroomy
      rw [hlines, ← script.lower_eq_performAll] at hfirst
      rw [List.flatMap_cons, lowerFrom]
      exact hfirst.andThen fun after hafter =>
        ih (fun other hother => h other (List.mem_cons_of_mem _ hother))
          (index + 1) hafter

theorem roomy_initial (symbols : Symbols) : (initial symbols).Roomy := by
  intro nameClass
  cases nameClass <;> simp [initial]

end Script

/-- The lines of a well-formed program. -/
def programLines (program : Program) : List Line :=
  program.code.toList.flatMap (utterance program.graph)

/-- **Lowering a well-formed program** writes its lines, or finds too many
names of a class. -/
theorem assembleProgram_cases {program : Program} (h : program.WellFormed) :
    (∃ script : Script, (assembleProgram program).error? = none ∧
      (assembleProgram program).assembler.Follows script ∧
      script.lines = programLines program ∧
      ∀ nameClass, script.asked nameClass
          = (Script.initial program.symbols).asked nameClass
            ++ namesIn nameClass (programLines program) ∧
        (script.asked nameClass).dedup.length ≤ 256) ∨
    ∃ nameClass,
      (assembleProgram program).error? = some (.tooManyNames nameClass) ∧
      256 < ((Script.initial program.symbols).asked nameClass
        ++ namesIn nameClass (programLines program)).dedup.length := by
  obtain ⟨hfollows, herror⟩ : (assembleProgram program).Follows
      (Script.lowerFrom program.graph 0 program.code.toList
        (Script.initial program.symbols)) :=
    (Assembler.Follows.initial program.symbols).assembleFrom program.graph 0 _
  have hshaped : ∀ instruction ∈ program.code.toList,
      instruction.isShaped program.graph := fun instruction hmem =>
    (h.has_of_mem hmem).1
  rw [herror]
  rcases Script.says_lowerFrom hshaped 0
      (Script.roomy_initial program.symbols) with
    ⟨hdone, hlines, hasked, hroomy⟩ | hmany
  · exact Or.inl ⟨_, hdone, hfollows, hlines,
      fun nameClass => ⟨hasked nameClass, hroomy nameClass⟩⟩
  · exact Or.inr hmany

/-! ### Counting -/

section Counting

variable {graph : Graph} {instruction : Instruction}

/-- The identifiers that an instruction asks for. -/
theorem namesIn_identifier_utterance (graph : Graph)
    (instruction : Instruction) :
    namesIn .identifier (utterance graph instruction)
      = (instruction.binding? graph).toList.map Prod.fst := by
  obtain ⟨operation, first, second⟩ := instruction
  cases operation with
  | assign =>
      cases second with
      | none => rfl
      | some target =>
          simp only [utterance, namesIn_append]
          generalize Instruction.binding? graph _ = binding
          cases graph.varName? first <;> cases binding <;> rfl
  | func =>
      cases second with
      | none => rfl
      | some body =>
          simp only [utterance]
          cases graph.varName? first <;> cases graph.varName? body <;> rfl
  | apply | eval | print => cases second <;> rfl

/-- The variables that an instruction asks for, the reserved name aside. -/
theorem mem_namesIn_bound_utterance {name : String} (h : name ≠ substitute) :
    name ∈ namesIn .bound (utterance graph instruction) ↔
      name ∈ instruction.variableNames graph := by
  obtain ⟨operation, first, second⟩ := instruction
  cases operation with
  | assign =>
      cases second with
      | none => rfl
      | some target =>
          simp only [utterance, Instruction.variableNames, namesIn_append]
          generalize Instruction.binding? graph _ = binding
          cases graph.varName? first <;> cases binding <;> rfl
  | func =>
      cases second with
      | none => rfl
      | some body =>
          simp only [utterance, Instruction.variableNames]
          cases graph.varName? first with
          | none => rfl
          | some parameter =>
              cases graph.varName? body with
              | none => rfl
              | some other =>
                  by_cases hsame : other = parameter
                  · simp [namesIn, Command.nameClass, pushedName, hsame, h]
                  · simp [namesIn, Command.nameClass, pushedName, hsame]
  | apply | eval | print => cases second <;> rfl

theorem namesIn_flatMap (nameClass : NameClass)
    (instructions : List Instruction) :
    namesIn nameClass (instructions.flatMap (utterance graph))
      = instructions.flatMap fun instruction =>
        namesIn nameClass (utterance graph instruction) :=
  List.filterMap_flatMap

/-- The identifiers of a program are the targets of its assignments. -/
theorem namesIn_identifier_programLines (program : Program) :
    namesIn .identifier (programLines program) = program.targetNames := by
  rw [programLines, namesIn_flatMap, Program.targetNames, Program.bindings]
  induction program.code.toList with
  | nil => rfl
  | cons instruction instructions ih =>
      rw [List.flatMap_cons, filterMap_cons_toList, List.map_append, ih,
        namesIn_identifier_utterance]

theorem mem_namesIn_bound_programLines {program : Program} {name : String}
    (h : name ≠ substitute) :
    name ∈ namesIn .bound (programLines program) ↔
      name ∈ program.variableNames := by
  rw [programLines, namesIn_flatMap, Program.variableNames, List.mem_flatMap,
    List.mem_flatMap]
  simp only [mem_namesIn_bound_utterance h]

/-- The reserved name takes one code. -/
theorem length_dedup_namesIn_bound {program : Program}
    (h : substitute ∉ program.variableNames) :
    (substitute :: namesIn .bound (programLines program)).dedup.length
      = program.variableNames.dedup.length + 1 := by
  have hsame : (substitute :: namesIn .bound (programLines program)).toFinset
      = (substitute :: program.variableNames).toFinset := by
    ext name
    simp only [List.mem_toFinset, List.mem_cons]
    by_cases hname : name = substitute
    · simp [hname]
    · rw [mem_namesIn_bound_programLines hname]
  rw [← List.card_toFinset, hsame, List.card_toFinset,
    List.dedup_cons_of_notMem h, List.length_cons]

end Counting

/-- **What can be said**: the push of a variable or of the reserved name, the
store of a target, and three commands without a name. -/
theorem mem_utterance_cases {graph : Graph} {instruction : Instruction}
    {line : Line} (h : line ∈ utterance graph instruction) :
    (∃ operand name, graph.varName? operand = some name ∧
      line = ⟨.push, some name⟩) ∨
    line = ⟨.push, some substitute⟩ ∨
    (∃ binding ∈ instruction.binding? graph,
      line = ⟨.store, some binding.1⟩) ∨
    ∃ command ∈ [.func, .eval, .print], line = ⟨command, none⟩ := by
  unfold utterance at h
  split at h
  · rcases List.mem_append.mp h with hpush | hstore
    · obtain ⟨name, hname, rfl⟩ := List.mem_map.mp hpush
      exact Or.inl ⟨_, name, Option.mem_toList.mp hname, rfl⟩
    · obtain ⟨binding, hbinding, rfl⟩ := List.mem_map.mp hstore
      exact Or.inr (Or.inr (Or.inl
        ⟨binding, Option.mem_toList.mp hbinding, rfl⟩))
  · obtain ⟨parameter, hparameter, hline⟩ := List.mem_flatMap.mp h
    rcases List.mem_cons.mp hline with rfl | hline
    · exact Or.inl ⟨_, parameter, Option.mem_toList.mp hparameter, rfl⟩
    · rcases List.mem_append.mp hline with hpush | hfunc
      · obtain ⟨name, hname, rfl⟩ := List.mem_map.mp hpush
        by_cases hsame : name = parameter
        · simp [pushedName, hsame]
        · refine Or.inl ⟨_, name, Option.mem_toList.mp hname, ?_⟩
          rw [pushedName, if_neg hsame]
      · obtain rfl := List.mem_singleton.mp hfunc
        simp
  · obtain rfl := List.mem_singleton.mp h
    simp
  · obtain rfl := List.mem_singleton.mp h
    simp
  · cases h

/-- Nothing is loaded, dropped or applied. -/
theorem command_of_mem_utterance {graph : Graph} {instruction : Instruction}
    {line : Line} (h : line ∈ utterance graph instruction) :
    line.command ≠ .load ∧ line.command ≠ .pop ∧ line.command ≠ .apply := by
  rcases mem_utterance_cases h with
    ⟨_, _, _, rfl⟩ | rfl | ⟨_, _, rfl⟩ | ⟨command, hcommand, rfl⟩
  · simp
  · simp
  · simp
  · cases command <;> simp at hcommand ⊢

end Bytecode

/-- A variable of a graph that is spelt well is spelt like a name. -/
theorem Graph.Spelt.isNameText {graph : Graph} (h : graph.Spelt)
    {operand : Operand} {name : String}
    (hname : graph.varName? operand = some name) :
    isNameText name.toList := by
  obtain ⟨node, hnode, hvar⟩ := Option.bind_eq_some_iff.mp hname
  cases node with
  | var found =>
      obtain rfl := Option.some.inj hvar
      cases operand with
      | node index => exact h index _ hnode
      | result instruction => cases hnode
  | identifier | lam | app => cases hvar

/-- The names that an instruction mentions are names of variables. -/
theorem exists_varName?_of_mem {graph : Graph} {instruction : Instruction}
    {name : String} (h : name ∈ instruction.variableNames graph) :
    ∃ operand, graph.varName? operand = some name := by
  unfold Instruction.variableNames at h
  split at h
  · exact ⟨_, Option.mem_toList.mp h⟩
  · obtain ⟨parameter, hparameter, hname⟩ := List.mem_flatMap.mp h
    rcases List.mem_cons.mp hname with rfl | hbody
    · exact ⟨_, Option.mem_toList.mp hparameter⟩
    · exact ⟨_, Option.mem_toList.mp (List.mem_filter.mp hbody).1⟩
  · cases h

namespace Grammar

open Bytecode

/-- The reserved name is spelt unlike a name. -/
theorem Written.substitute_notMem {program : Program} (h : Written program) :
    substitute ∉ program.variableNames := by
  intro hmem
  obtain ⟨instruction, _, hname⟩ := List.mem_flatMap.mp hmem
  obtain ⟨operand, hoperand⟩ := exists_varName?_of_mem hname
  have hspelt := h.spelt.isNameText hoperand
  exact absurd hspelt (by decide)

/-- **A program that was read from texts is lowered if its names have codes.**
Whatever texts were read, in whatever number of attempts and with whatever
outcomes, lowering succeeds exactly if there are at most 256 names of targets
and at most 255 names of variables; the class that has more is the only error
there is.  What is lowered can be read back, and loads, drops and applies
nothing. -/
theorem lowering_succeeds_iff_names_fit {program : Program}
    (h : Written program) :
    ((∃ assembler, (assembleProgram program).result = .ok assembler) ↔
      program.targetNames.dedup.length ≤ 256 ∧
        program.variableNames.dedup.length ≤ 255) ∧
    (∀ error, (assembleProgram program).result = .error error →
      error = .tooManyNames .identifier ∧
          256 < program.targetNames.dedup.length ∨
        error = .tooManyNames .bound ∧
          255 < program.variableNames.dedup.length) ∧
    ∀ assembler, (assembleProgram program).result = .ok assembler →
      ∃ items, decode assembler.bytes.toList = .ok items ∧
        ∀ item ∈ items, item.command ≠ .load ∧ item.command ≠ .pop ∧
          item.command ≠ .apply := by
  have htargets : (Script.initial program.symbols).asked .identifier
      ++ namesIn .identifier (programLines program) = program.targetNames :=
    namesIn_identifier_programLines program
  have hvariables : ((Script.initial program.symbols).asked .bound
      ++ namesIn .bound (programLines program)).dedup.length
      = program.variableNames.dedup.length + 1 :=
    length_dedup_namesIn_bound h.substitute_notMem
  rcases assembleProgram_cases h.wellFormed with
    ⟨script, hdone, hfollows, hlines, hasked⟩ | ⟨nameClass, herror, hmany⟩
  · have hresult : (assembleProgram program).result
        = .ok (assembleProgram program).assembler := by
      rw [Assembly.result, hdone]
    have hfits : program.targetNames.dedup.length ≤ 256 ∧
        program.variableNames.dedup.length ≤ 255 := by
      have hidentifier := hasked .identifier
      have hbound := hasked .bound
      rw [hidentifier.1, htargets] at hidentifier
      rw [hbound.1, hvariables] at hbound
      omega
    refine ⟨iff_of_true ⟨_, hresult⟩ hfits, ?_, ?_⟩
    · intro error herror
      rw [hresult] at herror
      cases herror
    · intro assembler hassembler
      rw [hresult] at hassembler
      obtain rfl := Except.ok.inj hassembler
      obtain ⟨items, hdecode, _, hitems⟩ := hfollows.exists_items
      refine ⟨items, hdecode, ?_⟩
      intro item hitem
      obtain ⟨line, hline, hcommand, _⟩ := hitems item hitem
      rw [hlines] at hline
      obtain ⟨instruction, _, hline⟩ := List.mem_flatMap.mp hline
      rw [hcommand]
      exact command_of_mem_utterance hline
  · have hresult : (assembleProgram program).result
        = .error (.tooManyNames nameClass) := by
      rw [Assembly.result, herror]
    have htooMany : nameClass = .identifier ∧
          256 < program.targetNames.dedup.length ∨
        nameClass = .bound ∧ 255 < program.variableNames.dedup.length := by
      cases nameClass with
      | identifier =>
          rw [htargets] at hmany
          exact Or.inl ⟨rfl, hmany⟩
      | bound =>
          rw [hvariables] at hmany
          exact Or.inr ⟨rfl, by omega⟩
    refine ⟨iff_of_false ?_ ?_, ?_, ?_⟩
    · rintro ⟨assembler, hassembler⟩
      rw [hresult] at hassembler
      cases hassembler
    · omega
    · intro error herror
      rw [hresult] at herror
      obtain rfl := Except.error.inj herror
      rcases htooMany with ⟨rfl, hcount⟩ | ⟨rfl, hcount⟩
      · exact Or.inl ⟨rfl, hcount⟩
      · exact Or.inr ⟨rfl, hcount⟩
    · intro assembler hassembler
      rw [hresult] at hassembler
      cases hassembler

/-- What is left of a text that breaks off can be lowered. -/
theorem lowering_of_unfinished_text :
    Written (readText "let X = v \\x.x )" .empty).reading.program ∧
    (readText "let X = v \\x.x )" .empty).outcome = some .rejected ∧
    ∃ assembler, (assembleProgram (readText "let X = v \\x.x )"
      .empty).reading.program).result = .ok assembler := by
  have hwritten : Written (readText "let X = v \\x.x )"
      .empty).reading.program :=
    Relation.ReflTransGen.single (readsTextOn_readText _ _)
  refine ⟨hwritten, by decide +kernel, ?_⟩
  apply (lowering_succeeds_iff_names_fit hwritten).1.mpr
  decide +kernel

end Grammar

end LambdaStack
