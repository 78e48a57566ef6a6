import Mathlib.Data.List.Nodup
import LambdaStack.Proofs.Assembly
import LambdaStack.Proofs.Reachable

/-!
# The bindings after lowering

A program records its declarations twice: in the table of its bindings, and as
`assign` instructions.  The two go together.  Replaying all assignments from
the empty table gives the table (`Program.Recorded`), which every reduction
keeps, because the instruction that it emits assigns what it binds.

Lowering starts from the finished table and replays some of the assignments:
those of variables.  A function, an application or the result of an `eval` is
not bound again.  So the last variable that was assigned to a name takes the
place of whatever the name was bound to later.

    let X = v   let X = \x.x      read: X is the function; lowered: X is v
    let X = \x.x   let X = v      read: X is v;            lowered: X is v

Main statement: the names and their order stay, and the bindings stay exactly
if no name that was ever assigned a variable is bound to something else in the
end.
-/

namespace LambdaStack

/-! ### Tables -/

namespace Symbols

/-- Binding names one list after the other. -/
theorem insertAll_append (symbols : Symbols)
    (first second : List (String × Operand)) :
    symbols.insertAll (first ++ second)
      = (symbols.insertAll first).insertAll second :=
  List.foldl_append

theorem map_fst_setEntry (name : String) (value : Operand)
    (entries : List (String × Operand)) :
    (setEntry name value entries).map Prod.fst
      = if name ∈ entries.map Prod.fst then entries.map Prod.fst
        else entries.map Prod.fst ++ [name] := by
  induction entries with
  | nil => rfl
  | cons entry entries ih =>
      unfold setEntry
      by_cases hfirst : entry.1 = name
      · simp [hfirst]
      · rw [if_neg hfirst, List.map_cons, ih]
        by_cases hmem : name ∈ entries.map Prod.fst
        · have hold : name ∈ (entry :: entries).map Prod.fst :=
            List.mem_cons_of_mem _ hmem
          rw [if_pos hmem, if_pos hold]
          rfl
        · have hnew : name ∉ (entry :: entries).map Prod.fst := by
            rw [List.map_cons, List.mem_cons, not_or]
            exact ⟨Ne.symm hfirst, hmem⟩
          rw [if_neg hmem, if_neg hnew]
          rfl

/-- A name that is bound anew is listed at the end. -/
theorem names_insert (symbols : Symbols) (name : String) (value : Operand) :
    (symbols.insert name value).names
      = if name ∈ symbols.names then symbols.names
        else symbols.names ++ [name] :=
  map_fst_setEntry name value symbols.entries

/-- No name is listed twice, however often it is bound. -/
theorem nodup_names_insert {symbols : Symbols} (h : symbols.names.Nodup)
    (name : String) (value : Operand) :
    (symbols.insert name value).names.Nodup := by
  rw [names_insert]
  split
  · exact h
  · next hnew =>
    rw [← List.concat_eq_append]
    exact List.Nodup.concat hnew h

theorem nodup_names_insertAll {symbols : Symbols} (h : symbols.names.Nodup)
    (bindings : List (String × Operand)) :
    (symbols.insertAll bindings).names.Nodup := by
  induction bindings generalizing symbols with
  | nil => exact h
  | cons binding bindings ih => exact ih (nodup_names_insert h _ _)

/-- Names that are listed keep their places when they are bound again. -/
theorem names_insertAll {symbols : Symbols}
    {bindings : List (String × Operand)}
    (h : ∀ binding ∈ bindings, binding.1 ∈ symbols.names) :
    (symbols.insertAll bindings).names = symbols.names := by
  induction bindings generalizing symbols with
  | nil => rfl
  | cons binding bindings ih =>
      have hfirst : (symbols.insert binding.1 binding.2).names
          = symbols.names := by
        rw [names_insert, if_pos (h binding List.mem_cons_self)]
      have hrest : ∀ later ∈ bindings,
          later.1 ∈ (symbols.insert binding.1 binding.2).names := by
        intro later hlater
        rw [hfirst]
        exact h later (List.mem_cons_of_mem _ hlater)
      exact (ih hrest).trans hfirst

/-- What a name is bound to last. -/
def last? (bindings : List (String × Operand)) (name : String) :
    Option Operand :=
  bindings.reverse.lookup name

theorem mem_of_last? {bindings : List (String × Operand)} {name : String}
    {value : Operand} (h : last? bindings name = some value) :
    (name, value) ∈ bindings := by
  obtain ⟨front, back, hentries, _⟩ := List.lookup_eq_some_iff.mp h
  rw [← List.mem_reverse, hentries]
  exact List.mem_append_right _ List.mem_cons_self

/-- A name that is bound at all is bound last to something. -/
theorem exists_last?_of_mem {bindings : List (String × Operand)}
    {binding : String × Operand} (h : binding ∈ bindings) :
    ∃ value, last? bindings binding.1 = some value := by
  cases hlast : last? bindings binding.1 with
  | some value => exact ⟨value, rfl⟩
  | none =>
      have hne := List.lookup_eq_none_iff.mp hlast binding
        (List.mem_reverse.mpr h)
      simp at hne

/-- A last binding that is kept is the last one of those that are kept. -/
theorem last?_filter {bindings : List (String × Operand)} {name : String}
    {value : Operand} (h : last? bindings name = some value)
    {keep : String × Operand → Bool} (hkeep : keep (name, value)) :
    last? (bindings.filter keep) name = some value := by
  obtain ⟨later, earlier, hentries, hlater⟩ := List.lookup_eq_some_iff.mp h
  rw [last?, ← List.filter_reverse, List.lookup_eq_some_iff]
  refine ⟨later.filter keep, earlier.filter keep, ?_, ?_⟩
  · rw [hentries, List.filter_append, List.filter_cons_of_pos hkeep]
  · exact fun binding hmem => hlater binding (List.mem_of_mem_filter hmem)

/-- **The last binding of a name counts.** -/
theorem get?_insertAll (symbols : Symbols)
    (bindings : List (String × Operand)) (name : String) :
    (symbols.insertAll bindings).get? name
      = (last? bindings name).or (symbols.get? name) := by
  induction bindings generalizing symbols with
  | nil => rfl
  | cons binding bindings ih =>
      have hstep := ih (symbols.insert binding.1 binding.2)
      rw [last?, List.reverse_cons, List.lookup_append, Option.or_assoc]
      refine hstep.trans ?_
      congr 1
      by_cases hname : name = binding.1
      · rw [hname, get?_insert_self, List.lookup_cons_self, Option.some_or]
      · rw [get?_insert_of_ne symbols binding.2 hname, List.lookup_cons,
          beq_false_of_ne hname, List.lookup_nil, Option.none_or]

/-- If no name is listed twice, the entries are the names with what they are
bound to. -/
theorem map_entries {symbols : Symbols} (h : symbols.names.Nodup) :
    symbols.entries.map some
      = symbols.names.map fun name => (symbols.get? name).map (name, ·) := by
  obtain ⟨entries⟩ := symbols
  simp only [names, get?] at h ⊢
  induction entries with
  | nil => rfl
  | cons entry entries ih =>
      obtain ⟨hnew, hrest⟩ := List.nodup_cons.mp h
      rw [List.map_cons, List.map_cons, List.map_cons, List.lookup_cons_self,
        ih hrest]
      congr 1
      apply List.map_congr_left
      intro name hname
      have hne : name ≠ entry.1 := fun heq => hnew (heq ▸ hname)
      rw [List.lookup_cons, beq_false_of_ne hne]

/-- Tables that list the same names, none of them twice, are equal if the names
are bound alike. -/
theorem ext_get? {left right : Symbols} (hnames : left.names = right.names)
    (hnodup : left.names.Nodup)
    (hget : ∀ name, left.get? name = right.get? name) : left = right := by
  have hentries : left.entries.map some = right.entries.map some := by
    rw [map_entries hnodup, map_entries (hnames ▸ hnodup), hnames]
    simp only [hget]
  obtain ⟨left⟩ := left
  obtain ⟨right⟩ := right
  rw [List.map_inj_right (fun _ _ => Option.some.inj)] at hentries
  exact congrArg Symbols.mk hentries

end Symbols

/-! ### Assignments -/

/-- The name and the value that an instruction binds. -/
def Instruction.binding? (graph : Graph) (instruction : Instruction) :
    Option (String × Operand) :=
  match instruction.operation, instruction.second with
  | .assign, some target =>
    match graph.resolve? target with
    | some (.identifier name) => some (name, instruction.first)
    | _ => none
  | _, _ => none

theorem Instruction.binding?_assign {graph : Graph} {target : Operand}
    {name : String} (h : graph.resolve? target = some (.identifier name))
    (value : Operand) :
    (assign value target).binding? graph = some (name, value) := by
  simp only [assign, binding?, h]

/-- What is kept of the first of a list comes first. -/
theorem filterMap_cons_toList {α β : Type} (keep : α → Option β) (first : α)
    (rest : List α) :
    (first :: rest).filterMap keep
      = (keep first).toList ++ rest.filterMap keep := by
  rw [List.filterMap_cons]
  cases keep first <;> rfl

namespace Program

/-- What the instructions of a program bind, in order. -/
def bindings (program : Program) : List (String × Operand) :=
  program.code.toList.filterMap (Instruction.binding? program.graph)

/-- The bindings of names to variables. -/
def variableBindings (program : Program) : List (String × Operand) :=
  program.bindings.filter fun binding => program.graph.isVar binding.2

/-- The table of bindings is what the instructions bind. -/
def Recorded (program : Program) : Prop :=
  program.symbols = Symbols.empty.insertAll program.bindings

/-- An instruction all whose operands are there goes on binding what it
binds. -/
theorem Grows.binding? {before after : Program} (h : Grows before after)
    {instruction : Instruction}
    (hhas : ∀ operand ∈ instruction.operands, before.Has operand) :
    instruction.binding? after.graph = instruction.binding? before.graph := by
  obtain ⟨operation, first, second⟩ := instruction
  cases second with
  | none => cases operation <;> rfl
  | some target =>
      have htarget := h.resolve? (hhas target
        (List.mem_cons_of_mem _ List.mem_cons_self))
      cases operation <;> simp only [Instruction.binding?, htarget]

end Program

namespace Grammar

open Automaton

/-- A contribution binds what its instruction binds. -/
theorem binding_of_meaning {program : Program} {production : Production}
    {frame : List Value} {contribution : Contribution}
    (h : production.meaning program frame = .ok contribution) :
    contribution.instruction.bind
        (Instruction.binding? (contribution.addTo program).graph)
      = contribution.binding := by
  cases production with
  | declaration =>
      obtain ⟨name, _, h⟩ := exists_of_bind_eq_ok h
      obtain ⟨value, _, h⟩ := exists_of_bind_eq_ok h
      have htarget : (contribution.addTo program).graph.resolve?
          (.node program.graph.size) = some (.identifier name) := by
        obtain rfl := Except.ok.inj h
        exact Contribution.node?_addTo _ program 0
      obtain rfl := Except.ok.inj h
      exact Instruction.binding?_assign htarget value
  | evaluation =>
      obtain ⟨value, _, h⟩ := exists_of_bind_eq_ok h
      obtain rfl := Except.ok.inj h
      rfl
  | print =>
      obtain ⟨value, _, h⟩ := exists_of_bind_eq_ok h
      obtain rfl := Except.ok.inj h
      rfl
  | identifier =>
      obtain ⟨name, _, h⟩ := exists_of_bind_eq_ok h
      split at h
      · obtain rfl := Except.ok.inj h
        rfl
      · cases h
  | name =>
      obtain ⟨name, _, h⟩ := exists_of_bind_eq_ok h
      obtain rfl := Except.ok.inj h
      rfl
  | group =>
      obtain rfl := Except.ok.inj h
      rfl
  | function =>
      obtain ⟨name, _, h⟩ := exists_of_bind_eq_ok h
      obtain ⟨body, _, h⟩ := exists_of_bind_eq_ok h
      obtain rfl := Except.ok.inj h
      rfl
  | application =>
      obtain ⟨applied, _, h⟩ := exists_of_bind_eq_ok h
      obtain ⟨applicand, _, h⟩ := exists_of_bind_eq_ok h
      obtain rfl := Except.ok.inj h
      rfl
  | pass =>
      obtain rfl := Except.ok.inj h
      rfl

/-- The bindings that a contribution adds come last. -/
theorem bindings_addTo {program : Program} (hprogram : program.WellFormed)
    (contribution : Contribution) :
    (contribution.addTo program).bindings
      = program.bindings ++ (contribution.instruction.bind
        (Instruction.binding? (contribution.addTo program).graph)).toList := by
  have hold : program.code.toList.filterMap
      (Instruction.binding? (contribution.addTo program).graph)
        = program.bindings := by
    apply List.filterMap_congr
    intro instruction hmem
    exact (contribution.grows program).binding? (hprogram.has_of_mem hmem).2
  have hcode : (contribution.addTo program).code.toList
      = program.code.toList ++ contribution.instruction.toList := by
    unfold Contribution.addTo
    cases contribution.instruction with
    | none => simp
    | some instruction => simp
  rw [Program.bindings, hcode, List.filterMap_append, hold]
  congr 1
  cases contribution.instruction with
  | none => rfl
  | some instruction =>
      rw [Option.toList_some, filterMap_cons_toList, List.filterMap_nil,
        List.append_nil, Option.bind_some]

/-- A reduction keeps the table and the assignments together. -/
theorem recorded_addTo {program : Program} (hprogram : program.WellFormed)
    (hrecorded : program.Recorded) {production : Production}
    {frame : List Value} {contribution : Contribution}
    (h : production.meaning program frame = .ok contribution) :
    (contribution.addTo program).Recorded := by
  have hsymbols : (contribution.addTo program).symbols
      = program.symbols.insertAll contribution.binding.toList := by
    unfold Contribution.addTo
    cases contribution.binding <;> rfl
  rw [Program.Recorded, bindings_addTo hprogram, binding_of_meaning h,
    Symbols.insertAll_append, ← hrecorded, hsymbols]

/-- Building a program keeps it well formed and recorded. -/
theorem semantics_keeps_recorded :
    semantics.Keeps
      (fun draft => draft.program.WellFormed ∧ draft.program.Recorded)
      (fun draft value => Holds draft.program value) where
  blank := semantics_keeps.blank
  token draft token hgood :=
    ⟨hgood, holds_tokenValue draft.program token, fun _ hvalue => hvalue⟩
  reduce draft rule frame hgood hframe := by
    obtain ⟨hwellFormed, hnew, hold⟩ :=
      semantics_keeps.reduce draft rule frame hgood.1 hframe
    refine ⟨⟨hwellFormed, ?_⟩, hnew, hold⟩
    simp only [semantics]
    cases hmeaning : (Production.ofRule rule).meaning draft.program frame with
    | error refusal => exact hgood.2
    | ok contribution => exact recorded_addTo hgood.1 hgood.2 hmeaning
  complain _ _ hgood := ⟨hgood, fun _ hvalue => hvalue⟩

theorem Reachable.recorded {start final : Program}
    (h : Reachable start final) (hstart : start.WellFormed)
    (hrecorded : start.Recorded) : final.Recorded := by
  suffices hboth : final.WellFormed ∧ final.Recorded from hboth.2
  induction h with
  | refl => exact ⟨hstart, hrecorded⟩
  | tail _ hstep ih =>
      obtain ⟨complaints, tape, taken, fuel, rfl⟩ := hstep
      have hkept := Kept.initial semantics_keeps_recorded ⟨_, complaints⟩ ih
        taken
      exact (hkept.run semantics_keeps_recorded tables tape fuel).memory

/-- The program that is left by reading texts one on top of the other, if each
of them is accepted. -/
def readAll? : List String → Program → Option Program
  | [], program => some program
  | text :: texts, program =>
    let attempt := readText text program
    if attempt.outcome = some .accepted then
      readAll? texts attempt.reading.program
    else none

/-- Texts that are read leave a reachable program. -/
theorem reachable_of_readAll? {texts : List String} {program final : Program}
    (h : readAll? texts program = some final) : Reachable program final := by
  induction texts generalizing program with
  | nil =>
      obtain rfl := Option.some.inj h
      exact Relation.ReflTransGen.refl
  | cons text texts ih =>
      unfold readAll? at h
      dsimp only at h
      split at h
      · exact Relation.ReflTransGen.head
          (readsOn_attempt (Reading.resume (Source.ofText text) program)) (ih h)
      · cases h

end Grammar

/-! ### Lowering -/

namespace Graph

/-- A bare identifier has its name. -/
theorem exists_name_of_isIdentifier {graph : Graph} {operand : Operand}
    (h : graph.isIdentifier operand) :
    ∃ name, graph.resolve? operand = some (.identifier name) := by
  unfold isIdentifier at h
  cases hnode : graph.resolve? operand with
  | none =>
      rw [hnode] at h
      cases h
  | some node =>
      rw [hnode] at h
      cases node with
      | identifier name => exact ⟨name, rfl⟩
      | _ => cases h

end Graph

namespace Bytecode

/-- The name and the value that a step binds. -/
def Step.binding? : Step → Option (String × Operand)
  | .bind name value => some (name, value)
  | _ => none

namespace Assembler

/-- A step that succeeds changes no bindings but its own. -/
theorem symbols_perform {assembler after : Assembler} {step : Step}
    (h : assembler.perform step = ⟨after, none⟩) :
    after.symbols = assembler.symbols.insertAll step.binding?.toList := by
  cases step with
  | bind name value =>
      cases h
      rfl
  | bare command =>
      cases h
      rfl
  | named command name => exact (perform_named h).2.1
  | fail error => cases h

/-- Steps that all succeed change no bindings but their own. -/
theorem symbols_performAll {assembler after : Assembler} {steps : List Step}
    (h : assembler.performAll steps = ⟨after, none⟩) :
    after.symbols
      = assembler.symbols.insertAll (steps.filterMap Step.binding?) := by
  induction steps generalizing assembler with
  | nil =>
      cases h
      rfl
  | cons step steps ih =>
      obtain ⟨middle, hstep, hsteps⟩ := performAll_cons h
      rw [ih hsteps, symbols_perform hstep, ← Symbols.insertAll_append,
        filterMap_cons_toList]

/-- An assignment binds its value again if that is a variable. -/
theorem bindings_planAssign {graph : Graph} {value target : Operand}
    {name : String} (htarget : graph.resolve? target = some (.identifier name))
    (hvalue : graph.isIdentifier value = false) (symbols : Symbols)
    (index : Nat) :
    (planAssign graph symbols index value target).filterMap Step.binding?
      = [(name, value)].filter fun binding => graph.isVar binding.2 := by
  simp only [planAssign, htarget, List.filter_cons, List.filter_nil,
    Graph.isVar]
  cases hnode : graph.resolve? value with
  | none => rfl
  | some node =>
      cases node with
      | var source => rfl
      | identifier source =>
          rw [Graph.isIdentifier, hnode] at hvalue
          cases hvalue
      | lam bound body => rfl
      | app applied applicand => rfl

/-- Making a function binds nothing. -/
theorem bindings_planFunc (graph : Graph) (symbols : Symbols) (index : Nat)
    (bound body : Operand) :
    (planFunc graph symbols index bound body).filterMap Step.binding? = [] := by
  have hbody : ∀ parameter, (planBody graph symbols index parameter
      body).filterMap Step.binding? = [] := by
    intro parameter
    unfold planBody
    split
    · split <;> rfl
    · rfl
    · rfl
  unfold planFunc
  split
  · next parameter _ =>
    rw [List.cons_append, filterMap_cons_toList, List.filterMap_append,
      hbody parameter]
    rfl
  · rfl

/-- **An instruction with the right operands binds again what it assigns if
that is a variable**, and otherwise nothing. -/
theorem bindings_plan {graph : Graph} {instruction : Instruction}
    (hshaped : instruction.isShaped graph) (symbols : Symbols) (index : Nat) :
    (plan graph symbols index instruction).filterMap Step.binding?
      = (instruction.binding? graph).toList.filter
        fun binding => graph.isVar binding.2 := by
  obtain ⟨operation, first, second⟩ := instruction
  cases operation with
  | assign =>
      cases second with
      | none => cases hshaped
      | some target =>
          obtain ⟨hplain, htarget⟩ : graph.isIdentifier first = false ∧
              graph.isIdentifier target = true := by
            simpa [Instruction.isShaped] using hshaped
          obtain ⟨name, hname⟩ := Graph.exists_name_of_isIdentifier htarget
          have hbinding : Instruction.binding? graph
              ⟨.assign, first, some target⟩ = some (name, first) :=
            Instruction.binding?_assign hname first
          rw [hbinding]
          exact bindings_planAssign hname hplain symbols index
  | func =>
      cases second with
      | none => cases hshaped
      | some body => exact bindings_planFunc graph symbols index first body
  | apply => rfl
  | eval => rfl
  | print => rfl

/-- Lowering instructions binds again all variables that they assign, in
order. -/
theorem symbols_assembleFrom {graph : Graph} {instructions : List Instruction}
    (hshaped : ∀ instruction ∈ instructions, instruction.isShaped graph)
    {index : Nat} {assembler after : Assembler}
    (h : assembleFrom graph index instructions assembler = ⟨after, none⟩) :
    after.symbols = assembler.symbols.insertAll
      ((instructions.filterMap (Instruction.binding? graph)).filter
        fun binding => graph.isVar binding.2) := by
  induction instructions generalizing index assembler with
  | nil =>
      cases h
      rfl
  | cons instruction instructions ih =>
      obtain ⟨hfirst, hrest⟩ := List.forall_mem_cons.mp hshaped
      obtain ⟨middle, hlower, hlater⟩ := assembleFrom_cons h
      rw [ih hrest hlater, symbols_performAll hlower, bindings_plan hfirst,
        filterMap_cons_toList, List.filter_append, Symbols.insertAll_append]

end Assembler

/-- The lowering of a program that succeeds leaves the table of the program
with the variables that it assigns bound again. -/
theorem symbols_of_assembleProgram {program : Program} {after : Assembler}
    (hprogram : program.WellFormed)
    (h : (assembleProgram program).result = .ok after) :
    after.symbols = program.symbols.insertAll program.variableBindings := by
  exact Assembler.symbols_assembleFrom
    (fun instruction hmem => (hprogram.has_of_mem hmem).1)
    (Assembly.eq_of_result h)

end Bytecode

namespace Program

/-- What a name is bound to is what it was assigned last. -/
theorem Recorded.get? {program : Program} (h : program.Recorded)
    (name : String) :
    program.symbols.get? name = Symbols.last? program.bindings name := by
  rw [h, Symbols.get?_insertAll]
  exact Option.or_none

/-- Every name that an instruction binds is in the table. -/
theorem Recorded.mem_names {program : Program} (h : program.Recorded)
    {binding : String × Operand} (hmem : binding ∈ program.bindings) :
    binding.1 ∈ program.symbols.names := by
  obtain ⟨value, hvalue⟩ := Symbols.exists_last?_of_mem hmem
  rw [← h.get?] at hvalue
  exact List.mem_map.mpr ⟨_, Symbols.mem_entries_of_get? hvalue, rfl⟩

theorem Recorded.nodup_names {program : Program} (h : program.Recorded) :
    program.symbols.names.Nodup := by
  have hempty : Symbols.empty.names.Nodup := List.nodup_nil
  rw [h]
  exact Symbols.nodup_names_insertAll hempty program.bindings

/-- Binding the variables again changes nothing exactly if every name that was
ever assigned a variable is bound to one in the end. -/
theorem Recorded.insertAll_eq_iff {program : Program} (h : program.Recorded) :
    program.symbols.insertAll program.variableBindings = program.symbols ↔
      ∀ binding ∈ program.variableBindings, ∃ value,
        program.symbols.get? binding.1 = some value ∧
        program.graph.isVar value := by
  have hget := Symbols.get?_insertAll program.symbols program.variableBindings
  constructor
  · intro hsame binding hmem
    obtain ⟨value, hvalue⟩ := Symbols.exists_last?_of_mem hmem
    refine ⟨value, ?_, ?_⟩
    · rw [← hsame, hget, hvalue, Option.some_or]
    · exact (List.mem_filter.mp (Symbols.mem_of_last? hvalue)).2
  · intro hvariables
    have hnames : (program.symbols.insertAll program.variableBindings).names
        = program.symbols.names := by
      apply Symbols.names_insertAll
      exact fun binding hmem => h.mem_names (List.mem_of_mem_filter hmem)
    apply Symbols.ext_get? hnames (hnames ▸ h.nodup_names)
    intro name
    rw [hget]
    cases hlast : Symbols.last? program.variableBindings name with
    | none => exact Option.none_or
    | some value =>
        obtain ⟨final, hfinal, hvar⟩ :=
          hvariables (name, value) (Symbols.mem_of_last? hlast)
        -- what is assigned last of all is assigned last among the variables
        have hassigned := hfinal
        rw [h.get?] at hassigned
        have hkept : Symbols.last? program.variableBindings name = some final :=
          Symbols.last?_filter hassigned hvar
        rw [hkept] at hlast
        rw [hfinal, Option.some_or, hlast]

end Program

namespace Bytecode

open Grammar

/-- **The bindings after lowering.**  Take texts that are accepted one on top of
the other, and a program that can be lowered.  Lowering leaves the names of its
table and their order.  A name that was ever assigned a variable gets the last
such variable, and any other stays what it is.  So the table is the program's
own exactly if every name that was ever assigned a variable is bound to one in
the end. -/
theorem lowering_rebinds_variables (texts : List String) (program : Program)
    (hread : readAll? texts .empty = some program) (assembler : Assembler)
    (hlowered : (assembleProgram program).result = .ok assembler) :
    assembler.symbols.names = program.symbols.names ∧
    (∀ name, assembler.symbols.get? name
      = (Symbols.last? program.variableBindings name).or
        (program.symbols.get? name)) ∧
    (assembler.symbols = program.symbols ↔
      ∀ binding ∈ program.variableBindings, ∃ value,
        program.symbols.get? binding.1 = some value ∧
        program.graph.isVar value) := by
  have hreachable := reachable_of_readAll? hread
  have hprogram := hreachable.wellFormed Program.wellFormed_empty
  have hrecorded := hreachable.recorded Program.wellFormed_empty rfl
  rw [symbols_of_assembleProgram hprogram hlowered]
  refine ⟨?_, ?_, hrecorded.insertAll_eq_iff⟩
  · apply Symbols.names_insertAll
    exact fun binding hmem => hrecorded.mem_names (List.mem_of_mem_filter hmem)
  · exact Symbols.get?_insertAll program.symbols program.variableBindings

/-- The program of `let X = v` and `let X = w let I = \x.X`. -/
def twoVariables : Program where
  graph := ⟨#[.var "v", .identifier "X", .var "w", .identifier "X", .var "x",
    .lam 4 (.node 2), .identifier "I"]⟩
  code := #[.assign (.node 0) (.node 1), .assign (.node 2) (.node 3),
    .func (.node 4) (.node 2), .assign (.node 5) (.node 6)]
  symbols := ⟨[("X", .node 2), ("I", .node 5)]⟩

/-- A variable may take the place of another. -/
theorem rebinding_of_two_variables :
    readAll? ["let X = v", "let X = w let I = \\x.X"] .empty
      = some twoVariables ∧
    (assembleProgram twoVariables).result
      = .ok (assembleProgram twoVariables).assembler ∧
    twoVariables.variableBindings = [("X", .node 0), ("X", .node 2)] ∧
    (assembleProgram twoVariables).assembler.symbols
      = twoVariables.symbols := by
  have hread : readAll? ["let X = v", "let X = w let I = \\x.X"] .empty
      = some twoVariables := by
    decide +kernel
  have hlowered : (assembleProgram twoVariables).result
      = .ok (assembleProgram twoVariables).assembler := by
    decide +kernel
  have hbindings : twoVariables.variableBindings
      = [("X", .node 0), ("X", .node 2)] := by
    decide
  refine ⟨hread, hlowered, hbindings, ?_⟩
  obtain ⟨_, _, hsame⟩ := lowering_rebinds_variables _ twoVariables hread _
    hlowered
  rw [hsame, hbindings]
  decide

/-- The program of `let X = v let X = \x.x`. -/
def variableThenFunction : Program where
  graph := ⟨#[.var "v", .identifier "X", .var "x", .var "x", .lam 3 (.node 2),
    .identifier "X"]⟩
  code := #[.assign (.node 0) (.node 1), .func (.node 3) (.node 2),
    .assign (.node 4) (.node 5)]
  symbols := ⟨[("X", .node 4)]⟩

/-- A function does not take the place of a variable: the name is bound to the
function by reading, and to the variable again by lowering. -/
theorem function_does_not_replace_variable :
    readAll? ["let X = v let X = \\x.x"] .empty = some variableThenFunction ∧
    (assembleProgram variableThenFunction).result
      = .ok (assembleProgram variableThenFunction).assembler ∧
    variableThenFunction.symbols.get? "X" = some (.node 4) ∧
    (assembleProgram variableThenFunction).assembler.symbols.get? "X"
      = some (.node 0) ∧
    (assembleProgram variableThenFunction).assembler.symbols
      ≠ variableThenFunction.symbols := by
  decide +kernel

end Bytecode

end LambdaStack
