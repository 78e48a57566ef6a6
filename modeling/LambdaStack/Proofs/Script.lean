import Mathlib.Data.Finset.Dedup
import Mathlib.Data.Finset.Card
import LambdaStack.Proofs.Assembly
import LambdaStack.Proofs.Decoding

/-!
# The bytes spell a script

A **script** is a lowering in which names stay names.  Its lines are commands,
each with the name it takes if it takes one; nothing is interned, and no byte
is written.  All a script knows about codes is how many there are: a name whose
**rank** is 256 or more, which is to say that at least 256 other names were
asked for before it, cannot be said, and asking for it stops the batch.

    assembler                       script
    position in a table of names    rank among the names asked for
    bytes                           lines
    `Assembler.lower`               `Script.lower`
    `Assembler.answer`              `Script.answer`

An assembler and a script that are asked the same stay together
(`Assembler.Follows.answer`), through failed batches as well.  Since a rank
never changes once a name has been asked for, every byte that was ever written
keeps its meaning.

Main statement: `listing_spells_script`.
-/

namespace LambdaStack.Bytecode

/-! ### Scripts -/

/-- A command, with the name it takes. -/
structure Line where
  command : Command
  name : Option String := none
  deriving DecidableEq, Repr

/-- The number of names that were asked for before `name` was first asked
for. -/
def rank (asked : List String) (name : String) : Nat :=
  (asked.takeWhile (· ≠ name)).dedup.length

/-- Lines, bindings, and the names asked for in the order of asking. -/
structure Script where
  lines : List Line := []
  symbols : Symbols := {}
  asked : NameClass → List String

/-- A script, and the error that stopped it if there was one. -/
abbrev Recital := Script × Option LoweringError

/-- Goes on unless there was an error. -/
def Recital.andThen (recital : Recital) (next : Script → Recital) : Recital :=
  match recital with
  | (script, none) => next script
  | (script, some error) => (script, some error)

namespace Script

/-- A script without lines.  The reserved name counts as asked for. -/
def initial (symbols : Symbols) : Script where
  symbols
  asked
    | .identifier => []
    | .bound => [substitute]

/-- Asks for a name. -/
def ask (script : Script) (nameClass : NameClass) (name : String) : Script :=
  { script with
    asked := fun other =>
      if other = nameClass then script.asked other ++ [name]
      else script.asked other }

/-- Binds a name. -/
def bind (script : Script) (name : String) (value : Operand) : Script :=
  { script with symbols := script.symbols.insert name value }

/-- Adds a line. -/
def add (script : Script) (line : Line) : Script :=
  { script with lines := script.lines ++ [line] }

/-- Utters a command without a name. -/
def say (script : Script) (command : Command) : Recital :=
  (script.add ⟨command, none⟩, none)

/-- Utters a command with a name, unless there are too many names. -/
def sayName (script : Script) (command : Command) (name : String) : Recital :=
  let script := script.ask command.nameClass name
  if rank (script.asked command.nameClass) name < 256 then
    (script.add ⟨command, some name⟩, none)
  else
    (script, some (.tooManyNames command.nameClass))

/-- Binds `value` to the identifier `target`. -/
def assign (script : Script) (graph : Graph) (index : Nat)
    (value target : Operand) : Recital :=
  match graph.resolve? target with
  | some (.identifier name) =>
    match graph.resolve? value with
    | some (.identifier source) =>
      match script.symbols.get? source with
      | some meaning =>
        ((script.bind name meaning).sayName .load source).andThen
          (·.sayName .store name)
      | none => (script, some (.undefined index source))
    | some (.var source) =>
      ((script.bind name value).sayName .push source).andThen
        (·.sayName .store name)
    | _ => script.sayName .store name
  | _ => (script, some (.shape index .identifier (graph.render target)))

/-- Utters the body of a function with the given parameter. -/
def body (script : Script) (graph : Graph) (index : Nat) (parameter : String)
    (body : Operand) : Recital :=
  match graph.resolve? body with
  | some (.identifier name) =>
    if script.symbols.contains name then script.sayName .load name
    else (script, some (.undefined index name))
  | some (.var name) =>
    if name = parameter then script.sayName .push substitute
    else script.sayName .push name
  | _ => (script, none)

/-- Makes a function. -/
def func (script : Script) (graph : Graph) (index : Nat)
    (bound body : Operand) : Recital :=
  match graph.resolve? bound with
  | some (.var parameter) =>
    (script.sayName .push parameter).andThen fun script =>
      (script.body graph index parameter body).andThen (·.say .func)
  | _ => (script, some (.shape index .bound (graph.render bound)))

/-- Utters the instruction at `index`. -/
def lower (script : Script) (graph : Graph) (index : Nat)
    (instruction : Instruction) : Recital :=
  match instruction.operation, instruction.second with
  | .assign, some target => script.assign graph index instruction.first target
  | .func, some body => script.func graph index instruction.first body
  | .assign, none | .func, none =>
    (script, some (.missingOperand index instruction.operation))
  | .apply, _ => (script, none)
  | .eval, _ => script.say .eval
  | .print, _ => script.say .print

/-- Utters instructions, the first of which has the given index, up to the first
error. -/
def lowerFrom (graph : Graph) :
    Nat → List Instruction → Script → Recital
  | _, [], script => (script, none)
  | index, instruction :: instructions, script =>
    (script.lower graph index instruction).andThen
      (lowerFrom graph (index + 1) instructions)

end Script

/-! ### Requests -/

/-- What an assembler can be asked for. -/
inductive Request where
  /-- lower these instructions, up to the first error -/
  | batch (graph : Graph) (instructions : List Instruction)
  /-- the code of a name -/
  | code (nameClass : NameClass) (name : String)

/-- The assembler after a request, successful or not. -/
def Assembler.answer (assembler : Assembler) : Request → Assembler
  | .batch graph instructions =>
    (assembler.assemble graph instructions).assembler
  | .code nameClass name => (assembler.code nameClass name).2

/-- The script after a request, successful or not. -/
def Script.answer (script : Script) : Request → Script
  | .batch graph instructions => (lowerFrom graph 0 instructions script).1
  | .code nameClass name => script.ask nameClass name

/-! ### Ranks -/

section Ranks

variable {asked : List String} {name other : String}

/-- Whatever is asked for later, a name that was asked for keeps its rank. -/
theorem rank_append (h : name ∈ asked) (more : List String) :
    rank (asked ++ more) name = rank asked name := by
  unfold rank
  congr 2
  induction asked with
  | nil => cases h
  | cons first asked ih =>
      by_cases hfirst : first = name
      · simp [hfirst]
      · have hlater : name ∈ asked := by
          simpa [Ne.symm hfirst] using h
        rw [List.cons_append, List.takeWhile_cons, List.takeWhile_cons,
          ih hlater]

/-- A name that was not asked for before ranks behind all that were. -/
theorem rank_concat_of_notMem (h : name ∉ asked) :
    rank (asked ++ [name]) name = asked.dedup.length := by
  have hall : ∀ other ∈ asked, decide (other ≠ name) = true := by
    intro other hother
    have hne : other ≠ name := fun heq => h (heq ▸ hother)
    simpa using hne
  rw [rank, List.takeWhile_append_of_pos hall]
  simp

/-- A name that was not asked for before counts as one more. -/
theorem length_dedup_concat_of_notMem (h : name ∉ asked) :
    (asked ++ [name]).dedup.length = asked.dedup.length + 1 := by
  rw [← List.card_toFinset, ← List.card_toFinset, List.toFinset_append]
  simp [h]

/-- A name that was asked for before does not count again. -/
theorem length_dedup_concat_of_mem (h : name ∈ asked) :
    (asked ++ [name]).dedup.length = asked.dedup.length := by
  have hmem : name ∈ asked.toFinset := List.mem_toFinset.mpr h
  rw [← List.card_toFinset, ← List.card_toFinset, List.toFinset_append]
  simp [Finset.union_eq_left.mpr (Finset.singleton_subset_iff.mpr hmem)]

end Ranks

/-- The table gives every name that was asked for its rank, and lists no
other. -/
structure Names.Ranks (names : Names) (asked : List String) : Prop where
  position : ∀ name ∈ asked, names.position? name = some (rank asked name)
  absent : ∀ name, name ∉ asked → names.position? name = none
  size : names.list.size = asked.dedup.length

namespace Names.Ranks

variable {names : Names} {asked : List String}

/-- **Asking for a name** answers its rank. -/
theorem intern (h : names.Ranks asked) (name : String) :
    (names.intern name).1 = rank (asked ++ [name]) name ∧
      (names.intern name).2.Ranks (asked ++ [name]) := by
  by_cases hmem : name ∈ asked
  · have hposition := h.position name hmem
    have hrank := rank_append hmem [name]
    simp only [Names.intern, hposition]
    refine ⟨hrank.symm, ?_, ?_, ?_⟩
    · intro other hother
      have hold : other ∈ asked := by
        rcases List.mem_append.mp hother with hold | hnew
        · exact hold
        · rw [List.mem_singleton.mp hnew]
          exact hmem
      rw [rank_append hold, h.position other hold]
    · intro other hother
      exact h.absent other (fun hold => hother (List.mem_append_left _ hold))
    · rw [length_dedup_concat_of_mem hmem, h.size]
  · have hposition := h.absent name hmem
    have hrank := rank_concat_of_notMem hmem
    simp only [Names.intern, hposition]
    refine ⟨by rw [hrank, h.size], ?_, ?_, ?_⟩
    · intro other hother
      by_cases hsame : other = name
      · rw [hsame, hrank, ← h.size]
        exact position?_add hposition
      · have hold : other ∈ asked := by
          simpa [hsame] using hother
        rw [rank_append hold]
        exact position?_add_of_eq_some (h.position other hold) name
    · intro other hother
      have hnot : other ∉ asked ∧ other ≠ name := by
        simpa using hother
      exact position?_add_of_ne (h.absent other hnot.1) hnot.2
    · rw [length_dedup_concat_of_notMem hmem, ← h.size]
      simp [Names.add]

end Names.Ranks

/-! ### Assemblers that follow a script -/

namespace Line

variable {asked : NameClass → List String} {line : Line}

/-- The code of the name of a line. -/
def code? (asked : NameClass → List String) (line : Line) : Option UInt8 :=
  line.name.map fun name =>
    UInt8.ofNat (rank (asked line.command.nameClass) name)

/-- The line has a name exactly if its command takes one, and the name was
asked for and has a code. -/
structure Sayable (asked : NameClass → List String) (line : Line) : Prop where
  named : line.name.isSome = line.command.hasOperand
  mem : ∀ name ∈ line.name, name ∈ asked line.command.nameClass
  fits : ∀ name ∈ line.name, rank (asked line.command.nameClass) name < 256

/-- Asking for more changes no code. -/
theorem code?_append (h : line.Sayable asked)
    (more : NameClass → List String) :
    line.code? (fun nameClass => asked nameClass ++ more nameClass)
      = line.code? asked := by
  unfold code?
  cases hname : line.name with
  | none => rfl
  | some name =>
      have hmem := h.mem name hname
      rw [Option.map_some, Option.map_some, rank_append hmem]

/-- What can be said stays so when more names are asked for. -/
theorem Sayable.append (h : line.Sayable asked)
    (more : NameClass → List String) :
    line.Sayable (fun nameClass => asked nameClass ++ more nameClass) := by
  refine ⟨h.named, ?_, ?_⟩
  · intro name hname
    exact List.mem_append_left _ (h.mem name hname)
  · intro name hname
    rw [rank_append (h.mem name hname)]
    exact h.fits name hname

end Line

namespace Script

/-- The lines as bytes. -/
def bytes (script : Script) : List UInt8 :=
  script.lines.flatMap fun line =>
    encode line.command (line.code? script.asked)

/-- Asking for a name adds it to the names of its class and to no others. -/
theorem asked_ask (script : Script) (nameClass : NameClass) (name : String) :
    (script.ask nameClass name).asked = fun other =>
      script.asked other ++ if other = nameClass then [name] else [] := by
  funext other
  by_cases hsame : other = nameClass <;> simp [ask, hsame]

/-- The class that is asked gets the name. -/
theorem asked_ask_self (script : Script) (nameClass : NameClass)
    (name : String) :
    (script.ask nameClass name).asked nameClass
      = script.asked nameClass ++ [name] := by
  simp [asked_ask]

/-- Asking for a name changes no byte of what was said: codes are given out
once and for all. -/
theorem bytes_ask {script : Script}
    (h : ∀ line ∈ script.lines, line.Sayable script.asked)
    (nameClass : NameClass) (name : String) :
    (script.ask nameClass name).bytes = script.bytes := by
  unfold bytes
  apply List.flatMap_congr
  intro line hline
  rw [asked_ask, Line.code?_append (h line hline)]

/-- A line adds its own bytes. -/
theorem bytes_add (script : Script) (line : Line) :
    (script.add line).bytes
      = script.bytes ++ encode line.command (line.code? script.asked) := by
  simp [bytes, add]

end Script

/-- The assembler has bound, interned and written what the script says. -/
structure Assembler.Follows (assembler : Assembler) (script : Script) :
    Prop where
  symbols : assembler.symbols = script.symbols
  names : ∀ nameClass,
    (assembler.names nameClass).Ranks (script.asked nameClass)
  sayable : ∀ line ∈ script.lines, line.Sayable script.asked
  bytes : assembler.bytes.toList = script.bytes

/-- The assembler follows the script, and both were stopped by the same error
or by none. -/
def Assembly.Follows (assembly : Assembly) (recital : Recital) : Prop :=
  assembly.assembler.Follows recital.1 ∧ assembly.error? = recital.2

namespace Assembler.Follows

variable {assembler : Assembler} {script : Script}

/-- At the start both know the reserved name and nothing else. -/
theorem initial (symbols : Symbols) :
    (Assembler.initial symbols).Follows (Script.initial symbols) := by
  refine ⟨rfl, ?_, by simp [Script.initial], rfl⟩
  have hempty : (⟨#[]⟩ : Names).Ranks [] :=
    ⟨by simp, by simp [Names.position?], rfl⟩
  intro nameClass
  cases nameClass with
  | identifier => exact hempty
  | bound =>
      -- the reserved name is interned before anything else
      have hfirst : (⟨#[substitute]⟩ : Names).Ranks [substitute] := by
        simpa [Names.intern, Names.position?, Names.add] using
          (hempty.intern substitute).2
      exact hfirst

/-- **Asking for a code** answers the rank of the name if that is a byte. -/
theorem code (h : assembler.Follows script) (nameClass : NameClass)
    (name : String) :
    (assembler.code nameClass name).2.Follows (script.ask nameClass name) ∧
      (assembler.code nameClass name).1
        = if rank ((script.ask nameClass name).asked nameClass) name < 256 then
            .ok (UInt8.ofNat
              (rank ((script.ask nameClass name).asked nameClass) name))
          else .error (.tooManyNames nameClass) := by
  obtain ⟨hposition, hranks⟩ := (h.names nameClass).intern name
  rw [← script.asked_ask_self] at hposition hranks
  simp only [Assembler.code, byteOf?]
  generalize (assembler.names nameClass).intern name = interned at *
  obtain ⟨position, names⟩ := interned
  obtain rfl : position = _ := hposition
  refine ⟨⟨?_, ?_, ?_, ?_⟩, ?_⟩
  · rw [symbols_setNames]
    exact h.symbols
  · intro other
    by_cases hsame : other = nameClass
    · rw [hsame, names_setNames]
      exact hranks
    · have hother : (assembler.setNames nameClass names).names other
          = assembler.names other := by
        cases nameClass <;> cases other <;> first | rfl | exact absurd rfl hsame
      have hasked : (script.ask nameClass name).asked other
          = script.asked other := by
        simp [Script.asked_ask, hsame]
      rw [hother, hasked]
      exact h.names other
  · intro line hline
    rw [Script.asked_ask]
    exact (h.sayable line hline).append _
  · rw [bytes_setNames, Script.bytes_ask h.sayable]
    exact h.bytes
  · by_cases hlt : rank ((script.ask nameClass name).asked nameClass) name
        < 256 <;> simp [hlt]

/-- Writing a line that can be said. -/
theorem write (h : assembler.Follows script) {line : Line}
    (hline : line.Sayable script.asked) :
    (assembler.write (encode line.command (line.code? script.asked))).Follows
      (script.add line) := by
  refine ⟨h.symbols, ?_, ?_, ?_⟩
  · intro nameClass
    rw [names_write]
    exact h.names nameClass
  · intro other hother
    rcases List.mem_append.mp hother with hold | hnew
    · exact h.sayable other hold
    · rw [List.mem_singleton.mp hnew]
      exact hline
  · rw [toList_bytes_write, h.bytes, Script.bytes_add]

end Assembler.Follows

/-! ### Steps -/

/-- The step writes a command the way the command is written. -/
def Step.fits : Step → Bool
  | bare command => !command.hasOperand
  | named command _ => command.hasOperand
  | bind _ _ | fail _ => true

namespace Script

/-- Carries out a step. -/
def perform (script : Script) : Step → Recital
  | .bind name value => (script.bind name value, none)
  | .bare command => script.say command
  | .named command name => script.sayName command name
  | .fail error => (script, some error)

/-- Carries out steps up to the first error. -/
def performAll : List Step → Script → Recital
  | [], script => (script, none)
  | step :: steps, script =>
    (script.perform step).andThen (performAll steps)

end Script

section Steps

variable {assembler : Assembler} {script : Script} {assembly : Assembly}
  {recital : Recital}

/-- The assembler follows the script through a step that fits its command. -/
theorem Assembler.Follows.perform (h : assembler.Follows script) {step : Step}
    (hfits : step.fits) :
    (assembler.perform step).Follows (script.perform step) := by
  cases step with
  | bind name value =>
      refine ⟨⟨?_, h.names, h.sayable, h.bytes⟩, rfl⟩
      simp [Assembler.perform, Script.perform, Script.bind, h.symbols]
  | bare command =>
      have hsayable : Line.Sayable script.asked ⟨command, none⟩ :=
        ⟨by simpa [Step.fits] using hfits, by simp, by simp⟩
      exact ⟨h.write hsayable, rfl⟩
  | named command name =>
      obtain ⟨hask, hcode⟩ := h.code command.nameClass name
      simp only [Assembler.perform, Script.perform, Script.sayName]
      generalize assembler.code command.nameClass name = answer at *
      obtain ⟨byte, after⟩ := answer
      by_cases hlt : rank ((script.ask command.nameClass name).asked
          command.nameClass) name < 256
      · rw [if_pos hlt] at hcode ⊢
        obtain rfl : byte = _ := hcode
        have hsayable : Line.Sayable (script.ask command.nameClass name).asked
            ⟨command, some name⟩ := by
          refine ⟨hfits.symm, ?_, ?_⟩
          · simp [Script.asked_ask]
          · simpa using hlt
        exact ⟨hask.write hsayable, rfl⟩
      · rw [if_neg hlt] at hcode ⊢
        obtain rfl : byte = _ := hcode
        exact ⟨hask, rfl⟩
  | fail error => exact ⟨h, rfl⟩

/-- Going on together. -/
theorem Assembly.Follows.andThen (h : assembly.Follows recital)
    {go : Assembler → Assembly} {next : Script → Recital}
    (hgo : ∀ assembler script, assembler.Follows script →
      (go assembler).Follows (next script)) :
    (match assembly with
      | ⟨assembler, none⟩ => go assembler
      | ⟨assembler, some error⟩ => ⟨assembler, some error⟩).Follows
        (recital.andThen next) := by
  obtain ⟨assembler, error⟩ := assembly
  obtain ⟨script, found⟩ := recital
  obtain ⟨hfollows, rfl⟩ : assembler.Follows script ∧ error = found := h
  cases error with
  | none => exact hgo assembler script hfollows
  | some error => exact ⟨hfollows, rfl⟩

/-- It follows through steps one after the other, and stops where the script
stops. -/
theorem Assembler.Follows.performAll (h : assembler.Follows script)
    {steps : List Step} (hfits : steps.all Step.fits) :
    (assembler.performAll steps).Follows (script.performAll steps) := by
  induction steps generalizing assembler script with
  | nil => exact ⟨h, rfl⟩
  | cons step steps ih =>
      rw [List.all_cons, Bool.and_eq_true] at hfits
      rw [Assembler.performAll, Script.performAll]
      apply (h.perform hfits.1).andThen
      intro assembler script hnext
      exact ih hnext hfits.2

end Steps

/-! ### Instructions -/

namespace Script

/-- Going on with nothing changes nothing. -/
theorem andThen_none (recital : Recital) :
    recital.andThen (fun script => (script, none)) = recital := by
  obtain ⟨script, error⟩ := recital
  cases error <;> rfl

/-- Steps can be performed in two stretches. -/
theorem performAll_append (first second : List Step) (script : Script) :
    performAll (first ++ second) script
      = (performAll first script).andThen (performAll second) := by
  induction first generalizing script with
  | nil => rfl
  | cons step first ih =>
      rw [List.cons_append, performAll, performAll]
      obtain ⟨after, error⟩ := script.perform step
      cases error with
      | none => exact ih after
      | some error => rfl

variable (script : Script) (graph : Graph) (index : Nat)

/-- Saying a name binds nothing. -/
theorem symbols_sayName (command : Command) (name : String) :
    (script.sayName command name).1.symbols = script.symbols := by
  unfold sayName
  dsimp only
  split <;> rfl

/-- Steps that end with saying a name say it last. -/
theorem performAll_named (command : Command) (name : String) :
    performAll [.named command name] script
      = script.sayName command name :=
  andThen_none (script.sayName command name)

/-- The script of an assignment is its plan performed. -/
theorem assign_eq_performAll (value target : Operand) :
    script.assign graph index value target
      = performAll (planAssign graph script.symbols index value target)
        script := by
  unfold assign planAssign
  generalize graph.resolve? target = found
  rcases found with _ | _ | name | _ | _
  case some.identifier =>
    generalize graph.resolve? value = valued
    have hstore : performAll [.named .store name] = (·.sayName .store name) :=
      funext fun script => script.performAll_named .store name
    rcases valued with _ | source | source | _ | _
    case some.var =>
      show _ = ((script.bind name value).sayName .push source).andThen _
      rw [hstore]
    case some.identifier =>
      dsimp only
      cases script.symbols.get? source with
      | none => rfl
      | some meaning =>
          show _ = ((script.bind name meaning).sayName .load source).andThen _
          rw [hstore]
    all_goals exact (script.performAll_named .store name).symm
  all_goals rfl

/-- The script of a body is its plan performed. -/
theorem body_eq_performAll (parameter : String) (operand : Operand) :
    script.body graph index parameter operand
      = performAll (planBody graph script.symbols index parameter operand)
        script := by
  unfold body planBody
  generalize graph.resolve? operand = found
  rcases found with _ | name | name | _ | _
  case some.var =>
    by_cases hsame : name = parameter
    · simp [hsame, performAll_named]
    · simp [hsame, performAll_named]
  case some.identifier =>
    by_cases hbound : script.symbols.contains name
    · simp [hbound, performAll_named]
    · simp [hbound, performAll, perform, Recital.andThen]
  all_goals rfl

/-- The script of a function is its plan performed. -/
theorem func_eq_performAll (bound operand : Operand) :
    script.func graph index bound operand
      = performAll (planFunc graph script.symbols index bound operand)
        script := by
  unfold func planFunc
  generalize graph.resolve? bound = found
  rcases found with _ | parameter | _ | _ | _
  case some.var =>
    have hsymbols := script.symbols_sayName .push parameter
    dsimp only
    rw [List.cons_append, performAll, perform]
    generalize script.sayName .push parameter = recital at *
    obtain ⟨after, error⟩ := recital
    cases error with
    | none =>
        have hsame : after.symbols = script.symbols := hsymbols
        simp only [Recital.andThen]
        rw [← hsame, performAll_append, ← body_eq_performAll]
        rfl
    | some error => rfl
  all_goals rfl

/-- What a script says of an instruction is what the plan of the instruction
asks for. -/
theorem lower_eq_performAll (instruction : Instruction) :
    script.lower graph index instruction
      = performAll (plan graph script.symbols index instruction) script := by
  obtain ⟨operation, first, second⟩ := instruction
  cases operation with
  | assign =>
      cases second with
      | none => rfl
      | some target =>
          exact script.assign_eq_performAll graph index first target
  | func =>
      cases second with
      | none => rfl
      | some operand =>
          exact script.func_eq_performAll graph index first operand
  | apply => rfl
  | eval => rfl
  | print => rfl

end Script

/-- Plans write commands the way they are written. -/
theorem fits_plan (graph : Graph) (symbols : Symbols) (index : Nat)
    (instruction : Instruction) :
    (plan graph symbols index instruction).all Step.fits := by
  rw [List.all_eq_true]
  intro step hstep
  have hsuits := List.all_eq_true.mp
    (suits_plan graph symbols index instruction) step hstep
  cases step with
  | bind name value => rfl
  | bare command => exact hsuits
  | named command name => exact hsuits
  | fail error => rfl

namespace Assembler.Follows

variable {assembler : Assembler} {script : Script}

/-- The assembler follows the script through an instruction. -/
theorem lower (h : assembler.Follows script) (graph : Graph) (index : Nat)
    (instruction : Instruction) :
    (assembler.lower graph index instruction).Follows
      (script.lower graph index instruction) := by
  rw [Assembler.lower, script.lower_eq_performAll, h.symbols]
  exact h.performAll (fits_plan graph script.symbols index instruction)

/-- It follows through instructions one after the other. -/
theorem assembleFrom (h : assembler.Follows script) (graph : Graph)
    (index : Nat) (instructions : List Instruction) :
    (Assembler.assembleFrom graph index instructions assembler).Follows
      (Script.lowerFrom graph index instructions script) := by
  induction instructions generalizing index assembler script with
  | nil => exact ⟨h, rfl⟩
  | cons instruction instructions ih =>
      rw [Assembler.assembleFrom, Script.lowerFrom]
      apply (h.lower graph index instruction).andThen
      intro assembler script hnext
      exact ih hnext (index + 1)

/-- **An assembler and a script that are asked the same stay together**,
whether the request fails or not. -/
theorem answer (h : assembler.Follows script) (request : Request) :
    (assembler.answer request).Follows (script.answer request) := by
  cases request with
  | batch graph instructions => exact (h.assembleFrom graph 0 instructions).1
  | code nameClass name => exact (h.code nameClass name).1

/-- It follows through requests, whatever becomes of each. -/
theorem answerAll (h : assembler.Follows script) (requests : List Request) :
    (requests.foldl Assembler.answer assembler).Follows
      (requests.foldl Script.answer script) := by
  induction requests generalizing assembler script with
  | nil => exact h
  | cons request requests ih => exact ih (h.answer request)

end Assembler.Follows

/-! ### Reading the bytes back -/

/-- What takes each item back to its source takes the items back to the
sources. -/
theorem map_itemsFrom {α : Type} {sources : List α}
    {command : α → Command × Option UInt8} {back : Item → α}
    (h : ∀ source ∈ sources, ∀ item : Item,
      (item.command, item.operand) = command source → back item = source)
    (offset : Nat) :
    (itemsFrom offset (sources.map command)).map back = sources := by
  induction sources generalizing offset with
  | nil => rfl
  | cons source sources ih =>
      rw [List.map_cons, itemsFrom, List.map_cons,
        h source List.mem_cons_self _ rfl, ih]
      intro other hother
      exact h other (List.mem_cons_of_mem _ hother)

/-- The comment behind a command in a listing. -/
def Line.comment (line : Line) : String :=
  match line.name with
  | some name => " ; " ++ name
  | none => ""

namespace Assembler

/-- An item with its name in the place of its code. -/
def lineOf (assembler : Assembler) (item : Item) : Line :=
  ⟨item.command, assembler.nameOf? item⟩

/-- An item is described by its command and the comment of the line it says. -/
theorem describeItem_eq (assembler : Assembler) (item : Item) :
    assembler.describeItem item
      = item.describe ++ (assembler.lineOf item).comment := by
  unfold describeItem lineOf Line.comment
  cases assembler.nameOf? item with
  | none => simp
  | some name =>
      simp only [String.append_assoc]
      rfl

/-- Only what is pushed is named by variables. -/
theorem names_nameClass (assembler : Assembler) (command : Command) :
    assembler.names command.nameClass
      = if command = .push then assembler.variableNames
        else assembler.identifierNames := by
  cases command <;> rfl

variable {assembler : Assembler} {script : Script}

/-- The name of a line is found again under its code. -/
theorem Follows.name?_code (h : assembler.Follows script) {line : Line}
    (hline : line ∈ script.lines) {name : String}
    (hname : line.name = some name) :
    (assembler.names line.command.nameClass).name?
        (UInt8.ofNat (rank (script.asked line.command.nameClass) name)).toNat
      = some name := by
  have hsayable := h.sayable line hline
  have hposition := (h.names line.command.nameClass).position name
    (hsayable.mem name hname)
  have hcode : (UInt8.ofNat (rank (script.asked line.command.nameClass)
      name)).toNat = rank (script.asked line.command.nameClass) name :=
    Nat.mod_eq_of_lt (hsayable.fits name hname)
  rw [hcode]
  exact (Names.position?_eq_some_iff.mp hposition).1

/-- An item that was written for a line means that line. -/
theorem Follows.lineOf_eq (h : assembler.Follows script) {line : Line}
    (hline : line ∈ script.lines) {item : Item}
    (hitem : (item.command, item.operand)
      = (line.command, line.code? script.asked)) :
    assembler.lineOf item = line := by
  obtain ⟨command, name⟩ := line
  obtain ⟨hcommand, hoperand⟩ := Prod.mk.inj hitem
  rw [lineOf, nameOf?, hoperand, hcommand]
  cases name with
  | none => rfl
  | some name =>
      have hfound := h.name?_code hline rfl
      simpa [Line.code?] using hfound

/-- **Bytes that follow a script are read back as its lines.** -/
theorem Follows.exists_items (h : assembler.Follows script) :
    ∃ items, decode assembler.bytes.toList = .ok items ∧
      items.map assembler.lineOf = script.lines ∧
      ∀ item ∈ items, ∃ line ∈ script.lines,
        item.command = line.command ∧
          item.operand = line.code? script.asked := by
  have hfurnished : Furnished (script.lines.map fun line =>
      (line.command, line.code? script.asked)) := by
    intro command hcommand
    obtain ⟨line, hline, rfl⟩ := List.mem_map.mp hcommand
    rw [← Command.hasOperand_iff, ← (h.sayable line hline).named]
    simp [Line.code?]
  refine ⟨itemsFrom 0 (script.lines.map fun line =>
    (line.command, line.code? script.asked)), ?_, ?_, ?_⟩
  · refine decode_eq_ok_iff.mpr ⟨_, hfurnished, ?_, rfl⟩
    rw [h.bytes, Script.bytes, encodeAll, List.flatMap_map]
  · apply map_itemsFrom
    intro line hline item hitem
    exact h.lineOf_eq hline hitem
  · intro item hitem
    have hcontent := List.mem_map_of_mem (f := Item.content) hitem
    rw [map_content_itemsFrom] at hcontent
    obtain ⟨line, hline, heq⟩ := List.mem_map.mp hcontent
    obtain ⟨hsame, hoperand⟩ := Prod.mk.inj heq
    exact ⟨line, hline, hsame.symm, hoperand.symm⟩

end Assembler

/-- **The bytes spell the script.**  Whatever an assembler has been asked for,
and however much of it failed, its bytes can be read back.  Exactly the
commands `PUSH`, `STORE` and `LOAD` have an operand; each operand is the code
of a name in the table of variables or of identifiers, and with the names in
the place of the codes the commands are the lines of the script.  The listing
has one line of text for each command: the command, its name if it has one, and
a line feed. -/
theorem listing_spells_script (symbols : Symbols) (requests : List Request) :
    let assembler := requests.foldl Assembler.answer (.initial symbols)
    let script := requests.foldl Script.answer (.initial symbols)
    ∃ items, decode assembler.bytes.toList = .ok items ∧
      (∀ item ∈ items, (item.operand.isSome ↔
          item.command = .push ∨ item.command = .store ∨
            item.command = .load) ∧
        ∀ code ∈ item.operand, ∃ name,
          (if item.command = .push then assembler.variableNames
            else assembler.identifierNames).name? code.toNat = some name) ∧
      items.map assembler.lineOf = script.lines ∧
      assembler.listingText = .ok (String.join
        (List.zipWith (fun item line => item.describe ++ line.comment ++ "\n")
          items script.lines)) := by
  intro assembler script
  have h : assembler.Follows script :=
    (Assembler.Follows.initial symbols).answerAll requests
  obtain ⟨items, hdecode, hlines, hitems⟩ := h.exists_items
  refine ⟨items, hdecode, ?_, hlines, ?_⟩
  · intro item hitem
    obtain ⟨line, hline, hcommand, hoperand⟩ := hitems item hitem
    have hnamed := (h.sayable line hline).named
    refine ⟨?_, ?_⟩
    · have hsome : item.operand.isSome = item.command.hasOperand := by
        rw [hoperand, hcommand, ← hnamed]
        simp [Line.code?]
      rw [hsome]
      cases item.command <;> simp [Command.hasOperand]
    · intro code hcode
      rw [hoperand, Option.mem_def, Line.code?, Option.map_eq_some_iff] at hcode
      obtain ⟨name, hname, rfl⟩ := hcode
      refine ⟨name, ?_⟩
      rw [← assembler.names_nameClass, hcommand]
      exact h.name?_code hline hname
  · have hdescribed : items.map assembler.describeItem
        = items.map fun item =>
          item.describe ++ (assembler.lineOf item).comment :=
      List.map_congr_left fun item _ => assembler.describeItem_eq item
    rw [← hlines, List.zipWith_map_right, List.zipWith_self]
    simp only [Assembler.listingText, Assembler.listing, hdecode, hdescribed]
    simp [Except.map, joinLines, Function.comp_def]

end LambdaStack.Bytecode
