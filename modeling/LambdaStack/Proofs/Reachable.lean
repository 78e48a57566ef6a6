import Mathlib.Logic.Relation
import LambdaStack.Proofs.WellFormed

/-!
# Programs that reading can lead to

A semantics **keeps** a property of its memory if its answers do, given that
the values it is handed fit the memory; and the values that fitted before must
go on fitting.  Then a run of any automaton keeps the property, at every point
and however it ends, because an automaton only moves values about: they come
from the semantics, wait on the stack and are handed back (`Kept.run`).

The semantics that builds programs keeps them well formed.  So a program is
well formed after every attempt to read something on top of a well-formed one,
and after any number of such attempts.
-/

namespace LambdaStack.Automaton

variable {S V E : Type}

/-- The answers of a semantics keep the memory good, and make values that
fit. -/
structure Semantics.Keeps (semantics : Semantics S V E) (good : S → Prop)
    (fits : S → V → Prop) : Prop where
  blank : ∀ memory, fits memory semantics.blank
  token : ∀ memory token, good memory →
    good (semantics.token memory token).1 ∧
    fits (semantics.token memory token).1 (semantics.token memory token).2 ∧
    ∀ value, fits memory value → fits (semantics.token memory token).1 value
  reduce : ∀ memory rule frame, good memory →
    (∀ value ∈ frame, fits memory value) →
    good (semantics.reduce memory rule frame).1 ∧
    (∀ value, (semantics.reduce memory rule frame).2 = .ok value →
      fits (semantics.reduce memory rule frame).1 value) ∧
    ∀ value, fits memory value →
      fits (semantics.reduce memory rule frame).1 value
  complain : ∀ memory found, good memory →
    good (semantics.complain memory found) ∧
    ∀ value, fits memory value → fits (semantics.complain memory found) value

/-- The memory is good and all values on the stack fit. -/
structure Kept (good : S → Prop) (fits : S → V → Prop)
    (config : Config S V E) : Prop where
  memory : good config.memory
  stack : ∀ entry ∈ config.stack.entries, fits config.memory entry.value

namespace Kept

variable {semantics : Semantics S V E} {good : S → Prop}
  {fits : S → V → Prop} {config : Config S V E}

/-- Nothing but memory and stack matters. -/
theorem of_eq {next : Config S V E} (h : Kept good fits config)
    (hmemory : next.memory = config.memory)
    (hstack : next.stack = config.stack) : Kept good fits next := by
  constructor
  · rw [hmemory]
    exact h.memory
  · rw [hmemory, hstack]
    exact h.stack

/-- Reading a token keeps everything in order. -/
theorem look (h : Kept good fits config) (tape : Tape) :
    Kept good fits (config.look tape).2 := by
  unfold Config.look
  split
  · exact h
  · exact h.of_eq rfl rfl

/-- A shift puts a value on the stack that fits what is remembered after it. -/
theorem shift (hkeeps : semantics.Keeps good fits)
    (h : Kept good fits config) (token : Token) (target : Nat) :
    Kept good fits (config.shift semantics token target) := by
  obtain ⟨hgood, hnew, hold⟩ := hkeeps.token config.memory token h.memory
  refine ⟨hgood, ?_⟩
  intro entry hentry
  rcases List.mem_cons.mp hentry with rfl | hbelow
  · exact hnew
  · exact hold _ (h.stack entry hbelow)

/-- Consulting the tables keeps everything in order, whatever they say. -/
theorem consult (hkeeps : semantics.Keeps good fits)
    (h : Kept good fits config) (tables : Tables) (tape : Tape) :
    Kept good fits (config.consult tables semantics tape) := by
  have hlook := h.look tape
  simp only [Config.consult]
  split
  · exact h.of_eq rfl rfl
  · split
    · exact h.of_eq rfl rfl
    · exact h.of_eq rfl rfl
    · split
      · exact hlook.of_eq rfl rfl
      · exact hlook.shift hkeeps _ _
      · exact hlook.of_eq rfl rfl
      · exact hlook.of_eq rfl rfl
      · exact hlook.of_eq rfl rfl

/-- A default rule is only chosen here, not carried out. -/
theorem fallBack (h : Kept good fits config) (tables : Tables) :
    Kept good fits (config.fallBack tables) := by
  unfold Config.fallBack
  split <;> exact h.of_eq rfl rfl

/-- A value that fits may take the place of a right-hand side. -/
theorem replace (h : Kept good fits config) {value : V}
    (hvalue : fits config.memory value) (tables : Tables)
    (rule length head : Nat) :
    Kept good fits (config.replace tables rule length head value) := by
  unfold Config.replace
  split
  · exact h.of_eq rfl rfl
  · next rest hpop =>
    split
    · exact h.of_eq rfl rfl
    · refine ⟨h.memory, ?_⟩
      intro entry hentry
      rcases List.mem_cons.mp hentry with rfl | hrest
      · exact hvalue
      · have hdrop : entry ∈ config.stack.entries.drop length :=
          Stack.entries_of_pop? hpop ▸ hrest
        exact h.stack entry (List.mem_of_mem_drop hdrop)

/-- A rule gets the values of a frame, which were on the stack. -/
theorem reduce (hkeeps : semantics.Keeps good fits)
    (h : Kept good fits config) (tables : Tables) (rule : Nat) :
    Kept good fits (config.reduce tables semantics rule) := by
  unfold Config.reduce
  split
  · next length head _ _ =>
    have hframe : ∀ value ∈ config.stack.frame length,
        fits config.memory value := by
      intro value hvalue
      obtain ⟨entry, hentry, rfl⟩ := List.mem_map.mp hvalue
      exact h.stack entry (List.mem_of_mem_take hentry)
    obtain ⟨hgood, hnew, hold⟩ :=
      hkeeps.reduce config.memory rule _ h.memory hframe
    have hstack : ∀ entry ∈ config.stack.entries,
        fits (semantics.reduce config.memory rule
          (config.stack.frame length)).1 entry.value :=
      fun entry hentry => hold _ (h.stack entry hentry)
    dsimp only
    split
    · next value hvalue =>
      have hnext : Kept good fits { config with
          memory := (semantics.reduce config.memory rule
            (config.stack.frame length)).1 } := ⟨hgood, hstack⟩
      exact hnext.replace (hnew value hvalue) tables rule length head
    · exact ⟨hgood, hstack⟩
  · exact h.of_eq rfl rfl

/-- A syntax error changes what is remembered, and all values still fit. -/
theorem complain (hkeeps : semantics.Keeps good fits)
    (h : Kept good fits config) :
    Kept good fits (config.complain semantics) := by
  unfold Config.complain
  split
  · obtain ⟨hgood, hold⟩ :=
      hkeeps.complain config.memory config.pending h.memory
    exact ⟨hgood, fun entry hentry => hold _ (h.stack entry hentry)⟩
  · exact h

/-- Being stuck keeps everything in order. -/
theorem stuck (hkeeps : semantics.Keeps good fits)
    (h : Kept good fits config) (tables : Tables) :
    Kept good fits (config.stuck tables semantics) := by
  have hcomplain := h.complain hkeeps
  simp only [Config.stuck]
  split
  · split
    · exact hcomplain.of_eq rfl rfl
    · split
      · exact hcomplain.of_eq rfl rfl
      · exact hcomplain.of_eq rfl rfl
  · exact hcomplain.of_eq rfl rfl

/-- Unwinding only takes entries off the stack. -/
theorem mem_of_unwind {tables : Tables} {top : Entry V}
    {below : List (Entry V)} {target : Nat} {stack : Stack V}
    (h : Config.unwind tables top below = .ok (some (target, stack))) :
    ∀ entry ∈ stack.entries, entry ∈ top :: below := by
  induction below generalizing top with
  | nil =>
      unfold Config.unwind at h
      split at h
      · cases h
      · cases h
      · cases h
        exact fun entry hentry => hentry
  | cons next below ih =>
      unfold Config.unwind at h
      split at h
      · cases h
      · exact fun entry hentry => List.mem_cons_of_mem _ (ih h entry hentry)
      · cases h
        exact fun entry hentry => hentry

/-- Recovering cuts the stack and puts the blank value on it, which always
fits. -/
theorem recover (hkeeps : semantics.Keeps good fits)
    (h : Kept good fits config) (tables : Tables) :
    Kept good fits (config.recover tables semantics) := by
  unfold Config.recover
  split
  · exact h.of_eq rfl rfl
  · exact h.of_eq rfl rfl
  · next target stack hunwind =>
    refine ⟨h.memory, ?_⟩
    intro entry hentry
    rcases List.mem_cons.mp hentry with rfl | hrest
    · exact hkeeps.blank _
    · exact h.stack entry (mem_of_unwind hunwind entry hrest)

/-- Every step keeps what the semantics keeps. -/
theorem step (hkeeps : semantics.Keeps good fits)
    (h : Kept good fits config) (tables : Tables) (tape : Tape) :
    Kept good fits (config.step tables semantics tape) := by
  unfold Config.step
  split
  · exact h.consult hkeeps tables tape
  · exact h.fallBack tables
  · exact h.reduce hkeeps tables _
  · exact h.stuck hkeeps tables
  · exact h.recover hkeeps tables
  · exact h

/-- **Every run keeps what the semantics keeps.** -/
theorem run (hkeeps : semantics.Keeps good fits)
    (h : Kept good fits config) (tables : Tables) (tape : Tape)
    (fuel : Nat) :
    Kept good fits (config.run tables semantics tape fuel) := by
  induction fuel generalizing config with
  | zero => exact h
  | succ fuel ih =>
      unfold Config.run
      split
      · exact h
      · exact ih (h.step hkeeps tables tape)

/-- A run starts in good order if what it remembers is. -/
theorem initial (hkeeps : semantics.Keeps good fits) (memory : S)
    (h : good memory) (taken : Nat) :
    Kept good fits (Config.initial semantics memory taken) := by
  obtain ⟨hgood, hnew, _⟩ := hkeeps.token memory Token.start h
  refine ⟨hgood, ?_⟩
  intro entry hentry
  obtain rfl := List.mem_singleton.mp hentry
  exact hnew

end Kept

end LambdaStack.Automaton

namespace LambdaStack.Grammar

open Automaton

/-- Building a program keeps it well formed. -/
theorem semantics_keeps :
    semantics.Keeps (fun draft => draft.program.WellFormed)
      (fun draft value => Holds draft.program value) where
  blank _ := trivial
  token draft token hgood :=
    ⟨hgood, holds_tokenValue draft.program token, fun _ hvalue => hvalue⟩
  reduce draft rule frame hgood hframe := by
    simp only [semantics]
    cases hmeaning : (Production.ofRule rule).meaning draft.program frame with
    | error refusal => exact ⟨hgood, by simp, fun _ hvalue => hvalue⟩
    | ok contribution =>
        have hfits := fits_meaning hgood hframe hmeaning
        refine ⟨Contribution.wellFormed_addTo hgood hfits, ?_, ?_⟩
        · intro value hvalue
          obtain rfl := Except.ok.inj hvalue
          exact hfits.value
        · exact fun value hvalue => hvalue.grow (contribution.grows _)
  complain _ _ hgood := ⟨hgood, fun _ hvalue => hvalue⟩

/-! ### Reachable programs -/

/-- One program is read on to another: a run over some tape, any part of which
may have been taken before and with any syntax errors so far, has come from
the one to the other after some number of steps. -/
def ReadsOn (before after : Program) : Prop :=
  ∃ (complaints : Array Complaint) (tape : Tape) (taken fuel : Nat),
    ((Config.initial semantics ⟨before, complaints⟩ taken).run tables
      semantics tape fuel).memory.program = after

/-- The programs to which one is read on any number of times. -/
def Reachable (start : Program) : Program → Prop :=
  Relation.ReflTransGen ReadsOn start

/-- A run leaves a well-formed program well-formed. -/
theorem ReadsOn.wellFormed {before after : Program}
    (h : ReadsOn before after) (hbefore : before.WellFormed) :
    after.WellFormed := by
  obtain ⟨complaints, tape, taken, fuel, rfl⟩ := h
  have hkept := Kept.initial semantics_keeps ⟨before, complaints⟩ hbefore taken
  exact (hkept.run semantics_keeps tables tape fuel).memory

/-- So do any number of runs, one after the other. -/
theorem Reachable.wellFormed {start final : Program}
    (h : Reachable start final) (hstart : start.WellFormed) :
    final.WellFormed := by
  induction h with
  | refl => exact hstart
  | tail _ hstep ih => exact hstep.wellFormed ih

/-- An attempt is one run. -/
theorem attempt_eq {reading : Reading} {final : Config Draft Value Refusal}
    (h : (Config.initial semantics reading.draft reading.taken).run tables
      semantics reading.source.tape (Reading.fuel reading.source.length)
      = final) :
    reading.attempt
      = ⟨final.halt?, ⟨reading.source, final.taken, final.memory⟩,
        final.log.reverse⟩ := by
  rw [← h]
  rfl

/-- An attempt reads its program on, whatever its outcome. -/
theorem readsOn_attempt (reading : Reading) :
    ReadsOn reading.program reading.attempt.reading.program := by
  obtain ⟨source, taken, program, complaints⟩ := reading
  change ReadsOn program _
  refine ⟨complaints, source.tape, taken, Reading.fuel source.length, ?_⟩
  generalize hfinal : (Config.initial semantics ⟨program, complaints⟩ taken).run
    tables semantics source.tape (Reading.fuel source.length) = final
  have hattempt : Reading.attempt ⟨source, taken, program, complaints⟩ = _ :=
    attempt_eq hfinal
  rw [hattempt]
  rfl

/-- Every attempt in a row leaves a reachable program. -/
theorem reachable_attempts {reading : Reading} {count : Nat}
    {attempt : Attempt} (h : attempt ∈ reading.attempts count) :
    Reachable reading.program attempt.reading.program := by
  induction count generalizing reading with
  | zero => cases h
  | succ count ih =>
      rcases List.mem_cons.mp h with rfl | hlater
      · exact Relation.ReflTransGen.single (readsOn_attempt reading)
      · exact Relation.ReflTransGen.head (readsOn_attempt reading) (ih hlater)

/-- **Reading keeps programs well formed.**  Whatever is read on top of the
empty program, or of any well-formed one, in any number of runs over any tapes
and however each of them ends, leaves a well-formed program; in particular so
do all attempts in a row to read a source. -/
theorem reading_keeps_wellFormed :
    (∀ final, Reachable Program.empty final → final.WellFormed) ∧
    (∀ start final : Program, start.WellFormed → Reachable start final →
      final.WellFormed) ∧
    (∀ (reading : Reading) (count : Nat), reading.program.WellFormed →
      ∀ attempt ∈ reading.attempts count,
        attempt.reading.program.WellFormed) := by
  refine ⟨fun final h => h.wellFormed Program.wellFormed_empty,
    fun start final hstart h => h.wellFormed hstart, ?_⟩
  intro reading count hprogram attempt hattempt
  exact (reachable_attempts hattempt).wellFormed hprogram

/-- The program of `let I = \x. x`. -/
def identityProgram : Program where
  graph := ⟨#[.var "x", .var "x", .lam 1 (.node 0), .identifier "I"]⟩
  code := #[.func (.node 1) (.node 0), .assign (.node 2) (.node 3)]
  symbols := ⟨[("I", .node 2)]⟩

/-- The tokens of `eval I I let`, which is no sentence. -/
def unfinishedTokens : List Token :=
  [.bare .evalWord none, .bare .identifier (some "I"),
    .bare .identifier (some "I"), .bare .letWord none]

/-- A rejected reading has added an instruction, and the program is well-formed
all the same. -/
theorem wellFormed_after_rejection :
    identityProgram.WellFormed ∧
    (Reading.resume (Source.ofTokens unfinishedTokens)
      identityProgram).attempt.outcome = some .rejected ∧
    (Reading.resume (Source.ofTokens unfinishedTokens)
      identityProgram).attempt.reading.program.code.size = 4 ∧
    (Reading.resume (Source.ofTokens unfinishedTokens)
      identityProgram).attempt.reading.program.WellFormed := by
  have hstart : identityProgram.WellFormed := by decide
  refine ⟨hstart, by decide +kernel, by decide +kernel, ?_⟩
  exact reading_keeps_wellFormed.2.1 identityProgram _ hstart
    (Relation.ReflTransGen.single (readsOn_attempt
      (Reading.resume (Source.ofTokens unfinishedTokens) identityProgram)))

end LambdaStack.Grammar
