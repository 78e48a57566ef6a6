import LambdaStack.Proofs.Functions
import LambdaStack.Proofs.Joining

/-!
# Reading on where a text has ended

A session reads its lines one by one and throws the stack of the automaton
away between them.  Nothing is lost by that, as long as a line does not go on
with the expression at the end of the line before: at the end of a statement
the stack is always the same, state 1 above state 0, with values that carry
nothing (`exists_walk_of_accepted`).

    whole text     first ... | line feed | second ...
                             state 1, and the program so far
    second text                          | second ...
                             state 0, rule 5, then state 1

From there on the two runs go in step.  One **mirrors** the other: same stack,
same phase, same program, and tokens that differ by what stands in front of
the second text (`Mirrors.run`).

Main statement: `reading_resumes_behind_lineFeed`.
-/

namespace LambdaStack

namespace Grammar

open Automaton

/-- The same complaint with more bytes and lines in front of the text. -/
def Complaint.moved (bytes lines : Nat) (complaint : Complaint) : Complaint :=
  ⟨complaint.token.moved bytes lines⟩

/-- The same draft, with its complaints moved. -/
def Draft.moved (bytes lines : Nat) (draft : Draft) : Draft :=
  { draft with
    complaints := draft.complaints.map (Complaint.moved bytes lines) }

/-! ### Runs in step -/

/-- The two configurations differ in their tokens only: those of the first are
those of the second, moved, and it has taken `ahead` tokens more. -/
structure Mirrors (bytes lines ahead : Nat)
    (config other : Config Draft Value Refusal) : Prop where
  stack : config.stack = other.stack
  pending : config.pending = other.pending.map (Token.moved bytes lines)
  quiet : config.quiet = other.quiet
  taken : config.taken = other.taken + ahead
  memory : config.memory = other.memory.moved bytes lines
  phase : config.phase = other.phase

/-- From the token at `ahead` on, the tape goes on as the other one, with its
tokens moved. -/
def Continues (bytes lines ahead : Nat) (tape other : Tape) : Prop :=
  ∀ n, tape (n + ahead) = (other n).moved bytes lines

/-- Reductions know nothing of complaints. -/
theorem reduce_moved (bytes lines : Nat) (draft : Draft) (rule : Nat)
    (frame : List Value) :
    semantics.reduce (draft.moved bytes lines) rule frame
      = ((semantics.reduce draft rule frame).1.moved bytes lines,
        (semantics.reduce draft rule frame).2) := by
  simp only [semantics, Draft.moved]
  split <;> rfl

/-- What a reduction comes to. -/
theorem reduce_eq {S V E : Type} {semantics : Semantics S V E}
    {config : Config S V E} {rule length head : Nat}
    (hlength : tables.ruleLength? rule = some length)
    (hhead : tables.ruleHead? rule = some head) :
    config.reduce tables semantics rule
      = match semantics.reduce config.memory rule
          (config.stack.frame length) with
        | (memory, .ok value) =>
          { config with memory }.replace tables rule length head value
        | (memory, .error reason) => config.refused rule memory reason := by
  rcases hvalue : semantics.reduce config.memory rule
    (config.stack.frame length) with ⟨memory, reason | value⟩
  · simp only [Config.reduce, hlength, hhead, hvalue, Config.refused]
  · simp only [Config.reduce, hlength, hhead, hvalue]

namespace Mirrors

variable {bytes lines ahead : Nat} {tape otherTape : Tape}
  {config other : Config Draft Value Refusal}

theorem enter (h : Mirrors bytes lines ahead config other)
    (phase : Phase Refusal) :
    Mirrors bytes lines ahead (config.enter phase) (other.enter phase) :=
  ⟨h.stack, h.pending, h.quiet, h.taken, h.memory, rfl⟩

/-- Both runs look at the same token, in its two places. -/
theorem look (h : Mirrors bytes lines ahead config other)
    (htape : Continues bytes lines ahead tape otherTape) :
    (config.look tape).1 = (other.look otherTape).1.moved bytes lines ∧
      Mirrors bytes lines ahead (config.look tape).2
        (other.look otherTape).2 := by
  have hpending := h.pending
  unfold Config.look
  cases hother : other.pending with
  | some token =>
      rw [hother, Option.map_some] at hpending
      rw [hpending]
      exact ⟨rfl, h⟩
  | none =>
      rw [hother, Option.map_none] at hpending
      have htoken := htape other.taken
      rw [← h.taken] at htoken
      have htaken : config.taken + 1 = other.taken + 1 + ahead := by
        rw [h.taken]
        omega
      rw [hpending]
      exact ⟨htoken, h.stack, congrArg some htoken, h.quiet, htaken, h.memory,
        h.phase⟩

/-- A shift goes alike: the semantics does not look at places. -/
theorem shift (h : Mirrors bytes lines ahead config other) (token : Token)
    (target : Nat) :
    Mirrors bytes lines ahead
      (config.shift semantics (token.moved bytes lines) target)
      (other.shift semantics token target) := by
  have hstack : config.stack.push target (tokenValue token)
      = other.stack.push target (tokenValue token) := by
    rw [h.stack]
  have hquiet : config.quiet - 1 = other.quiet - 1 := by
    rw [h.quiet]
  exact ⟨hstack, rfl, hquiet, h.taken, h.memory, rfl⟩

/-- The tables are consulted alike. -/
theorem consult (h : Mirrors bytes lines ahead config other)
    (htape : Continues bytes lines ahead tape otherTape) :
    Mirrors bytes lines ahead (config.consult tables semantics tape)
      (other.consult tables semantics otherTape) := by
  obtain ⟨htoken, hlook⟩ := h.look htape
  have hkind : (config.look tape).1.kind = (other.look otherTape).1.kind := by
    rw [htoken]
    rfl
  simp only [Config.consult, h.stack]
  by_cases hfinal : other.stack.state = tables.finalState
  · simp only [if_pos hfinal]
    exact ⟨h.stack, h.pending, h.quiet, h.taken, h.memory, rfl⟩
  · simp only [if_neg hfinal]
    cases tables.needsLookahead? other.stack.state with
    | none => exact h.enter _
    | some looks =>
        cases looks with
        | false => exact h.enter _
        | true =>
            rw [hkind]
            dsimp only
            cases tables.action? other.stack.state
                (tables.symbol (other.look otherTape).1.kind) with
            | none => exact hlook.enter _
            | some action =>
                cases action with
                | shift target =>
                    dsimp only
                    rw [htoken]
                    exact hlook.shift _ target
                | reduce rule => exact hlook.enter _
                | default => exact hlook.enter _
                | fail => exact hlook.enter _

/-- Falling back goes alike. -/
theorem fallBack (h : Mirrors bytes lines ahead config other) :
    Mirrors bytes lines ahead (config.fallBack tables)
      (other.fallBack tables) := by
  simp only [Config.fallBack, h.stack]
  cases tables.defaultReduction? other.stack.state with
  | none => exact h.enter _
  | some found =>
      cases found with
      | none => exact h.enter _
      | some rule => exact h.enter _

/-- So does replacing a right-hand side. -/
theorem replace (h : Mirrors bytes lines ahead config other)
    (rule length head : Nat) (value : Value) :
    Mirrors bytes lines ahead (config.replace tables rule length head value)
      (other.replace tables rule length head value) := by
  simp only [Config.replace, h.stack]
  cases other.stack.pop? length with
  | none => exact h.enter _
  | some stack =>
      cases hgoto : tables.goto? stack.state head with
      | none =>
          simp only [hgoto]
          exact h.enter _
      | some target =>
          simp only [hgoto]
          exact ⟨rfl, h.pending, h.quiet, h.taken, h.memory, rfl⟩

/-- Rules are refused or reduced alike. -/
theorem reduce (h : Mirrors bytes lines ahead config other) (rule : Nat) :
    Mirrors bytes lines ahead (config.reduce tables semantics rule)
      (other.reduce tables semantics rule) := by
  cases hlength : tables.ruleLength? rule with
  | none =>
      simp only [Config.reduce, hlength]
      exact h.enter _
  | some length =>
      cases hhead : tables.ruleHead? rule with
      | none =>
          simp only [Config.reduce, hlength, hhead]
          exact h.enter _
      | some head =>
          rw [reduce_eq hlength hhead, reduce_eq hlength hhead, h.stack,
            h.memory, reduce_moved]
          rcases semantics.reduce other.memory rule (other.stack.frame length)
            with ⟨draft, reason | value⟩
          · exact ⟨h.stack, h.pending, h.quiet, h.taken, rfl, rfl⟩
          · apply replace
            exact ⟨rfl, h.pending, h.quiet, h.taken, rfl, h.phase⟩

/-- Both complain about the same token. -/
theorem complain (h : Mirrors bytes lines ahead config other)
    (hpending : other.pending.isSome) :
    Mirrors bytes lines ahead (config.complain semantics)
      (other.complain semantics) := by
  obtain ⟨token, htoken⟩ := Option.isSome_iff_exists.mp hpending
  have hsame := h.pending
  rw [htoken, Option.map_some] at hsame
  simp only [Config.complain, h.quiet]
  by_cases hquiet : other.quiet = 0
  · simp only [if_pos hquiet]
    refine ⟨h.stack, h.pending, rfl, h.taken, ?_, h.phase⟩
    simp only [semantics, Draft.moved, h.memory, hsame, htoken,
      Option.getD_some, Array.map_push]
    rfl
  · simp only [if_neg hquiet]
    exact h

/-- A syntax error is reported at the same token, in its two places. -/
theorem stuck (h : Mirrors bytes lines ahead config other)
    (hpending : other.pending.isSome) :
    Mirrors bytes lines ahead (config.stuck tables semantics)
      (other.stuck tables semantics) := by
  have hcomplain := h.complain hpending
  have hsame := hcomplain.pending
  simp only [Config.stuck, hcomplain.quiet]
  by_cases hquiet : (other.complain semantics).quiet = quietSpell
  · simp only [if_pos hquiet, hsame]
    cases (other.complain semantics).pending with
    | none => exact hcomplain.enter _
    | some token =>
        simp only [Option.map_some]
        by_cases hend : tables.symbol token.kind = endSymbol
        · have hmoved : tables.symbol (token.moved bytes lines).kind
              = endSymbol := hend
          simp only [if_pos hend, if_pos hmoved]
          exact ⟨hcomplain.stack, hcomplain.pending, hcomplain.quiet,
            hcomplain.taken, hcomplain.memory, rfl⟩
        · have hmoved : tables.symbol (token.moved bytes lines).kind
              ≠ endSymbol := hend
          simp only [if_neg hend, if_neg hmoved]
          exact ⟨hcomplain.stack, rfl, rfl, hcomplain.taken,
            hcomplain.memory, rfl⟩
  · simp only [if_neg hquiet]
    exact hcomplain.enter _

/-- Recovering goes alike. -/
theorem recover (h : Mirrors bytes lines ahead config other) :
    Mirrors bytes lines ahead (config.recover tables semantics)
      (other.recover tables semantics) := by
  simp only [Config.recover, h.stack]
  cases Config.unwind tables other.stack.top other.stack.below with
  | error fault => exact h.enter _
  | ok found =>
      cases found with
      | none => exact ⟨rfl, h.pending, rfl, h.taken, h.memory, rfl⟩
      | some entry => exact ⟨rfl, h.pending, rfl, h.taken, h.memory, rfl⟩

/-- **One step in step.** -/
theorem step (h : Mirrors bytes lines ahead config other)
    (htape : Continues bytes lines ahead tape otherTape)
    (hstuck : other.phase = .stuck → other.pending.isSome) :
    Mirrors bytes lines ahead (config.step tables semantics tape)
      (other.step tables semantics otherTape) := by
  simp only [Config.step, h.phase]
  cases hphase : other.phase with
  | consult => exact h.consult htape
  | fallback => exact h.fallBack
  | reduce rule => exact h.reduce rule
  | stuck => exact h.stuck (hstuck hphase)
  | recover => exact h.recover
  | halted halt => exact h

/-- **Runs in step.** -/
theorem run (h : Mirrors bytes lines ahead config other)
    (htape : Continues bytes lines ahead tape otherTape)
    (hstuck : ∀ fuel,
      (other.run tables semantics otherTape fuel).phase = .stuck →
      (other.run tables semantics otherTape fuel).pending.isSome)
    (fuel : Nat) :
    Mirrors bytes lines ahead (config.run tables semantics tape fuel)
      (other.run tables semantics otherTape fuel) := by
  induction fuel with
  | zero => exact h
  | succ fuel ih =>
      rw [Config.run_succ, Config.run_succ]
      exact ih.step htape (hstuck fuel)

end Mirrors

/-! ### The same place in two runs -/

section Places

variable {tape : Tape} {config : Config Draft Value Refusal}

/-- A token that was looked at is looked at again. -/
theorem look_look : (config.look tape).2.look tape = config.look tape := by
  unfold Config.look
  cases hpending : config.pending with
  | none => rfl
  | some token => simp only [hpending]

theorem phase_look : (config.look tape).2.phase = config.phase := by
  unfold Config.look
  split <;> rfl

/-- A state that needs a token does the same whether the token is pending or
still on the tape. -/
theorem step_look (hphase : config.phase = .consult)
    (hlooks : Looks config.stack.state) :
    (config.look tape).2.step tables semantics tape
      = config.step tables semantics tape := by
  have hlater : (config.look tape).2.phase = .consult :=
    phase_look.trans hphase
  simp only [Config.step, hlater, hphase, Config.consult, Config.stack_look,
    if_neg hlooks.1, hlooks.2, look_look]

/-- **Two runs that stand at the same place go on in step.** -/
theorem Mirrors.of_stands {bytes lines ahead : Nat} {otherTape : Tape}
    {other : Config Draft Value Refusal} {stack : Stack Value} {draft : Draft}
    (h : Stands tape ahead stack (draft.moved bytes lines) config)
    (hother : Stands otherTape 0 stack draft other)
    (htape : Continues bytes lines ahead tape otherTape)
    (hquiet : config.quiet = other.quiet) (hlooks : Looks stack.state) :
    Mirrors bytes lines ahead (config.step tables semantics tape)
      (other.step tables semantics otherTape) := by
  obtain ⟨htoken, htaken⟩ := h.look
  obtain ⟨hotherToken, hotherTaken⟩ := hother.look
  have hfirst := htape 0
  rw [Nat.zero_add] at hfirst
  have hlook : Mirrors bytes lines ahead (config.look tape).2
      (other.look otherTape).2 := by
    refine ⟨?_, ?_, ?_, ?_, ?_, ?_⟩
    · rw [Config.stack_look, Config.stack_look, h.stack, hother.stack]
    · rw [Config.pending_look, Config.pending_look, htoken, hotherToken, hfirst]
      rfl
    · rw [Config.quiet_look, Config.quiet_look, hquiet]
    · rw [htaken, hotherTaken]
      omega
    · rw [Config.memory_look, Config.memory_look, h.memory, hother.memory]
    · rw [phase_look, phase_look, h.phase, hother.phase]
  rw [← step_look h.phase (h.stack ▸ hlooks),
    ← step_look hother.phase (hother.stack ▸ hlooks)]
  apply hlook.step htape
  intro hstuck
  rw [phase_look, hother.phase] at hstuck
  cases hstuck

end Places

/-! ### Tapes of joined texts -/

/-- The sentence of what is scanned is all of it but the end of input. -/
theorem sentenceOf_tokens (cursor : Cursor) :
    sentenceOf cursor.tokens = cursor.tokens.dropLast := by
  fun_induction Cursor.tokens cursor with
  | case1 cursor hend => simp [sentenceOf, hend]
  | case2 cursor hend ih =>
      rw [List.dropLast_cons_of_ne_nil (Cursor.tokens_ne_nil _), ← ih]
      simp [sentenceOf, hend]

/-- The same for a whole text. -/
theorem sentenceOf_tokensOf (text : String) :
    sentenceOf (tokensOf text) = (tokensOf text).dropLast :=
  sentenceOf_tokens (Cursor.ofText text)

/-- A tape that answers the listed tokens carries them. -/
theorem carries_of_getElem? {tape : Tape} {tokens : List Token}
    {position : Nat} (h : ∀ index token, tokens[index]? = some token →
      tape (position + index) = token) : Carries tape position tokens := by
  induction tokens generalizing position with
  | nil => exact trivial
  | cons token tokens ih =>
      refine ⟨h 0 token rfl, ih ?_⟩
      intro index other hother
      have hlater := h (index + 1) other hother
      rwa [Nat.add_comm index, ← Nat.add_assoc] at hlater

section Joined

variable (first second : String)

/-- The tape of a text repeats its last token for ever. -/
theorem tape_ofText_eq (text : String) (n : Nat) (token : Token) :
    (Source.ofText text).tape n
      = (tokensOf text)[n]?.getD ((tokensOf text).getLast?.getD token) := by
  rw [Source.tape_ofText, ← Cursor.getElem?_tokens_getD _ _ token]
  rfl

/-- The whole text begins with the tokens of the first one. -/
theorem carries_join :
    Carries (Source.ofText (first ++ "\n" ++ second)).tape 0
      (sentenceOf (tokensOf first)) := by
  rw [sentenceOf_tokensOf]
  apply carries_of_getElem?
  intro index token htoken
  have hlt := (List.getElem?_eq_some_iff.mp htoken).1
  rw [Nat.zero_add, tape_ofText_eq _ _ token, tokensOf_join,
    List.getElem?_append_left hlt, htoken]
  rfl

/-- Behind them it goes on with those of the second one. -/
theorem continues_join :
    Continues (first ++ "\n").utf8ByteSize (lineFeeds (first ++ "\n"))
      (sentenceOf (tokensOf first)).length
      (Source.ofText (first ++ "\n" ++ second)).tape
      (Source.ofText second).tape := by
  intro n
  have hne : (tokensOf second) ≠ [] := Cursor.tokens_ne_nil _
  rw [tape_ofText_eq _ _ Token.start, tape_ofText_eq _ _ Token.start,
    tokensOf_join, sentenceOf_tokensOf, Nat.add_comm n,
    List.getElem?_append_right (Nat.le_add_right _ _), Nat.add_sub_cancel_left,
    List.getLast?_append, List.getLast?_map, List.getElem?_map,
    List.getLast?_eq_some_getLast hne]
  cases (tokensOf second)[n]? <;> rfl

end Joined

/-! ### Resuming -/

/-- The tokens of a source are those of its text. -/
theorem tokens_ofText (text : String) :
    (Source.ofText text).tokens.toList = tokensOf text := rfl

/-- All words of a text are spelt out. -/
theorem worded_sentenceOf (text : String) :
    Worded (sentenceOf (tokensOf text)) :=
  (worded_tokens (Cursor.ofText text)).mono (List.takeWhile_sublist _).subset

/-- What an accepted text comes to: its greedy statements are walked to their
end, and leave no value. -/
theorem exists_walk_of_accepted {program : Program}
    (hprogram : program.WellFormed) {text : String}
    (haccepted : (readText text program).outcome = some .accepted) :
    ∃ statements, GreedyProgram statements ∧
      statementTokens statements = sentenceOf (tokensOf text) ∧
      walkStatements semantics statements { program } .empty
        = ({ program := (readText text program).reading.program },
          .ok .empty) := by
  have hsource : Readable (Source.ofText text) := Or.inl ⟨text, rfl⟩
  unfold readText at haccepted ⊢
  obtain ⟨statements, hread, htokens, hscoped, helaborate⟩ :=
    exists_elaboration hsource hprogram haccepted
  generalize (Reading.resume (Source.ofText text)
    program).attempt.reading.program = result at helaborate ⊢
  rw [tokens_ofText] at hread htokens
  have hgreedy : GreedyProgram statements := by
    obtain ⟨others, hothers, heq⟩ :=
      exists_greedy_reading (mem_language_of_statements statements)
    have hfound := program?_statementTokens hothers
    rw [heq, htokens, hread] at hfound
    rw [Option.some.inj hfound]
    exact hothers
  have hworded : Worded (statementTokens statements) := by
    rw [htokens]
    exact worded_sentenceOf text
  have hdraft : ({ program } : Draft).program.WellFormed := hprogram
  obtain ⟨after, hafter, hwalk⟩ := exists_elaborateStatements hdraft hworded
    hscoped (fun _ hname => hname) .empty
  rw [helaborate] at hafter
  rw [← Option.some.inj hafter] at hwalk
  exact ⟨statements, hgreedy, htokens, hwalk⟩

/-- The stack between two statements. -/
def restingStack : Stack Value :=
  (Stack.initial 0 .empty).push 1 .empty

/-- Before the first statement the run has the empty program on its stack. -/
theorem exists_resting (tape : Tape) (draft : Draft) :
    ∃ next, Reaches semantics tape (Config.initial semantics draft 0) next ∧
      Stands tape 0 restingStack draft next := by
  have hstands : Stands tape 0 (Stack.initial 0 Value.empty) draft
      (Config.initial semantics draft 0) :=
    ⟨rfl, rfl, rfl, Or.inl ⟨rfl, rfl⟩⟩
  have harrives : Arrives semantics tape (Config.initial semantics draft 0)
      (semantics.reduce draft 5 []) 0
      (fun value => (Stack.initial 0 Value.empty).push 1 value) :=
    hstands.reduceBlindly (show (0, 5) ∈ blindDefaults by decide) rfl rfl
      (show tables.goto? 0 _ = some 1 by decide +kernel)
  exact harrives

/-- Behind an accepted text, and before a token that begins no phrase, the run
stands as before the first statement. -/
theorem exists_resting_behind {program : Program}
    (hprogram : program.WellFormed) {text : String}
    (haccepted : (readText text program).outcome = some .accepted)
    {tape : Tape} (hcarries : Carries tape 0 (sentenceOf (tokensOf text)))
    (hend : beginsPhrase
      (tape (sentenceOf (tokensOf text)).length).kind = false) :
    ∃ next,
      Reaches semantics tape (Config.initial semantics { program } 0) next ∧
      Stands tape (sentenceOf (tokensOf text)).length restingStack
        { program := (readText text program).reading.program } next := by
  obtain ⟨statements, hgreedy, htokens, hwalk⟩ :=
    exists_walk_of_accepted hprogram haccepted
  obtain ⟨resting, hreach, hstands⟩ := exists_resting tape { program }
  rw [← htokens] at hcarries hend ⊢
  have harrives : Arrives semantics tape resting
      (walkStatements semantics statements { program } .empty)
      (statementTokens statements).length
      (fun value => (Stack.initial 0 Value.empty).push 1 value) :=
    arrives_statements hgreedy.greedy hgreedy.bare hstands hcarries
      (Nat.zero_add _).symm hend rfl
  rw [hwalk] at harrives
  obtain ⟨next, hnext, hresting⟩ := harrives
  exact ⟨next, hreach.trans hnext, hresting⟩

/-- A run that stands somewhere is not over, and is not quiet. -/
theorem Stands.running {tape : Tape} {position : Nat} {stack : Stack Value}
    {draft memory : Draft} {config : Config Draft Value Refusal}
    (h : Stands tape position stack memory config)
    (hreach : Reaches semantics tape (Config.initial semantics draft 0)
      config) :
    ¬ config.isHalted ∧ config.quiet = 0 := by
  have hrunning : ¬ config.isHalted := by
    simp [Config.isHalted, h.phase]
  obtain ⟨fuel, rfl⟩ := hreach
  obtain ⟨symbols, htracked, _⟩ :=
    exists_derived_run semantics tape draft 0 fuel
  exact ⟨hrunning, htracked.quiet_eq hrunning⟩

/-- A run that goes on from a place it has reached comes to its end. -/
theorem run_step_of_reaches {source : Source}
    (hclosing : source.closing.kind = .endOfInput) {draft : Draft}
    {config : Config Draft Value Refusal}
    (hreach : Reaches semantics source.tape (Config.initial semantics draft 0)
      config)
    (hrunning : ¬ config.isHalted) {fuel : Nat}
    (hfuel : Reading.fuel source.length ≤ fuel) :
    (config.step tables semantics source.tape).run tables semantics
        source.tape fuel
      = (Config.initial semantics draft 0).run tables semantics source.tape
        (Reading.fuel source.length) := by
  have hhalted := isHalted_of_closing hclosing draft 0
  obtain ⟨steps, rfl⟩ := hreach
  rw [← Config.run_succ_of_not_isHalted _ _ _ hrunning, ← Config.run_add]
  have hsplit : steps + (fuel + 1) = Reading.fuel source.length
      + (steps + (fuel + 1) - Reading.fuel source.length) := by
    omega
  rw [hsplit, Config.run_add, Config.run_of_isHalted _ _ _ hhalted]

/-- Reading a text comes to an outcome. -/
theorem outcome_readText_cases (text : String) (program : Program) :
    (readText text program).outcome = some .accepted ∨
      (readText text program).outcome = some .rejected ∨
      ∃ reason, (readText text program).outcome = some (.failed reason) := by
  have hclosing : (Reading.resume (Source.ofText text)
      program).source.closing.kind = .endOfInput := kind_closing_ofText text
  unfold readText
  exact exists_outcome hclosing

/-- Every token on the tape of a text is a token of the text. -/
theorem tape_ofText_mem (text : String) (n : Nat) :
    (Source.ofText text).tape n ∈ tokensOf text := by
  have hne : tokensOf text ≠ [] := Cursor.tokens_ne_nil _
  rw [tape_ofText_eq _ _ Token.start, List.getLast?_eq_some_getLast hne]
  cases hfound : (tokensOf text)[n]? with
  | none => exact List.getLast_mem hne
  | some token => exact List.mem_of_getElem? hfound

/-- A complaint about a text stands in one of its lines. -/
theorem line_le_of_complaint {text : String} {program : Program}
    {complaint : Complaint}
    (h : complaint ∈ (readText text program).reading.complaints) :
    complaint.token.line ≤ lineFeeds text + 1 := by
  have hclosing := kind_closing_ofText text
  by_cases hrejected : (readText text program).outcome = some .rejected
  · obtain ⟨count, _, hcomplaints, _⟩ := exists_blamed hrejected
    rw [readText, hcomplaints] at h
    obtain rfl := List.mem_singleton.mp h
    exact line_le_of_mem_tokensOf (tape_ofText_mem text _)
  · have hnone := complaints_of_not_rejected hclosing hrejected
    rw [readText, hnone] at h
    cases h

/-- The run of a text that is read on top of a program. -/
def textRun (text : String) (program : Program) :
    Config Draft Value Refusal :=
  (Config.initial semantics { program } 0).run tables semantics
    (Source.ofText text).tape (Reading.fuel (Source.ofText text).length)

/-- An attempt is what its run has come to. -/
theorem readText_eq (text : String) (program : Program) :
    readText text program
      = ⟨(textRun text program).halt?,
        ⟨Source.ofText text, (textRun text program).taken,
          (textRun text program).memory⟩,
        (textRun text program).log.reverse⟩ := by
  unfold readText
  exact attempt_eq rfl

/-- Runs in step come to their ends in step. -/
theorem Mirrors.of_reaches {bytes lines ahead : Nat} {text otherText : String}
    {program otherProgram : Program}
    {config other : Config Draft Value Refusal}
    (htape : Continues bytes lines ahead (Source.ofText text).tape
      (Source.ofText otherText).tape)
    (hreach : Reaches semantics (Source.ofText text).tape
      (Config.initial semantics { program } 0) config)
    (hrunning : ¬ config.isHalted)
    (hotherReach : Reaches semantics (Source.ofText otherText).tape
      (Config.initial semantics { program := otherProgram } 0) other)
    (hotherRunning : ¬ other.isHalted)
    (h : Mirrors bytes lines ahead
      (config.step tables semantics (Source.ofText text).tape)
      (other.step tables semantics (Source.ofText otherText).tape)) :
    Mirrors bytes lines ahead (textRun text program)
      (textRun otherText otherProgram) := by
  have hclosing := kind_closing_ofText text
  have hotherClosing := kind_closing_ofText otherText
  have hstuck : ∀ fuel,
      ((other.step tables semantics (Source.ofText otherText).tape).run tables
        semantics (Source.ofText otherText).tape fuel).phase = .stuck →
      ((other.step tables semantics (Source.ofText otherText).tape).run tables
        semantics (Source.ofText otherText).tape fuel).pending.isSome := by
    intro fuel hphase
    obtain ⟨steps, hother⟩ := hotherReach
    obtain ⟨hblames, _⟩ := exists_blame (Source.ofText otherText).tape
      { program := otherProgram } 0 (steps + (fuel + 1))
    rw [Config.run_add, hother,
      Config.run_succ_of_not_isHalted _ _ _ hotherRunning] at hblames
    simp only [Blames, hphase] at hblames
    exact hblames.2
  have hfinal := h.run htape hstuck
    (max (Reading.fuel (Source.ofText text).length)
      (Reading.fuel (Source.ofText otherText).length))
  rw [run_step_of_reaches hclosing hreach hrunning (Nat.le_max_left _ _),
    run_step_of_reaches hotherClosing hotherReach hotherRunning
      (Nat.le_max_right _ _)] at hfinal
  exact hfinal

/-- **The runs of the whole text and of its second half** end in step. -/
theorem mirrors_textRun {program : Program} (hprogram : program.WellFormed)
    {first second : String}
    (haccepted : (readText first program).outcome = some .accepted)
    (hnext : beginsPhrase (Cursor.ofText second).next.1.kind = false) :
    Mirrors (first ++ "\n").utf8ByteSize (lineFeeds (first ++ "\n"))
      (sentenceOf (tokensOf first)).length
      (textRun (first ++ "\n" ++ second) program)
      (textRun second (readText first program).reading.program) := by
  have htape := continues_join first second
  have hend : beginsPhrase ((Source.ofText (first ++ "\n" ++ second)).tape
      (sentenceOf (tokensOf first)).length).kind = false := by
    have hfirst := htape 0
    rw [Nat.zero_add] at hfirst
    rw [hfirst, Source.tape_ofText]
    exact hnext
  obtain ⟨config, hreach, hstands⟩ := exists_resting_behind hprogram haccepted
    (carries_join first second) hend
  generalize (readText first program).reading.program = resumed at hstands ⊢
  obtain ⟨other, hotherReach, hotherStands⟩ := exists_resting
    (Source.ofText second).tape { program := resumed }
  obtain ⟨hrunning, hquiet⟩ := hstands.running hreach
  obtain ⟨hotherRunning, hotherQuiet⟩ := hotherStands.running hotherReach
  -- there are no complaints yet that could have moved
  have hmoved : ({ program := resumed } : Draft).moved
      (first ++ "\n").utf8ByteSize (lineFeeds (first ++ "\n"))
      = { program := resumed } := by
    simp [Draft.moved]
  rw [← hmoved] at hstands
  exact Mirrors.of_reaches htape hreach hrunning hotherReach hotherRunning
    (Mirrors.of_stands hstands hotherStands htape
      (hquiet.trans hotherQuiet.symm) (show Looks 1 by decide +kernel))

/-- **Reading resumes behind a line feed.**  If `first` is accepted on top of a
well-formed program, and `second` does not begin with a name, an identifier, a
function or a bracket, then reading both with a line feed between them is
reading `second` on top of what `first` has left: the outcome is the same, be
it acceptance, rejection or the reason of a refusal, and so is the program.  A
complaint is the same but for its place, which has the bytes and lines of
`first` and of the line feed in front of it, up to the largest line that is
reported. -/
theorem reading_resumes_behind_lineFeed (program : Program)
    (hprogram : program.WellFormed) (first second : String)
    (haccepted : (readText first program).outcome = some .accepted)
    (hnext : beginsPhrase (Cursor.ofText second).next.1.kind = false) :
    let whole := readText (first ++ "\n" ++ second) program
    let resumed := readText second (readText first program).reading.program
    let bytes := (first ++ "\n").utf8ByteSize
    let lines := lineFeeds (first ++ "\n")
    (∃ halt, whole.outcome = some halt ∧ resumed.outcome = some halt) ∧
      whole.reading.program = resumed.reading.program ∧
      whole.reading.complaints
        = resumed.reading.complaints.map (Complaint.moved bytes lines) ∧
      (lineFeeds (first ++ "\n" ++ second) < positionLimit →
        ∀ complaint ∈ resumed.reading.complaints,
          (complaint.moved bytes lines).token.line
            = complaint.token.line + lines) := by
  intro whole resumed bytes lines
  have hmirrors := mirrors_textRun hprogram haccepted hnext
  have hwhole : whole = _ := readText_eq (first ++ "\n" ++ second) program
  have hresumed : resumed = _ := readText_eq second _
  generalize textRun (first ++ "\n" ++ second) program = final
    at hmirrors hwhole
  generalize textRun second _ = other at hmirrors hresumed
  have houtcome : whole.outcome = resumed.outcome := by
    rw [hwhole, hresumed]
    simp only [Config.halt?, hmirrors.phase]
  have hmemory : whole.reading.draft
      = resumed.reading.draft.moved bytes lines := by
    rw [hwhole, hresumed]
    exact hmirrors.memory
  have hhalts : resumed.outcome = some .accepted ∨
      resumed.outcome = some .rejected ∨
      ∃ reason, resumed.outcome = some (.failed reason) :=
    outcome_readText_cases second _
  have hlimit : ∀ complaint ∈ resumed.reading.complaints,
      complaint.token.line ≤ lineFeeds second + 1 :=
    fun _ hcomplaint => line_le_of_complaint hcomplaint
  clear_value whole resumed bytes
  have hprogram : whole.reading.program = resumed.reading.program := by
    rw [Reading.program, hmemory]
    rfl
  have hcomplaints : whole.reading.complaints
      = resumed.reading.complaints.map (Complaint.moved bytes lines) := by
    rw [Reading.complaints, hmemory]
    exact Array.toList_map
  have hplaces : lineFeeds (first ++ "\n" ++ second) < positionLimit →
      ∀ complaint ∈ resumed.reading.complaints,
        (complaint.moved bytes lines).token.line
          = complaint.token.line + lines := by
    intro hlines complaint hcomplaint
    have hline := hlimit complaint hcomplaint
    rw [lineFeeds_append] at hlines
    simp only [Complaint.moved, Token.moved]
    omega
  refine ⟨?_, hprogram, hcomplaints, hplaces⟩
  rw [houtcome]
  rcases hhalts with hhalt | hhalt | ⟨reason, hhalt⟩
  · exact ⟨.accepted, hhalt, hhalt⟩
  · exact ⟨.rejected, hhalt, hhalt⟩
  · exact ⟨.failed reason, hhalt, hhalt⟩

/-- The second text fails in its first line, the whole text in its third. -/
theorem rejection_resumes_behind_lineFeed :
    identityProgram.WellFormed ∧
    (readText "let K = \\y.I\n // a comment" identityProgram).outcome
      = some .accepted ∧
    beginsPhrase (Cursor.ofText "eval K )").next.1.kind = false ∧
    let whole := readText ("let K = \\y.I\n // a comment" ++ "\n" ++ "eval K )")
      identityProgram
    let resumed := readText "eval K )"
      (readText "let K = \\y.I\n // a comment" identityProgram).reading.program
    whole.outcome = some .rejected ∧
      whole.reading.complaints.map (·.token.line) = [3] ∧
      resumed.reading.complaints.map (·.token.line) = [1] ∧
      (∃ halt, whole.outcome = some halt ∧ resumed.outcome = some halt) ∧
      whole.reading.program = resumed.reading.program ∧
      whole.reading.complaints
        = resumed.reading.complaints.map (Complaint.moved 27 2) := by
  have hprogram : identityProgram.WellFormed := by decide
  have haccepted : (readText "let K = \\y.I\n // a comment"
      identityProgram).outcome = some .accepted := by
    decide +kernel
  have hnext : beginsPhrase (Cursor.ofText "eval K )").next.1.kind
      = false := by
    decide +kernel
  obtain ⟨houtcome, hsame, hcomplaints, _⟩ := reading_resumes_behind_lineFeed
    identityProgram hprogram "let K = \\y.I\n // a comment" "eval K )" haccepted
    hnext
  exact ⟨hprogram, haccepted, hnext, by decide +kernel, by decide +kernel,
    by decide +kernel, houtcome, hsame, hcomplaints⟩

end Grammar

end LambdaStack
