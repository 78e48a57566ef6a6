import LambdaStack.Proofs.Items
import LambdaStack.Proofs.Phrase
import LambdaStack.Proofs.Trace

/-!
# Reading is walking the greedy phrases

`Phrase.walk` lets a semantics run over a phrase without any automaton: the
tokens and rules of the phrase get their values from left to right and from
the inside out.  `Statement.walk` and `walkProgram` do the same for statements
and programs.  A walk ends early when the semantics refuses a rule.

The automaton does exactly this.  `Phrase.arrives` says it for a phrase: from
any state that awaits an expression, the run goes through the tokens of a
greedy phrase and arrives with its value on top of the stack.  Between a token
and the next the automaton reduces as long as it can, and an open function is
closed only by a token that begins no phrase.

Main statement: `run_of_greedy`, for a tape that carries a greedy program up
to the end of input.
-/

namespace LambdaStack.Grammar

open Automaton

variable {S V W E : Type}

/-- Goes on with a value, or stops with the reason that there is none. -/
def andThen (outcome : S × Except E V)
    (next : S → V → S × Except E W) : S × Except E W :=
  match outcome with
  | (memory, .ok value) => next memory value
  | (memory, .error reason) => (memory, .error reason)

/-- The value of a phrase. -/
def Phrase.walk (semantics : Semantics S V E) : Phrase → S → S × Except E V
  | identifier word, memory =>
    let text := semantics.token memory word.1
    semantics.reduce text.1 10 [text.2]
  | name word, memory =>
    let text := semantics.token memory word.1
    semantics.reduce text.1 11 [text.2]
  | group opening inner closing, memory =>
    let first := semantics.token memory opening.1
    andThen (inner.walk semantics first.1) fun memory value =>
      let last := semantics.token memory closing.1
      semantics.reduce last.1 14 [last.2, value, first.2]
  | function lambda parameter dot body, memory =>
    let first := semantics.token memory lambda.1
    let bound := semantics.token first.1 parameter.1
    let mark := semantics.token bound.1 dot.1
    andThen (body.walk semantics mark.1) fun memory value =>
      andThen (semantics.reduce memory 15 [value, mark.2, bound.2, first.2])
        fun memory value => semantics.reduce memory 12 [value]
  | application applied applicand, memory =>
    andThen (applied.walk semantics memory) fun memory left =>
      andThen (applicand.walk semantics memory) fun memory right =>
        andThen (semantics.reduce memory 16 [right, left])
          fun memory value => semantics.reduce memory 13 [value]

/-- The value of a program with one more statement; `program` is the value of
the statements before it. -/
def Statement.walk (semantics : Semantics S V E) (program : V) :
    Statement → S → S × Except E V
  | declaration letWord name equals value, memory =>
    let first := semantics.token memory letWord.1
    let bound := semantics.token first.1 name.1
    let mark := semantics.token bound.1 equals.1
    andThen (value.walk semantics mark.1) fun memory value =>
      andThen (semantics.reduce memory 6 [value, mark.2, bound.2, first.2])
        fun memory value => semantics.reduce memory 2 [value, program]
  | evaluatedDeclaration letWord name equals evalWord value, memory =>
    let first := semantics.token memory letWord.1
    let bound := semantics.token first.1 name.1
    let mark := semantics.token bound.1 equals.1
    let word := semantics.token mark.1 evalWord.1
    andThen (value.walk semantics word.1) fun memory value =>
      andThen (semantics.reduce memory 8 [value, word.2]) fun memory value =>
        andThen (semantics.reduce memory 7 [value, mark.2, bound.2, first.2])
          fun memory value => semantics.reduce memory 2 [value, program]
  | evaluation evalWord value, memory =>
    let word := semantics.token memory evalWord.1
    andThen (value.walk semantics word.1) fun memory value =>
      andThen (semantics.reduce memory 8 [value, word.2])
        fun memory value => semantics.reduce memory 3 [value, program]
  | print value, memory =>
    andThen (value.walk semantics memory) fun memory value =>
      andThen (semantics.reduce memory 9 [value])
        fun memory value => semantics.reduce memory 4 [value, program]

/-- The value of a program with more statements. -/
def walkStatements (semantics : Semantics S V E) :
    List Statement → S → V → S × Except E V
  | [], memory, program => (memory, .ok program)
  | statement :: rest, memory, program =>
    andThen (statement.walk semantics program memory)
      fun memory program => walkStatements semantics rest memory program

/-- The value of a whole program: the start of input, the empty program, and
its statements. -/
def walkProgram (semantics : Semantics S V E) (statements : List Statement)
    (memory : S) : S × Except E V :=
  let first := semantics.token memory Token.start
  andThen (semantics.reduce first.1 5 [])
    fun memory program => walkStatements semantics statements memory program

/-! ### Runs that arrive -/

/-- The tape carries the tokens from the given position on. -/
def Carries (tape : Tape) : Nat → List Token → Prop
  | _, [] => True
  | position, token :: tokens =>
    tape position = token ∧ Carries tape (position + 1) tokens

/-- A tape carries two stretches one behind the other. -/
theorem carries_append {tape : Tape} {position : Nat}
    {left right : List Token} :
    Carries tape position (left ++ right) ↔
      Carries tape position left ∧
        Carries tape (position + left.length) right := by
  induction left generalizing position with
  | nil => simp [Carries]
  | cons token left ih =>
      have hlength : position + (token :: left).length
          = position + 1 + left.length := by
        rw [List.length_cons]
        omega
      rw [List.cons_append, Carries, Carries, ih, hlength, and_assoc]

/-- The run comes to the given configuration. -/
def Reaches (semantics : Semantics S V E) (tape : Tape)
    (config next : Config S V E) : Prop :=
  ∃ fuel, config.run tables semantics tape fuel = next

/-- The run is about to look at the state on top of `stack`, and the token at
`position` is the next one to be shifted. -/
structure Stands (tape : Tape) (position : Nat) (stack : Stack V)
    (memory : S) (config : Config S V E) : Prop where
  phase : config.phase = .consult
  stack : config.stack = stack
  memory : config.memory = memory
  place : config.pending = none ∧ config.taken = position ∨
    config.pending = some (tape position) ∧ config.taken = position + 1

/-- The run comes to the outcome of a walk: with the value on the stack, or
to its end with the reason that there is none. -/
def Arrives (semantics : Semantics S V E) (tape : Tape)
    (config : Config S V E) (outcome : S × Except E V) (position : Nat)
    (place : V → Stack V) : Prop :=
  match outcome with
  | (memory, .ok value) => ∃ next, Reaches semantics tape config next ∧
    Stands tape position (place value) memory next
  | (memory, .error reason) => ∃ next, Reaches semantics tape config next ∧
    next.phase = .halted (.failed reason) ∧ next.memory = memory

section Running

variable {semantics : Semantics S V E} {tape : Tape}

/-- Runs can be joined. -/
theorem Reaches.trans {first second third : Config S V E}
    (h : Reaches semantics tape first second)
    (hnext : Reaches semantics tape second third) :
    Reaches semantics tape first third := by
  obtain ⟨fuel, rfl⟩ := h
  obtain ⟨more, rfl⟩ := hnext
  exact ⟨fuel + more, Config.run_add _ _ _ _ _ _⟩

/-- A step is a run. -/
theorem reaches_step (config : Config S V E) :
    Reaches semantics tape config (config.step tables semantics tape) := by
  refine ⟨1, ?_⟩
  rw [Config.run]
  split
  · next hhalted =>
    unfold Config.isHalted at hhalted
    split at hhalted
    · next halt hphase => rw [Config.step, hphase]
    · cases hhalted
  · rfl

/-- What is arrived at later is arrived at. -/
theorem Arrives.of_reaches {config next : Config S V E}
    {outcome : S × Except E V} {position : Nat} {place : V → Stack V}
    (hreach : Reaches semantics tape config next)
    (h : Arrives semantics tape next outcome position place) :
    Arrives semantics tape config outcome position place := by
  obtain ⟨memory, reason | value⟩ := outcome
  · obtain ⟨last, hlast, hend⟩ := h
    exact ⟨last, hreach.trans hlast, hend⟩
  · obtain ⟨last, hlast, hstands⟩ := h
    exact ⟨last, hreach.trans hlast, hstands⟩

/-- Arriving at a value and going on from there. -/
theorem Arrives.andThen {config : Config S V E} {outcome : S × Except E V}
    {next : S → V → S × Except E V} {position finish : Nat}
    {place final : V → Stack V}
    (h : Arrives semantics tape config outcome position place)
    (hnext : ∀ memory value middle,
      Stands tape position (place value) memory middle →
      Arrives semantics tape middle (next memory value) finish final) :
    Arrives semantics tape config (Grammar.andThen outcome next) finish
      final := by
  obtain ⟨memory, reason | value⟩ := outcome
  · exact h
  · obtain ⟨middle, hreach, hstands⟩ := h
    exact (hnext memory value middle hstands).of_reaches hreach

/-- A state that looks at tokens and is not the last one. -/
def Looks (state : Nat) : Prop :=
  state ≠ tables.finalState ∧ tables.needsLookahead? state = some true

instance (state : Nat) : Decidable (Looks state) :=
  inferInstanceAs (Decidable (_ ∧ _))

/-- A state that turns to its default rule on a token, or without looking at
one. -/
def FallsBack (state : Nat) (kind : Kind) (rule : Nat) : Prop :=
  state ≠ tables.finalState ∧
    tables.defaultReduction? state = some (some rule) ∧
    (tables.needsLookahead? state = some false ∨
      tables.needsLookahead? state = some true ∧
        tables.action? state (tables.symbol kind) = some .default)

instance (state : Nat) (kind : Kind) (rule : Nat) :
    Decidable (FallsBack state kind rule) :=
  inferInstanceAs (Decidable (_ ∧ _ ∧ _))

variable {position : Nat} {stack : Stack V} {memory : S}
  {config : Config S V E}

/-- The next token is the one at the position where the run stands. -/
theorem Stands.look (h : Stands tape position stack memory config) :
    (config.look tape).1 = tape position ∧
      (config.look tape).2.taken = position + 1 := by
  unfold Config.look
  rcases h.place with ⟨hpending, htaken⟩ | ⟨hpending, htaken⟩
  · rw [hpending, htaken]
    exact ⟨rfl, rfl⟩
  · rw [hpending]
    exact ⟨rfl, htaken⟩

/-- Shifting the next token. -/
theorem Stands.shift (semantics : Semantics S V E)
    (h : Stands tape position stack memory config) {kind : Kind}
    {word : Word kind} (hword : tape position = word.1) {target : Nat}
    (hlooks : Looks stack.state)
    (haction : tables.action? stack.state (tables.symbol kind)
      = some (.shift target)) :
    ∃ next, Reaches semantics tape config next ∧
      Stands tape (position + 1)
        (stack.push target (semantics.token memory word.1).2)
        (semantics.token memory word.1).1 next := by
  obtain ⟨htoken, htaken⟩ := h.look
  obtain ⟨hphase, rfl, rfl, _⟩ := h
  rw [← word.2, ← hword, ← htoken] at haction
  have hstep : config.step tables semantics tape
      = (config.look tape).2.shift semantics (config.look tape).1 target :=
    Config.step_shift hphase hlooks.1 hlooks.2 haction
  refine ⟨_, reaches_step config, ?_⟩
  rw [hstep, ← hword, ← htoken]
  exact ⟨rfl, by simp [Config.shift], by simp [Config.shift],
    Or.inl ⟨rfl, htaken⟩⟩

/-- A state that falls back comes to reduce its default rule. -/
theorem Stands.fall (semantics : Semantics S V E)
    (h : Stands tape position stack memory config) {rule : Nat}
    (hfalls : FallsBack stack.state (tape position).kind rule) :
    ∃ next, Reaches semantics tape config next ∧
      next.phase = .reduce rule ∧
      Stands tape position stack memory (next.enter .consult) := by
  obtain ⟨htoken, htaken⟩ := h.look
  obtain ⟨hphase, rfl, rfl, hplace⟩ := h
  obtain ⟨hfinal, hdefault, hblind | ⟨hlook, haction⟩⟩ := hfalls
  · have hstep : config.step tables semantics tape = config.enter .fallback :=
      Config.step_blind hphase hfinal hblind
    have hchoose : (config.enter .fallback).step tables semantics tape
        = (config.enter .fallback).enter (.reduce rule) :=
      Config.step_choose rfl hdefault
    refine ⟨_, (reaches_step config).trans (reaches_step _), ?_⟩
    rw [hstep, hchoose]
    exact ⟨rfl, rfl, rfl, rfl, hplace⟩
  · rw [← htoken] at haction
    have hstep : config.step tables semantics tape
        = (config.look tape).2.enter .fallback :=
      Config.step_default hphase hfinal hlook haction
    have hchoose : ((config.look tape).2.enter .fallback).step tables
        semantics tape
        = ((config.look tape).2.enter .fallback).enter (.reduce rule) := by
      apply Config.step_choose rfl
      simpa [Config.enter] using hdefault
    refine ⟨_, (reaches_step config).trans (reaches_step _), ?_⟩
    rw [hstep, hchoose]
    refine ⟨rfl, rfl, by simp [Config.enter], by simp [Config.enter],
      Or.inr ⟨?_, htaken⟩⟩
    simp [Config.enter, htoken]

/-- Reducing by the default rule of the state on top. -/
theorem Stands.reduce (h : Stands tape position stack memory config)
    {rule target : Nat} {p : Rule} {rest : Stack V}
    (hfalls : FallsBack stack.state (tape position).kind rule)
    (hrule : production rule = some p)
    (hpop : stack.pop? p.output.length = some rest)
    (hgoto : tables.goto? rest.state p.input.code = some target) :
    Arrives semantics tape config
      (semantics.reduce memory rule (stack.frame p.output.length)) position
      (fun value => rest.push target value) := by
  obtain ⟨next, hreach, hphase, hstands⟩ := h.fall semantics hfalls
  have hplace := hstands.place
  obtain rfl : next.stack = stack := hstands.stack
  obtain rfl : next.memory = memory := hstands.memory
  obtain ⟨hlength, hhead⟩ := rule_data hrule
  rcases hvalue : semantics.reduce next.memory rule
    (next.stack.frame p.output.length) with ⟨after, reason | value⟩
  · have hstep : next.step tables semantics tape
        = next.refused rule after reason :=
      Config.step_refuse hphase hlength hhead hvalue
    refine ⟨_, hreach.trans (reaches_step next), ?_⟩
    rw [hstep]
    exact ⟨rfl, rfl⟩
  · have hstep : next.step tables semantics tape
        = next.reduced rule p.output.length target after value rest :=
      Config.step_reduce hphase hlength hhead hvalue hpop hgoto
    refine ⟨_, hreach.trans (reaches_step next), ?_⟩
    rw [hstep]
    exact ⟨rfl, rfl, rfl, hplace⟩

end Running

/-! ### States that await an expression -/

/-- The states in which an expression may begin. -/
def awaiting : List Nat := [1, 6, 8, 12, 16, 18, 20, 22, 23, 25]

/-- Those of them in which an application may begin.  The others have an
expression on top already, and another one is its applicand. -/
def opening : List Nat := [1, 6, 8, 20, 22]

/-- The states that reduce without looking at a token, and their rules. -/
def blindDefaults : List (Nat × Nat) :=
  [(0, 5), (3, 11), (4, 10), (9, 2), (10, 3), (11, 4), (13, 12), (14, 13),
    (19, 16), (21, 14), (24, 7)]

/-- The states with an expression on top that is complete unless another one
follows, and their rules. -/
def closingDefaults : List (Nat × Nat) := [(12, 9), (18, 8), (23, 15), (25, 6)]

/-- A state that awaits a phrase shifts whatever begins one. -/
theorem shift_of_awaiting : ∀ state ∈ awaiting, Looks state ∧
    tables.action? state (tables.symbol .identifier) = some (.shift 4) ∧
    tables.action? state (tables.symbol .name) = some (.shift 3) ∧
    tables.action? state (tables.symbol .lambda) = some (.shift 5) ∧
    tables.action? state (tables.symbol .openBracket) = some (.shift 6) ∧
    tables.goto? state Nonterminal.function.code = some 13 := by
  decide +kernel

/-- Where an application may begin, an expression is followed by a state that
awaits its applicand. -/
theorem goto_of_opening : ∀ state ∈ opening, state ∈ awaiting ∧
    tables.goto? state Nonterminal.application.code = some 14 ∧
    ∃ target ∈ awaiting,
      tables.goto? state Nonterminal.expression.code = some target ∧
      tables.goto? target Nonterminal.expression.code = some 19 := by
  decide +kernel

/-- A state that looks at no token falls back on every kind. -/
theorem fallsBack_of_blind {state rule : Nat}
    (h : (state, rule) ∈ blindDefaults) (kind : Kind) :
    FallsBack state kind rule := by
  have hblind : ∀ entry ∈ blindDefaults, entry.1 ≠ tables.finalState ∧
      tables.defaultReduction? entry.1 = some (some entry.2) ∧
      tables.needsLookahead? entry.1 = some false := by
    decide +kernel
  obtain ⟨hfinal, hdefault, hlook⟩ := hblind _ h
  exact ⟨hfinal, hdefault, Or.inl hlook⟩

/-- A state at the end of an expression falls back unless the next token goes
on with it. -/
theorem fallsBack_of_closing {state rule : Nat}
    (h : (state, rule) ∈ closingDefaults) {kind : Kind}
    (hkind : beginsPhrase kind = false) : FallsBack state kind rule := by
  have hclosing : ∀ entry ∈ closingDefaults, ∀ kind ∈ Kind.all,
      beginsPhrase kind = false → FallsBack entry.1 kind entry.2 := by
    decide +kernel
  exact hclosing _ h kind (by cases kind <;> decide) hkind

section Phrases

variable {semantics : Semantics S V E} {tape : Tape} {position : Nat}
  {stack rest : Stack V} {memory : S} {config : Config S V E}

/-- Reducing without looking at the next token. -/
theorem Stands.reduceBlindly (h : Stands tape position stack memory config)
    {rule target : Nat} {p : Rule}
    (hblind : (stack.state, rule) ∈ blindDefaults)
    (hrule : production rule = some p)
    (hpop : stack.pop? p.output.length = some rest)
    (hgoto : tables.goto? rest.state p.input.code = some target) :
    Arrives semantics tape config
      (semantics.reduce memory rule (stack.frame p.output.length)) position
      (fun value => rest.push target value) :=
  h.reduce (fallsBack_of_blind hblind _) hrule hpop hgoto

/-- Reducing before a token that begins no phrase. -/
theorem Stands.reduceClosing (h : Stands tape position stack memory config)
    {rule target : Nat} {p : Rule}
    (hclosing : (stack.state, rule) ∈ closingDefaults)
    (hkind : beginsPhrase (tape position).kind = false)
    (hrule : production rule = some p)
    (hpop : stack.pop? p.output.length = some rest)
    (hgoto : tables.goto? rest.state p.input.code = some target) :
    Arrives semantics tape config
      (semantics.reduce memory rule (stack.frame p.output.length)) position
      (fun value => rest.push target value) :=
  h.reduce (fallsBack_of_closing hclosing hkind) hrule hpop hgoto

/-- **The automaton walks a greedy phrase.**  By induction on the phrase, for
all stacks at once: what stands below a phrase is not touched until the phrase
has its value. -/
theorem Phrase.arrives {phrase : Phrase} (hgreedy : phrase.Greedy)
    {finish target : Nat} (h : Stands tape position stack memory config)
    (hcarries : Carries tape position phrase.tokens)
    (hfinish : finish = position + phrase.tokens.length)
    (hawaiting : stack.state ∈ awaiting)
    (hroom : phrase.isAtom = true ∨ stack.state ∈ opening)
    (hend : phrase.isOpen = true → beginsPhrase (tape finish).kind = false)
    (hgoto : tables.goto? stack.state Nonterminal.expression.code
      = some target) :
    Arrives semantics tape config (phrase.walk semantics memory) finish
      (fun value => stack.push target value) := by
  induction phrase generalizing position finish target stack memory config with
  | identifier word =>
      obtain ⟨hlooks, hshift, _⟩ := shift_of_awaiting _ hawaiting
      obtain ⟨next, hreach, hstands⟩ :=
        h.shift semantics hcarries.1 hlooks hshift
      subst hfinish
      exact (hstands.reduceBlindly (show (4, 10) ∈ blindDefaults by decide)
        rfl rfl hgoto).of_reaches hreach
  | name word =>
      obtain ⟨hlooks, _, hshift, _⟩ := shift_of_awaiting _ hawaiting
      obtain ⟨next, hreach, hstands⟩ :=
        h.shift semantics hcarries.1 hlooks hshift
      subst hfinish
      exact (hstands.reduceBlindly (show (3, 11) ∈ blindDefaults by decide)
        rfl rfl hgoto).of_reaches hreach
  | group bracket inner closing ih =>
      obtain ⟨hlooks, _, _, _, hshift, _⟩ := shift_of_awaiting _ hawaiting
      obtain ⟨hbracket, hrest⟩ := hcarries
      obtain ⟨hinner, hclosing, _⟩ := carries_append.mp hrest
      obtain ⟨next, hreach, hstands⟩ :=
        h.shift semantics hbracket hlooks hshift
      have hkind : beginsPhrase
          (tape (position + 1 + inner.tokens.length)).kind = false := by
        rw [hclosing, closing.2]
        rfl
      refine Arrives.of_reaches hreach (Arrives.andThen
        (ih hgreedy hstands hinner rfl (show 6 ∈ awaiting by decide)
          (Or.inr (show 6 ∈ opening by decide)) (fun _ => hkind)
          (show tables.goto? 6 _ = some 16 by decide +kernel)) ?_)
      intro memory value middle hmiddle
      obtain ⟨last, hlast, hstands⟩ := hmiddle.shift semantics hclosing
        (show Looks 16 by decide +kernel)
        (show tables.action? 16 _ = some (.shift 21) by decide +kernel)
      have hlength : finish = position + 1 + inner.tokens.length + 1 := by
        rw [hfinish]
        simp [Phrase.tokens]
        omega
      rw [hlength]
      exact (hstands.reduceBlindly (show (21, 14) ∈ blindDefaults by decide)
        rfl rfl hgoto).of_reaches hlast
  | function lambda parameter dot body ih =>
      obtain ⟨hlooks, _, _, hshift, _, hfunction⟩ :=
        shift_of_awaiting _ hawaiting
      obtain ⟨hlambda, hparameter, hdot, hbody⟩ := hcarries
      obtain ⟨next, hreach, hstands⟩ :=
        h.shift semantics hlambda hlooks hshift
      obtain ⟨next, hmore, hstands⟩ := hstands.shift semantics hparameter
        (show Looks 5 by decide +kernel)
        (show tables.action? 5 _ = some (.shift 15) by decide +kernel)
      replace hreach := hreach.trans hmore
      obtain ⟨next, hmore, hstands⟩ := hstands.shift semantics hdot
        (show Looks 15 by decide +kernel)
        (show tables.action? 15 _ = some (.shift 20) by decide +kernel)
      replace hreach := hreach.trans hmore
      have hlength : finish = position + 1 + 1 + 1 + body.tokens.length := by
        rw [hfinish]
        simp [Phrase.tokens]
        omega
      -- the body is as open as the function, and ends at the same token
      have hkind := hend rfl
      refine Arrives.of_reaches hreach (Arrives.andThen
        (ih hgreedy hstands hbody hlength (show 20 ∈ awaiting by decide)
          (Or.inr (show 20 ∈ opening by decide)) (fun _ => hkind)
          (show tables.goto? 20 _ = some 23 by decide +kernel)) ?_)
      intro memory value middle hmiddle
      refine Arrives.andThen (hmiddle.reduceClosing
        (show (23, 15) ∈ closingDefaults by decide) hkind rfl rfl hfunction) ?_
      intro memory value last hlast
      exact hlast.reduceBlindly (show (13, 12) ∈ blindDefaults by decide)
        rfl rfl hgoto
  | application applied applicand ihapplied ihapplicand =>
      obtain ⟨happlied, happlicand, hclosed, hatom⟩ := hgreedy
      -- an application begins where no expression is on top yet
      obtain hfalse | hopening := hroom
      · cases hfalse
      obtain ⟨_, happlication, middle, hmiddle, hgotoMiddle, hgotoLast⟩ :=
        goto_of_opening _ hopening
      obtain rfl : middle = target := by
        rw [hgoto] at hgotoMiddle
        exact (Option.some.inj hgotoMiddle).symm
      obtain ⟨hleft, hright⟩ := carries_append.mp hcarries
      have hlength : finish = position + applied.tokens.length
          + applicand.tokens.length := by
        rw [hfinish]
        simp [Phrase.tokens]
        omega
      -- the applied part is not open, so a phrase may follow it
      refine Arrives.andThen (ihapplied happlied h hleft rfl hawaiting
        (Or.inr hopening) (by simp [hclosed]) hgoto) ?_
      intro memory left next hnext
      refine Arrives.andThen (ihapplicand happlicand hnext hright hlength
        hmiddle (Or.inl hatom) hend hgotoLast) ?_
      intro memory right last hlast
      refine Arrives.andThen (hlast.reduceBlindly
        (show (19, 16) ∈ blindDefaults by decide) rfl rfl happlication) ?_
      intro memory value final hfinal
      exact hfinal.reduceBlindly (show (14, 13) ∈ blindDefaults by decide)
        rfl rfl hgoto

/-- The rest of a declaration or evaluation: the expression that ends it. -/
theorem Statement.arrives_value {statement : Statement}
    (hgreedy : statement.value.Greedy) {start finish target : Nat}
    (h : Stands tape start stack memory config)
    (hstart : start = position + statement.lead.length)
    (hcarries : Carries tape position statement.tokens)
    (hfinish : finish = position + statement.tokens.length)
    (hend : beginsPhrase (tape finish).kind = false)
    (hopening : stack.state ∈ opening)
    (hgoto : tables.goto? stack.state Nonterminal.expression.code
      = some target) :
    Arrives semantics tape config (statement.value.walk semantics memory)
      finish (fun value => stack.push target value) := by
  obtain ⟨_, hvalue⟩ := carries_append.mp hcarries
  have hlength : finish = start + statement.value.tokens.length := by
    rw [hfinish, hstart, Statement.tokens, List.length_append, Nat.add_assoc]
  rw [← hstart] at hvalue
  exact Phrase.arrives hgreedy h hvalue hlength (goto_of_opening _ hopening).1
    (Or.inr hopening) (fun _ => hend) hgoto

/-- Shifting the tokens before the expression of a declaration. -/
theorem Stands.shift_let (semantics : Semantics S V E) {program : V}
    (h : Stands tape position (stack.push 1 program) memory config)
    {letWord : Word .letWord} {name : Word .identifier}
    {equals : Word .equals} (hlet : tape position = letWord.1)
    (hname : tape (position + 1) = name.1)
    (hequals : tape (position + 1 + 1) = equals.1) :
    let first := semantics.token memory letWord.1
    let bound := semantics.token first.1 name.1
    let mark := semantics.token bound.1 equals.1
    ∃ next, Reaches semantics tape config next ∧
      Stands tape (position + 1 + 1 + 1)
        ((((stack.push 1 program).push 7 first.2).push 17 bound.2).push 22
          mark.2) mark.1 next := by
  intro first bound mark
  obtain ⟨next, hfirst, hstands⟩ := h.shift semantics hlet
    (show Looks 1 by decide +kernel)
    (show tables.action? 1 _ = some (.shift 7) by decide +kernel)
  obtain ⟨next, hsecond, hstands⟩ := hstands.shift semantics hname
    (show Looks 7 by decide +kernel)
    (show tables.action? 7 _ = some (.shift 17) by decide +kernel)
  obtain ⟨next, hthird, hstands⟩ := hstands.shift semantics hequals
    (show Looks 17 by decide +kernel)
    (show tables.action? 17 _ = some (.shift 22) by decide +kernel)
  exact ⟨next, (hfirst.trans hsecond).trans hthird, hstands⟩

/-- **The automaton walks a greedy statement**, and the program before it
becomes a program with one more statement. -/
theorem Statement.arrives {statement : Statement}
    (hgreedy : statement.value.Greedy) {finish : Nat} {program : V}
    (h : Stands tape position (stack.push 1 program) memory config)
    (hcarries : Carries tape position statement.tokens)
    (hfinish : finish = position + statement.tokens.length)
    (hend : beginsPhrase (tape finish).kind = false)
    (hbottom : stack.state = 0) :
    Arrives semantics tape config
      (statement.walk semantics program memory) finish
      (fun value => stack.push 1 value) := by
  have hprogram : tables.goto? stack.state Nonterminal.program.code
      = some 1 := by
    rw [hbottom]
    decide +kernel
  have hlead := (carries_append.mp hcarries).1
  cases statement with
  | declaration letWord name equals value =>
      obtain ⟨hlet, hname, hequals, _⟩ := hlead
      obtain ⟨next, hreach, hstands⟩ :=
        h.shift_let semantics hlet hname hequals
      refine Arrives.of_reaches hreach (Arrives.andThen
        (Statement.arrives_value hgreedy hstands rfl hcarries hfinish hend
          (show 22 ∈ opening by decide)
          (show tables.goto? 22 _ = some 25 by decide +kernel)) ?_)
      intro memory value middle hmiddle
      refine Arrives.andThen (hmiddle.reduceClosing
        (show (25, 6) ∈ closingDefaults by decide) hend rfl rfl
        (show tables.goto? 1 _ = some 9 by decide +kernel)) ?_
      intro memory value last hlast
      exact hlast.reduceBlindly (show (9, 2) ∈ blindDefaults by decide)
        rfl rfl hprogram
  | evaluatedDeclaration letWord name equals evalWord value =>
      obtain ⟨hlet, hname, hequals, heval, _⟩ := hlead
      obtain ⟨next, hreach, hstands⟩ :=
        h.shift_let semantics hlet hname hequals
      obtain ⟨next, hmore, hstands⟩ := hstands.shift semantics heval
        (show Looks 22 by decide +kernel)
        (show tables.action? 22 _ = some (.shift 8) by decide +kernel)
      replace hreach := hreach.trans hmore
      refine Arrives.of_reaches hreach (Arrives.andThen
        (Statement.arrives_value hgreedy hstands rfl hcarries hfinish hend
          (show 8 ∈ opening by decide)
          (show tables.goto? 8 _ = some 18 by decide +kernel)) ?_)
      intro memory value middle hmiddle
      refine Arrives.andThen (hmiddle.reduceClosing
        (show (18, 8) ∈ closingDefaults by decide) hend rfl rfl
        (show tables.goto? 22 _ = some 24 by decide +kernel)) ?_
      intro memory value last hlast
      refine Arrives.andThen (hlast.reduceBlindly
        (show (24, 7) ∈ blindDefaults by decide) rfl rfl
        (show tables.goto? 1 _ = some 9 by decide +kernel)) ?_
      intro memory value final hfinal
      exact hfinal.reduceBlindly (show (9, 2) ∈ blindDefaults by decide)
        rfl rfl hprogram
  | evaluation evalWord value =>
      obtain ⟨heval, _⟩ := hlead
      obtain ⟨next, hreach, hstands⟩ := h.shift semantics heval
        (show Looks 1 by decide +kernel)
        (show tables.action? 1 _ = some (.shift 8) by decide +kernel)
      refine Arrives.of_reaches hreach (Arrives.andThen
        (Statement.arrives_value hgreedy hstands rfl hcarries hfinish hend
          (show 8 ∈ opening by decide)
          (show tables.goto? 8 _ = some 18 by decide +kernel)) ?_)
      intro memory value middle hmiddle
      refine Arrives.andThen (hmiddle.reduceClosing
        (show (18, 8) ∈ closingDefaults by decide) hend rfl rfl
        (show tables.goto? 1 _ = some 10 by decide +kernel)) ?_
      intro memory value last hlast
      exact hlast.reduceBlindly (show (10, 3) ∈ blindDefaults by decide)
        rfl rfl hprogram
  | print value =>
      refine Arrives.andThen
        (Statement.arrives_value hgreedy h rfl hcarries hfinish hend
          (show 1 ∈ opening by decide)
          (show tables.goto? 1 _ = some 12 by decide +kernel)) ?_
      intro memory value middle hmiddle
      refine Arrives.andThen (hmiddle.reduceClosing
        (show (12, 9) ∈ closingDefaults by decide) hend rfl rfl
        (show tables.goto? 1 _ = some 11 by decide +kernel)) ?_
      intro memory value last hlast
      exact hlast.reduceBlindly (show (11, 4) ∈ blindDefaults by decide)
        rfl rfl hprogram

/-- A statement that is no bare expression begins with a reserved word. -/
theorem Statement.beginsPhrase_of_carries {statement : Statement}
    (hbare : statement.isPrint = false)
    (hcarries : Carries tape position statement.tokens) :
    beginsPhrase (tape position).kind = false := by
  obtain ⟨first, rest, htokens, hfirst⟩ := statement.exists_tokens_eq_cons
  rw [htokens] at hcarries
  rw [hcarries.1, hfirst, hbare]

/-- The automaton walks greedy statements one after the other. -/
theorem arrives_statements {statements : List Statement} {finish : Nat}
    {program : V} (hgreedy : ∀ statement ∈ statements, statement.value.Greedy)
    (hbare : ∀ statement ∈ statements.tail, statement.isPrint = false)
    (h : Stands tape position (stack.push 1 program) memory config)
    (hcarries : Carries tape position (statementTokens statements))
    (hfinish : finish = position + (statementTokens statements).length)
    (hend : beginsPhrase (tape finish).kind = false)
    (hbottom : stack.state = 0) :
    Arrives semantics tape config
      (walkStatements semantics statements memory program) finish
      (fun value => stack.push 1 value) := by
  induction statements generalizing position memory program config with
  | nil =>
      subst hfinish
      exact ⟨config, ⟨0, rfl⟩, h⟩
  | cons statement rest ih =>
      rw [statementTokens_cons] at hcarries hfinish
      obtain ⟨hfirst, hrest⟩ := carries_append.mp hcarries
      rw [List.length_append, ← Nat.add_assoc] at hfinish
      have hnext : beginsPhrase
          (tape (position + statement.tokens.length)).kind = false := by
        cases rest with
        | nil =>
            rw [hfinish] at hend
            exact hend
        | cons second others =>
            rw [statementTokens_cons] at hrest
            exact Statement.beginsPhrase_of_carries
              (hbare second List.mem_cons_self) (carries_append.mp hrest).1
      refine Arrives.andThen (Statement.arrives
        (hgreedy statement List.mem_cons_self) h hfirst rfl hnext hbottom) ?_
      intro memory program middle hmiddle
      refine ih (fun other hother => hgreedy other
        (List.mem_cons_of_mem _ hother)) ?_ hmiddle hrest hfinish
      exact fun other hother => hbare other (List.mem_of_mem_tail hother)

/-- **The automaton walks a greedy program.**  On a tape that carries the
program up to the end of input the run accepts with the walk's memory, or
fails where the walk fails. -/
theorem run_of_greedy (semantics : Semantics S V E) (memory : S)
    {statements : List Statement} {start finish : Nat}
    (hgreedy : GreedyProgram statements)
    (hcarries : Carries tape start (statementTokens statements))
    (hfinish : finish = start + (statementTokens statements).length)
    (hend : (tape finish).kind = .endOfInput) :
    ∃ final,
      Reaches semantics tape (Config.initial semantics memory start) final ∧
      match walkProgram semantics statements memory with
      | (after, .ok _) => final.phase = .halted .accepted ∧
        final.memory = (semantics.token after (tape finish)).1
      | (after, .error reason) => final.phase = .halted (.failed reason) ∧
        final.memory = after := by
  have hstands : Stands tape start
      (Stack.initial 0 (semantics.token memory Token.start).2)
      (semantics.token memory Token.start).1
      (Config.initial semantics memory start) :=
    ⟨rfl, rfl, rfl, Or.inl ⟨rfl, rfl⟩⟩
  have hkind : beginsPhrase (tape finish).kind = false := by
    rw [hend]
    rfl
  have harrives : Arrives semantics tape (Config.initial semantics memory start)
      (walkProgram semantics statements memory) finish
      (fun value => (Stack.initial 0
        (semantics.token memory Token.start).2).push 1 value) := by
    refine Arrives.andThen (hstands.reduceBlindly
      (show (0, 5) ∈ blindDefaults by decide) rfl rfl
      (show tables.goto? 0 _ = some 1 by decide +kernel)) ?_
    intro memory program next hnext
    exact arrives_statements hgreedy.greedy hgreedy.bare hnext hcarries
      hfinish hkind rfl
  generalize walkProgram semantics statements memory = outcome at harrives ⊢
  obtain ⟨after, reason | program⟩ := outcome
  · obtain ⟨final, hreach, hphase, hmemory⟩ := harrives
    exact ⟨final, hreach, hphase, hmemory⟩
  · obtain ⟨next, hreach, hnext⟩ := harrives
    have hword : tape finish = (⟨tape finish, hend⟩ : Word .endOfInput).1 := rfl
    obtain ⟨last, hlast, hstands⟩ := hnext.shift semantics hword
      (show Looks 1 by decide +kernel)
      (show tables.action? 1 _ = some (.shift 2) by decide +kernel)
    have haccept : last.step tables semantics tape = last.accept := by
      apply Config.step_accept hstands.phase
      rw [hstands.stack]
      rfl
    refine ⟨_, (hreach.trans hlast).trans (reaches_step last), ?_⟩
    rw [haccept]
    exact ⟨rfl, hstands.memory⟩

end Phrases

end LambdaStack.Grammar
