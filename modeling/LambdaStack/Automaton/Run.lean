import LambdaStack.Token.Source
import LambdaStack.Automaton.Stack
import LambdaStack.Automaton.Tables

/-!
# Running an automaton

A run takes tokens off a tape, keeps a stack of states with values, and
asks a `Semantics` what shifted tokens and reduced rules are worth.  It
knows no grammar: shifts, reductions and gotos all come out of `Tables`.

A `Config` is everything a run remembers.  Its **phase** says what is to
be done next:

    consult      look at the state on top, and at a token if it needs one
    fallback     reduce by the default rule of the state, if it has one
    reduce r     replace the right-hand side of rule r by its value
    stuck        report an error, or stay quiet about it
    recover      cut the stack down to a state that knows the error token
    halted       the run is over

A token is taken off the tape only when a state needs one, and stays
**pending** until it is shifted or discarded.  After an error the run
stays **quiet** until three tokens have been shifted; getting stuck
before the first of them discards the pending token, or ends the run if
that token is the end of input.

`step` carries out one phase and `run` iterates it a given number of
times; a run can be cut in two anywhere (`run_add`).  Everything that
happens is entered in the `log`, newest first.
-/

namespace LambdaStack.Automaton

/-- What tokens and rules are worth.  `S` is a state threaded through all
calls, `V` the type of values on the stack, `E` the reason for which a
reduction can end the run. -/
structure Semantics (S V E : Type) where
  /-- the value that stands for a stretch of faulty input -/
  blank : V
  /-- the value of a token -/
  token : S → Token → S × V
  /-- the value of a rule, from the values of its right-hand side listed
  from the last symbol to the first -/
  reduce : S → Nat → List V → S × Except E V
  /-- takes note of a syntax error at a token, or at no token if the
  automaton got stuck without looking at one -/
  complain : S → Option Token → S

/-- Disagreements between the tables and the stack, which end a run. -/
inductive Fault where
  /-- no array has an entry for the state -/
  | noState (state : Nat)
  /-- no array has an entry for the rule -/
  | noRule (rule : Nat)
  /-- the head of the rule is no nonterminal -/
  | noColumn (head : Nat)
  /-- the stack is too low for the rule -/
  | underflow (count height : Nat)
  deriving DecidableEq, Repr

/-- How a run ends. -/
inductive Halt (E : Type) where
  | accepted
  | rejected
  | failed (reason : E)
  | faulted (fault : Fault)
  deriving DecidableEq, Repr

/-- What a run does next. -/
inductive Phase (E : Type) where
  | consult
  | fallback
  | reduce (rule : Nat)
  | stuck
  | recover
  | halted (halt : Halt E)
  deriving DecidableEq, Repr

/-- An entry of the log. -/
inductive Event where
  /-- a token was taken off the tape -/
  | read (token : Token)
  /-- the pending token was shifted in `state`, entering `target` -/
  | shift (token : Token) (state target : Nat)
  /-- a rule was reduced, entering `target` -/
  | reduce (rule length target : Nat)
  /-- the semantics refused a rule -/
  | refuse (rule : Nat)
  /-- a syntax error was reported -/
  | complain (found : Option Kind)
  /-- the pending token was thrown away -/
  | discard (token : Token)
  /-- the error token was shifted, entering `target` -/
  | recover (target : Nat)
  | accept
  | reject
  deriving DecidableEq, Repr

/-- Everything a run remembers. -/
structure Config (S V E : Type) where
  stack : Stack V
  /-- the token that was read and is neither shifted nor discarded -/
  pending : Option Token
  /-- how many tokens are to be shifted before an error is reported -/
  quiet : Nat
  /-- how many tokens were taken off the tape -/
  taken : Nat
  /-- the state of the semantics -/
  memory : S
  /-- what has happened, newest first -/
  log : List Event
  phase : Phase E

/-- How long a run stays quiet after an error. -/
def quietSpell : Nat := 3

namespace Config

variable {S V E : Type}

/-- The configuration before the first step, on a tape of which `taken`
tokens are gone already. -/
def initial (semantics : Semantics S V E) (memory : S) (taken : Nat) :
    Config S V E :=
  let (memory, value) := semantics.token memory Token.start
  { stack := Stack.initial 0 value
    pending := none
    quiet := 0
    taken
    memory
    log := []
    phase := .consult }

/-- The run is over. -/
def isHalted (config : Config S V E) : Bool :=
  match config.phase with
  | .halted _ => true
  | _ => false

/-- How the run ended, if it did. -/
def halt? (config : Config S V E) : Option (Halt E) :=
  match config.phase with
  | .halted halt => some halt
  | _ => none

/-- Goes on with another phase. -/
def enter (config : Config S V E) (phase : Phase E) : Config S V E :=
  { config with phase }

/-- Enters an event in the log. -/
def note (config : Config S V E) (event : Event) : Config S V E :=
  { config with log := event :: config.log }

/-- Ends the run because tables and stack disagree. -/
def fault (config : Config S V E) (fault : Fault) : Config S V E :=
  config.enter (.halted (.faulted fault))

/-- Accepts the input. -/
def accept (config : Config S V E) : Config S V E :=
  (config.note .accept).enter (.halted .accepted)

/-- Rejects the input. -/
def reject (config : Config S V E) : Config S V E :=
  (config.note .reject).enter (.halted .rejected)

/-- Makes sure that a token is pending, and answers it. -/
def look (tape : Tape) (config : Config S V E) : Token × Config S V E :=
  match config.pending with
  | some token => (token, config)
  | none =>
    let token := tape config.taken
    (token,
      { config with
        pending := some token
        taken := config.taken + 1
        log := .read token :: config.log })

/-- Shifts the pending token, entering `target`. -/
def shift (semantics : Semantics S V E) (token : Token) (target : Nat)
    (config : Config S V E) : Config S V E :=
  let (memory, value) := semantics.token config.memory token
  { config with
    stack := config.stack.push target value
    pending := none
    quiet := config.quiet - 1
    memory
    log := .shift token config.stack.state target :: config.log
    phase := .consult }

/-- Looks at the state on top, and at a token if the state needs one. -/
def consult (tables : Tables) (semantics : Semantics S V E) (tape : Tape)
    (config : Config S V E) : Config S V E :=
  let state := config.stack.state
  if state = tables.finalState then
    config.accept
  else
    match tables.needsLookahead? state with
    | none => config.fault (.noState state)
    | some false => config.enter .fallback
    | some true =>
      let (token, config) := config.look tape
      match tables.action? state (tables.symbol token.kind) with
      | none => config.fault (.noState state)
      | some (.shift target) => config.shift semantics token target
      | some (.reduce rule) => config.enter (.reduce rule)
      | some .default => config.enter .fallback
      | some .fail => config.enter .stuck

/-- Turns to the default rule of the state on top. -/
def fallBack (tables : Tables) (config : Config S V E) : Config S V E :=
  match tables.defaultReduction? config.stack.state with
  | none => config.fault (.noState config.stack.state)
  | some none => config.enter .stuck
  | some (some rule) => config.enter (.reduce rule)

/-- Replaces the right-hand side of a rule of `length` symbols by `value`
and enters the state that its left-hand symbol leads to. -/
def replace (tables : Tables) (rule length head : Nat) (value : V)
    (config : Config S V E) : Config S V E :=
  match config.stack.pop? length with
  | none => config.fault (.underflow length config.stack.height)
  | some stack =>
    match tables.goto? stack.state head with
    | none => config.fault (.noColumn head)
    | some target =>
      { config with
        stack := stack.push target value
        log := .reduce rule length target :: config.log
        phase := .consult }

/-- Ends the run because the semantics refused a rule. -/
def refuse (rule : Nat) (reason : E) (config : Config S V E) :
    Config S V E :=
  (config.note (.refuse rule)).enter (.halted (.failed reason))

/-- Reduces by a rule. -/
def reduce (tables : Tables) (semantics : Semantics S V E) (rule : Nat)
    (config : Config S V E) : Config S V E :=
  match tables.ruleLength? rule, tables.ruleHead? rule with
  | some length, some head =>
    let ⟨stack, pending, quiet, taken, memory, log, phase⟩ := config
    let (memory, result) := semantics.reduce memory rule (stack.frame length)
    let config := ⟨stack, pending, quiet, taken, memory, log, phase⟩
    match result with
    | .ok value => replace tables rule length head value config
    | .error reason => refuse rule reason config
  | _, _ => config.fault (.noRule rule)

/-- Reports a syntax error unless the run is to be quiet. -/
def complain (semantics : Semantics S V E) (config : Config S V E) :
    Config S V E :=
  if config.quiet = 0 then
    { config with
      memory := semantics.complain config.memory config.pending
      log := .complain (config.pending.map Token.kind) :: config.log }
  else
    config

/-- Deals with a state that can do nothing.  If no token has been shifted
since the last error, the pending one is to blame: it is discarded, or,
if it is the end of input, the run is given up. -/
def stuck (tables : Tables) (semantics : Semantics S V E)
    (config : Config S V E) : Config S V E :=
  let config := config.complain semantics
  if config.quiet = quietSpell then
    match config.pending with
    | none => config.enter .recover
    | some token =>
      if tables.symbol token.kind = endSymbol then
        config.reject
      else
        { config with
          pending := none
          log := .discard token :: config.log
          phase := .recover }
  else
    config.enter .recover

/-- The topmost state that can shift the error token: where that leads,
and the stack cut down to it. -/
def unwind (tables : Tables) :
    Entry V → List (Entry V) → Except Fault (Option (Nat × Stack V))
  | top, [] =>
    match tables.recovery? top.state with
    | none => .error (.noState top.state)
    | some none => .ok none
    | some (some target) => .ok (some (target, ⟨top, []⟩))
  | top, next :: below =>
    match tables.recovery? top.state with
    | none => .error (.noState top.state)
    | some none => unwind tables next below
    | some (some target) => .ok (some (target, ⟨top, next :: below⟩))

/-- Shifts the error token where that is possible, and gives up where it
is not. -/
def recover (tables : Tables) (semantics : Semantics S V E)
    (config : Config S V E) : Config S V E :=
  match unwind tables config.stack.top config.stack.below with
  | .error fault => config.fault fault
  | .ok none => { config with quiet := quietSpell }.reject
  | .ok (some (target, stack)) =>
    { config with
      stack := stack.push target semantics.blank
      quiet := quietSpell
      log := .recover target :: config.log
      phase := .consult }

/-- Carries out the phase of a configuration. -/
def step (tables : Tables) (semantics : Semantics S V E) (tape : Tape)
    (config : Config S V E) : Config S V E :=
  match config.phase with
  | .consult => config.consult tables semantics tape
  | .fallback => config.fallBack tables
  | .reduce rule => config.reduce tables semantics rule
  | .stuck => config.stuck tables semantics
  | .recover => config.recover tables semantics
  | .halted _ => config

/-- At most `fuel` steps, fewer if the run ends. -/
def run (tables : Tables) (semantics : Semantics S V E) (tape : Tape) :
    Nat → Config S V E → Config S V E
  | 0, config => config
  | fuel + 1, config =>
    if config.isHalted then config
    else run tables semantics tape fuel (config.step tables semantics tape)

variable (tables : Tables) (semantics : Semantics S V E) (tape : Tape)

/-- A run that is over does not change any more. -/
theorem run_of_isHalted {config : Config S V E} (h : config.isHalted)
    (fuel : Nat) : config.run tables semantics tape fuel = config := by
  cases fuel with
  | zero => rfl
  | succ fuel => rw [run, if_pos h]

/-- A run that is not over takes a step. -/
theorem run_succ_of_not_isHalted {config : Config S V E}
    (h : ¬ config.isHalted) (fuel : Nat) :
    config.run tables semantics tape (fuel + 1)
      = (config.step tables semantics tape).run tables semantics tape fuel := by
  rw [run, if_neg h]

/-- A run can be cut in two. -/
theorem run_add (config : Config S V E) (fuel more : Nat) :
    config.run tables semantics tape (fuel + more)
      = (config.run tables semantics tape fuel).run tables semantics tape
          more := by
  induction fuel generalizing config with
  | zero => rw [Nat.zero_add, run]
  | succ fuel ih =>
    by_cases h : config.isHalted
    · rw [run_of_isHalted _ _ _ h, run_of_isHalted _ _ _ h,
        run_of_isHalted _ _ _ h]
    · rw [Nat.succ_add, run_succ_of_not_isHalted _ _ _ h,
        run_succ_of_not_isHalted _ _ _ h, ih]

end Config

end LambdaStack.Automaton
