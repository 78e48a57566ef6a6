import LambdaStack.Automaton.Run

/-!
# Watching a semantics

A run asks its semantics for the values of tokens and of rules, and tells it
of syntax errors.  What it asks is not all in the log, and the log is written
by the run itself.  So the semantics is **watched**: it answers as before and
writes down every call, with all that it was given.

Answers do not depend on what is written down, so a run with a watched
semantics is the same run (`Config.unwatched_run`), and what is found in the
list of calls is what the semantics was asked.
-/

namespace LambdaStack.Automaton

variable {S V E : Type}

/-- What a semantics can be asked. -/
inductive Call (V : Type) where
  | token (token : Token)
  | reduce (rule : Nat) (frame : List V)
  | complain (found : Option Token)

/-- The token whose value is asked for. -/
def Call.token? : Call V → Option Token
  | .token asked => some asked
  | _ => none

/-- The rule that is to be reduced, and the values of its right-hand side. -/
def Call.reduction? : Call V → Option (Nat × List V)
  | .reduce rule frame => some (rule, frame)
  | _ => none

/-- The token at which a syntax error is reported. -/
def Call.complaint? : Call V → Option (Option Token)
  | .complain found => some found
  | _ => none

/-- The semantics that answers like the given one, and writes down what it is
asked, newest first. -/
def Semantics.watched (semantics : Semantics S V E) :
    Semantics (S × List (Call V)) V E where
  blank := semantics.blank
  token memory token :=
    let answer := semantics.token memory.1 token
    ((answer.1, .token token :: memory.2), answer.2)
  reduce memory rule frame :=
    let answer := semantics.reduce memory.1 rule frame
    ((answer.1, .reduce rule frame :: memory.2), answer.2)
  complain memory found :=
    (semantics.complain memory.1 found, .complain found :: memory.2)

namespace Config

/-- The configuration without the calls. -/
def unwatched (config : Config (S × List (Call V)) V E) : Config S V E :=
  ⟨config.stack, config.pending, config.quiet, config.taken,
    config.memory.1, config.log, config.phase⟩

/-- The tokens whose values a watched semantics was asked for, in order. -/
def asked (config : Config (S × List (Call V)) V E) : List Token :=
  (config.memory.2.filterMap Call.token?).reverse

/-- The rules that a watched semantics was asked to reduce, and the frames that
it was given, the newest first. -/
def reduceCalls (config : Config (S × List (Call V)) V E) :
    List (Nat × List V) :=
  config.memory.2.filterMap Call.reduction?

/-- The syntax errors that a watched semantics was told of, in order. -/
def complaints (config : Config (S × List (Call V)) V E) :
    List (Option Token) :=
  (config.memory.2.filterMap Call.complaint?).reverse

variable (semantics : Semantics S V E) (tables : Tables) (tape : Tape)
  (config : Config (S × List (Call V)) V E)

/-- Looking at a token asks for no rule. -/
theorem reduceCalls_look :
    (config.look tape).2.reduceCalls = config.reduceCalls := by
  unfold look
  split <;> rfl

/-- Reading a token asks nothing. -/
theorem unwatched_look :
    config.unwatched.look tape
      = ((config.look tape).1, (config.look tape).2.unwatched) := by
  unfold look
  cases hpending : config.pending with
  | none => simp only [unwatched, hpending]
  | some token => simp only [unwatched, hpending]

/-- Consulting the tables goes on alike, also if a token is shifted and asked
for. -/
theorem unwatched_consult :
    (config.consult tables semantics.watched tape).unwatched
      = config.unwatched.consult tables semantics tape := by
  have hlook := config.unwatched_look tape
  have hstate : config.unwatched.stack.state = config.stack.state := rfl
  simp only [consult, hlook, hstate]
  split
  · rfl
  · split
    · rfl
    · rfl
    · split <;> rfl

/-- Falling back asks nothing. -/
theorem unwatched_fallBack :
    (config.fallBack tables).unwatched = config.unwatched.fallBack tables := by
  have hstate : config.unwatched.stack.state = config.stack.state := rfl
  simp only [fallBack, hstate]
  split <;> rfl

/-- Replacing a right-hand side asks nothing. -/
theorem unwatched_replace (rule length head : Nat) (value : V) :
    (config.replace tables rule length head value).unwatched
      = config.unwatched.replace tables rule length head value := by
  have hstack : config.unwatched.stack = config.stack := rfl
  simp only [replace, hstack]
  split
  · rfl
  · split <;> rfl

/-- A rule gets the answer that it would have had, and is refused only if it
would have been. -/
theorem unwatched_reduce (rule : Nat) :
    (config.reduce tables semantics.watched rule).unwatched
      = config.unwatched.reduce tables semantics rule := by
  cases hlength : tables.ruleLength? rule with
  | none =>
      simp only [reduce, hlength]
      rfl
  | some length =>
      cases hhead : tables.ruleHead? rule with
      | none =>
          simp only [reduce, hlength, hhead]
          rfl
      | some head =>
          have hstack : config.unwatched.stack = config.stack := rfl
          have hmemory : config.unwatched.memory = config.memory.1 := rfl
          have hwatched : semantics.watched.reduce config.memory rule
              (config.stack.frame length)
                = (((semantics.reduce config.memory.1 rule
                    (config.stack.frame length)).1,
                  .reduce rule (config.stack.frame length)
                    :: config.memory.2),
                  (semantics.reduce config.memory.1 rule
                    (config.stack.frame length)).2) := rfl
          rcases hanswer : semantics.reduce config.memory.1 rule
            (config.stack.frame length) with ⟨memory, reason | value⟩
          · simp only [reduce, hlength, hhead, hwatched, hstack, hmemory,
              hanswer]
            rfl
          · simp only [reduce, hlength, hhead, hwatched, hstack, hmemory,
              hanswer]
            exact unwatched_replace _ _ _ _ _ _

/-- A syntax error is told in the same cases. -/
theorem unwatched_complain :
    (config.complain semantics.watched).unwatched
      = config.unwatched.complain semantics := by
  have hquiet : config.unwatched.quiet = config.quiet := rfl
  simp only [complain, hquiet]
  split <;> rfl

/-- Getting stuck leads to the same phase. -/
theorem unwatched_stuck :
    (config.stuck tables semantics.watched).unwatched
      = config.unwatched.stuck tables semantics := by
  simp only [stuck, ← unwatched_complain]
  generalize config.complain semantics.watched = config
  have hquiet : config.unwatched.quiet = config.quiet := rfl
  have hpending : config.unwatched.pending = config.pending := rfl
  simp only [hquiet, hpending]
  split
  · split
    · rfl
    · split <;> rfl
  · rfl

/-- Recovering asks nothing. -/
theorem unwatched_recover :
    (config.recover tables semantics.watched).unwatched
      = config.unwatched.recover tables semantics := by
  have hstack : config.unwatched.stack = config.stack := rfl
  simp only [recover, hstack]
  split <;> rfl

/-- A step with a watched semantics is the same step. -/
theorem unwatched_step :
    (config.step tables semantics.watched tape).unwatched
      = config.unwatched.step tables semantics tape := by
  have hphase : config.unwatched.phase = config.phase := rfl
  simp only [step, hphase]
  split
  · exact config.unwatched_consult semantics tables tape
  · exact config.unwatched_fallBack tables
  · exact config.unwatched_reduce semantics tables _
  · exact config.unwatched_stuck semantics tables
  · exact config.unwatched_recover semantics tables
  · rfl

/-- **Watching changes nothing.** -/
theorem unwatched_run (fuel : Nat) :
    (config.run tables semantics.watched tape fuel).unwatched
      = config.unwatched.run tables semantics tape fuel := by
  induction fuel generalizing config with
  | zero => rfl
  | succ fuel ih =>
      have hhalted : config.unwatched.isHalted = config.isHalted := rfl
      rw [run, run, hhalted, ← unwatched_step]
      split
      · rfl
      · exact ih _

end Config

end LambdaStack.Automaton
