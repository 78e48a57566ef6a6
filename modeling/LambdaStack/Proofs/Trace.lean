import LambdaStack.Automaton.Run

/-!
# What a run has shifted and reduced

The log of a run is read in two ways here: `Config.shifted` lists the shifted
tokens in the order of shifting, `Config.reductions` the reduced rules with
the newest first.  Each operation on a configuration is described by what it
does to them.

The lemmas `step_accept`, `step_shift`, ... say what one step does, one lemma
for each way in which a phase can be carried out.

`Config.ReadsFrom tape start` says that the shifted tokens, followed by the
pending one, are the tape from `start` up to where the run has read.  It holds
as long as no token has been thrown away.
-/

namespace LambdaStack.Automaton

/-- The token of a shift. -/
def Event.shifted? : Event → Option Token
  | shift token _ _ => some token
  | _ => none

/-- The rule of a reduction. -/
def Event.reduced? : Event → Option Nat
  | reduce rule _ _ => some rule
  | _ => none

namespace Stack

variable {V : Type}

/-- The states of a stack, from the top down. -/
def states (stack : Stack V) : List Nat :=
  stack.entries.map Entry.state

@[simp]
theorem states_initial (state : Nat) (value : V) :
    (initial state value).states = [state] := rfl

@[simp]
theorem states_push (stack : Stack V) (state : Nat) (value : V) :
    (stack.push state value).states = state :: stack.states := rfl

@[simp]
theorem state_push (stack : Stack V) (state : Nat) (value : V) :
    (stack.push state value).state = state := rfl

/-- The state on top is the first of the states. -/
theorem states_eq_cons (stack : Stack V) :
    stack.states = stack.state :: stack.below.map Entry.state := rfl

/-- There are as many states as entries. -/
@[simp]
theorem length_states (stack : Stack V) :
    stack.states.length = stack.height := by
  simp [states, length_entries]

/-- Removing entries that are there leaves the rest of the stack. -/
theorem exists_pop? {stack : Stack V} {count : Nat}
    (h : count < stack.height) :
    ∃ rest, stack.pop? count = some rest ∧
      rest.entries = stack.entries.drop count := by
  cases hpop : stack.pop? count with
  | none =>
      have hle := (pop?_eq_none_iff stack count).mp hpop
      omega
  | some rest => exact ⟨rest, rfl, entries_of_pop? hpop⟩

end Stack

namespace Config

variable {S V E : Type}

/-- The shifted tokens, in the order of shifting. -/
def shifted (config : Config S V E) : List Token :=
  (config.log.filterMap Event.shifted?).reverse

/-- The reduced rules, the newest first. -/
def reductions (config : Config S V E) : List Nat :=
  config.log.filterMap Event.reduced?

/-- The run has read the tape from `start` on, and the token that is pending
is the only one of them not shifted. -/
def ReadsFrom (tape : Tape) (start : Nat) (config : Config S V E) : Prop :=
  start ≤ config.taken ∧
    config.shifted ++ config.pending.toList
      = (List.range' start (config.taken - start)).map tape

section Operations

variable (config : Config S V E) (tape : Tape) (semantics : Semantics S V E)

@[simp]
theorem shifted_enter (phase : Phase E) :
    (config.enter phase).shifted = config.shifted := rfl

@[simp]
theorem reductions_enter (phase : Phase E) :
    (config.enter phase).reductions = config.reductions := rfl

@[simp]
theorem shifted_accept : config.accept.shifted = config.shifted := rfl

@[simp]
theorem reductions_accept : config.accept.reductions = config.reductions := rfl

@[simp]
theorem shifted_reject : config.reject.shifted = config.shifted := rfl

@[simp]
theorem reductions_reject : config.reject.reductions = config.reductions := rfl

@[simp]
theorem stack_look : (config.look tape).2.stack = config.stack := by
  unfold look
  split <;> rfl

@[simp]
theorem quiet_look : (config.look tape).2.quiet = config.quiet := by
  unfold look
  split <;> rfl

@[simp]
theorem memory_look : (config.look tape).2.memory = config.memory := by
  unfold look
  split <;> rfl

/-- The token that is looked at is pending. -/
@[simp]
theorem pending_look :
    (config.look tape).2.pending = some (config.look tape).1 := by
  unfold look
  split
  · next token h => exact h
  · rfl

@[simp]
theorem shifted_look : (config.look tape).2.shifted = config.shifted := by
  unfold look
  split <;> rfl

@[simp]
theorem reductions_look :
    (config.look tape).2.reductions = config.reductions := by
  unfold look
  split <;> rfl

/-- A shift adds its token to those that were shifted. -/
@[simp]
theorem shifted_shift (token : Token) (target : Nat) :
    (config.shift semantics token target).shifted
      = config.shifted ++ [token] := by
  simp [shifted, shift, Event.shifted?]

@[simp]
theorem reductions_shift (token : Token) (target : Nat) :
    (config.shift semantics token target).reductions
      = config.reductions := rfl

/-- A syntax error is reported, and the stack stays as it is. -/
@[simp]
theorem stack_complain : (config.complain semantics).stack = config.stack := by
  unfold complain
  split <;> rfl

@[simp]
theorem quiet_complain : (config.complain semantics).quiet = config.quiet := by
  unfold complain
  split <;> rfl

@[simp]
theorem shifted_complain :
    (config.complain semantics).shifted = config.shifted := by
  unfold complain
  split <;> rfl

@[simp]
theorem reductions_complain :
    (config.complain semantics).reductions = config.reductions := by
  unfold complain
  split <;> rfl

@[simp]
theorem pending_complain :
    (config.complain semantics).pending = config.pending := by
  unfold complain
  split <;> rfl

@[simp]
theorem taken_complain :
    (config.complain semantics).taken = config.taken := by
  unfold complain
  split <;> rfl

end Operations

/-! ### One step -/

section Steps

variable {tables : Tables} {semantics : Semantics S V E} {tape : Tape}
  {config : Config S V E}

/-- A run that is over takes no more steps. -/
theorem step_of_isHalted (h : config.isHalted) :
    config.step tables semantics tape = config := by
  unfold isHalted at h
  split at h
  · next hphase => rw [step, hphase]
  · cases h

/-- One step more is a step at the end. -/
theorem run_succ (fuel : Nat) :
    config.run tables semantics tape (fuel + 1)
      = (config.run tables semantics tape fuel).step tables semantics tape := by
  rw [run_add]
  generalize config.run tables semantics tape fuel = config
  by_cases hhalted : config.isHalted
  · rw [run_of_isHalted _ _ _ hhalted, step_of_isHalted hhalted]
  · rw [run_succ_of_not_isHalted _ _ _ hhalted, run]

/-- In the final state the run accepts. -/
theorem step_accept (hphase : config.phase = .consult)
    (hfinal : config.stack.state = tables.finalState) :
    config.step tables semantics tape = config.accept := by
  rw [step, hphase]
  exact if_pos hfinal

/-- A state that needs no token is left to its default rule. -/
theorem step_blind (hphase : config.phase = .consult)
    (hfinal : config.stack.state ≠ tables.finalState)
    (hblind : tables.needsLookahead? config.stack.state = some false) :
    config.step tables semantics tape = config.enter .fallback := by
  rw [step, hphase]
  simp only [consult, if_neg hfinal, hblind]

/-- If the table says so, the token is shifted. -/
theorem step_shift {target : Nat} (hphase : config.phase = .consult)
    (hfinal : config.stack.state ≠ tables.finalState)
    (hlook : tables.needsLookahead? config.stack.state = some true)
    (haction : tables.action? config.stack.state
      (tables.symbol (config.look tape).1.kind) = some (.shift target)) :
    config.step tables semantics tape
      = (config.look tape).2.shift semantics (config.look tape).1 target := by
  rw [step, hphase]
  simp only [consult, if_neg hfinal, hlook, haction]

/-- If the table has no entry for the token, the state is left to its default
rule. -/
theorem step_default (hphase : config.phase = .consult)
    (hfinal : config.stack.state ≠ tables.finalState)
    (hlook : tables.needsLookahead? config.stack.state = some true)
    (haction : tables.action? config.stack.state
      (tables.symbol (config.look tape).1.kind) = some .default) :
    config.step tables semantics tape
      = (config.look tape).2.enter .fallback := by
  rw [step, hphase]
  simp only [consult, if_neg hfinal, hlook, haction]

/-- If the table forbids the token, the run is stuck. -/
theorem step_fail (hphase : config.phase = .consult)
    (hfinal : config.stack.state ≠ tables.finalState)
    (hlook : tables.needsLookahead? config.stack.state = some true)
    (haction : tables.action? config.stack.state
      (tables.symbol (config.look tape).1.kind) = some .fail) :
    config.step tables semantics tape = (config.look tape).2.enter .stuck := by
  rw [step, hphase]
  simp only [consult, if_neg hfinal, hlook, haction]

/-- The default rule of the state is to be reduced next. -/
theorem step_choose {rule : Nat} (hphase : config.phase = .fallback)
    (hdefault : tables.defaultReduction? config.stack.state
      = some (some rule)) :
    config.step tables semantics tape = config.enter (.reduce rule) := by
  rw [step, hphase]
  simp only [fallBack, hdefault]

/-- Without a default rule the run is stuck. -/
theorem step_despair (hphase : config.phase = .fallback)
    (hdefault : tables.defaultReduction? config.stack.state = some none) :
    config.step tables semantics tape = config.enter .stuck := by
  rw [step, hphase]
  simp only [fallBack, hdefault]

/-- The configuration after a reduction: the right-hand side is gone, and its
value stands on top of what was below it. -/
def reduced (config : Config S V E) (rule length target : Nat) (memory : S)
    (value : V) (rest : Stack V) : Config S V E :=
  { config with
    memory
    stack := rest.push target value
    log := .reduce rule length target :: config.log
    phase := .consult }

@[simp]
theorem shifted_reduced (config : Config S V E) (rule length target : Nat)
    (memory : S) (value : V) (rest : Stack V) :
    (config.reduced rule length target memory value rest).shifted
      = config.shifted := rfl

@[simp]
theorem reductions_reduced (config : Config S V E)
    (rule length target : Nat) (memory : S) (value : V) (rest : Stack V) :
    (config.reduced rule length target memory value rest).reductions
      = rule :: config.reductions := rfl

/-- A rule is reduced if the semantics has a value for it and the goto table a
state. -/
theorem step_reduce {rule length head target : Nat} {memory : S} {value : V}
    {rest : Stack V} (hphase : config.phase = .reduce rule)
    (hlength : tables.ruleLength? rule = some length)
    (hhead : tables.ruleHead? rule = some head)
    (hvalue : semantics.reduce config.memory rule (config.stack.frame length)
      = (memory, .ok value))
    (hpop : config.stack.pop? length = some rest)
    (hgoto : tables.goto? rest.state head = some target) :
    config.step tables semantics tape
      = config.reduced rule length target memory value rest := by
  rw [step, hphase]
  simp only [reduce, hlength, hhead, hvalue, replace, hpop, hgoto, reduced]

/-- The configuration after a refused reduction. -/
def refused (config : Config S V E) (rule : Nat) (memory : S) (reason : E) :
    Config S V E :=
  refuse rule reason { config with memory }

/-- A refused rule ends the run, which remembers what the semantics left. -/
theorem step_refuse {rule length head : Nat} {memory : S} {reason : E}
    (hphase : config.phase = .reduce rule)
    (hlength : tables.ruleLength? rule = some length)
    (hhead : tables.ruleHead? rule = some head)
    (hvalue : semantics.reduce config.memory rule (config.stack.frame length)
      = (memory, .error reason)) :
    config.step tables semantics tape
      = config.refused rule memory reason := by
  rw [step, hphase]
  simp only [reduce, hlength, hhead, hvalue, refused]

/-- A run that is stuck reports it and goes on to recover, unless it has just
recovered. -/
theorem step_complain (hphase : config.phase = .stuck)
    (hquiet : config.quiet ≠ quietSpell) :
    config.step tables semantics tape
      = (config.complain semantics).enter .recover := by
  rw [step, hphase]
  simp only [stuck, quiet_complain, if_neg hquiet]

/-- Where no state knows the error token, the run rejects. -/
theorem step_giveUp (hphase : config.phase = .recover)
    (hunwind : unwind tables config.stack.top config.stack.below = .ok none) :
    config.step tables semantics tape
      = { config with quiet := quietSpell }.reject := by
  have hstep : config.step tables semantics tape
      = config.recover tables semantics := by
    rw [step, hphase]
  rw [hstep]
  simp only [recover, hunwind]

end Steps

/-! ### Keeping to the tape -/

variable {tape : Tape} {start : Nat} {config : Config S V E}

/-- Nothing has been read before the first step. -/
theorem readsFrom_initial (semantics : Semantics S V E) (memory : S) :
    (initial semantics memory start).ReadsFrom tape start := by
  simp [ReadsFrom, initial, shifted]

/-- Looking at the next token keeps to the tape. -/
theorem ReadsFrom.look (h : config.ReadsFrom tape start) :
    (config.look tape).2.ReadsFrom tape start := by
  obtain ⟨hle, heq⟩ := h
  unfold Config.look
  cases hpending : config.pending with
  | some token => exact ⟨hle, heq⟩
  | none =>
      have hlength : config.taken + 1 - start = config.taken - start + 1 := by
        omega
      have hlast : start + (config.taken - start) = config.taken := by omega
      have hsame : config.shifted
          = (List.range' start (config.taken - start)).map tape := by
        simpa [hpending] using heq
      refine ⟨Nat.le_succ_of_le hle, ?_⟩
      show config.shifted ++ [tape config.taken]
        = (List.range' start (config.taken + 1 - start)).map tape
      rw [hlength, List.range'_1_concat, List.map_append, hsame, hlast]
      rfl

/-- Shifting the pending token keeps to the tape. -/
theorem ReadsFrom.shift (h : config.ReadsFrom tape start)
    (semantics : Semantics S V E) {token : Token}
    (hpending : config.pending = some token) (target : Nat) :
    (config.shift semantics token target).ReadsFrom tape start := by
  refine ⟨h.1, ?_⟩
  have heq := h.2
  rw [hpending] at heq
  rw [shifted_shift]
  show config.shifted ++ [token] ++ [] = _
  rw [List.append_nil]
  exact heq

/-- What was shifted is a stretch of the tape. -/
theorem ReadsFrom.shifted_eq (h : config.ReadsFrom tape start) :
    config.shifted
      = (List.range' start config.shifted.length).map tape := by
  have hlength := congrArg List.length h.2
  rw [List.length_append, List.length_map, List.length_range'] at hlength
  have htake := congrArg (List.take config.shifted.length) h.2
  rw [List.take_left, ← List.map_take,
    List.take_range'_of_length_ge (by omega)] at htake
  exact htake

end Config

end LambdaStack.Automaton
