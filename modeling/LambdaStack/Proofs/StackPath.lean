import LambdaStack.Proofs.Items
import LambdaStack.Proofs.Trace
import LambdaStack.Proofs.Watching

/-!
# The stack is a path

The states on the stack of a run of the grammar's automaton are a **path**
from state 0, and the symbols along it are what the run has made of the tokens
it shifted.  The reason is in the items: a rule that has been read up to some
dot in the state on top was begun that many states below
(`Path.begun_below`).

`Move` lists everything that a step can do, together with the symbols of the
path before and after it.  `exists_move` says that each step of a tracked run
is one of the moves, and the invariants of a run are proved by going through
them once each.

What the semantics is asked to reduce is seen by watching it.  Only two moves
ask for the value of a rule, and both give the frame of its right-hand side
(`Move.reduceCalls_cases`).

Main statement: `stack_path_of_run`.
-/

namespace LambdaStack.Grammar

open Automaton

/-- States, from the top down to state 0, and the symbols that lead from each
to the one above it. -/
inductive Path : List Nat → List GrammarSymbol → Prop
  | start : Path [0] []
  | step {state target : Nat} {below : List Nat} {symbol : GrammarSymbol}
      {symbols : List GrammarSymbol} (tail : Path (state :: below) symbols)
      (edge : edge? state symbol = some target) :
      Path (target :: state :: below) (symbol :: symbols)

namespace Path

variable {states : List Nat} {symbols : List GrammarSymbol}

/-- There is one state more than there are symbols. -/
theorem length_eq (h : Path states symbols) :
    states.length = symbols.length + 1 := by
  induction h with
  | start => rfl
  | step tail edge ih =>
      rw [List.length_cons, ih]
      rfl

/-- The top of a path is a state. -/
theorem head_lt {state : Nat} {below : List Nat}
    (h : Path (state :: below) symbols) : state < stateCount := by
  cases h with
  | start => decide
  | step tail edge => exact lt_stateCount_of_edge? edge

/-- Every number on a path is a state. -/
theorem lt_of_mem (h : Path states symbols) :
    ∀ state ∈ states, state < stateCount := by
  induction h with
  | start =>
      intro state hmem
      rw [List.mem_singleton.mp hmem]
      decide
  | step tail edge ih =>
      intro state hmem
      rcases List.mem_cons.mp hmem with rfl | hbelow
      · exact lt_stateCount_of_edge? edge
      · exact ih state hbelow

/-- Taking states off the top leaves a path. -/
theorem drop (h : Path states symbols) {count : Nat}
    (hcount : count < states.length) :
    Path (states.drop count) (symbols.drop count) := by
  induction h generalizing count with
  | start =>
      obtain rfl : count = 0 := by simpa using hcount
      exact Path.start
  | step tail edge ih =>
      cases count with
      | zero => exact Path.step tail edge
      | succ count => exact ih (by simpa using hcount)

/-- **A rule was begun where its dot stood at the front.**  If the state on
top has an item with `dot` symbols read, then these are the topmost symbols of
the path, there is a state below them, and that state has the item with
nothing read. -/
theorem begun_below {state rule dot : Nat} {below : List Nat} {p : Rule}
    (h : Path (state :: below) symbols) (hrule : production rule = some p)
    (hitem : ⟨rule, dot⟩ ∈ itemsOf state) :
    dot ≤ symbols.length ∧ symbols.take dot = (p.output.take dot).reverse ∧
      ∃ bottom, (state :: below)[dot]? = some bottom ∧
        ⟨rule, 0⟩ ∈ itemsOf bottom := by
  induction dot generalizing state below symbols with
  | zero => exact ⟨Nat.zero_le _, by simp, state, rfl, hitem⟩
  | succ dot ih =>
      cases h with
      | start => exact absurd (dot_eq_zero_of_initial _ hitem) (Nat.succ_ne_zero dot)
      | @step state _ below symbol symbols tail edge =>
          obtain ⟨hbefore, hnext⟩ := item_before_edge edge hitem
          obtain ⟨hle, htake, bottom, hbottom, hbegun⟩ := ih tail hbefore
          have hsymbol : p.output[dot]? = some symbol := by
            simpa [Item.next?, hrule] using hnext
          refine ⟨Nat.succ_le_succ hle, ?_, bottom, hbottom, hbegun⟩
          rw [List.take_succ_cons, htake, List.take_add_one, hsymbol]
          simp

end Path

/-! ### Tracked runs -/

variable {S V E : Type}

/-- What holds in each phase.  Until the run is over nothing is to be kept
quiet about; a rule that is about to be reduced has been read to its end; and
the run is never over because tables and stack disagree. -/
def PhaseFits (config : Config S V E) : Prop :=
  match config.phase with
  | .reduce rule => config.quiet = 0 ∧ 2 ≤ rule ∧
    ∃ p, production rule = some p ∧
      ⟨rule, p.output.length⟩ ∈ itemsOf config.stack.state
  | .halted halt => ∀ fault, halt ≠ .faulted fault
  | _ => config.quiet = 0

/-- A configuration whose stack is a path along the given symbols. -/
structure Tracked (config : Config S V E) (symbols : List GrammarSymbol) :
    Prop where
  path : Path config.stack.states symbols
  fits : PhaseFits config

/-- Until it is over, a tracked run has nothing to be quiet about. -/
theorem Tracked.quiet_eq {config : Config S V E}
    {symbols : List GrammarSymbol} (h : Tracked config symbols)
    (hrunning : ¬ config.isHalted) : config.quiet = 0 := by
  have hfits := h.fits
  unfold PhaseFits at hfits
  split at hfits
  · exact hfits.1
  · next hphase => exact absurd (by rw [Config.isHalted, hphase]) hrunning
  · exact hfits

/-- The moves of the automaton, with the symbols of the path before and after
the move. -/
inductive Move (semantics : Semantics S V E) (tape : Tape) :
    Config S V E → List GrammarSymbol →
    Config S V E → List GrammarSymbol → Prop
  | accept {config : Config S V E} {symbols : List GrammarSymbol}
      (hphase : config.phase = .consult)
      (hfinal : config.stack.state = tables.finalState) :
      Move semantics tape config symbols config.accept symbols
  /-- the state does not look at a token -/
  | blind {config : Config S V E} {symbols : List GrammarSymbol}
      (hphase : config.phase = .consult)
      (hfinal : config.stack.state ≠ tables.finalState)
      (hblind : tables.needsLookahead? config.stack.state = some false) :
      Move semantics tape config symbols (config.enter .fallback) symbols
  | shift {config : Config S V E} {symbols : List GrammarSymbol}
      {target : Nat} (hphase : config.phase = .consult)
      (hfinal : config.stack.state ≠ tables.finalState)
      (hedge : edge? config.stack.state
        (.terminal (config.look tape).1.kind) = some target) :
      Move semantics tape config symbols
        ((config.look tape).2.shift semantics (config.look tape).1 target)
        (.terminal (config.look tape).1.kind :: symbols)
  /-- the state has nothing in particular to do on the token -/
  | pass {config : Config S V E} {symbols : List GrammarSymbol}
      {phase : Phase E} (hphase : config.phase = .consult)
      (hfinal : config.stack.state ≠ tables.finalState)
      (hnext : phase = .fallback ∨ phase = .stuck)
      (hlooks : tables.needsLookahead? config.stack.state = some true) :
      Move semantics tape config symbols
        ((config.look tape).2.enter phase) symbols
  | choose {config : Config S V E} {symbols : List GrammarSymbol}
      {rule : Nat} {p : Rule} (hphase : config.phase = .fallback)
      (hreducible : 2 ≤ rule) (hrule : production rule = some p)
      (hitem : ⟨rule, p.output.length⟩ ∈ itemsOf config.stack.state) :
      Move semantics tape config symbols (config.enter (.reduce rule)) symbols
  | despair {config : Config S V E} {symbols : List GrammarSymbol}
      (hphase : config.phase = .fallback)
      (hnone : tables.defaultReduction? config.stack.state = some none) :
      Move semantics tape config symbols (config.enter .stuck) symbols
  | reduce {config : Config S V E} {symbols : List GrammarSymbol}
      {rule target : Nat} {p : Rule} {memory : S} {value : V}
      {rest : Stack V} (hphase : config.phase = .reduce rule)
      (hreducible : 2 ≤ rule) (hrule : production rule = some p)
      (hvalue : semantics.reduce config.memory rule
        (config.stack.frame p.output.length) = (memory, .ok value))
      (hrest : rest.entries = config.stack.entries.drop p.output.length)
      (hpath : Path rest.states symbols)
      (hedge : edge? rest.state (.nonterminal p.input) = some target) :
      Move semantics tape config (p.output.reverse ++ symbols)
        (config.reduced rule p.output.length target memory value rest)
        (.nonterminal p.input :: symbols)
  | refuse {config : Config S V E} {symbols : List GrammarSymbol}
      {rule : Nat} {p : Rule} {memory : S} {reason : E}
      (hphase : config.phase = .reduce rule)
      (hrule : production rule = some p)
      (hvalue : semantics.reduce config.memory rule
        (config.stack.frame p.output.length) = (memory, .error reason)) :
      Move semantics tape config symbols
        (config.refused rule memory reason) symbols
  | complain {config : Config S V E} {symbols : List GrammarSymbol}
      (hphase : config.phase = .stuck) :
      Move semantics tape config symbols
        ((config.complain semantics).enter .recover) symbols
  | giveUp {config : Config S V E} {symbols : List GrammarSymbol}
      (hphase : config.phase = .recover) :
      Move semantics tape config symbols
        { config with quiet := quietSpell }.reject symbols

/-- What is below a rule that has been read to its end: a path with an edge on
the left-hand symbol, which the goto table knows. -/
theorem Tracked.below_rule {config : Config S V E}
    {symbols : List GrammarSymbol} (h : Tracked config symbols) {rule : Nat}
    (hphase : config.phase = .reduce rule) :
    ∃ p rest target below, production rule = some p ∧ 2 ≤ rule ∧
      symbols = p.output.reverse ++ below ∧
      config.stack.pop? p.output.length = some rest ∧
      rest.entries = config.stack.entries.drop p.output.length ∧
      Path rest.states below ∧
      edge? rest.state (.nonterminal p.input) = some target ∧
      tables.goto? rest.state p.input.code = some target := by
  obtain ⟨_, hreducible, p, hrule, hitem⟩ : config.quiet = 0 ∧ 2 ≤ rule ∧
      ∃ p, production rule = some p ∧
        ⟨rule, p.output.length⟩ ∈ itemsOf config.stack.state := by
    simpa only [PhaseFits, hphase] using h.fits
  have hpath := h.path
  rw [Stack.states_eq_cons] at hpath
  obtain ⟨hle, htake, bottom, hbottom, hbegun⟩ :=
    hpath.begun_below hrule hitem
  have hheight : p.output.length < config.stack.height := by
    have hlength := h.path.length_eq
    rw [Stack.length_states] at hlength
    omega
  obtain ⟨rest, hpop, hentries⟩ := Stack.exists_pop? hheight
  have hstates : rest.states = config.stack.states.drop p.output.length := by
    rw [Stack.states, hentries, List.map_drop]
    rfl
  have hrest : Path rest.states (symbols.drop p.output.length) := by
    rw [hstates]
    exact h.path.drop (by rw [Stack.length_states]; exact hheight)
  have hstate : rest.state = bottom := by
    have hhead : rest.states[0]? = some rest.state := rfl
    rw [hstates, List.getElem?_drop, Nat.add_zero, Stack.states_eq_cons,
      hbottom] at hhead
    exact (Option.some.inj hhead).symm
  rw [Stack.states_eq_cons] at hrest
  obtain ⟨target, hedge, hgoto⟩ := edge?_of_opening hrest.head_lt hrule
    hreducible (hstate ▸ hbegun)
  refine ⟨p, rest, target, symbols.drop p.output.length, hrule, hreducible,
    ?_, hpop, hentries, hrest, hedge, hgoto⟩
  rw [List.take_length] at htake
  rw [← htake, List.take_append_drop]

/-- The frame of a rule that has been read to its end has a value for each
symbol of its right-hand side, and does not reach the bottom of the stack. -/
theorem Tracked.length_frame {config : Config S V E}
    {symbols : List GrammarSymbol} (h : Tracked config symbols) {rule : Nat}
    {p : Rule} (hphase : config.phase = .reduce rule)
    (hrule : production rule = some p) :
    p.output.length < config.stack.height ∧
      (config.stack.frame p.output.length).length = p.output.length := by
  obtain ⟨q, rest, _, _, hq, _, _, hpop, _⟩ := h.below_rule hphase
  obtain rfl : p = q := Option.some.inj (hrule.symm.trans hq)
  have hheight : p.output.length < config.stack.height := by
    by_contra hle
    have hnone := (Stack.pop?_eq_none_iff _ _).mpr (Nat.le_of_not_lt hle)
    rw [hpop] at hnone
    cases hnone
  refine ⟨hheight, ?_⟩
  rw [Stack.length_frame]
  omega

/-- No state of a path knows the error token, so unwinding finds nothing. -/
theorem unwind_eq_none {top : Entry V} {below : List (Entry V)}
    (h : ∀ entry ∈ top :: below, entry.state < stateCount) :
    Config.unwind tables top below = .ok none := by
  induction below generalizing top with
  | nil =>
      have htop := recovery?_eq_none top.state (h top List.mem_cons_self)
      simp only [Config.unwind, htop]
  | cons next below ih =>
      have htop := recovery?_eq_none top.state (h top List.mem_cons_self)
      simp only [Config.unwind, htop]
      exact ih (fun entry hentry => h entry (List.mem_cons_of_mem _ hentry))

/-- **Every step is a move.** -/
theorem exists_move (semantics : Semantics S V E) (tape : Tape)
    {config : Config S V E} {symbols : List GrammarSymbol}
    (h : Tracked config symbols) (hrunning : ¬ config.isHalted) :
    ∃ after, Move semantics tape config symbols
      (config.step tables semantics tape) after := by
  have hpath := h.path
  rw [Stack.states_eq_cons] at hpath
  have hstate := hpath.head_lt
  cases hphase : config.phase with
  | consult =>
      by_cases hfinal : config.stack.state = tables.finalState
      · rw [Config.step_accept hphase hfinal]
        exact ⟨_, Move.accept hphase hfinal⟩
      obtain ⟨look, hlook⟩ :=
        Option.isSome_iff_exists.mp (needsLookahead?_isSome _ hstate)
      cases look with
      | false =>
          rw [Config.step_blind hphase hfinal hlook]
          exact ⟨_, Move.blind hphase hfinal hlook⟩
      | true =>
          rcases action?_cases hstate (config.look tape).1.kind with
            ⟨target, hshift⟩ | hdefault | hfail
          · rw [Config.step_shift hphase hfinal hlook hshift]
            exact ⟨_, Move.shift hphase hfinal (edge?_of_shift hstate hshift)⟩
          · rw [Config.step_default hphase hfinal hlook hdefault]
            exact ⟨_, Move.pass hphase hfinal (Or.inl rfl) hlook⟩
          · rw [Config.step_fail hphase hfinal hlook hfail]
            exact ⟨_, Move.pass hphase hfinal (Or.inr rfl) hlook⟩
  | fallback =>
      rcases completed_of_defaultReduction hstate with
        hnone | ⟨rule, p, hsome, hreducible, hrule, hitem⟩
      · rw [Config.step_despair hphase hnone]
        exact ⟨_, Move.despair hphase hnone⟩
      · rw [Config.step_choose hphase hsome]
        exact ⟨_, Move.choose hphase hreducible hrule hitem⟩
  | reduce rule =>
      obtain ⟨p, rest, target, below, hrule, hreducible, rfl, hpop, hentries,
        hrest, hedge, hgoto⟩ := h.below_rule hphase
      obtain ⟨hlength, hhead⟩ := rule_data hrule
      rcases hvalue : semantics.reduce config.memory rule
        (config.stack.frame p.output.length) with ⟨memory, reason | value⟩
      · rw [Config.step_refuse hphase hlength hhead hvalue]
        exact ⟨_, Move.refuse hphase hrule hvalue⟩
      · rw [Config.step_reduce hphase hlength hhead hvalue hpop hgoto]
        exact ⟨_, Move.reduce hphase hreducible hrule hvalue hentries hrest hedge⟩
  | stuck =>
      have hquiet : config.quiet ≠ quietSpell := by
        rw [h.quiet_eq hrunning]
        decide
      rw [Config.step_complain hphase hquiet]
      exact ⟨_, Move.complain hphase⟩
  | recover =>
      have hunwind : Config.unwind tables config.stack.top
          config.stack.below = .ok none := by
        apply unwind_eq_none
        intro entry hentry
        exact h.path.lt_of_mem _ (List.mem_map_of_mem hentry)
      rw [Config.step_giveUp hphase hunwind]
      exact ⟨_, Move.giveUp hphase⟩
  | halted halt =>
      exact absurd (by rw [Config.isHalted, hphase]) hrunning

/-- Before the first step the stack holds state 0 alone. -/
theorem tracked_initial (semantics : Semantics S V E) (memory : S)
    (start : Nat) : Tracked (Config.initial semantics memory start) [] where
  path := Path.start
  fits := rfl

/-- Moves keep to the path. -/
theorem Move.tracked {semantics : Semantics S V E} {tape : Tape}
    {config next : Config S V E} {symbols after : List GrammarSymbol}
    (hmove : Move semantics tape config symbols next after)
    (h : Tracked config symbols) : Tracked next after := by
  have hpath := h.path
  have hquiet : ∀ {phase}, config.phase = phase →
      (∀ halt, phase ≠ .halted halt) → config.quiet = 0 := by
    intro phase hphase hne
    apply h.quiet_eq
    intro hhalted
    unfold Config.isHalted at hhalted
    split at hhalted
    · next halt hsame => exact hne halt (hphase.symm.trans hsame)
    · cases hhalted
  cases hmove with
  | accept hphase hfinal => exact ⟨hpath, by simp [PhaseFits, Config.accept, Config.enter]⟩
  | blind hphase hfinal => exact ⟨hpath, hquiet hphase (by simp)⟩
  | shift hphase hfinal hedge =>
      rw [Stack.states_eq_cons] at hpath
      have hnext := Path.step hpath hedge
      rw [← Stack.states_eq_cons] at hnext
      refine ⟨by simpa [Config.shift] using hnext, ?_⟩
      simp [PhaseFits, Config.shift, hquiet hphase (by simp)]
  | pass hphase hfinal hnext =>
      refine ⟨by simpa [Config.enter] using hpath, ?_⟩
      rcases hnext with rfl | rfl
      · simpa [PhaseFits, Config.enter] using hquiet hphase (by simp)
      · simpa [PhaseFits, Config.enter] using hquiet hphase (by simp)
  | choose hphase hreducible hrule hitem =>
      exact ⟨hpath, hquiet hphase (by simp), hreducible, _, hrule, hitem⟩
  | despair hphase => exact ⟨hpath, hquiet hphase (by simp)⟩
  | reduce hphase hreducible hrule hvalue hentries hrest hedge =>
      rw [Stack.states_eq_cons] at hrest
      exact ⟨Path.step hrest hedge, hquiet hphase (by simp)⟩
  | refuse hphase hrule hvalue =>
      exact ⟨hpath, by simp [PhaseFits, Config.refused, Config.refuse, Config.enter]⟩
  | complain hphase =>
      refine ⟨by simpa [Config.enter] using hpath, ?_⟩
      simpa [PhaseFits, Config.enter] using hquiet hphase (by simp)
  | giveUp hphase => exact ⟨hpath, by simp [PhaseFits, Config.reject, Config.enter]⟩

/-- **What every move keeps, every run keeps.** -/
theorem exists_tracked_run {semantics : Semantics S V E} {tape : Tape}
    (keeps : Config S V E → List GrammarSymbol → Prop)
    (hmove : ∀ {config symbols next after}, Tracked config symbols →
      keeps config symbols → Move semantics tape config symbols next after →
      keeps next after)
    {config : Config S V E} {symbols : List GrammarSymbol}
    (htracked : Tracked config symbols) (hkeeps : keeps config symbols)
    (fuel : Nat) :
    ∃ after, Tracked (config.run tables semantics tape fuel) after ∧
      keeps (config.run tables semantics tape fuel) after := by
  induction fuel generalizing config symbols with
  | zero => exact ⟨symbols, htracked, hkeeps⟩
  | succ fuel ih =>
      by_cases hhalted : config.isHalted
      · rw [Config.run_of_isHalted _ _ _ hhalted]
        exact ⟨symbols, htracked, hkeeps⟩
      · rw [Config.run_succ_of_not_isHalted _ _ _ hhalted]
        obtain ⟨after, hstep⟩ := exists_move semantics tape htracked hhalted
        exact ih (hstep.tracked htracked) (hmove htracked hkeeps hstep)

/-! ### What the semantics is asked to reduce -/

/-- **Who asks for a rule.**  A move asks for the value of no rule, and reduces
none, or it carries out the rule that is due: then it asks for its value once,
with the frame of its right-hand side, and has reduced it if the semantics does
not refuse. -/
theorem Move.reduceCalls_cases {semantics : Semantics S V E} {tape : Tape}
    {config next : Config (S × List (Call V)) V E}
    {symbols after : List GrammarSymbol}
    (hmove : Move semantics.watched tape config symbols next after) :
    (next.reduceCalls = config.reduceCalls ∧
      next.reductions = config.reductions) ∨
    ∃ rule p, config.phase = .reduce rule ∧ production rule = some p ∧
      next.reduceCalls = (rule, config.stack.frame p.output.length)
        :: config.reduceCalls ∧
      (next.reductions = rule :: config.reductions ∨
        ∃ reason, next.phase = .halted (.failed reason)) := by
  cases hmove with
  | accept | blind | choose | despair | giveUp => exact Or.inl ⟨rfl, rfl⟩
  | shift | pass =>
      exact Or.inl ⟨config.reduceCalls_look tape, by simp⟩
  | @reduce below rule target p memory value rest hphase _ hrule hvalue =>
      have hmemory := congrArg (fun answer => answer.1.2) hvalue
      refine Or.inr ⟨rule, p, hphase, hrule, ?_, Or.inl rfl⟩
      exact congrArg (List.filterMap Call.reduction?) hmemory.symm
  | @refuse _ rule p memory reason hphase hrule hvalue =>
      have hmemory := congrArg (fun answer => answer.1.2) hvalue
      refine Or.inr ⟨rule, p, hphase, hrule, ?_, Or.inr ⟨reason, rfl⟩⟩
      exact congrArg (List.filterMap Call.reduction?) hmemory.symm
  | complain =>
      refine Or.inl ⟨?_, by simp⟩
      simp only [Config.reduceCalls, Config.enter, Config.complain]
      split <;> rfl

/-- The rule is one of the grammar, and the frame has as many values as its
right-hand side has symbols. -/
def FrameFits (rule : Nat) (frame : List V) : Prop :=
  ∃ p, production rule = some p ∧
    tables.ruleLength? rule = some p.output.length ∧
    frame.length = p.output.length

/-- A move asks for a rule only with a frame that fits. -/
theorem Move.frameFits {semantics : Semantics S V E} {tape : Tape}
    {config next : Config (S × List (Call V)) V E}
    {symbols after : List GrammarSymbol}
    (hmove : Move semantics.watched tape config symbols next after)
    (htracked : Tracked config symbols)
    (hfits : ∀ call ∈ config.reduceCalls, FrameFits call.1 call.2) :
    ∀ call ∈ next.reduceCalls, FrameFits call.1 call.2 := by
  rcases hmove.reduceCalls_cases with
    ⟨hcalls, _⟩ | ⟨rule, p, hphase, hrule, hcalls, _⟩
  · rw [hcalls]
    exact hfits
  · rw [hcalls]
    intro call hmem
    rcases List.mem_cons.mp hmem with rfl | hearlier
    · exact ⟨p, hrule, (rule_data hrule).1,
        (htracked.length_frame hphase hrule).2⟩
    · exact hfits call hearlier

/-- **All frames fit.**  Whatever a watched semantics is asked to reduce, it is
given a value for each symbol of the right-hand side. -/
theorem frameFits_of_run (semantics : Semantics S V E) (tape : Tape)
    (memory : S) (start fuel : Nat) :
    ∀ call ∈ ((Config.initial semantics.watched (memory, []) start).run tables
        semantics.watched tape fuel).reduceCalls,
      FrameFits call.1 call.2 := by
  have hinitial : ∀ call ∈ (Config.initial semantics.watched (memory, [])
      start).reduceCalls, FrameFits call.1 call.2 :=
    fun _ hmem => absurd hmem List.not_mem_nil
  obtain ⟨_, _, hfits⟩ := exists_tracked_run
    (fun config _ => ∀ call ∈ config.reduceCalls, FrameFits call.1 call.2)
    (fun htracked hfits hmove => hmove.frameFits htracked hfits)
    (tracked_initial semantics.watched (memory, []) start) hinitial fuel
  exact hfits

/-! ### The stack derives the shifted tokens -/

/-- The reduced rules, the newest first, lead from the symbols of the path to
the shifted tokens, always rewriting the last nonterminal. -/
def Derived (config : Config S V E) (symbols : List GrammarSymbol) : Prop :=
  RightmostDerivation config.reductions symbols.reverse
    (terminals (config.shifted.map Token.kind))

/-- A shift adds the same terminal at both ends of the derivation, a reduction
puts its rule in front of it, and nothing else touches it. -/
theorem Move.derived {semantics : Semantics S V E} {tape : Tape}
    {config next : Config S V E} {symbols after : List GrammarSymbol}
    (hmove : Move semantics tape config symbols next after)
    (h : Derived config symbols) : Derived next after := by
  cases hmove with
  | accept hphase hfinal => exact h
  | blind hphase hfinal => exact h
  | shift hphase hfinal hedge =>
      have hmore := RightmostDerivation.append_terminals h
        [(config.look tape).1.kind]
      simpa [Derived, terminals] using hmore
  | pass hphase hfinal hnext => simpa [Derived] using h
  | choose hphase hreducible hrule hitem => exact h
  | despair hphase => exact h
  | @reduce below rule target p memory value rest hphase _ hrule =>
      have hsame : (p.output.reverse ++ below).reverse
          = below.reverse ++ p.output ++ terminals [] := by
        simp [terminals]
      have htail := h
      rw [Derived, hsame] at htail
      have hcons := RightmostDerivation.cons hrule below.reverse [] htail
      rw [Derived, List.reverse_cons]
      simpa [terminals] using hcons
  | refuse hphase hrule hvalue => exact h
  | complain hphase => simpa [Derived] using h
  | giveUp hphase => exact h

/-- At every point of a run the stack is a path, and the symbols along it
derive the shifted tokens. -/
theorem exists_derived_run (semantics : Semantics S V E) (tape : Tape)
    (memory : S) (start fuel : Nat) :
    ∃ symbols,
      Tracked ((Config.initial semantics memory start).run tables semantics
        tape fuel) symbols ∧
      Derived ((Config.initial semantics memory start).run tables semantics
        tape fuel) symbols :=
  exists_tracked_run Derived (fun _ h hmove => hmove.derived h)
    (tracked_initial semantics memory start)
    (RightmostDerivation.nil []) fuel

/-- **The stack invariant.**  At every point of every run the stack, cut
anywhere above its bottom, is a path of the automaton; the symbols along it
derive the shifted tokens slice by slice; whenever a rule is about to be
reduced, its right-hand side stands on top of at least one further entry, so
the frame is exactly as long as the rule, the entries can be removed, and the
goto table leads along an edge; and tables and stack never disagree.  Watching
the semantics in the same run shows that every rule it was asked to reduce is
one of the grammar and came with a frame of that length. -/
theorem stack_path_of_run (semantics : Semantics S V E) (tape : Tape)
    (memory : S) (start fuel : Nat) :
    let config := (Config.initial semantics memory start).run tables
      semantics tape fuel
    let watched := (Config.initial semantics.watched (memory, []) start).run
      tables semantics.watched tape fuel
    watched.unwatched = config ∧
    (∀ call ∈ watched.reduceCalls, FrameFits call.1 call.2) ∧
    ∃ symbols : List GrammarSymbol,
      (∀ count < config.stack.height, ∃ rest,
        config.stack.pop? count = some rest ∧
        Path rest.states (symbols.drop count)) ∧
      (∃ slices : List (List Token), slices.flatten = config.shifted ∧
        List.Forall₂ (fun symbol slice =>
          grammar.Derives [symbol] (terminals (slice.map Token.kind)))
          symbols.reverse slices) ∧
      (∀ rule, config.phase = .reduce rule → ∃ p rest target,
        production rule = some p ∧
        tables.ruleLength? rule = some p.output.length ∧
        tables.ruleHead? rule = some p.input.code ∧
        (symbols.take p.output.length).reverse = p.output ∧
        p.output.length < config.stack.height ∧
        (config.stack.frame p.output.length).length = p.output.length ∧
        config.stack.pop? p.output.length = some rest ∧
        tables.goto? rest.state p.input.code = some target ∧
        edge? rest.state (.nonterminal p.input) = some target) ∧
      ∀ fault, config.phase ≠ .halted (.faulted fault) := by
  intro config watched
  obtain ⟨symbols, htracked, hderived⟩ :=
    exists_derived_run semantics tape memory start fuel
  refine ⟨Config.unwatched_run semantics tables tape _ fuel,
    frameFits_of_run semantics tape memory start fuel, symbols, ?_, ?_, ?_, ?_⟩
  · intro count hcount
    obtain ⟨rest, hpop, hentries⟩ := Stack.exists_pop? hcount
    refine ⟨rest, hpop, ?_⟩
    rw [Stack.states, hentries, List.map_drop]
    exact htracked.path.drop (by rw [Stack.length_states]; exact hcount)
  · exact exists_slices_of_spells (spells_iff_derives.mpr hderived.derives)
  · intro rule hphase
    obtain ⟨p, rest, target, below, hrule, _, rfl, hpop, _, _, hedge, hgoto⟩ :=
      htracked.below_rule hphase
    obtain ⟨hlength, hhead⟩ := rule_data hrule
    obtain ⟨hheight, hframe⟩ := htracked.length_frame hphase hrule
    refine ⟨p, rest, target, hrule, hlength, hhead, ?_, hheight, hframe, hpop,
      hgoto, hedge⟩
    rw [← List.length_reverse, List.take_left, List.reverse_reverse]
  · intro fault hphase
    have hfits := htracked.fits
    rw [PhaseFits, hphase] at hfits
    exact hfits fault rfl

end LambdaStack.Grammar
