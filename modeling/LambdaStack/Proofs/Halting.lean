import LambdaStack.Grammar.Reading
import LambdaStack.Proofs.StackPath

/-!
# Runs come to an end

A reduction does not read a token, and rule 5 even makes something out of
nothing, so it is not obvious that the automaton ever stops between two
tokens.  What bounds it is the **effort** that is left: the tokens to be
shifted, the symbols on the path, and the phase, each with a weight.

    a token to be shifted              13
    a symbol on the path                3 times its weight
    the phase                           at most 5
    the path is empty                   6

A shift turns 13 into 3 times 4.  The weights of the symbols are such that
the right-hand side of every rule but rule 5 outweighs its left-hand symbol,
and rule 5 is reduced on the empty path only.  So every move costs effort
(`Move.effort_lt`).  The end of input is shifted at most once, since the state
behind it has no edges: this is why there is a last token to be shifted.

Main statement: `isHalted_run`.
-/

namespace LambdaStack.Grammar

open Automaton

/-- Every symbol of the grammar. -/
def allSymbols : List GrammarSymbol :=
  Kind.all.map .terminal ++ Nonterminal.all.map .nonterminal

theorem mem_allSymbols (symbol : GrammarSymbol) : symbol ∈ allSymbols := by
  rcases symbol with kind | nonterminal
  · cases kind <;> decide
  · cases nonterminal <;> decide

/-- Where the edges at both ends of the automaton are: nothing leads to state
0, which alone has an edge on `program`; nothing leads on from state 2, to
which the end of input alone leads; and nothing is labelled `accept`. -/
def EdgeFits (state : Nat) (symbol : GrammarSymbol) (target : Nat) : Prop :=
  target ≠ 0 ∧ state ≠ tables.finalState ∧
    symbol ≠ .nonterminal .accept ∧
    (symbol = .nonterminal .program ↔ state = 0) ∧
    (symbol = .nonterminal .program ↔ target = 1) ∧
    (symbol = .terminal .endOfInput ↔ target = tables.finalState) ∧
    (symbol = .terminal .endOfInput → state = 1)

instance (state : Nat) (symbol : GrammarSymbol) (target : Nat) :
    Decidable (EdgeFits state symbol target) :=
  inferInstanceAs (Decidable (_ ∧ _ ∧ _ ∧ _ ∧ _ ∧ _ ∧ _))

theorem edgeFits_of_edge? {state target : Nat} {symbol : GrammarSymbol}
    (hstate : state < stateCount) (h : edge? state symbol = some target) :
    EdgeFits state symbol target := by
  have hall : ∀ state < stateCount, ∀ symbol ∈ allSymbols,
      ∀ target ∈ edge? state symbol, EdgeFits state symbol target := by
    decide +kernel
  exact hall state hstate symbol (mem_allSymbols symbol) target h

/-! ### The ends of a path -/

namespace Path

variable {below : List Nat} {symbols : List GrammarSymbol}

/-- State 0 is the bottom of every path. -/
theorem eq_nil_of_zero (h : Path (0 :: below) symbols) : symbols = [] := by
  cases h with
  | start => rfl
  | step tail edge =>
      exact absurd rfl (edgeFits_of_edge? tail.head_lt edge).1

/-- The path to the final state is `program` and the end of input. -/
theorem eq_of_final (h : Path (tables.finalState :: below) symbols) :
    symbols = [.terminal .endOfInput, .nonterminal .program] := by
  cases h with
  | step tail edge =>
      obtain ⟨_, _, _, _, _, hend, hbefore⟩ :=
        edgeFits_of_edge? tail.head_lt edge
      have hsymbol := hend.mpr rfl
      obtain rfl := hbefore hsymbol
      cases tail with
      | step tail edge =>
          obtain ⟨_, _, _, hbottom, hprogram, _, _⟩ :=
            edgeFits_of_edge? tail.head_lt edge
          have hfirst := hprogram.mpr rfl
          obtain rfl := hbottom.mp hfirst
          rw [hsymbol, hfirst, tail.eq_nil_of_zero]

/-- A path with the end of input on it has reached the final state. -/
theorem eq_final_of_mem {state : Nat} (h : Path (state :: below) symbols)
    (hmem : .terminal .endOfInput ∈ symbols ∨
      .nonterminal .accept ∈ symbols) : state = tables.finalState := by
  generalize hstates : state :: below = states at h
  induction h generalizing state below with
  | start => simp at hmem
  | @step before target rest symbol symbols tail edge ih =>
      obtain ⟨rfl, rfl⟩ := List.cons.inj hstates
      obtain ⟨_, hnotFinal, hnotAccept, _, _, hend, _⟩ :=
        edgeFits_of_edge? tail.head_lt edge
      rcases hmem with hmem | hmem
      · rcases List.mem_cons.mp hmem with heq | hrest
        · exact hend.mp heq.symm
        · exact absurd (ih (Or.inl hrest) rfl) hnotFinal
      · rcases List.mem_cons.mp hmem with heq | hrest
        · exact absurd heq.symm hnotAccept
        · exact absurd (ih (Or.inr hrest) rfl) hnotFinal

end Path

/-- Only rule 1 has the end of input or `accept` on its right-hand side, and
it is the rule for `accept`. -/
theorem input_eq_accept_of_mem {rule : Nat} {p : Rule}
    (hrule : production rule = some p)
    (hmem : .terminal .endOfInput ∈ p.output ∨
      .nonterminal .accept ∈ p.output) : p.input = .accept := by
  unfold production at hrule
  split at hrule
  all_goals first
    | contradiction
    | (cases hrule; simp at hmem ⊢)

/-- Whatever spells the end of input has it, or `accept`, among its
symbols. -/
theorem Spells.mem_of_endOfInput {symbols : List GrammarSymbol}
    {kinds : List Kind} (h : Spells symbols kinds)
    (hmem : .endOfInput ∈ kinds) :
    .terminal .endOfInput ∈ symbols ∨ .nonterminal .accept ∈ symbols := by
  induction h with
  | nil => cases hmem
  | terminal kind tail ih =>
      rcases List.mem_cons.mp hmem with rfl | htail
      · exact Or.inl List.mem_cons_self
      · exact (ih htail).imp (List.mem_cons_of_mem _) (List.mem_cons_of_mem _)
  | rule hrule inner tail ihinner ihtail =>
      rcases List.mem_append.mp hmem with hslice | htail
      · rw [input_eq_accept_of_mem hrule (ihinner hslice)]
        exact Or.inr List.mem_cons_self
      · exact (ihtail htail).imp (List.mem_cons_of_mem _)
          (List.mem_cons_of_mem _)

/-! ### What a run keeps on record -/

variable {S V E : Type}

/-- The symbols of the path derive what was shifted, which was read off the
tape, and whoever accepts is in the final state. -/
structure Recorded (tape : Tape) (start : Nat) (config : Config S V E)
    (symbols : List GrammarSymbol) : Prop where
  derived : Derived config symbols
  reads : config.ReadsFrom tape start
  final : config.phase = .halted .accepted →
    config.stack.state = tables.finalState

section Moves

variable {semantics : Semantics S V E} {tape : Tape} {start : Nat}
  {config next : Config S V E} {symbols after : List GrammarSymbol}

/-- No move throws a token away. -/
theorem Move.readsFrom (hmove : Move semantics tape config symbols next after)
    (h : config.ReadsFrom tape start) : next.ReadsFrom tape start := by
  cases hmove with
  | shift hphase hfinal hedge =>
      exact h.look.shift semantics (Config.pending_look config tape) _
  | pass hphase hfinal hnext => exact h.look
  | complain hphase =>
      have hsame : (config.complain semantics).ReadsFrom tape start := by
        simpa [Config.ReadsFrom] using h
      exact hsame
  | accept | blind | choose | despair | reduce | refuse | giveUp => exact h

theorem Move.recorded (hmove : Move semantics tape config symbols next after)
    (h : Recorded tape start config symbols) :
    Recorded tape start next after := by
  refine ⟨hmove.derived h.derived, hmove.readsFrom h.reads, ?_⟩
  intro haccepted
  cases hmove with
  | accept hphase hfinal => exact hfinal
  | pass hphase hfinal hnext => rcases hnext with rfl | rfl <;> cases haccepted
  | _ => cases haccepted

end Moves

/-! ### Effort -/

/-- The weight of a symbol.  Apart from rule 5, which makes `program` out of
nothing, every right-hand side outweighs its left-hand symbol. -/
def symbolWeight : GrammarSymbol → Nat
  | .terminal _ | .nonterminal .function | .nonterminal .application => 4
  | .nonterminal .expression => 3
  | .nonterminal .declaration | .nonterminal .evaluation
  | .nonterminal .print => 2
  | .nonterminal .program | .nonterminal .accept => 1

/-- The weight of a string of symbols. -/
def weight : List GrammarSymbol → Nat
  | [] => 0
  | symbol :: symbols => symbolWeight symbol + weight symbols

/-- The number of steps that a phase is away from the end of the run, or from
the next symbol on the path. -/
def phaseWeight : Phase E → Nat
  | .consult => 5
  | .fallback => 4
  | .reduce _ => 3
  | .stuck => 2
  | .recover => 1
  | .halted _ => 0

/-- The effort that is left where at most `limit + 1` tokens are shifted. -/
def effort (limit : Nat) (config : Config S V E)
    (symbols : List GrammarSymbol) : Nat :=
  13 * (limit + 1 - config.shifted.length) + 3 * weight symbols
    + phaseWeight config.phase + (if symbols = [] then 6 else 0)

theorem weight_append (left right : List GrammarSymbol) :
    weight (left ++ right) = weight left + weight right := by
  induction left with
  | nil => exact (Nat.zero_add _).symm
  | cons symbol left ih =>
      rw [List.cons_append, weight, weight, ih, Nat.add_assoc]

theorem weight_reverse (symbols : List GrammarSymbol) :
    weight symbols.reverse = weight symbols := by
  induction symbols with
  | nil => rfl
  | cons symbol symbols ih =>
      rw [List.reverse_cons, weight_append, ih, weight, weight, weight,
        Nat.add_zero, Nat.add_comm]

/-- What a reduction does to the weight of the path. -/
theorem weight_lt_of_production {rule : Nat} {p : Rule}
    (hrule : production rule = some p) :
    p.output = [] ∧ p.input = .program ∨
      symbolWeight (.nonterminal p.input) < weight p.output := by
  unfold production at hrule
  split at hrule
  all_goals first
    | contradiction
    | (cases hrule; decide)

section Effort

variable {semantics : Semantics S V E} {tape : Tape} {start limit : Nat}
  {config next : Config S V E} {symbols after : List GrammarSymbol}

/-- Before the final state is reached, the end of input has not been shifted,
so all shifted tokens stand before it. -/
theorem Recorded.length_shifted_le (h : Recorded tape start config symbols)
    (hpath : Path config.stack.states symbols)
    (hend : (tape (start + limit)).kind = .endOfInput)
    (hfinal : config.stack.state ≠ tables.finalState) :
    config.shifted.length ≤ limit := by
  by_contra hlong
  have hmem : Kind.endOfInput ∈ config.shifted.map Token.kind := by
    rw [h.reads.shifted_eq, ← hend, List.map_map]
    apply List.mem_map_of_mem
    rw [List.mem_range'_1]
    omega
  have hspells : Spells symbols.reverse (config.shifted.map Token.kind) :=
    spells_iff_derives.mpr h.derived.derives
  have hsymbols := hspells.mem_of_endOfInput hmem
  rw [List.mem_reverse, List.mem_reverse] at hsymbols
  rw [Stack.states_eq_cons] at hpath
  exact hfinal (hpath.eq_final_of_mem hsymbols)

/-- A move that only goes on to another phase. -/
theorem effort_lt_of_phase {phase : Phase E} (later : Phase E)
    (hphase : config.phase = phase) (hlater : next.phase = later)
    (hshifted : next.shifted = config.shifted)
    (hlt : phaseWeight later < phaseWeight phase) :
    effort limit next symbols < effort limit config symbols := by
  rw [effort, effort, hshifted, hphase, hlater]
  omega

/-- **Every move costs effort.** -/
theorem Move.effort_lt (hmove : Move semantics tape config symbols next after)
    (htracked : Tracked config symbols)
    (h : Recorded tape start config symbols)
    (hend : (tape (start + limit)).kind = .endOfInput) :
    effort limit next after < effort limit config symbols := by
  cases hmove with
  | accept hphase hfinal =>
      exact effort_lt_of_phase (.halted .accepted) hphase rfl (by simp)
        (by simp [phaseWeight])
  | blind hphase hfinal =>
      exact effort_lt_of_phase .fallback hphase rfl (by simp)
        (by simp [phaseWeight])
  | @shift _ target hphase hfinal hedge =>
      -- there is a token left to shift, so the subtraction is a real one
      have hle := h.length_shifted_le htracked.path hend hfinal
      have hlength : ((config.look tape).2.shift semantics
          (config.look tape).1 target).shifted.length
          = config.shifted.length + 1 := by
        simp
      have hlater : ((config.look tape).2.shift semantics
          (config.look tape).1 target).phase = .consult := rfl
      have hweight : weight (.terminal (config.look tape).1.kind :: symbols)
          = 4 + weight symbols := rfl
      rw [effort, effort, hlength, hphase, hlater, hweight,
        if_neg (List.cons_ne_nil _ _)]
      omega
  | pass hphase hfinal hnext =>
      rcases hnext with rfl | rfl
      · exact effort_lt_of_phase .fallback hphase rfl (by simp)
          (by simp [phaseWeight])
      · exact effort_lt_of_phase .stuck hphase rfl (by simp)
          (by simp [phaseWeight])
  | choose hphase hreducible hrule hitem =>
      exact effort_lt_of_phase (.reduce _) hphase rfl (by simp)
        (by simp [phaseWeight])
  | despair hphase =>
      exact effort_lt_of_phase .stuck hphase rfl (by simp)
        (by simp [phaseWeight])
  | @reduce below rule target p memory value rest hphase _ hrule _ _ hrest
      hedge =>
      have hlater : (config.reduced rule p.output.length target memory value
          rest).phase = .consult := rfl
      have hweight : weight (.nonterminal p.input :: below)
          = symbolWeight (.nonterminal p.input) + weight below := rfl
      rw [effort, effort, Config.shifted_reduced, hphase, hlater, hweight,
        if_neg (List.cons_ne_nil _ _), weight_append, weight_reverse,
        phaseWeight, phaseWeight]
      rcases weight_lt_of_production hrule with ⟨hempty, hprogram⟩ | hlt
      · -- rule 5: an edge on `program` leaves the bottom of the path only
        rw [Stack.states_eq_cons] at hrest
        obtain ⟨_, _, _, hbottom, _⟩ := edgeFits_of_edge? hrest.head_lt hedge
        rw [hbottom.mp (by rw [hprogram])] at hrest
        rw [hrest.eq_nil_of_zero, hempty, hprogram]
        simp [weight, symbolWeight]
      · omega
  | refuse hphase hrule hvalue =>
      exact effort_lt_of_phase (.halted (.failed _)) hphase rfl rfl
        (by simp [phaseWeight])
  | complain hphase =>
      exact effort_lt_of_phase .recover hphase rfl (by simp)
        (by simp [phaseWeight])
  | giveUp hphase =>
      exact effort_lt_of_phase (.halted .rejected) hphase rfl rfl
        (by simp [phaseWeight])

/-- A run that may take as many steps as there is effort left comes to its
end. -/
theorem isHalted_of_effort_le {fuel : Nat} (htracked : Tracked config symbols)
    (h : Recorded tape start config symbols)
    (hend : (tape (start + limit)).kind = .endOfInput)
    (hfuel : effort limit config symbols ≤ fuel) :
    (config.run tables semantics tape fuel).isHalted := by
  induction fuel generalizing config symbols with
  | zero =>
      have hweight : phaseWeight config.phase = 0 := by
        rw [effort] at hfuel
        omega
      unfold phaseWeight at hweight
      split at hweight
      all_goals first
        | contradiction
        | next hphase => rw [Config.run, Config.isHalted, hphase]
  | succ fuel ih =>
      by_cases hhalted : config.isHalted
      · rw [Config.run_of_isHalted _ _ _ hhalted]
        exact hhalted
      · rw [Config.run_succ_of_not_isHalted _ _ _ hhalted]
        obtain ⟨after, hmove⟩ := exists_move semantics tape htracked hhalted
        have hlt := hmove.effort_lt htracked h hend
        exact ih (hmove.tracked htracked) (hmove.recorded h) (by omega)

end Effort

/-- Nothing is on record before the first step. -/
theorem recorded_initial (semantics : Semantics S V E) (tape : Tape)
    (memory : S) (start : Nat) :
    Recorded tape start (Config.initial semantics memory start) [] where
  derived := RightmostDerivation.nil []
  reads := Config.readsFrom_initial semantics memory
  final := by
    intro haccepted
    cases haccepted

/-- **Every run comes to an end.**  If the end of input is at most `length`
tokens away, the steps allowed for that length are enough. -/
theorem isHalted_run (semantics : Semantics S V E) (tape : Tape) (memory : S)
    {start limit length fuel : Nat}
    (hend : (tape (start + limit)).kind = .endOfInput)
    (hlimit : limit ≤ length) (hfuel : Reading.fuel length ≤ fuel) :
    ((Config.initial semantics memory start).run tables semantics tape
      fuel).isHalted := by
  apply isHalted_of_effort_le (tracked_initial semantics memory start)
    (recorded_initial semantics tape memory start) hend
  have heffort : effort limit (Config.initial semantics memory start) []
      = 13 * (limit + 1) + 11 := rfl
  rw [heffort]
  unfold Reading.fuel at hfuel
  omega

end LambdaStack.Grammar
