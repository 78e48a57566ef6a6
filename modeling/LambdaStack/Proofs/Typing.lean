import LambdaStack.Proofs.Elaboration

/-!
# The values on the stack are of the right sort

Each symbol on the path of a run calls for a value of its own sort: a word for
its text, an expression or an evaluation for an operand.  A path and the values
on the stack **suit** each other symbol by symbol (`Suited`), above a bottom
value that nobody asks for.

If the tokens of a tape have their texts, every move keeps the stack suited.
So a rule that is about to be reduced gets what it asks for, and is refused for
one reason only: an identifier is not bound (`reduce_cases`).
-/

namespace LambdaStack.Grammar

open Automaton

/-- The value is of the sort that the symbol calls for. -/
def Suits : GrammarSymbol → Value → Prop
  | .terminal .identifier, value | .terminal .name, value =>
    ∃ text, value = .text text
  | .nonterminal .expression, value | .nonterminal .function, value
  | .nonterminal .application, value | .nonterminal .evaluation, value =>
    ∃ operand, value = .operand operand
  | _, _ => True

/-- The values suit the symbols, above one more value. -/
inductive Suited : List GrammarSymbol → List Value → Prop
  | bottom (value : Value) : Suited [] [value]
  | cons {symbol : GrammarSymbol} {value : Value}
      {symbols : List GrammarSymbol} {values : List Value}
      (head : Suits symbol value) (tail : Suited symbols values) :
      Suited (symbol :: symbols) (value :: values)

/-- What suits symbols side by side can be cut between them. -/
theorem Suited.split {front below : List GrammarSymbol} {values : List Value}
    (h : Suited (front ++ below) values) :
    ∃ frame rest, values = frame ++ rest ∧
      List.Forall₂ Suits front frame ∧ Suited below rest := by
  induction front generalizing values with
  | nil => exact ⟨[], values, rfl, List.Forall₂.nil, h⟩
  | cons symbol front ih =>
      cases h with
      | @cons _ value _ values head tail =>
          obtain ⟨frame, rest, rfl, hframe, hrest⟩ := ih tail
          exact ⟨value :: frame, rest, rfl, List.Forall₂.cons head hframe,
            hrest⟩

/-! ### Reductions -/

section Frames

variable {frame : List Value}

/-- A frame that suits a symbol and others. -/
theorem frame_cons {first : GrammarSymbol} {others : List GrammarSymbol}
    (h : List.Forall₂ Suits (first :: others) frame) :
    ∃ value rest, frame = value :: rest ∧ Suits first value ∧
      List.Forall₂ Suits others rest := by
  obtain ⟨value, rest, hfirst, hrest, rfl⟩ := List.forall₂_cons_left_iff.mp h
  exact ⟨value, rest, rfl, hfirst, hrest⟩

theorem frame_single {first : GrammarSymbol}
    (h : List.Forall₂ Suits [first] frame) :
    ∃ value, frame = [value] ∧ Suits first value := by
  obtain ⟨value, rest, rfl, hfirst, hrest⟩ := frame_cons h
  cases hrest
  exact ⟨value, rfl, hfirst⟩

theorem frame_pair {first second : GrammarSymbol}
    (h : List.Forall₂ Suits [first, second] frame) :
    ∃ a b, frame = [a, b] ∧ Suits first a ∧ Suits second b := by
  obtain ⟨a, rest, rfl, hfirst, hrest⟩ := frame_cons h
  obtain ⟨b, rfl, hsecond⟩ := frame_single hrest
  exact ⟨a, b, rfl, hfirst, hsecond⟩

theorem frame_triple {first second third : GrammarSymbol}
    (h : List.Forall₂ Suits [first, second, third] frame) :
    ∃ a b c, frame = [a, b, c] ∧ Suits second b := by
  obtain ⟨a, rest, rfl, _, hrest⟩ := frame_cons h
  obtain ⟨b, c, rfl, hsecond, _⟩ := frame_pair hrest
  exact ⟨a, b, c, rfl, hsecond⟩

theorem frame_four {first second third fourth : GrammarSymbol}
    (h : List.Forall₂ Suits [first, second, third, fourth] frame) :
    ∃ a b c d, frame = [a, b, c, d] ∧ Suits first a ∧ Suits third c := by
  obtain ⟨a, rest, rfl, hfirst, hrest⟩ := frame_cons h
  obtain ⟨b, rest, rfl, _, hrest⟩ := frame_cons hrest
  obtain ⟨c, d, rfl, hthird, _⟩ := frame_pair hrest
  exact ⟨a, b, c, d, rfl, hfirst, hthird⟩

end Frames

/-- What a rule means with a frame that suits its right-hand side and holds
nothing but operands that can be used. -/
theorem meaning_cases {program : Program} {rule : Nat} {p : Rule}
    {frame : List Value} (hrule : production rule = some p)
    (hframe : List.Forall₂ Suits p.output.reverse frame)
    (hholds : ∀ value ∈ frame, Holds program value) :
    (∃ contribution,
      (Production.ofRule rule).meaning program frame = .ok contribution ∧
      Suits (.nonterminal p.input) contribution.value) ∨
    rule = 10 ∧ ∃ name, frame = [.text name] ∧
      program.symbols.get? name = none := by
  unfold production at hrule
  split at hrule <;> cases hrule
  -- the rules for whole programs pass on whatever stands below
  · exact Or.inl ⟨_, rfl, trivial⟩
  · exact Or.inl ⟨_, rfl, trivial⟩
  · exact Or.inl ⟨_, rfl, trivial⟩
  · exact Or.inl ⟨_, rfl, trivial⟩
  · exact Or.inl ⟨_, rfl, trivial⟩
  -- the statements: two declarations, an evaluation, a bare expression
  · obtain ⟨_, mark, _, first, rfl, ⟨value, rfl⟩, name, rfl⟩ :=
      frame_four hframe
    have huses : program.Uses value := hholds _ List.mem_cons_self
    exact Or.inl ⟨_, meaning_declaration huses name first mark, trivial⟩
  · obtain ⟨_, mark, _, first, rfl, ⟨value, rfl⟩, name, rfl⟩ :=
      frame_four hframe
    have huses : program.Uses value := hholds _ List.mem_cons_self
    exact Or.inl ⟨_, meaning_declaration huses name first mark, trivial⟩
  · obtain ⟨_, first, rfl, ⟨value, rfl⟩, _⟩ := frame_pair hframe
    have huses : program.Uses value := hholds _ List.mem_cons_self
    exact Or.inl ⟨_, meaning_evaluation huses first, _, rfl⟩
  · obtain ⟨_, rfl, value, rfl⟩ := frame_single hframe
    have huses : program.Uses value := hholds _ List.mem_cons_self
    exact Or.inl ⟨_, meaning_print huses, trivial⟩
  -- the expressions, of which only a use can be refused
  · obtain ⟨_, rfl, name, rfl⟩ := frame_single hframe
    cases hget : program.symbols.get? name with
    | some value => exact Or.inl ⟨_, meaning_identifier hget, value, rfl⟩
    | none => exact Or.inr ⟨rfl, name, rfl, hget⟩
  · obtain ⟨_, rfl, name, rfl⟩ := frame_single hframe
    exact Or.inl ⟨_, rfl, _, rfl⟩
  · obtain ⟨_, rfl, value, rfl⟩ := frame_single hframe
    exact Or.inl ⟨_, rfl, value, rfl⟩
  · obtain ⟨_, rfl, value, rfl⟩ := frame_single hframe
    exact Or.inl ⟨_, rfl, value, rfl⟩
  · obtain ⟨_, _, _, rfl, value, rfl⟩ := frame_triple hframe
    exact Or.inl ⟨_, rfl, value, rfl⟩
  · obtain ⟨_, mark, _, first, rfl, ⟨value, rfl⟩, name, rfl⟩ :=
      frame_four hframe
    have huses : program.Uses value := hholds _ List.mem_cons_self
    exact Or.inl ⟨_, meaning_function huses name first mark, _, rfl⟩
  · obtain ⟨_, _, rfl, ⟨right, rfl⟩, left, rfl⟩ := frame_pair hframe
    have hright : program.Uses right := hholds _ List.mem_cons_self
    have hleft : program.Uses left :=
      hholds _ (List.mem_cons_of_mem _ List.mem_cons_self)
    exact Or.inl ⟨_, meaning_application hleft hright, _, rfl⟩

/-- An identifier that is not bound is refused. -/
theorem reduce_undefined {draft : Draft} {name : String}
    (h : draft.program.symbols.get? name = none) :
    semantics.reduce draft 10 [.text name]
      = (draft, .error (.undefined name)) := by
  have hmeaning : (Production.ofRule 10).meaning draft.program [.text name]
      = .error (.undefined name) := by
    simp [Production.ofRule, Production.meaning, identifierUse, wordAt, bind,
      Except.bind, h, throw, throwThe, MonadExceptOf.throw]
  simp only [semantics, hmeaning]

/-- **A rule gets what it asks for**, and is reduced to a value that suits its
left-hand symbol; unless it is the use of an identifier that is not bound. -/
theorem reduce_cases {draft : Draft} {rule : Nat} {p : Rule}
    {frame : List Value} (hrule : production rule = some p)
    (hframe : List.Forall₂ Suits p.output.reverse frame)
    (hholds : ∀ value ∈ frame, Holds draft.program value) :
    (∃ after value, semantics.reduce draft rule frame = (after, .ok value) ∧
      Suits (.nonterminal p.input) value) ∨
    rule = 10 ∧ ∃ name, frame = [.text name] ∧
      draft.program.symbols.get? name = none ∧
      semantics.reduce draft rule frame
        = (draft, .error (.undefined name)) := by
  rcases meaning_cases hrule hframe hholds with
    ⟨contribution, hmeaning, hsuits⟩ | ⟨rfl, name, rfl, hnone⟩
  · have hreduce : semantics.reduce draft rule frame
        = ({ draft with program := contribution.addTo draft.program },
          .ok contribution.value) := by
      simp only [semantics, hmeaning]
    exact Or.inl ⟨_, _, hreduce, hsuits⟩
  · exact Or.inr ⟨rfl, name, rfl, hnone, reduce_undefined hnone⟩

/-! ### Runs -/

/-- The words on the tape have their texts. -/
def WordedTape (tape : Tape) : Prop :=
  ∀ index, (tape index).kind = .identifier ∨ (tape index).kind = .name →
    (tape index).text.isSome

/-- What every move of a run that keeps its memory good keeps, every such run
keeps. -/
theorem exists_kept_run {S V E : Type} {semantics : Semantics S V E}
    {good : S → Prop} {fits : S → V → Prop}
    (hsemantics : semantics.Keeps good fits) (tape : Tape)
    (keeps : Config S V E → List GrammarSymbol → Prop)
    (hmove : ∀ {config symbols next after}, Tracked config symbols →
      Kept good fits config → keeps config symbols →
      Move semantics tape config symbols next after → keeps next after)
    {config : Config S V E} {symbols : List GrammarSymbol}
    (htracked : Tracked config symbols) (hkept : Kept good fits config)
    (hkeeps : keeps config symbols) (fuel : Nat) :
    ∃ after, Tracked (config.run tables semantics tape fuel) after ∧
      keeps (config.run tables semantics tape fuel) after := by
  induction fuel generalizing config symbols with
  | zero => exact ⟨symbols, htracked, hkeeps⟩
  | succ fuel ih =>
      by_cases hhalted : config.isHalted
      · rw [Config.run_of_isHalted _ _ _ hhalted]
        exact ⟨symbols, htracked, hkeeps⟩
      · rw [Config.run_succ_of_not_isHalted _ _ _ hhalted]
        obtain ⟨after, hstep⟩ := exists_move semantics tape htracked hhalted
        exact ih (hstep.tracked htracked) (hkept.step hsemantics tables tape)
          (hmove htracked hkept hkeeps hstep)

/-- The values on a stack, from the top down. -/
def stackValues {V : Type} (stack : Stack V) : List V :=
  stack.entries.map Entry.value

/-- The token that a run looks at stands on the tape. -/
theorem exists_look_eq {S V E : Type} {tape : Tape} {start : Nat}
    {config : Config S V E} (h : config.ReadsFrom tape start) :
    ∃ index, (config.look tape).1 = tape index := by
  unfold Config.look
  cases hpending : config.pending with
  | none => exact ⟨config.taken, rfl⟩
  | some token =>
      have hmem : token ∈ config.shifted ++ config.pending.toList := by
        simp [hpending]
      rw [h.2] at hmem
      obtain ⟨index, _, hindex⟩ := List.mem_map.mp hmem
      exact ⟨index, hindex.symm⟩

/-- A token on a worded tape has a value of its sort. -/
theorem suits_tokenValue {tape : Tape} (htape : WordedTape tape)
    (index : Nat) :
    Suits (.terminal (tape index).kind) (tokenValue (tape index)) := by
  have hword : (tape index).kind = .identifier ∨ (tape index).kind = .name →
      ∃ text, tokenValue (tape index) = .text text := by
    intro hkind
    obtain ⟨text, htext⟩ := Option.isSome_iff_exists.mp (htape index hkind)
    exact ⟨text, tokenValue_of_text htext⟩
  cases hkind : (tape index).kind with
  | identifier => exact hword (Or.inl hkind)
  | name => exact hword (Or.inr hkind)
  | _ => trivial

section Moves

variable {tape : Tape} {start : Nat}
  {config next : Config Draft Value Refusal}
  {symbols after below : List GrammarSymbol}

/-- The frame of a rule on a suited stack. -/
theorem Suited.frame {front : List GrammarSymbol}
    (h : Suited (front ++ below) (stackValues config.stack)) :
    List.Forall₂ Suits front (config.stack.frame front.length) ∧
      Suited below ((config.stack.entries.drop front.length).map
        Entry.value) := by
  obtain ⟨frame, rest, hvalues, hframe, hrest⟩ := h.split
  have hlength := hframe.length_eq
  have htake : config.stack.frame front.length = frame := by
    rw [Stack.frame, List.map_take]
    show (stackValues config.stack).take _ = _
    rw [hvalues, hlength, List.take_left]
  have hdrop : (config.stack.entries.drop front.length).map Entry.value
      = rest := by
    rw [List.map_drop]
    show (stackValues config.stack).drop _ = _
    rw [hvalues, hlength, List.drop_left]
  rw [htake, hdrop]
  exact ⟨hframe, hrest⟩

/-- A rule that is about to be reduced on a suited stack. -/
theorem Tracked.reduce_cases {rule : Nat} {p : Rule}
    (h : Tracked config symbols) (hphase : config.phase = .reduce rule)
    (hrule : production rule = some p)
    (hkept : Kept (fun draft => draft.program.WellFormed)
      (fun draft value => Holds draft.program value) config)
    (hsuited : Suited symbols (stackValues config.stack)) :
    let frame := config.stack.frame p.output.length
    (∃ after value,
      semantics.reduce config.memory rule frame = (after, .ok value) ∧
      Suits (.nonterminal p.input) value) ∨
    rule = 10 ∧ ∃ name, frame = [.text name] ∧
      config.memory.program.symbols.get? name = none ∧
      semantics.reduce config.memory rule frame
        = (config.memory, .error (.undefined name)) := by
  intro frame
  obtain ⟨found, rest, target, below, hfound, _, rfl, _⟩ :=
    h.below_rule hphase
  obtain rfl : found = p := Option.some.inj (hfound.symm.trans hrule)
  have hframe := hsuited.frame.1
  rw [List.length_reverse] at hframe
  apply Grammar.reduce_cases hrule hframe
  intro value hmem
  obtain ⟨entry, hentry, rfl⟩ := List.mem_map.mp hmem
  exact hkept.stack entry (List.mem_of_mem_take hentry)

/-- Moves keep the stack suited. -/
theorem Move.suited (hmove : Move semantics tape config symbols next after)
    (htape : WordedTape tape) (hreads : config.ReadsFrom tape start)
    (htracked : Tracked config symbols)
    (hkept : Kept (fun draft => draft.program.WellFormed)
      (fun draft value => Holds draft.program value) config)
    (h : Suited symbols (stackValues config.stack)) :
    Suited after (stackValues next.stack) := by
  cases hmove with
  | shift hphase hfinal hedge =>
      obtain ⟨index, hlook⟩ := exists_look_eq hreads
      have hsuits := suits_tokenValue htape index
      rw [← hlook] at hsuits
      refine Suited.cons hsuits ?_
      show Suited symbols (stackValues (config.look tape).2.stack)
      rw [Config.stack_look]
      exact h
  | pass hphase hfinal hnext hlooks =>
      show Suited symbols (stackValues (config.look tape).2.stack)
      rw [Config.stack_look]
      exact h
  | @reduce below rule target p memory value rest hphase hreducible hrule
      hvalue hentries =>
      have hbelow := h.frame.2
      rw [List.length_reverse, ← hentries] at hbelow
      refine Suited.cons ?_ hbelow
      rcases htracked.reduce_cases hphase hrule hkept h with
        ⟨_, found, hreduce, hsuits⟩ | ⟨_, _, _, _, hreduce⟩
      · rw [hvalue] at hreduce
        cases hreduce
        exact hsuits
      · rw [hvalue] at hreduce
        cases hreduce
  | complain hphase =>
      show Suited symbols (stackValues (config.complain semantics).stack)
      rw [Config.stack_complain]
      exact h
  | accept | blind | choose | despair | refuse | giveUp => exact h

end Moves

end LambdaStack.Grammar
