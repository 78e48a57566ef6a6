import LambdaStack.Proofs.Halting
import LambdaStack.Proofs.Walk

/-!
# The automaton recognizes the grammar

The tokens before the first end of input are the **sentence** that a source
puts to the automaton (`sentenceOf`).  A run on it accepts if the grammar
derives the sentence from `program`, and rejects if not.

* An accepted run is in the final state, so its path is `program` and the end
  of input, and the reductions, rule 1 put in front of them, are a rightmost
  derivation of what was shifted (`Recorded.exists_sentence`).
* A sentence of the grammar has a greedy reading, and the automaton walks
  it up to the end (`run_of_greedy`).
* Every run ends in one of the two ways, unless the semantics refuses a rule.
* The reductions are the rules that the semantics was given
  (`reduceCalls_run`).

Main statement: `recognizes_sentences`.
-/

namespace LambdaStack.Grammar

open Automaton

variable {S V E : Type}

/-- The tokens before the first end of input. -/
def sentenceOf (tokens : List Token) : List Token :=
  tokens.takeWhile fun token => token.kind ≠ .endOfInput

/-! ### The sentence on a tape -/

section Tapes

variable {tape : Tape}

/-- A stretch of the tape is carried by it. -/
theorem carries_range' (start count : Nat) :
    Carries tape start ((List.range' start count).map tape) := by
  induction count generalizing start with
  | zero => exact trivial
  | succ count ih => exact ⟨rfl, ih (start + 1)⟩

/-- What stands before the first end of input is the same, however it was
found. -/
theorem eq_of_carries {position : Nat} {left right : List Token}
    {leftEnd rightEnd : Token}
    (hleft : Carries tape position (left ++ [leftEnd]))
    (hright : Carries tape position (right ++ [rightEnd]))
    (hleftEnd : leftEnd.kind = .endOfInput)
    (hrightEnd : rightEnd.kind = .endOfInput)
    (hleftInner : ∀ token ∈ left, token.kind ≠ .endOfInput)
    (hrightInner : ∀ token ∈ right, token.kind ≠ .endOfInput) :
    left = right := by
  induction left generalizing position right with
  | nil =>
      cases right with
      | nil => rfl
      | cons token right =>
          have hsame : leftEnd = token := hleft.1.symm.trans hright.1
          exact absurd (hsame ▸ hleftEnd) (hrightInner token List.mem_cons_self)
  | cons token left ih =>
      cases right with
      | nil =>
          have hsame : token = rightEnd := hleft.1.symm.trans hright.1
          exact absurd (hsame ▸ hrightEnd) (hleftInner token List.mem_cons_self)
      | cons other right =>
          have hsame : token = other := hleft.1.symm.trans hright.1
          rw [hsame, ih hleft.2 hright.2
            (fun t ht => hleftInner t (List.mem_cons_of_mem _ ht))
            (fun t ht => hrightInner t (List.mem_cons_of_mem _ ht))]

/-- No token of a sentence is an end of input. -/
theorem kind_ne_of_mem_sentenceOf {tokens : List Token} :
    ∀ token ∈ sentenceOf tokens, token.kind ≠ .endOfInput := by
  intro token hmem
  have hall := List.all_eq_true.mp List.all_takeWhile token hmem
  simpa using hall

theorem length_sentenceOf_le (tokens : List Token) :
    (sentenceOf tokens).length ≤ tokens.length :=
  (List.takeWhile_sublist _).length_le

/-- A tape that goes through the tokens and closes with ends of input carries
their sentence, and then an end of input. -/
theorem carries_sentenceOf {tokens : List Token} {closing : Token}
    {position : Nat} (hclosing : closing.kind = .endOfInput)
    (htape : ∀ index, tape (position + index) = tokens.getD index closing) :
    Carries tape position (sentenceOf tokens) ∧
      (tape (position + (sentenceOf tokens).length)).kind = .endOfInput := by
  induction tokens generalizing position with
  | nil =>
      refine ⟨trivial, ?_⟩
      rw [htape]
      exact hclosing
  | cons token tokens ih =>
      have hfirst : tape position = token := htape 0
      by_cases hkind : token.kind = .endOfInput
      · have hempty : sentenceOf (token :: tokens) = [] := by
          simp [sentenceOf, hkind]
        rw [hempty]
        exact ⟨trivial, hfirst ▸ hkind⟩
      · have hcons : sentenceOf (token :: tokens)
            = token :: sentenceOf tokens := by
          simp [sentenceOf, hkind]
        have hrest : ∀ index,
            tape (position + 1 + index) = tokens.getD index closing := by
          intro index
          rw [Nat.add_assoc, Nat.add_comm 1 index, htape]
          rfl
        obtain ⟨hcarries, hend⟩ := ih hrest
        rw [hcons, List.length_cons, Nat.add_comm _ 1, ← Nat.add_assoc]
        exact ⟨⟨hfirst, hcarries⟩, hend⟩

/-- A source that closes with an end of input carries its sentence. -/
theorem carries_source {source : Source}
    (hclosing : source.closing.kind = .endOfInput) :
    Carries source.tape 0 (sentenceOf source.tokens.toList) ∧
      (source.tape (sentenceOf source.tokens.toList).length).kind
        = .endOfInput := by
  have htape : ∀ index, source.tape (0 + index)
      = source.tokens.toList.getD index source.closing := by
    intro index
    rw [Nat.zero_add, Source.tape, Array.getD_eq_getD_getElem?,
      List.getD_eq_getElem?_getD, Array.getElem?_toList]
  have hboth := carries_sentenceOf hclosing htape
  rwa [Nat.zero_add] at hboth

end Tapes

/-! ### Accepted runs -/

/-- No sentence contains an end of input. -/
theorem kind_ne_of_mem_language {kinds : List Kind}
    (h : kinds ∈ grammar.language) : .endOfInput ∉ kinds := by
  intro hmem
  have hspells : Spells [.nonterminal .program] kinds :=
    spells_iff_derives.mpr h
  simpa using hspells.mem_of_endOfInput hmem

/-- An accepted run has shifted a sentence and the end of input, and its
reductions, with rule 1 in front, are a rightmost derivation of that. -/
theorem Recorded.exists_sentence {tape : Tape} {start : Nat}
    {config : Config S V E} {symbols : List GrammarSymbol}
    (h : Recorded tape start config symbols)
    (hpath : Path config.stack.states symbols)
    (haccepted : config.phase = .halted .accepted) :
    ∃ sentence last, config.shifted = sentence ++ [last] ∧
      last.kind = .endOfInput ∧
      sentence.map Token.kind ∈ grammar.language ∧
      RightmostDerivation (1 :: config.reductions) [.nonterminal .accept]
        (terminals (sentence.map Token.kind ++ [.endOfInput])) := by
  have hderived := h.derived
  rw [Stack.states_eq_cons, h.final haccepted] at hpath
  obtain rfl := hpath.eq_of_final
  have hspells : Spells ([.nonterminal .program] ++ [.terminal .endOfInput])
      (config.shifted.map Token.kind) :=
    spells_iff_derives.mpr hderived.derives
  obtain ⟨front, back, heq, hfront, hback⟩ := hspells.split
  obtain rfl : back = [.endOfInput] := by
    cases hback with
    | terminal kind tail =>
        cases tail
        rfl
  obtain ⟨sentence, ends, hshifted, rfl, hends⟩ := List.map_eq_append_iff.mp heq
  obtain ⟨last, _, rfl, hlast, hrest⟩ := List.map_eq_cons_iff.mp hends
  obtain rfl := List.map_eq_nil_iff.mp hrest
  refine ⟨sentence, last, hshifted, hlast, spells_iff_derives.mp hfront, ?_⟩
  have hfirst : production 1 = some
      ⟨.accept, [.nonterminal .program, .terminal .endOfInput]⟩ := rfl
  rw [← heq]
  exact RightmostDerivation.cons hfirst [] [] hderived

/-- The sentence of an accepted run is the one on the tape. -/
theorem Recorded.sentence_eq {tape : Tape} {start : Nat}
    {config : Config S V E} {symbols : List GrammarSymbol}
    (h : Recorded tape start config symbols) {sentence tokens : List Token}
    {last : Token} (hshifted : config.shifted = sentence ++ [last])
    (hlast : last.kind = .endOfInput)
    (hsentence : sentence.map Token.kind ∈ grammar.language)
    (hcarries : Carries tape start (sentenceOf tokens))
    (hend : (tape (start + (sentenceOf tokens).length)).kind = .endOfInput) :
    sentence = sentenceOf tokens := by
  have hread : Carries tape start (sentence ++ [last]) := by
    rw [← hshifted, h.reads.shifted_eq]
    exact carries_range' _ _
  have hfound : Carries tape start (sentenceOf tokens
      ++ [tape (start + (sentenceOf tokens).length)]) :=
    carries_append.mpr ⟨hcarries, rfl, trivial⟩
  refine eq_of_carries hread hfound hlast hend ?_ kind_ne_of_mem_sentenceOf
  intro token hmem hkind
  apply kind_ne_of_mem_language hsentence
  rw [← hkind]
  exact List.mem_map_of_mem hmem

/-! ### All runs -/

/-- A run that has come to an end does not depend on how many steps it was
allowed. -/
theorem run_eq_of_reaches {semantics : Semantics S V E} {tape : Tape}
    {config final : Config S V E} {fuel : Nat}
    (hreach : Reaches semantics tape config final) (hfinal : final.isHalted)
    (hhalted : (config.run tables semantics tape fuel).isHalted) :
    config.run tables semantics tape fuel = final := by
  obtain ⟨steps, rfl⟩ := hreach
  have hmore := Config.run_add tables semantics tape config fuel steps
  rw [Nat.add_comm, Config.run_add, Config.run_of_isHalted _ _ _ hfinal,
    Config.run_of_isHalted _ _ _ hhalted] at hmore
  exact hmore.symm

section Total

variable {semantics : Semantics S V E}
  (hreduce : ∀ memory rule frame, ∃ value,
    (semantics.reduce memory rule frame).2 = .ok value)
include hreduce

/-- Where no rule is ever refused, no move ends the run with a refusal. -/
theorem Move.phase_ne_failed {tape : Tape} {config next : Config S V E}
    {symbols after : List GrammarSymbol}
    (hmove : Move semantics tape config symbols next after) (reason : E) :
    next.phase ≠ .halted (.failed reason) := by
  intro hfailed
  cases hmove with
  | pass hphase hfinal hnext => rcases hnext with rfl | rfl <;> cases hfailed
  | @refuse _ rule p memory reason hphase hrule hvalue =>
      obtain ⟨value, hok⟩ := hreduce config.memory rule
        (config.stack.frame p.output.length)
      rw [hvalue] at hok
      cases hok
  | _ => cases hfailed

/-- Such a run that is over has accepted or rejected. -/
theorem accepted_or_rejected (tape : Tape) (memory : S) {start fuel : Nat}
    (hhalted : ((Config.initial semantics memory start).run tables semantics
      tape fuel).isHalted) :
    ((Config.initial semantics memory start).run tables semantics tape
      fuel).phase = .halted .accepted ∨
    ((Config.initial semantics memory start).run tables semantics tape
      fuel).phase = .halted .rejected := by
  have hinitial : ∀ reason, (Config.initial semantics memory start).phase
      ≠ .halted (.failed reason) := by
    intro reason hfailed
    cases hfailed
  obtain ⟨symbols, htracked, hsettled⟩ := exists_tracked_run
    (fun (config : Config S V E) _ =>
      ∀ reason, config.phase ≠ .halted (.failed reason))
    (fun _ _ hmove => hmove.phase_ne_failed hreduce)
    (tracked_initial semantics memory start) hinitial fuel
  generalize (Config.initial semantics memory start).run tables semantics tape
    fuel = final at hhalted htracked hsettled ⊢
  unfold Config.isHalted at hhalted
  split at hhalted
  · next halt hphase =>
    cases halt with
    | accepted => exact Or.inl hphase
    | rejected => exact Or.inr hphase
    | failed reason => exact absurd hphase (hsettled reason)
    | faulted fault =>
        have hfits := htracked.fits
        rw [PhaseFits, hphase] at hfits
        exact absurd rfl (hfits fault)
  · cases hhalted

/-- A sentence of the grammar is accepted. -/
theorem accepted_of_sentence {tape : Tape} (memory : S) {start fuel : Nat}
    {sentence : List Token}
    (hhalted : ((Config.initial semantics memory start).run tables semantics
      tape fuel).isHalted)
    (hsentence : sentence.map Token.kind ∈ grammar.language)
    (hcarries : Carries tape start sentence)
    (hend : (tape (start + sentence.length)).kind = .endOfInput) :
    ((Config.initial semantics memory start).run tables semantics tape
      fuel).phase = .halted .accepted := by
  obtain ⟨statements, hgreedy, rfl⟩ := exists_greedy_reading hsentence
  obtain ⟨final, hreach, houtcome⟩ :=
    run_of_greedy semantics memory hgreedy hcarries rfl hend
  rcases hwalk : walkProgram semantics statements memory with
    ⟨after, reason | program⟩
  · rw [hwalk] at houtcome
    have hover : final.isHalted := by rw [Config.isHalted, houtcome.1]
    have hsame := run_eq_of_reaches hreach hover hhalted
    rcases accepted_or_rejected hreduce tape memory hhalted with
      haccepted | hrejected
    · exact haccepted
    · rw [hsame, houtcome.1] at hrejected
      cases hrejected
  · rw [hwalk] at houtcome
    have hover : final.isHalted := by rw [Config.isHalted, houtcome.1]
    rw [run_eq_of_reaches hreach hover hhalted]
    exact houtcome.1

/-- A move that asks for a rule reduces it. -/
theorem Move.reduceCalls_eq {tape : Tape}
    {config next : Config (S × List (Call V)) V E}
    {symbols after : List GrammarSymbol}
    (hmove : Move semantics.watched tape config symbols next after)
    (hsame : config.reduceCalls.map Prod.fst = config.reductions) :
    next.reduceCalls.map Prod.fst = next.reductions := by
  have hwatched : ∀ memory rule frame, ∃ value,
      (semantics.watched.reduce memory rule frame).2 = .ok value :=
    fun memory => hreduce memory.1
  rcases hmove.reduceCalls_cases with
    ⟨hcalls, hreductions⟩ |
    ⟨rule, p, _, _, hcalls, hreductions | ⟨reason, hfailed⟩⟩
  · rw [hcalls, hreductions, hsame]
  · rw [hcalls, hreductions, List.map_cons, hsame]
  · exact absurd hfailed (hmove.phase_ne_failed hwatched reason)

/-- No more is asked for than is reduced: the rules that the semantics is
given, the newest first, are the reductions. -/
theorem reduceCalls_run (tape : Tape) (memory : S) (start fuel : Nat) :
    ((Config.initial semantics.watched (memory, []) start).run tables
        semantics.watched tape fuel).reduceCalls.map Prod.fst
      = ((Config.initial semantics memory start).run tables semantics tape
        fuel).reductions := by
  obtain ⟨_, _, hcalls⟩ := exists_tracked_run
    (fun config _ => config.reduceCalls.map Prod.fst = config.reductions)
    (fun _ hsame hmove => hmove.reduceCalls_eq hreduce hsame)
    (tracked_initial semantics.watched (memory, []) start) rfl fuel
  rw [hcalls]
  exact congrArg Config.reductions
    (Config.unwatched_run semantics tables tape _ fuel)

end Total

/-- **The automaton recognizes the grammar.**  Given steps enough, a run on a
list of tokens accepts exactly when the tokens before the first end of input
are a sentence, and rejects exactly when they are not; and the reductions of
an accepted run, the newest first and behind rule 1, are a rightmost
derivation of the sentence and the end of input behind it.  Watching the
semantics in the same run shows that these are the rules it was given. -/
theorem recognizes_sentences (semantics : Semantics S V E)
    (hreduce : ∀ memory rule frame, ∃ value,
      (semantics.reduce memory rule frame).2 = .ok value)
    (memory : S) (tokens : List Token) (fuel : Nat)
    (hfuel : Reading.fuel (Source.ofTokens tokens).length ≤ fuel) :
    let sentence := (sentenceOf tokens).map Token.kind
    let final := (Config.initial semantics memory 0).run tables semantics
      (Source.ofTokens tokens).tape fuel
    let watched := (Config.initial semantics.watched (memory, []) 0).run
      tables semantics.watched (Source.ofTokens tokens).tape fuel
    (final.halt? = some .accepted ↔ sentence ∈ grammar.language) ∧
      (final.halt? = some .rejected ↔ sentence ∉ grammar.language) ∧
      (final.halt? = some .accepted →
        RightmostDerivation (1 :: final.reductions) [.nonterminal .accept]
          (terminals (sentence ++ [.endOfInput]))) ∧
      watched.unwatched = final ∧
      watched.reduceCalls.map Prod.fst = final.reductions := by
  intro sentence final watched
  have hclosing : (Source.ofTokens tokens).closing.kind = .endOfInput := rfl
  obtain ⟨hcarries, hend⟩ := carries_source hclosing
  rw [← Nat.zero_add (List.length _)] at hend
  have hhalted : final.isHalted := isHalted_run semantics _ memory hend
    (length_sentenceOf_le tokens) hfuel
  obtain ⟨symbols, htracked, hrecorded⟩ := exists_tracked_run
    (Recorded (Source.ofTokens tokens).tape 0)
    (fun _ h hmove => hmove.recorded h) (tracked_initial semantics memory 0)
    (recorded_initial semantics _ memory 0) fuel
  -- what an accepted run has shifted is the sentence on the tape
  have haccepted : final.phase = .halted .accepted →
      sentence ∈ grammar.language ∧
      RightmostDerivation (1 :: final.reductions) [.nonterminal .accept]
        (terminals (sentence ++ [.endOfInput])) := by
    intro hphase
    obtain ⟨found, last, hshifted, hlast, hfound, hderivation⟩ :=
      hrecorded.exists_sentence htracked.path hphase
    have hsame := hrecorded.sentence_eq hshifted hlast hfound hcarries hend
    rw [hsame] at hfound hderivation
    exact ⟨hfound, hderivation⟩
  have hsentence : sentence ∈ grammar.language →
      final.phase = .halted .accepted := fun h =>
    accepted_of_sentence hreduce memory hhalted h hcarries hend
  have hcalls : watched.unwatched = final ∧
      watched.reduceCalls.map Prod.fst = final.reductions :=
    ⟨Config.unwatched_run semantics tables _ _ fuel,
      reduceCalls_run hreduce _ memory 0 fuel⟩
  rcases accepted_or_rejected hreduce _ memory hhalted with hphase | hphase
  · have hhalt : final.halt? = some .accepted := by rw [Config.halt?, hphase]
    obtain ⟨hmem, hderivation⟩ := haccepted hphase
    rw [hhalt]
    exact ⟨by simpa using hmem, by simpa using hmem, fun _ => hderivation,
      hcalls⟩
  · have hhalt : final.halt? = some .rejected := by rw [Config.halt?, hphase]
    have hnot : sentence ∉ grammar.language := by
      intro hmem
      have hboth := hphase.symm.trans (hsentence hmem)
      cases hboth
    rw [hhalt]
    exact ⟨by simpa using hnot, by simpa using hnot, by simp, hcalls⟩

/-- A semantics that counts reductions and refuses none. -/
def tally : Semantics Nat Unit Empty where
  blank := ()
  token count _ := (count, ())
  reduce count _ _ := (count + 1, .ok ())
  complain count _ := count

/-- The tokens of `a \x. x` and, behind an end of input, a bracket that is
never read. -/
def appliedFunction : List Token :=
  [.identifier, .lambda, .name, .dot, .name, .endOfInput, .closeBracket].map
    (Token.bare · none)

theorem recognizes_applied_function :
    (∀ memory rule frame, ∃ value,
      (tally.reduce memory rule frame).2 = .ok value) ∧
    Reading.fuel (Source.ofTokens appliedFunction).length ≤ 704 ∧
    let final := (Config.initial tally 0 0).run tables tally
      (Source.ofTokens appliedFunction).tape 704
    let watched := (Config.initial tally.watched (0, []) 0).run tables
      tally.watched (Source.ofTokens appliedFunction).tape 704
    let sentence := [.identifier, .lambda, .name, .dot, .name]
    (final.halt? = some .accepted ↔ sentence ∈ grammar.language) ∧
      (final.halt? = some .rejected ↔ sentence ∉ grammar.language) ∧
      (final.halt? = some .accepted →
        RightmostDerivation (1 :: final.reductions) [.nonterminal .accept]
          (terminals (sentence ++ [.endOfInput]))) ∧
      watched.unwatched = final ∧
      watched.reduceCalls.map Prod.fst = final.reductions := by
  have hreduce : ∀ memory rule frame, ∃ value,
      (tally.reduce memory rule frame).2 = .ok value :=
    fun _ _ _ => ⟨(), rfl⟩
  have hfuel : Reading.fuel (Source.ofTokens appliedFunction).length ≤ 704 := by
    decide
  exact ⟨hreduce, hfuel, recognizes_sentences tally hreduce 0 appliedFunction
    704 hfuel⟩

end LambdaStack.Grammar
