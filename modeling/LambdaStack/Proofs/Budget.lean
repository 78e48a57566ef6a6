import LambdaStack.Proofs.Halting

/-!
# How far a run goes

The effort that is left bounds a run twice over.  Counted from the start, it
bounds the steps of the whole run; counted from any point, the part of it that
does not depend on the tape bounds the steps up to the next shift, so there is
no endless chain of reductions between two tokens:

    from the start      at most 13 (limit + 1) + 11 steps to the end
    between shifts      fewer than 12 steps for each entry of the stack

Nothing behind the first end of input is looked at.  A state looks at a token
only while it is not the final one, and until then the end of input has not
been shifted (`Recorded.length_shifted_le`), so the token looked at stands at
the end of input at the latest.

Main statement: `run_ends_within_budget`.
-/

namespace LambdaStack.Grammar

open Automaton

variable {S V E : Type} {semantics : Semantics S V E} {tape : Tape}
  {start limit : Nat} {config next : Config S V E}
  {symbols after : List GrammarSymbol}

/-! ### Reading no further than the end of input -/

/-- A token is looked at only where the end of input is still to come. -/
theorem Recorded.taken_look_le (h : Recorded tape start config symbols)
    (hpath : Path config.stack.states symbols)
    (hend : (tape (start + limit)).kind = .endOfInput)
    (hfinal : config.stack.state ≠ tables.finalState)
    (htaken : config.taken ≤ start + limit + 1) :
    (config.look tape).2.taken ≤ start + limit + 1 := by
  unfold Config.look
  cases hpending : config.pending with
  | some token => exact htaken
  | none =>
      have hshifted := h.length_shifted_le hpath hend hfinal
      have hlength := congrArg List.length h.reads.2
      have hstart := h.reads.1
      simp only [hpending, Option.toList_none, List.append_nil,
        List.length_map, List.length_range'] at hlength
      have hnext : config.taken + 1 ≤ start + limit + 1 := by omega
      exact hnext

/-- No move takes a token behind the end of input. -/
theorem Move.taken_le (hmove : Move semantics tape config symbols next after)
    (htracked : Tracked config symbols)
    (h : Recorded tape start config symbols)
    (hend : (tape (start + limit)).kind = .endOfInput)
    (htaken : config.taken ≤ start + limit + 1) :
    next.taken ≤ start + limit + 1 := by
  cases hmove with
  | shift hphase hfinal hedge =>
      exact h.taken_look_le htracked.path hend hfinal htaken
  | pass hphase hfinal hnext hlooks =>
      exact h.taken_look_le htracked.path hend hfinal htaken
  | complain hphase =>
      have hsame := Config.taken_complain config semantics
      exact hsame.symm ▸ htaken
  | accept | blind | choose | despair | reduce | refuse | giveUp =>
      exact htaken

/-- **At every point of a run** the stack is a path, what was shifted is on
record, and nothing behind the end of input has been taken. -/
theorem exists_recorded_run (semantics : Semantics S V E) (memory : S)
    (hend : (tape (start + limit)).kind = .endOfInput) (fuel : Nat) :
    let config := (Config.initial semantics memory start).run tables semantics
      tape fuel
    ∃ symbols, Tracked config symbols ∧
      Recorded tape start config symbols ∧
      config.taken ≤ start + limit + 1 := by
  apply exists_tracked_run (fun config symbols =>
    Recorded tape start config symbols ∧ config.taken ≤ start + limit + 1)
  · intro config symbols next after htracked h hmove
    exact ⟨hmove.recorded h.1, hmove.taken_le htracked h.1 hend h.2⟩
  · exact tracked_initial semantics memory start
  · have hstart : start ≤ start + limit + 1 := by omega
    exact ⟨recorded_initial semantics tape memory start, hstart⟩

/-! ### Effort spent -/

/-- **Every step of a run that is not over has cost effort.** -/
theorem exists_effort_run (htracked : Tracked config symbols)
    (h : Recorded tape start config symbols)
    (hend : (tape (start + limit)).kind = .endOfInput) {more : Nat}
    (hrunning : ¬ (config.run tables semantics tape more).isHalted) :
    ∃ after, effort limit (config.run tables semantics tape more) after + more
      ≤ effort limit config symbols := by
  induction more generalizing config symbols with
  | zero => exact ⟨symbols, Nat.le_refl _⟩
  | succ more ih =>
      have hbefore : ¬ config.isHalted := by
        intro hhalted
        rw [Config.run_of_isHalted _ _ _ hhalted] at hrunning
        exact hrunning hhalted
      obtain ⟨middle, hmove⟩ := exists_move semantics tape htracked hbefore
      have hlt := hmove.effort_lt htracked h hend
      rw [Config.run_succ_of_not_isHalted _ _ _ hbefore] at hrunning ⊢
      obtain ⟨after, hle⟩ :=
        ih (hmove.tracked htracked) (hmove.recorded h) hrunning
      exact ⟨after, by omega⟩

/-- A symbol weighs at most four. -/
theorem weight_le (symbols : List GrammarSymbol) :
    weight symbols ≤ 4 * symbols.length := by
  induction symbols with
  | nil => rfl
  | cons symbol symbols ih =>
      have hsymbol : symbolWeight symbol ≤ 4 := by
        unfold symbolWeight
        split <;> omega
      rw [weight, List.length_cons]
      omega

/-- A phase weighs at most five. -/
theorem phaseWeight_le (phase : Phase E) : phaseWeight phase ≤ 5 := by
  cases phase <;> simp [phaseWeight]

/-- The part of the effort that is not for tokens to be shifted is bounded by
the height of the stack. -/
theorem Tracked.effort_lt (htracked : Tracked config symbols) (limit : Nat) :
    effort limit config symbols
      < 13 * (limit + 1 - config.shifted.length)
        + 12 * config.stack.height := by
  have hheight : config.stack.height = symbols.length + 1 := by
    rw [← Stack.length_states]
    exact htracked.path.length_eq
  have hweight := weight_le symbols
  have hphase := phaseWeight_le config.phase
  have hempty : (if symbols = [] then 6 else 0) ≤ 6 := by
    split <;> omega
  rw [effort]
  omega

/-- A run that neither ends nor shifts takes only so many steps. -/
theorem lt_height_of_shifted_eq (htracked : Tracked config symbols)
    (h : Recorded tape start config symbols)
    (hend : (tape (start + limit)).kind = .endOfInput) {more : Nat}
    (hrunning : ¬ (config.run tables semantics tape more).isHalted)
    (hshifted : (config.run tables semantics tape more).shifted
      = config.shifted) :
    more < 12 * config.stack.height := by
  obtain ⟨after, hspent⟩ := exists_effort_run htracked h hend hrunning
  have hbound := htracked.effort_lt limit
  have hleft : 13 * (limit + 1 - config.shifted.length)
      ≤ effort limit (config.run tables semantics tape more) after := by
    rw [effort, hshifted]
    omega
  omega

/-- A tracked run does not end in a disagreement between tables and stack. -/
theorem Tracked.halt?_cases (htracked : Tracked config symbols)
    (hhalted : config.isHalted) :
    config.halt? = some .accepted ∨ config.halt? = some .rejected ∨
      ∃ reason, config.halt? = some (.failed reason) := by
  have hfits := htracked.fits
  unfold Config.isHalted at hhalted
  split at hhalted
  · next halt hphase =>
    rw [PhaseFits, hphase] at hfits
    rw [Config.halt?, hphase]
    cases halt with
    | accepted => exact Or.inl rfl
    | rejected => exact Or.inr (Or.inl rfl)
    | failed reason => exact Or.inr (Or.inr ⟨reason, rfl⟩)
    | faulted fault => exact absurd rfl (hfits fault)
  · cases hhalted

/-- **Every run ends, and reads no further than the end of input.**  Whatever
the semantics does, and whatever the tape holds behind its first end of input:
the run accepts, rejects or is refused a reduction within a number of steps
that is linear in the tokens before the end of input; it never takes a token
behind that end of input; and from any point on it ends or shifts within a
number of steps that is linear in the height of the stack, so no chain of
reductions between two shifts goes on forever. -/
theorem run_ends_within_budget (semantics : Semantics S V E) (tape : Tape)
    (memory : S) (start limit : Nat)
    (hend : (tape (start + limit)).kind = .endOfInput) :
    let run := fun fuel =>
      (Config.initial semantics memory start).run tables semantics tape fuel
    (∃ steps ≤ 13 * (limit + 1) + 11,
      (run steps).halt? = some .accepted ∨
      (run steps).halt? = some .rejected ∨
      ∃ reason, (run steps).halt? = some (.failed reason)) ∧
    (∀ fuel, (run fuel).taken ≤ start + limit + 1) ∧
    ∀ fuel more, (run (fuel + more)).shifted = (run fuel).shifted →
      ¬ (run (fuel + more)).isHalted →
      more < 12 * (run fuel).stack.height := by
  intro run
  refine ⟨⟨13 * (limit + 1) + 11, Nat.le_refl _, ?_⟩, ?_, ?_⟩
  · obtain ⟨symbols, htracked, _⟩ :=
      exists_recorded_run semantics memory hend (13 * (limit + 1) + 11)
    apply htracked.halt?_cases
    exact isHalted_of_effort_le (tracked_initial semantics memory start)
      (recorded_initial semantics tape memory start) hend (Nat.le_refl _)
  · intro fuel
    obtain ⟨_, _, _, htaken⟩ := exists_recorded_run semantics memory hend fuel
    exact htaken
  · intro fuel more hshifted hrunning
    obtain ⟨symbols, htracked, hrecorded, _⟩ :=
      exists_recorded_run semantics memory hend fuel
    simp only [run, Config.run_add] at hshifted hrunning
    exact lt_height_of_shifted_eq htracked hrecorded hend hrunning hshifted

/-- A semantics that allows two reductions and refuses the third. -/
def grudging : Semantics Nat Unit String where
  blank := ()
  token count _ := (count, ())
  reduce count _ _ :=
    (count + 1, if count < 2 then .ok () else .error "enough")
  complain count _ := count

/-- Names without end, but for one end of input. -/
def interruptedNames : Tape := fun n =>
  Token.bare (if n = 4 then .endOfInput else .name) none

/-- A semantics that refuses its third rule ends the run, within the budget and
with no token read behind the end of input. -/
theorem grudging_run_ends_within_budget :
    (interruptedNames (1 + 3)).kind = .endOfInput ∧
    let run := fun fuel =>
      (Config.initial grudging 0 1).run tables grudging interruptedNames fuel
    (run 12).halt? = some (.failed "enough") ∧
    (∃ steps ≤ 63,
      (run steps).halt? = some .accepted ∨
      (run steps).halt? = some .rejected ∨
      ∃ reason, (run steps).halt? = some (.failed reason)) ∧
    (∀ fuel, (run fuel).taken ≤ 5) ∧
    ∀ fuel more, (run (fuel + more)).shifted = (run fuel).shifted →
      ¬ (run (fuel + more)).isHalted →
      more < 12 * (run fuel).stack.height := by
  have hend : (interruptedNames (1 + 3)).kind = .endOfInput := rfl
  have hfailed : ((Config.initial grudging 0 1).run tables grudging
      interruptedNames 12).halt? = some (.failed "enough") := by
    decide +kernel
  exact ⟨hend, hfailed, run_ends_within_budget grudging interruptedNames 0 1 3
    hend⟩

end LambdaStack.Grammar
