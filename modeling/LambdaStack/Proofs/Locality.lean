import LambdaStack.Proofs.Trace

/-!
# A run knows what it has taken

The tape is endless, and a run looks at it in one place only: a state that
needs a token takes the next one.  No step gives a token back
(`Config.taken_le_run`), so a run and its outcome depend on the tokens it has
taken and on nothing behind them.

Main statement: `Config.run_eq_of_agree`, by which tapes that agree on the
taken tokens are the same to the run.
-/

namespace LambdaStack.Automaton.Config

variable {S V E : Type} {tables : Tables} {semantics : Semantics S V E}
  {tape other : Tape} {config : Config S V E}

/-- A state that looks at a token has taken it, whatever it does next. -/
theorem taken_consult (hfinal : config.stack.state ≠ tables.finalState)
    (hlooks : tables.needsLookahead? config.stack.state = some true) :
    (config.consult tables semantics tape).taken
      = (config.look tape).2.taken := by
  simp only [consult, if_neg hfinal, hlooks]
  split <;> rfl

/-- Only a state that looks at a token depends on the tape. -/
theorem consult_eq_of_blind (tape other : Tape)
    (h : config.stack.state = tables.finalState ∨
      tables.needsLookahead? config.stack.state ≠ some true) :
    config.consult tables semantics other
      = config.consult tables semantics tape := by
  by_cases hfinal : config.stack.state = tables.finalState
  · simp only [consult, if_pos hfinal]
  · have hblind := h.resolve_left hfinal
    simp only [consult, if_neg hfinal]
    split
    · rfl
    · rfl
    · next hlooks => exact absurd hlooks hblind

/-- Looking at a token does not go back on the tape. -/
theorem taken_le_look : config.taken ≤ (config.look tape).2.taken := by
  unfold look
  split
  · exact Nat.le_refl _
  · exact Nat.le_succ _

/-- Consulting the tables may take a token off the tape. -/
theorem taken_le_consult :
    config.taken ≤ (config.consult tables semantics tape).taken := by
  have hlook : config.taken ≤ (config.look tape).2.taken := taken_le_look
  simp only [consult]
  split
  · exact Nat.le_refl _
  · split
    · exact Nat.le_refl _
    · exact Nat.le_refl _
    · split <;> exact hlook

/-- Reducing a rule takes no token. -/
theorem taken_reduce (rule : Nat) :
    (config.reduce tables semantics rule).taken = config.taken := by
  unfold reduce
  split
  · dsimp only
    split
    · unfold replace
      split
      · rfl
      · split <;> rfl
    · rfl
  · rfl

/-- Being stuck takes no token: at most the pending one is dropped. -/
theorem taken_stuck :
    (config.stuck tables semantics).taken = config.taken := by
  have hcomplain := taken_complain config semantics
  simp only [stuck]
  split
  · split
    · exact hcomplain
    · split <;> exact hcomplain
  · exact hcomplain

/-- Recovering takes no token. -/
theorem taken_recover :
    (config.recover tables semantics).taken = config.taken := by
  unfold recover
  split <;> rfl

/-- Falling back takes no token. -/
theorem taken_fallBack : (config.fallBack tables).taken = config.taken := by
  unfold fallBack
  split <;> rfl

/-- No step gives a token back. -/
theorem taken_le_step :
    config.taken ≤ (config.step tables semantics tape).taken := by
  unfold step
  split
  · exact taken_le_consult
  · exact Nat.le_of_eq taken_fallBack.symm
  · exact Nat.le_of_eq (taken_reduce _).symm
  · exact Nat.le_of_eq taken_stuck.symm
  · exact Nat.le_of_eq taken_recover.symm
  · exact Nat.le_refl _

/-- A run never goes back on the tape. -/
theorem taken_le_run (fuel : Nat) :
    config.taken ≤ (config.run tables semantics tape fuel).taken := by
  induction fuel generalizing config with
  | zero => exact Nat.le_refl _
  | succ fuel ih =>
      unfold run
      split
      · exact Nat.le_refl _
      · exact Nat.le_trans taken_le_step ih

/-- A step depends on the tape up to the tokens that it has taken. -/
theorem step_eq_of_agree
    (h : ∀ index < (config.step tables semantics tape).taken,
      other index = tape index) :
    config.step tables semantics other = config.step tables semantics tape := by
  cases hphase : config.phase with
  | consult =>
      have hstep : ∀ tape, config.step tables semantics tape
          = config.consult tables semantics tape := by
        intro tape
        rw [step, hphase]
      rw [hstep] at h
      rw [hstep, hstep]
      by_cases hlooks : config.stack.state = tables.finalState ∨
          tables.needsLookahead? config.stack.state ≠ some true
      · exact consult_eq_of_blind tape other hlooks
      · rw [not_or, Decidable.not_not] at hlooks
        rw [taken_consult hlooks.1 hlooks.2] at h
        have hlook : config.look other = config.look tape := by
          unfold look at h ⊢
          cases hpending : config.pending with
          | some token => rfl
          | none =>
              simp only [hpending] at h
              rw [h config.taken (Nat.lt_succ_self _)]
        simp only [consult, if_neg hlooks.1, hlooks.2, hlook]
  | fallback => simp only [step, hphase]
  | reduce rule => simp only [step, hphase]
  | stuck => simp only [step, hphase]
  | recover => simp only [step, hphase]
  | halted halt => simp only [step, hphase]

/-- **A run knows no more of its tape than the tokens it has taken.** -/
theorem run_eq_of_agree {fuel : Nat}
    (h : ∀ index < (config.run tables semantics tape fuel).taken,
      other index = tape index) :
    config.run tables semantics other fuel
      = config.run tables semantics tape fuel := by
  induction fuel generalizing config with
  | zero => rfl
  | succ fuel ih =>
      by_cases hhalted : config.isHalted
      · rw [run_of_isHalted _ _ _ hhalted, run_of_isHalted _ _ _ hhalted]
      · rw [run_succ_of_not_isHalted _ _ _ hhalted] at h
        have hstep : config.step tables semantics other
            = config.step tables semantics tape := by
          apply step_eq_of_agree
          intro index hindex
          exact h index (Nat.lt_of_lt_of_le hindex (taken_le_run fuel))
        rw [run_succ_of_not_isHalted _ _ _ hhalted,
          run_succ_of_not_isHalted _ _ _ hhalted, hstep]
        exact ih h

end LambdaStack.Automaton.Config
