import LambdaStack.Proofs.Reachable
import LambdaStack.Proofs.ViablePrefix

/-!
# Which token is to blame

An attempt to read a source ends in one of three ways: it accepts, it stops
because a production was refused, or it rejects.  Only in the last case does it
complain, and it complains once, about the first token with which no sentence
can go on.

The automaton reduces by default before it notices anything, but reductions
read no token, so nothing behind the faulty token has been looked at.  What it
has shifted can go on to a sentence, and what it has read cannot; between the
two stands the one token that is pending (`Blames`).

A source can be read again and again.  Each attempt goes on behind the last
token taken, and the complaints are those of the rejected attempts, in order.
-/

namespace LambdaStack.Grammar

open Automaton

/-- A state that looks at no token has a default rule, unless it is the final
one. -/
theorem defaultReduction?_of_blind : ∀ state < stateCount,
    state ≠ tables.finalState →
    tables.needsLookahead? state = some false →
    tables.defaultReduction? state ≠ some none := by
  decide +kernel

/-- Who is to blame so far.  A run has complained about nothing until it gets
stuck; it never gets stuck without a pending token, and then complains about
that token. -/
def Blames (before : Array Complaint) (config : Config Draft Value Refusal) :
    Prop :=
  match config.phase with
  | .fallback => config.memory.complaints = before ∧
    (config.pending.isSome ∨
      tables.defaultReduction? config.stack.state ≠ some none)
  | .stuck => config.memory.complaints = before ∧ config.pending.isSome
  | .recover | .halted .rejected => ∃ token, config.pending = some token ∧
    config.memory.complaints = before.push ⟨token⟩
  | _ => config.memory.complaints = before

/-- A reduction complains about nothing. -/
theorem complaints_reduce (draft : Draft) (rule : Nat) (frame : List Value) :
    (semantics.reduce draft rule frame).1.complaints = draft.complaints := by
  simp only [semantics]
  split <;> rfl

/-- Moves keep to the blame. -/
theorem Move.blames {tape : Tape} {before : Array Complaint}
    {config next : Config Draft Value Refusal}
    {symbols after : List GrammarSymbol}
    (hmove : Move semantics tape config symbols next after)
    (htracked : Tracked config symbols) (h : Blames before config) :
    Blames before next := by
  unfold Blames at h
  cases hmove with
  | accept hphase hfinal =>
      rw [hphase] at h
      exact h
  | blind hphase hfinal hblind =>
      rw [hphase] at h
      have hpath := htracked.path
      rw [Stack.states_eq_cons] at hpath
      exact ⟨h, Or.inr
        (defaultReduction?_of_blind _ hpath.head_lt hfinal hblind)⟩
  | shift hphase hfinal hedge =>
      rw [hphase] at h
      show (config.look tape).2.memory.complaints = before
      rw [Config.memory_look]
      exact h
  | pass hphase hfinal hnext hlooks =>
      rw [hphase] at h
      have hmemory : (config.look tape).2.memory.complaints = before := by
        rw [Config.memory_look]
        exact h
      have hpending : (config.look tape).2.pending.isSome := by
        rw [Config.pending_look]
        rfl
      rcases hnext with rfl | rfl
      · exact ⟨hmemory, Or.inl hpending⟩
      · exact ⟨hmemory, hpending⟩
  | choose hphase hreducible hrule hitem =>
      rw [hphase] at h
      exact h.1
  | despair hphase hnone =>
      rw [hphase] at h
      exact ⟨h.1, h.2.resolve_right (fun hsome => hsome hnone)⟩
  | @reduce below rule target p memory value rest hphase _ hrule hvalue =>
      rw [hphase] at h
      have hkept := complaints_reduce config.memory rule
        (config.stack.frame p.output.length)
      rw [hvalue] at hkept
      exact hkept.trans h
  | @refuse _ rule p memory reason hphase hrule hvalue =>
      rw [hphase] at h
      have hkept := complaints_reduce config.memory rule
        (config.stack.frame p.output.length)
      rw [hvalue] at hkept
      exact hkept.trans h
  | complain hphase =>
      rw [hphase] at h
      obtain ⟨hcomplaints, hpending⟩ := h
      obtain ⟨token, htoken⟩ := Option.isSome_iff_exists.mp hpending
      have hquiet : config.quiet = 0 := by
        apply htracked.quiet_eq
        simp [Config.isHalted, hphase]
      refine ⟨token, ?_, ?_⟩
      · show (config.complain semantics).pending = some token
        rw [Config.pending_complain]
        exact htoken
      · show (config.complain semantics).memory.complaints = _
        rw [Config.complain, if_pos hquiet, htoken, ← hcomplaints]
        rfl
  | giveUp hphase =>
      rw [hphase] at h
      exact h

/-- What is on record when a run has come to its end. -/
theorem exists_blame (tape : Tape) (draft : Draft) (start fuel : Nat) :
    let final := (Config.initial semantics draft start).run tables semantics
      tape fuel
    Blames draft.complaints final ∧ final.ReadsFrom tape start := by
  intro final
  have hinitial : Blames draft.complaints
      (Config.initial semantics draft start) := rfl
  obtain ⟨symbols, _, hblames, hrecorded⟩ := exists_tracked_run
    (fun config symbols =>
      Blames draft.complaints config ∧ Recorded tape start config symbols)
    (fun htracked h hmove => ⟨hmove.blames htracked h.1, hmove.recorded h.2⟩)
    (tracked_initial semantics draft start)
    ⟨hinitial, recorded_initial semantics tape draft start⟩ fuel
  exact ⟨hblames, hrecorded.reads⟩

/-- **A rejecting run blames the first token with which no sentence goes
on.**  The tokens before it have been shifted, it has been read, and nothing
behind it. -/
theorem blame_of_rejected {tape : Tape} {draft : Draft} {start fuel : Nat}
    {final : Config Draft Value Refusal}
    (hrun : (Config.initial semantics draft start).run tables semantics tape
      fuel = final)
    (hrejected : final.phase = .halted .rejected) :
    ∃ count,
      (∀ length, Viable (((List.range' start length).map tape).map Token.kind)
        ↔ length ≤ count) ∧
      final.memory.complaints
        = draft.complaints.push ⟨tape (start + count)⟩ ∧
      final.taken = start + (count + 1) ∧
      final.shifted = (List.range' start count).map tape := by
  obtain ⟨hblames, hstart, hread⟩ := exists_blame tape draft start fuel
  have hviable := viable_shifted semantics tape draft start fuel
  rw [hrun] at hblames hstart hread hviable
  have hnot := not_viable_of_rejected ⟨fuel, hrun⟩ hrejected
  simp only [Blames, hrejected] at hblames
  obtain ⟨token, hpending, hcomplaints⟩ := hblames
  rw [hpending, Option.toList_some] at hread
  have hlength := congrArg List.length hread
  rw [List.length_append, List.length_singleton, List.length_map,
    List.length_range'] at hlength
  rw [← hlength] at hread hnot
  rw [List.range'_1_concat, List.map_append, List.map_singleton] at hread
  obtain ⟨hshifted, htoken⟩ := List.append_inj' hread rfl
  obtain rfl := List.singleton_inj.mp htoken
  refine ⟨final.shifted.length, ?_, hcomplaints, by omega, hshifted⟩
  intro length
  constructor
  · intro hlong
    by_contra hgt
    exact hnot (hlong.of_le (by omega))
  · intro hle
    rw [hshifted] at hviable
    exact hviable.of_le hle

/-! ### Attempts -/

/-- The next tokens of a source that is being read. -/
def Reading.upcoming (reading : Reading) (count : Nat) : List Token :=
  (List.range' reading.taken count).map reading.source.tape

namespace Attempt

/-- The attempt was rejected. -/
def isRejected (attempt : Attempt) : Bool :=
  attempt.outcome = some .rejected

/-- The last token that was taken. -/
def lastToken (attempt : Attempt) : Token :=
  attempt.reading.source.tape (attempt.reading.taken - 1)

end Attempt

/-- A run on a source that closes with an end of input comes to its end. -/
theorem isHalted_of_closing {source : Source}
    (hclosing : source.closing.kind = .endOfInput) (draft : Draft)
    (start : Nat) :
    ((Config.initial semantics draft start).run tables semantics source.tape
      (Reading.fuel source.length)).isHalted := by
  have hpast : source.tokens[start + source.length]? = none :=
    Array.getElem?_eq_none (Nat.le_add_left _ _)
  have hend : (source.tape (start + source.length)).kind = .endOfInput := by
    rw [Source.tape, Array.getD_eq_getD_getElem?, hpast]
    exact hclosing
  exact isHalted_run semantics source.tape draft hend (Nat.le_refl _)
    (Nat.le_refl _)

/-- An attempt on such a source is accepted, rejected or failed. -/
theorem exists_outcome {reading : Reading}
    (hclosing : reading.source.closing.kind = .endOfInput) :
    reading.attempt.outcome = some .accepted ∨
      reading.attempt.outcome = some .rejected ∨
      ∃ reason, reading.attempt.outcome = some (.failed reason) := by
  have hhalted := isHalted_of_closing hclosing reading.draft reading.taken
  obtain ⟨symbols, htracked, _⟩ := exists_derived_run semantics
    reading.source.tape reading.draft reading.taken
    (Reading.fuel reading.source.length)
  generalize hrun : (Config.initial semantics reading.draft
    reading.taken).run tables semantics reading.source.tape
    (Reading.fuel reading.source.length) = final at hhalted htracked
  rw [attempt_eq hrun]
  unfold Config.isHalted at hhalted
  split at hhalted
  · next halt hphase =>
    have houtcome : final.halt? = some halt := by rw [Config.halt?, hphase]
    have hfits := htracked.fits
    rw [PhaseFits, hphase] at hfits
    show final.halt? = _ ∨ final.halt? = _ ∨ ∃ reason, final.halt? = _
    rw [houtcome]
    cases halt with
    | accepted => exact Or.inl rfl
    | rejected => exact Or.inr (Or.inl rfl)
    | failed reason => exact Or.inr (Or.inr ⟨reason, rfl⟩)
    | faulted fault => exact absurd rfl (hfits fault)
  · cases hhalted

/-- The run of an attempt with a given outcome has halted that way. -/
theorem phase_of_halt? {S V E : Type} {config : Config S V E} {halt : Halt E}
    (h : config.halt? = some halt) : config.phase = .halted halt := by
  unfold Config.halt? at h
  split at h
  · next found hphase =>
    rw [hphase, Option.some.inj h]
  · cases h

/-- A rejected attempt blames the first token with which no sentence goes
on. -/
theorem exists_blamed {reading : Reading}
    (hrejected : reading.attempt.outcome = some .rejected) :
    ∃ count,
      (∀ length, Viable ((reading.upcoming length).map Token.kind)
        ↔ length ≤ count) ∧
      reading.attempt.reading.complaints
        = reading.complaints ++ [⟨reading.source.tape
          (reading.taken + count)⟩] ∧
      reading.attempt.reading.taken = reading.taken + (count + 1) ∧
      reading.attempt.log.filterMap Event.shifted?
        = reading.upcoming count := by
  generalize hrun : (Config.initial semantics reading.draft
    reading.taken).run tables semantics reading.source.tape
    (Reading.fuel reading.source.length) = final
  rw [attempt_eq hrun] at hrejected ⊢
  obtain ⟨count, hviable, hcomplaints, htaken, hshifted⟩ :=
    blame_of_rejected hrun (phase_of_halt? hrejected)
  refine ⟨count, hviable, ?_, htaken, ?_⟩
  · simp [Reading.complaints, hcomplaints]
  · rw [List.filterMap_reverse]
    exact hshifted

/-- An attempt that is not rejected complains about nothing. -/
theorem complaints_of_not_rejected {reading : Reading}
    (hclosing : reading.source.closing.kind = .endOfInput)
    (h : reading.attempt.outcome ≠ some .rejected) :
    reading.attempt.reading.complaints = reading.complaints := by
  have houtcome := exists_outcome hclosing
  generalize hrun : (Config.initial semantics reading.draft
    reading.taken).run tables semantics reading.source.tape
    (Reading.fuel reading.source.length) = final
  rw [attempt_eq hrun] at h houtcome ⊢
  obtain ⟨hblames, _⟩ := exists_blame reading.source.tape reading.draft
    reading.taken (Reading.fuel reading.source.length)
  rw [hrun] at hblames
  have hkept : final.memory.complaints = reading.draft.complaints := by
    rcases houtcome with haccepted | hrejected | ⟨reason, hfailed⟩
    · simpa only [Blames, phase_of_halt? haccepted] using hblames
    · exact absurd hrejected h
    · simpa only [Blames, phase_of_halt? hfailed] using hblames
  show final.memory.complaints.toList = _
  rw [hkept]
  rfl

/-- An attempt adds its complaint, if it was rejected, behind the others. -/
theorem complaints_attempt {reading : Reading}
    (hclosing : reading.source.closing.kind = .endOfInput) :
    reading.attempt.reading.complaints
      = reading.complaints ++ (([reading.attempt].filter
        Attempt.isRejected).map fun attempt => ⟨attempt.lastToken⟩) := by
  by_cases h : reading.attempt.outcome = some .rejected
  · obtain ⟨count, _, hcomplaints, htaken, _⟩ := exists_blamed h
    have hlast : reading.attempt.lastToken
        = reading.source.tape (reading.taken + count) := by
      rw [Attempt.lastToken, htaken]
      rfl
    simp [Attempt.isRejected, h, hcomplaints, hlast]
  · simp [Attempt.isRejected, h, complaints_of_not_rejected hclosing h]

/-- **Complaints pile up one by one**: after any of several attempts in a row
they are those from before, and one for each attempt rejected so far. -/
theorem complaints_attempts {reading : Reading}
    (hclosing : reading.source.closing.kind = .endOfInput)
    {count index : Nat} {attempt : Attempt}
    (h : (reading.attempts count)[index]? = some attempt) :
    attempt.reading.complaints
      = reading.complaints ++ ((((reading.attempts count).take
        (index + 1)).filter Attempt.isRejected).map fun attempt =>
          ⟨attempt.lastToken⟩) := by
  induction count generalizing reading index with
  | zero => cases h
  | succ count ih =>
      rw [Reading.attempts] at h ⊢
      cases index with
      | zero =>
          obtain rfl := Option.some.inj h
          exact complaints_attempt hclosing
      | succ index =>
          have hlater : reading.attempt.reading.source.closing.kind
              = .endOfInput := hclosing
          have hfirst := complaints_attempt hclosing
          rw [ih hlater h, hfirst, List.take_succ_cons, List.append_assoc,
            ← List.map_append, ← List.filter_append]
          rfl

/-- **Every rejected attempt blames one token, and no other attempt blames
any.**  An attempt ends by accepting, rejecting or failing.  If it rejects,
then of the tokens that were to be read exactly the first `count` can go on to
a sentence and its end of input; these have been shifted, the token behind them
has been read as well, and the one new complaint is about that token.  If it
does not reject, there is no new complaint.  So after any number of attempts in
a row the complaints are one for each rejected attempt, in order. -/
theorem rejected_attempt_blames_first_token (reading : Reading)
    (hclosing : reading.source.closing.kind = .endOfInput) :
    (reading.attempt.outcome = some .accepted ∨
      reading.attempt.outcome = some .rejected ∨
      ∃ reason, reading.attempt.outcome = some (.failed reason)) ∧
    (reading.attempt.outcome = some .rejected → ∃ count,
      (∀ length, Viable ((reading.upcoming length).map Token.kind)
        ↔ length ≤ count) ∧
      reading.attempt.reading.complaints
        = reading.complaints ++ [⟨reading.source.tape
          (reading.taken + count)⟩] ∧
      reading.attempt.reading.taken = reading.taken + (count + 1) ∧
      reading.attempt.log.filterMap Event.shifted?
        = reading.upcoming count) ∧
    (reading.attempt.outcome ≠ some .rejected →
      reading.attempt.reading.complaints = reading.complaints) ∧
    ∀ (count index : Nat) (attempt : Attempt),
      (reading.attempts count)[index]? = some attempt →
      attempt.reading.complaints
        = reading.complaints ++ ((((reading.attempts count).take
          (index + 1)).filter Attempt.isRejected).map fun attempt =>
            ⟨attempt.lastToken⟩) :=
  ⟨exists_outcome hclosing, exists_blamed,
    complaints_of_not_rejected hclosing,
    fun _ _ _ h => complaints_attempts hclosing h⟩

/-- The reading of `eval I I let` on top of the identity. -/
def unfinishedReading : Reading :=
  .resume (.ofTokens unfinishedTokens) identityProgram

theorem unfinished_attempt_blames_end :
    unfinishedReading.source.closing.kind = .endOfInput ∧
    unfinishedReading.attempt.outcome = some .rejected ∧
    unfinishedReading.attempt.reading.taken = 5 ∧
    ∃ count,
      (∀ length, Viable ((unfinishedReading.upcoming length).map Token.kind)
        ↔ length ≤ count) ∧
      unfinishedReading.attempt.reading.complaints
        = [⟨unfinishedReading.source.tape (0 + count)⟩] ∧
      unfinishedReading.attempt.reading.taken = 0 + (count + 1) ∧
      unfinishedReading.attempt.log.filterMap Event.shifted?
        = unfinishedReading.upcoming count := by
  have hclosing : unfinishedReading.source.closing.kind = .endOfInput := rfl
  have hrejected : unfinishedReading.attempt.outcome = some .rejected := by
    decide +kernel
  have htaken : unfinishedReading.attempt.reading.taken = 5 := by
    decide +kernel
  exact ⟨hclosing, hrejected, htaken, (rejected_attempt_blames_first_token
    unfinishedReading hclosing).2.1 hrejected⟩

end LambdaStack.Grammar
