import LambdaStack.Automaton.Transcript
import LambdaStack.Proofs.Trace
import LambdaStack.Proofs.Watching

/-!
# No token is lost

A token is taken off the tape, waits until it is shifted or thrown away, and
only then is the next one taken:

    log        read t    shift t    ...    read u    discard u    ...    read v
    pending       t         -                 u          -                  v

Reductions, failures and recoveries may come between any two of these events,
and change nothing in what is pending.  `Accounted` says this of a log; it does
so for every automaton, tokens and semantics, as far as the run has come.

Which tokens the semantics is asked about is seen by watching it.

Main statement: `tokens_are_shifted_or_discarded`.
-/

namespace LambdaStack.Automaton

/-! ### What a log says of tokens -/

/-- What becomes of a token. -/
inductive Fate where
  | shifted
  | discarded
  deriving DecidableEq, Repr

namespace Event

/-- The token that is taken off the tape. -/
def read? : Event → Option Token
  | read token => some token
  | _ => none

/-- The token that is thrown away. -/
def discarded? : Event → Option Token
  | discard token => some token
  | _ => none

/-- The token that is done with, and what becomes of it. -/
def fate? : Event → Option (Token × Fate)
  | shift token _ _ => some (token, .shifted)
  | discard token => some (token, .discarded)
  | _ => none

/-- Neither a token nor the error token is moved. -/
def isIdle : Event → Bool
  | read _ | shift _ _ _ | discard _ | recover _ => false
  | _ => true

end Event

/-- The error token was shifted, and no other token since.  The newest event
comes first. -/
def Recovering : List Event → Prop
  | [] => False
  | .recover _ :: _ => True
  | .shift _ _ _ :: _ => False
  | _ :: log => Recovering log

/-- Every token that was read was done with before the next one was read, and
`pending` is the one that is left over.  The newest event comes first. -/
inductive Accounted : List Event → Option Token → Prop
  | nil : Accounted [] none
  | read {log : List Event} (token : Token) (rest : Accounted log none) :
      Accounted (.read token :: log) (some token)
  | shift {log : List Event} {token : Token} (state target : Nat)
      (rest : Accounted log (some token)) :
      Accounted (.shift token state target :: log) none
  | discard {log : List Event} {token : Token} (hrecovering : Recovering log)
      (rest : Accounted log (some token)) :
      Accounted (.discard token :: log) none
  | recover {log : List Event} {pending : Option Token} (target : Nat)
      (rest : Accounted log pending) :
      Accounted (.recover target :: log) pending
  | idle {log : List Event} {pending : Option Token} {event : Event}
      (hidle : event.isIdle) (rest : Accounted log pending) :
      Accounted (event :: log) pending

/-- Something idle does not end a recovery. -/
theorem recovering_cons_of_isIdle {event : Event} (h : event.isIdle)
    (log : List Event) : Recovering (event :: log) ↔ Recovering log := by
  cases event with
  | read | shift | discard | recover => cases h
  | _ => rfl

/-- Nothing is read in an idle event. -/
theorem Event.read?_of_isIdle {event : Event} (h : event.isIdle) :
    event.read? = none := by
  cases event with
  | read => cases h
  | _ => rfl

/-- Nothing is done with in an idle event. -/
theorem Event.fate?_of_isIdle {event : Event} (h : event.isIdle) :
    event.fate? = none := by
  cases event with
  | shift | discard => cases h
  | _ => rfl

/-- Nothing is shifted in an idle event. -/
theorem Event.shifted?_of_isIdle {event : Event} (h : event.isIdle) :
    event.shifted? = none := by
  cases event with
  | shift => cases h
  | _ => rfl

/-- **The books balance**: what was read is what was done with, and the token
that is pending. -/
theorem Accounted.reads_eq {log : List Event} {pending : Option Token}
    (h : Accounted log pending) :
    log.filterMap Event.read?
      = pending.toList ++ (log.filterMap Event.fate?).map Prod.fst := by
  induction h with
  | nil => rfl
  | read token _ ih => exact congrArg (token :: ·) ih
  | shift state target _ ih => exact ih
  | discard _ _ ih => exact ih
  | recover target _ ih => exact ih
  | idle hidle _ ih =>
      rw [List.filterMap_cons_none (Event.read?_of_isIdle hidle),
        List.filterMap_cons_none (Event.fate?_of_isIdle hidle), ih]

/-- The shifted tokens are those whose fate it was to be shifted. -/
theorem filterMap_shifted? (log : List Event) :
    log.filterMap Event.shifted?
      = ((log.filterMap Event.fate?).filter (·.2 = .shifted)).map
        Prod.fst := by
  induction log with
  | nil => rfl
  | cons event log ih =>
      cases event with
      | shift token state target => exact congrArg (token :: ·) ih
      | _ => exact ih

/-- The discarded tokens are those whose fate it was to be discarded. -/
theorem filterMap_discarded? (log : List Event) :
    log.filterMap Event.discarded?
      = ((log.filterMap Event.fate?).filter (·.2 = .discarded)).map
        Prod.fst := by
  induction log with
  | nil => rfl
  | cons event log ih =>
      cases event with
      | discard token => exact congrArg (token :: ·) ih
      | _ => exact ih

/-! ### Keeping the books -/

section Books

variable {S V E : Type}

namespace Config

/-- The tokens that were taken off the tape, in the order of reading. -/
def reads (config : Config S V E) : List Token :=
  (config.log.filterMap Event.read?).reverse

/-- The tokens that were thrown away, in order. -/
def discarded (config : Config S V E) : List Token :=
  (config.log.filterMap Event.discarded?).reverse

/-- The tokens that were done with, in order, and what became of each. -/
def fates (config : Config S V E) : List (Token × Fate) :=
  (config.log.filterMap Event.fate?).reverse

theorem isHalted_look (config : Config S V E) (tape : Tape) :
    (config.look tape).2.isHalted = config.isHalted := by
  unfold look
  split <;> rfl

end Config

/-- The books of a run that has read the tape from `start` on, with a watched
semantics. -/
structure Balanced (tape : Tape) (start : Nat)
    (config : Config (S × List (Call V)) V E) : Prop where
  log : Accounted config.log config.pending
  taken : config.taken = start + config.reads.length
  reads : config.reads = (List.range' start config.reads.length).map tape
  asked : config.asked = Token.start :: config.shifted
  quiet : config.quiet ≤ quietSpell
  recovering : config.isHalted = false → config.quiet = quietSpell →
    Recovering config.log

namespace Balanced

variable {tape : Tape} {start : Nat}
  {config next : Config (S × List (Call V)) V E}

/-- The books stay as they are if no token is moved. -/
theorem still (h : Balanced tape start config)
    (hrunning : config.isHalted = false)
    (hlog : Accounted next.log next.pending)
    (hreads : next.reads = config.reads)
    (hshifted : next.shifted = config.shifted)
    (hrecovering : Recovering config.log → Recovering next.log)
    (htaken : next.taken = config.taken) (hquiet : next.quiet = config.quiet)
    (hasked : next.asked = config.asked) : Balanced tape start next where
  log := hlog
  taken := by
    rw [htaken, hreads]
    exact h.taken
  reads := by
    rw [hreads]
    exact h.reads
  asked := by
    rw [hasked, hshifted]
    exact h.asked
  quiet := by
    rw [hquiet]
    exact h.quiet
  recovering _ hspell :=
    hrecovering (h.recovering hrunning (hquiet ▸ hspell))

/-- Stack and phase do not matter, as long as the run is not over. -/
theorem of_eq (h : Balanced tape start config)
    (hrunning : config.isHalted = false) (hlog : next.log = config.log)
    (hpending : next.pending = config.pending)
    (htaken : next.taken = config.taken) (hquiet : next.quiet = config.quiet)
    (hasked : next.asked = config.asked) : Balanced tape start next := by
  refine h.still hrunning ?_ ?_ ?_ ?_ htaken hquiet hasked
  · rw [hlog, hpending]
    exact h.log
  · rw [Config.reads, hlog, Config.reads]
  · rw [Config.shifted, hlog, Config.shifted]
  · rw [hlog]
    exact id

/-- Something idle is entered in the log. -/
theorem idle (h : Balanced tape start config)
    (hrunning : config.isHalted = false) {event : Event}
    (hidle : event.isIdle) (hlog : next.log = event :: config.log)
    (hpending : next.pending = config.pending)
    (htaken : next.taken = config.taken) (hquiet : next.quiet = config.quiet)
    (hasked : next.asked = config.asked) : Balanced tape start next := by
  refine h.still hrunning ?_ ?_ ?_ ?_ htaken hquiet hasked
  · rw [hlog, hpending]
    exact Accounted.idle hidle h.log
  · rw [Config.reads, hlog,
      List.filterMap_cons_none (Event.read?_of_isIdle hidle), Config.reads]
  · rw [Config.shifted, hlog,
      List.filterMap_cons_none (Event.shifted?_of_isIdle hidle),
      Config.shifted]
  · rw [hlog, recovering_cons_of_isIdle hidle]
    exact id

/-- A token is read only if none is pending. -/
theorem look (h : Balanced tape start config) :
    Balanced tape start (config.look tape).2 := by
  unfold Config.look
  cases hpending : config.pending with
  | some token => exact h
  | none =>
      have hlog : Accounted config.log none := hpending ▸ h.log
      have hreads : (config.reads ++ [tape config.taken])
          = (List.range' start (config.reads.length + 1)).map tape := by
        rw [List.range'_1_concat, List.map_append, ← h.reads, ← h.taken]
        rfl
      have hlength : (config.reads ++ [tape config.taken]).length
          = config.reads.length + 1 := by
        simp
      have hnew (log : List Event) (token : Token) :
          ((Event.read token :: log).filterMap Event.read?).reverse
            = (log.filterMap Event.read?).reverse ++ [token] :=
        List.reverse_cons
      constructor
      · exact Accounted.read _ hlog
      · simp only [Config.reads, hnew]
        rw [← Config.reads, hlength, h.taken, Nat.add_assoc]
      · simp only [Config.reads, hnew]
        rw [← Config.reads, hlength, hreads]
      · exact h.asked
      · exact h.quiet
      · exact h.recovering

/-- The token that was pending is shifted, and its value is asked for. -/
theorem shift (h : Balanced tape start config) {token : Token}
    (hpending : config.pending = some token) (semantics : Semantics S V E)
    (target : Nat) :
    Balanced tape start (config.shift semantics.watched token target) := by
  have hlog : Accounted config.log (some token) := hpending ▸ h.log
  have hasked : (config.shift semantics.watched token target).asked
      = config.asked ++ [token] := List.reverse_cons
  constructor
  · exact Accounted.shift _ _ hlog
  · exact h.taken
  · exact h.reads
  · rw [hasked, Config.shifted_shift, h.asked]
    rfl
  · have hquiet := h.quiet
    show config.quiet - 1 ≤ quietSpell
    omega
  · intro _ hspell
    have hquiet := h.quiet
    have hsame : config.quiet - 1 = quietSpell := hspell
    have hpos : quietSpell = 3 := rfl
    omega

/-- The books balance after the tables were consulted. -/
theorem consult (h : Balanced tape start config)
    (hrunning : config.isHalted = false) (tables : Tables)
    (semantics : Semantics S V E) :
    Balanced tape start (config.consult tables semantics.watched tape) := by
  have hlook := h.look
  have hstill : (config.look tape).2.isHalted = false :=
    (config.isHalted_look tape).trans hrunning
  simp only [Config.consult]
  split
  · exact h.idle hrunning rfl rfl rfl rfl rfl rfl
  · split
    · exact h.of_eq hrunning rfl rfl rfl rfl rfl
    · exact h.of_eq hrunning rfl rfl rfl rfl rfl
    · split
      · exact hlook.of_eq hstill rfl rfl rfl rfl rfl
      · exact hlook.shift (config.pending_look tape) semantics _
      · exact hlook.of_eq hstill rfl rfl rfl rfl rfl
      · exact hlook.of_eq hstill rfl rfl rfl rfl rfl
      · exact hlook.of_eq hstill rfl rfl rfl rfl rfl

/-- Falling back moves no token. -/
theorem fallBack (h : Balanced tape start config)
    (hrunning : config.isHalted = false) (tables : Tables) :
    Balanced tape start (config.fallBack tables) := by
  unfold Config.fallBack
  split <;> exact h.of_eq hrunning rfl rfl rfl rfl rfl

/-- Replacing a right-hand side moves no token. -/
theorem replace (h : Balanced tape start config)
    (hrunning : config.isHalted = false) (tables : Tables)
    (rule length head : Nat) (value : V) :
    Balanced tape start (config.replace tables rule length head value) := by
  unfold Config.replace
  split
  · exact h.of_eq hrunning rfl rfl rfl rfl rfl
  · split
    · exact h.of_eq hrunning rfl rfl rfl rfl rfl
    · exact h.idle hrunning rfl rfl rfl rfl rfl rfl

/-- A reduction may be refused or lead nowhere; no token is touched. -/
theorem reduce (h : Balanced tape start config)
    (hrunning : config.isHalted = false) (tables : Tables)
    (semantics : Semantics S V E) (rule : Nat) :
    Balanced tape start (config.reduce tables semantics.watched rule) := by
  unfold Config.reduce
  split
  · next length head _ _ =>
    have hcalled : Balanced tape start { config with
        memory := (semantics.watched.reduce config.memory rule
          (config.stack.frame length)).1 } :=
      h.of_eq hrunning rfl rfl rfl rfl rfl
    dsimp only
    split
    · exact hcalled.replace hrunning tables rule length head _
    · exact hcalled.idle hrunning rfl rfl rfl rfl rfl rfl
  · exact h.of_eq hrunning rfl rfl rfl rfl rfl

/-- Reporting an error moves no token, and the run goes on. -/
theorem complain (h : Balanced tape start config)
    (hrunning : config.isHalted = false) (semantics : Semantics S V E) :
    Balanced tape start (config.complain semantics.watched) ∧
      (config.complain semantics.watched).isHalted = false := by
  unfold Config.complain
  split
  · exact ⟨h.idle hrunning rfl rfl rfl rfl rfl rfl, hrunning⟩
  · exact ⟨h, hrunning⟩

/-- The pending token is thrown away in a recovery, and only there. -/
theorem stuck (h : Balanced tape start config)
    (hrunning : config.isHalted = false) (tables : Tables)
    (semantics : Semantics S V E) :
    Balanced tape start (config.stuck tables semantics.watched) := by
  obtain ⟨hcomplain, hstill⟩ := h.complain hrunning semantics
  simp only [Config.stuck]
  generalize config.complain semantics.watched = config at hcomplain hstill
  split
  · next hspell =>
    split
    · exact hcomplain.of_eq hstill rfl rfl rfl rfl rfl
    · next token hpending =>
      split
      · exact hcomplain.idle hstill rfl rfl rfl rfl rfl rfl
      · have hrecovering := hcomplain.recovering hstill hspell
        have hlog : Accounted config.log (some token) :=
          hpending ▸ hcomplain.log
        exact ⟨Accounted.discard hrecovering hlog, hcomplain.taken,
          hcomplain.reads, hcomplain.asked, hcomplain.quiet,
          fun _ _ => hrecovering⟩
  · exact hcomplain.of_eq hstill rfl rfl rfl rfl rfl

/-- Unwinding the stack touches no token either. -/
theorem recover (h : Balanced tape start config)
    (hrunning : config.isHalted = false) (tables : Tables)
    (semantics : Semantics S V E) :
    Balanced tape start (config.recover tables semantics.watched) := by
  unfold Config.recover
  split
  · exact h.of_eq hrunning rfl rfl rfl rfl rfl
  · -- the run is over, so it does not matter how quiet it is
    refine ⟨Accounted.idle rfl h.log, h.taken, h.reads, h.asked,
      Nat.le_refl _, ?_⟩
    intro hover
    cases hover
  · exact ⟨Accounted.recover _ h.log, h.taken, h.reads, h.asked,
      Nat.le_refl _, fun _ _ => trivial⟩

/-- **Every step keeps the books.** -/
theorem step (h : Balanced tape start config) (tables : Tables)
    (semantics : Semantics S V E) :
    Balanced tape start (config.step tables semantics.watched tape) := by
  have hrunning {phase : Phase E} (hphase : config.phase = phase)
      (hlive : ∀ halt, phase ≠ .halted halt) : config.isHalted = false := by
    unfold Config.isHalted
    split
    · next halt hover => exact absurd (hphase ▸ hover) (hlive halt)
    · rfl
  unfold Config.step
  split
  · next hphase => exact h.consult (hrunning hphase (by simp)) tables semantics
  · next hphase => exact h.fallBack (hrunning hphase (by simp)) tables
  · next hphase =>
    exact h.reduce (hrunning hphase (by simp)) tables semantics _
  · next hphase => exact h.stuck (hrunning hphase (by simp)) tables semantics
  · next hphase => exact h.recover (hrunning hphase (by simp)) tables semantics
  · exact h

/-- **Every run keeps the books.** -/
theorem run (h : Balanced tape start config) (tables : Tables)
    (semantics : Semantics S V E) (fuel : Nat) :
    Balanced tape start (config.run tables semantics.watched tape fuel) := by
  induction fuel generalizing config with
  | zero => exact h
  | succ fuel ih =>
      unfold Config.run
      split
      · exact h
      · exact ih (h.step tables semantics)

/-- Before the first step only the start was asked about. -/
theorem initial (tape : Tape) (semantics : Semantics S V E) (memory : S)
    (start : Nat) :
    Balanced tape start
      (Config.initial semantics.watched (memory, []) start) where
  log := Accounted.nil
  taken := rfl
  reads := rfl
  asked := rfl
  quiet := Nat.zero_le _
  recovering _ hspell := by cases hspell

end Balanced

/-- **No token is lost, doubled or moved.**  Over any tables, tokens and
semantics, and however far a run has come: the tokens that were read are those
of the tape, in order; each of them was shifted, or thrown away in a recovery,
before the next one was read, and only the last may still be pending; and the
semantics was asked for the value of the start, and then once for each shifted
token in the order of reading, so these tokens and those thrown away together
make up what was read. -/
theorem tokens_are_shifted_or_discarded (tables : Tables)
    (semantics : Semantics S V E) (tape : Tape) (memory : S)
    (start fuel : Nat) :
    let config := (Config.initial semantics memory start).run tables semantics
      tape fuel
    let watched := (Config.initial semantics.watched (memory, []) start).run
      tables semantics.watched tape fuel
    watched.unwatched = config ∧
    config.reads = (List.range' start config.reads.length).map tape ∧
    config.taken = start + config.reads.length ∧
    Accounted config.log config.pending ∧
    config.reads = config.fates.map Prod.fst ++ config.pending.toList ∧
    watched.asked
      = Token.start
        :: (config.fates.filter (·.2 = .shifted)).map Prod.fst ∧
    config.discarded
      = (config.fates.filter (·.2 = .discarded)).map Prod.fst := by
  intro config watched
  have hsame : watched.unwatched = config :=
    Config.unwatched_run semantics tables tape
      (Config.initial semantics.watched (memory, []) start) fuel
  have hbooks : Balanced tape start watched :=
    (Balanced.initial tape semantics memory start).run tables semantics fuel
  have hlog : watched.log = config.log := congrArg Config.log hsame
  have hreads : watched.reads = config.reads := by
    rw [Config.reads, hlog, Config.reads]
  have hpending : watched.pending = config.pending :=
    congrArg Config.pending hsame
  have htaken : watched.taken = config.taken := congrArg Config.taken hsame
  have hshifted : watched.shifted
      = (config.fates.filter (·.2 = .shifted)).map Prod.fst := by
    rw [Config.shifted, hlog, filterMap_shifted?, Config.fates,
      List.filter_reverse, List.map_reverse]
  have hdiscarded : config.discarded
      = (config.fates.filter (·.2 = .discarded)).map Prod.fst := by
    rw [Config.discarded, filterMap_discarded?, Config.fates,
      List.filter_reverse, List.map_reverse]
  have haccounted : Accounted config.log config.pending := by
    rw [← hlog, ← hpending]
    exact hbooks.log
  have hbalance : config.reads
      = config.fates.map Prod.fst ++ config.pending.toList := by
    have hlast : config.pending.toList.reverse = config.pending.toList := by
      cases config.pending <;> rfl
    rw [Config.reads, haccounted.reads_eq, List.reverse_append, hlast,
      Config.fates, List.map_reverse]
  refine ⟨hsame, ?_, ?_, haccounted, hbalance, ?_, hdiscarded⟩
  · rw [← hreads]
    exact hbooks.reads
  · rw [← hreads, ← htaken]
    exact hbooks.taken
  · rw [hbooks.asked, hshifted]

end Books

/-- The arrays of an automaton that looks for a name: on the error token it
stays where it can shift one. -/
def seekingLayout : Layout where
  rowBase := #[0, 0, -1]
  rowDefault := #[0, 0, 0]
  columnBase := #[]
  columnDefault := #[]
  table := #[0, 1, 0, 2]
  owner := #[-1, 1, -1, 3]
  head := #[]
  length := #[]
  terminalOf
    | .endOfInput => 0
    | .name => 3
    | _ => 2
  finalState := 2
  terminals := 4
  noRow := -1
  errorEntry := -9

theorem defect?_seekingLayout : seekingLayout.defect? = none := by
  decide +kernel

/-- An automaton that recovers, which the one of the grammar never does. -/
def seekingTables : Tables :=
  ⟨seekingLayout, defect?_seekingLayout⟩

example :
    let dot := Token.bare .dot none
    let name := Token.bare .name (some "x")
    let config := Transcript.ofSource seekingTables none
      (Source.ofTokens [dot, dot, name, dot])
    config.fates = [(dot, .discarded), (dot, .discarded), (name, .shifted)] ∧
      config.pending = none ∧ config.halt? = some .accepted := by
  decide +kernel

end LambdaStack.Automaton
