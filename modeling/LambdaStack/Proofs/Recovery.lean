import Mathlib.Data.Finset.Card
import LambdaStack.Proofs.QuietSpell
import LambdaStack.Proofs.Range

/-!
# Every recovery is paid for with a token

A run that recovers goes on in a state that it has just pushed, and may be stuck
there at once.  It cannot go on like this forever.  Between two recoveries the
counter is either still at three, and then the pending token is thrown away
before the second one; or it has gone down, and then a token was shifted:

    recover    consult ... stuck    recover       the pending token is discarded
    recover    consult ... shift ... stuck    recover

So recoveries but for the first are paid for with tokens.  This hangs on a token
being pending whenever the run is stuck, or else there would be nothing to throw
away.  It is, if the tables are **resolute**: a state that never looks at a
token has a rule to fall back on.

Main statement: `recoveries_use_up_tokens`.
-/

namespace LambdaStack.Automaton

/-! ### Tables -/

/-- The state has a rule to fall back on. -/
def Tables.fallsBack (tables : Tables) (state : Nat) : Bool :=
  match tables.defaultReduction? state with
  | some (some _) => true
  | _ => false

/-- A state that never looks at a token has a rule to fall back on, unless it
accepts. -/
def Tables.Resolute (tables : Tables) : Prop :=
  ∀ state < tables.states, state ≠ tables.finalState →
    tables.needsLookahead? state = some false → tables.fallsBack state

instance (tables : Tables) : Decidable tables.Resolute :=
  inferInstanceAs (Decidable (∀ state < tables.states, _ → _ → _))

/-- Only states are known to need a token or not. -/
theorem Tables.lt_states_of_needsLookahead? {tables : Tables} {state : Nat}
    {looks : Bool} (h : tables.needsLookahead? state = some looks) :
    state < tables.states := by
  obtain ⟨base, hbase, _⟩ := Option.map_eq_some_iff.mp h
  exact (Array.getElem?_eq_some_iff.mp hbase).1

/-- A state that falls back has a default rule. -/
theorem Tables.defaultReduction?_ne_of_fallsBack {tables : Tables}
    {state : Nat} (h : tables.fallsBack state) :
    tables.defaultReduction? state ≠ some none := by
  intro hnone
  rw [fallsBack, hnone] at h
  cases h

/-! ### Unwinding, one entry at a time -/

section Unwinding

variable {V : Type} {tables : Tables}

/-- Entries are taken off the stack, one at a time and so many of them, until
the state on top can shift the error token, or only the bottom entry is left and
cannot.  Whenever an entry is taken off, another one is below it. -/
inductive Unwinds (tables : Tables) :
    Stack V → Nat → Option (Nat × Stack V) → Prop
  | found {stack : Stack V} {target : Nat}
      (hstate : tables.recovery? stack.state = some (some target)) :
      Unwinds tables stack 0 (some (target, stack))
  | bottom {stack : Stack V}
      (hstate : tables.recovery? stack.state = some none)
      (hheight : stack.height = 1) : Unwinds tables stack 0 none
  | pop {stack rest : Stack V} {pops : Nat} {found : Option (Nat × Stack V)}
      (hstate : tables.recovery? stack.state = some none)
      (hheight : stack.height ≠ 1) (hpop : stack.pop? 1 = some rest)
      (tail : Unwinds tables rest pops found) :
      Unwinds tables stack (pops + 1) found

/-- The bottom entry is never taken off. -/
theorem Unwinds.pops_lt {stack : Stack V} {pops : Nat}
    {found : Option (Nat × Stack V)} (h : Unwinds tables stack pops found) :
    pops < stack.height := by
  induction h with
  | found | bottom => exact Nat.succ_pos _
  | @pop stack rest pops found _ _ hpop _ ih =>
      have hrest := congrArg List.length (Stack.entries_of_pop? hpop)
      rw [List.length_drop, Stack.length_entries, Stack.length_entries] at hrest
      omega

/-- Unwinding takes off one entry after the other. -/
theorem exists_unwinds {top : Entry V} {below : List (Entry V)}
    {found : Option (Nat × Stack V)}
    (h : Config.unwind tables top below = .ok found) :
    ∃ pops, Unwinds tables ⟨top, below⟩ pops found := by
  induction below generalizing top with
  | nil =>
      unfold Config.unwind at h
      split at h
      · cases h
      · next hstate =>
        cases h
        exact ⟨0, .bottom hstate rfl⟩
      · next hstate =>
        cases h
        exact ⟨0, .found hstate⟩
  | cons next below ih =>
      unfold Config.unwind at h
      split at h
      · cases h
      · next hstate =>
        obtain ⟨pops, htail⟩ := ih h
        exact ⟨pops + 1, .pop hstate (by simp [Stack.height]) rfl htail⟩
      · next hstate =>
        cases h
        exact ⟨0, .found hstate⟩

end Unwinding

section Recoveries

variable {S V E : Type}

/-! ### One stride -/

/-- What a step can do to the phase, to what is pending, to the counter and to
the tokens that are done with. -/
inductive Stride (tables : Tables) (config next : Config S V E) : Prop
  /-- the automaton is followed, and finds its way -/
  | onward (hphase : next.phase = .consult ∨ ∃ rule, next.phase = .reduce rule)
      (hbusy : config.phase.isBusy) (hquiet : next.quiet = config.quiet)
      (hfates : next.fates = config.fates)
  /-- a token is shifted -/
  | shift (token : Token) (hphase : next.phase = .consult)
      (hbusy : config.phase.isBusy)
      (hfates : next.fates = config.fates ++ [(token, .shifted)])
  /-- it is left to the default of the state, with a token pending or because
  the state looks at none -/
  | fallback (hphase : next.phase = .fallback) (hbusy : config.phase.isBusy)
      (hreason : next.pending.isSome ∨
        next.stack.state ≠ tables.finalState ∧
          tables.needsLookahead? next.stack.state = some false)
      (hquiet : next.quiet = config.quiet)
      (hfates : next.fates = config.fates)
  /-- there is nothing to be done, with a token pending or by default -/
  | stuck (hphase : next.phase = .stuck) (hbusy : config.phase.isBusy)
      (hreason : next.pending.isSome ∨
        config.phase = .fallback ∧ next.pending = config.pending ∧
          tables.defaultReduction? config.stack.state = some none)
      (hquiet : next.quiet = config.quiet)
      (hfates : next.fates = config.fates)
  /-- the pending token is thrown away -/
  | discard (token : Token) (hphase : next.phase = .recover)
      (hstuck : config.phase = .stuck)
      (hfates : next.fates = config.fates ++ [(token, .discarded)])
  /-- nothing is thrown away -/
  | spare (hphase : next.phase = .recover)
      (hreason : config.quiet ≠ quietSpell ∨ config.pending = none)
      (hstuck : config.phase = .stuck) (hfates : next.fates = config.fates)
  /-- the error token is shifted -/
  | resume (hphase : next.phase = .consult)
      (hrecover : config.phase = .recover)
      (hquiet : next.quiet = quietSpell)
      (hfates : next.fates = config.fates)
  /-- the run ends, or is over -/
  | ended (hover : next.isHalted) (hfates : next.fates = config.fates)

namespace Config

variable (config : Config S V E) (tables : Tables)
  (semantics : Semantics S V E) (tape : Tape)

/-- Reading a token settles no token. -/
theorem fates_look : (config.look tape).2.fates = config.fates := by
  unfold look
  split <;> rfl

/-- Neither does a syntax error. -/
theorem fates_complain :
    (config.complain semantics).fates = config.fates := by
  unfold complain
  split <;> rfl

/-- An event is entered behind the fates that are known. -/
theorem fates_cons {next : Config S V E} {event : Event} {fate : Token × Fate}
    (hlog : next.log = event :: config.log) (hevent : event.fate? = some fate) :
    next.fates = config.fates ++ [fate] := by
  rw [fates, hlog, List.filterMap_cons_some hevent, List.reverse_cons, fates]

variable {config}

/-- Consulting the tables is a stride: a token is shifted, or the state is left
to its default, or it fails with the token pending. -/
theorem stride_consult (hbusy : config.phase.isBusy) :
    Stride tables config (config.consult tables semantics tape) := by
  have hquiet := config.quiet_look tape
  have hfates := config.fates_look tape
  have hpending : (config.look tape).2.pending.isSome := by
    rw [pending_look]
    rfl
  simp only [consult]
  split
  · exact .ended rfl rfl
  · next hfinal =>
    split
    · exact .ended rfl rfl
    · next hblind => exact .fallback rfl hbusy (.inr ⟨hfinal, hblind⟩) rfl rfl
    · split
      · exact .ended rfl hfates
      · refine .shift (config.look tape).1 rfl hbusy ?_
        rw [← hfates]
        exact fates_cons _ rfl rfl
      · exact .onward (.inr ⟨_, rfl⟩) hbusy hquiet hfates
      · exact .fallback rfl hbusy (.inl hpending) hquiet hfates
      · exact .stuck rfl hbusy (.inl hpending) hquiet hfates

/-- Falling back is a stride: with a token pending, or because the state looks
at none. -/
theorem stride_fallBack (hphase : config.phase = .fallback) :
    Stride tables config (config.fallBack tables) := by
  have hbusy : config.phase.isBusy := by rw [hphase]; rfl
  unfold fallBack
  split
  · exact .ended rfl rfl
  · next hnone => exact .stuck rfl hbusy (.inr ⟨hphase, rfl, hnone⟩) rfl rfl
  · exact .onward (.inr ⟨_, rfl⟩) hbusy rfl rfl

/-- Reducing a rule is a stride, whether or not it is refused. -/
theorem stride_reduce (hbusy : config.phase.isBusy) (rule : Nat) :
    Stride tables config (config.reduce tables semantics rule) := by
  unfold reduce
  split
  · dsimp only
    split
    · unfold replace
      split
      · exact .ended rfl rfl
      · split
        · exact .ended rfl rfl
        · exact .onward (.inl rfl) hbusy rfl rfl
    · exact .ended rfl rfl
  · exact .ended rfl rfl

/-- Being stuck is a stride: it discards the pending token, ends the run or
goes on to recover. -/
theorem stride_stuck (hstuck : config.phase = .stuck) :
    Stride tables config (config.stuck tables semantics) := by
  have hquiet := config.quiet_complain semantics
  have hpending := config.pending_complain semantics
  have hfates := config.fates_complain semantics
  simp only [Config.stuck]
  split
  · split
    · next hnone =>
      exact .spare rfl (.inr (hpending.symm.trans hnone)) hstuck hfates
    · next token _ =>
      split
      · exact .ended rfl hfates
      · refine .discard token rfl hstuck ?_
        rw [← hfates]
        exact fates_cons _ rfl rfl
  · next hspell =>
    rw [hquiet] at hspell
    exact .spare rfl (.inl hspell) hstuck hfates

/-- Recovering is a stride, after which the counter is at its highest. -/
theorem stride_recover (hrecover : config.phase = .recover) :
    Stride tables config (config.recover tables semantics) := by
  unfold Config.recover
  split
  · exact .ended rfl rfl
  · exact .ended rfl rfl
  · exact .resume rfl hrecover rfl rfl

/-- **Every step is a stride.** -/
theorem stride_step (config : Config S V E) :
    Stride tables config (config.step tables semantics tape) := by
  unfold step
  split
  · next hphase =>
    exact stride_consult tables semantics tape (by rw [hphase]; rfl)
  · next hphase => exact stride_fallBack tables hphase
  · next hphase =>
    exact stride_reduce tables semantics (by rw [hphase]; rfl) _
  · next hphase => exact stride_stuck tables semantics hphase
  · next hphase => exact stride_recover tables semantics hphase
  · next hphase => exact .ended (by rw [isHalted, hphase]) rfl

end Config

/-! ### What a stride keeps -/

/-- If the run is stuck, a token is pending; and if it is left to the default of
a state, a token is pending or there is a rule. -/
structure Attentive (tables : Tables) (config : Config S V E) : Prop where
  stuck : config.phase = .stuck → config.pending.isSome
  fallback : config.phase = .fallback →
    config.pending.isSome ∨ tables.fallsBack config.stack.state

/-- Since a recovery, before which `count` tokens were done with, another one
was done with; or the counter has not moved and the run is not to recover; or
the run is over. -/
def Paid (count : Nat) (config : Config S V E) : Prop :=
  count < config.fates.length ∨
    count ≤ config.fates.length ∧ config.quiet = quietSpell ∧
      config.phase ≠ .recover ∨
    config.isHalted

namespace Stride

variable {tables : Tables} {config next : Config S V E}

/-- Nothing that is done with is taken back. -/
theorem fates_isPrefix (h : Stride tables config next) :
    config.fates <+: next.fates := by
  cases h with
  | shift _ _ _ hfates | discard _ _ _ hfates =>
      rw [hfates]
      exact List.prefix_append _ _
  | onward _ _ _ hfates | fallback _ _ _ _ hfates | stuck _ _ _ _ hfates
  | spare _ _ _ hfates | resume _ _ _ hfates | ended _ hfates =>
      rw [hfates]

/-- A token is pending whenever it will be needed. -/
theorem attentive (hresolute : tables.Resolute) (h : Stride tables config next)
    (hbefore : Attentive tables config) : Attentive tables next := by
  -- in all other phases there is nothing to show
  have hother (hstuck : next.phase ≠ .stuck)
      (hfallback : next.phase ≠ .fallback) : Attentive tables next :=
    ⟨fun hphase => absurd hphase hstuck, fun hphase => absurd hphase hfallback⟩
  cases h with
  | onward hphase =>
      obtain hphase | ⟨rule, hphase⟩ := hphase
      · exact hother (by simp [hphase]) (by simp [hphase])
      · exact hother (by simp [hphase]) (by simp [hphase])
  | shift _ hphase | discard _ hphase | spare hphase | resume hphase =>
      exact hother (by simp [hphase]) (by simp [hphase])
  | fallback hphase _ hreason =>
      refine ⟨by simp [hphase], fun _ => hreason.imp_right ?_⟩
      rintro ⟨hfinal, hblind⟩
      exact hresolute _ (Tables.lt_states_of_needsLookahead? hblind) hfinal
        hblind
  | stuck hphase _ hreason =>
      refine ⟨fun _ => ?_, by simp [hphase]⟩
      obtain hpending | ⟨hfallback, hpending, hnone⟩ := hreason
      · exact hpending
      · -- a rule to fall back on would have been taken
        rw [hpending]
        refine (hbefore.fallback hfallback).resolve_right fun hfalls => ?_
        exact Tables.defaultReduction?_ne_of_fallsBack hfalls hnone
  | ended hover =>
      refine hother ?_ ?_ <;> intro hphase <;>
        rw [Config.isHalted, hphase] at hover <;> cases hover

/-- The next recovery waits until a token is done with. -/
theorem paid {count : Nat} (h : Stride tables config next)
    (hattentive : Attentive tables config) (hbefore : Paid count config)
    (hlive : ¬ config.isHalted) : Paid count next := by
  have hgrows := h.fates_isPrefix.length_le
  rcases hbefore with hpaid | ⟨hcount, hspell, hnot⟩ | hover
  · exact .inl (Nat.lt_of_lt_of_le hpaid hgrows)
  · have hstill (hquiet : next.quiet = config.quiet)
        (hphase : next.phase ≠ .recover) : Paid count next :=
      .inr (.inl ⟨Nat.le_trans hcount hgrows, hquiet.trans hspell, hphase⟩)
    cases h with
    | onward hphase _ hquiet =>
        refine hstill hquiet ?_
        obtain hphase | ⟨rule, hphase⟩ := hphase <;> simp [hphase]
    | fallback hphase _ _ hquiet => exact hstill hquiet (by simp [hphase])
    | stuck hphase _ _ hquiet => exact hstill hquiet (by simp [hphase])
    | shift _ _ _ hfates | discard _ _ _ hfates =>
        refine .inl ?_
        rw [hfates, List.length_append, List.length_singleton]
        exact Nat.lt_succ_of_le hcount
    | spare _ hreason hstuck =>
        -- the counter stands at three, and there is a token to throw away
        obtain hquiet | hnone := hreason
        · exact absurd hspell hquiet
        · have hpending := hattentive.stuck hstuck
          rw [hnone] at hpending
          cases hpending
    | resume _ hrecover => exact absurd hrecover hnot
    | ended hover => exact .inr (.inr hover)
  · exact absurd hover hlive

end Stride

/-! ### A whole run -/

/-- The configurations of a run: it begins with the automaton, each step is a
stride, and when it is over it is over. -/
structure Journey (tables : Tables) (config : Nat → Config S V E) : Prop where
  phase : (config 0).phase = .consult
  stride : ∀ n, Stride tables (config n) (config (n + 1))
  rests : ∀ n, (config n).isHalted → config (n + 1) = config n

/-- Every run is a journey. -/
theorem journey_run (tables : Tables) (semantics : Semantics S V E)
    (tape : Tape) (memory : S) (start : Nat) :
    Journey tables fun n =>
      (Config.initial semantics memory start).run tables semantics tape n where
  phase := rfl
  stride n := by
    rw [Config.run_succ]
    exact Config.stride_step tables semantics tape _
  rests n hover := by
    rw [Config.run_succ, Config.step_of_isHalted hover]

namespace Journey

variable {tables : Tables} {config : Nat → Config S V E} {m n : Nat}

/-- At every point of a journey the automaton has looked at a token before it
gets stuck. -/
theorem attentive (h : Journey tables config) (hresolute : tables.Resolute)
    (n : Nat) : Attentive tables (config n) := by
  induction n with
  | zero => exact ⟨by simp [h.phase], by simp [h.phase]⟩
  | succ n ih => exact (h.stride n).attentive hresolute ih

/-- What has become of a token is never taken back. -/
theorem fates_isPrefix (h : Journey tables config) (hle : m ≤ n) :
    (config m).fates <+: (config n).fates := by
  induction n, hle using Nat.le_induction with
  | base => exact List.prefix_refl _
  | succ n _ ih => exact ih.trans (h.stride n).fates_isPrefix

/-- Right behind a recovery the counter stands at three. -/
theorem paid_of_recover (h : Journey tables config)
    (hrecover : (config m).phase = .recover) :
    Paid (config m).fates.length (config (m + 1)) := by
  have hbusy : ¬ (config m).phase.isBusy := by simp [hrecover, Phase.isBusy]
  have hstuck : (config m).phase ≠ .stuck := by simp [hrecover]
  cases h.stride m with
  | onward _ hfollowed | shift _ _ hfollowed | fallback _ hfollowed
  | stuck _ hfollowed => exact absurd hfollowed hbusy
  | discard _ _ hother | spare _ _ hother => exact absurd hother hstuck
  | resume hphase _ hquiet hfates =>
      exact .inr (.inl ⟨by rw [hfates], hquiet, by simp [hphase]⟩)
  | ended hover => exact .inr (.inr hover)

/-- After a recovery the next one has to wait until a token has been done with.
-/
theorem paid (h : Journey tables config) (hresolute : tables.Resolute)
    (hrecover : (config m).phase = .recover) (hlt : m < n) :
    Paid (config m).fates.length (config n) := by
  induction n, hlt using Nat.le_induction with
  | base => exact h.paid_of_recover hrecover
  | succ n _ ih =>
      by_cases hover : (config n).isHalted
      · rw [h.rests n hover]
        exact ih
      · exact (h.stride n).paid (h.attentive hresolute n) ih hover

/-- **Between two recoveries a token is done with.** -/
theorem length_fates_lt (h : Journey tables config)
    (hresolute : tables.Resolute) (hlt : m < n)
    (hfirst : (config m).phase = .recover)
    (hsecond : (config n).phase = .recover) :
    (config m).fates.length < (config n).fates.length := by
  rcases h.paid hresolute hfirst hlt with hpaid | ⟨_, _, hnot⟩ | hover
  · exact hpaid
  · exact absurd hsecond hnot
  · rw [Config.isHalted, hsecond] at hover
    cases hover

end Journey

/-- The run is to recover. -/
def Phase.isRecover : Phase E → Bool
  | recover => true
  | _ => false

/-- The test finds the phase of recovery and no other. -/
theorem Phase.isRecover_iff {phase : Phase E} :
    phase.isRecover ↔ phase = .recover := by
  cases phase <;> simp [isRecover]

/-- How often the run was to recover in its first steps. -/
def recoveries (config : Nat → Config S V E) (n : Nat) : Nat :=
  ((List.range n).filter fun m => (config m).phase.isRecover).length

/-- Recoveries are told apart by the tokens that are done with before them. -/
theorem Journey.recoveries_le {tables : Tables} {config : Nat → Config S V E}
    (h : Journey tables config) (hresolute : tables.Resolute) (n : Nat) :
    recoveries config n ≤ (config n).fates.length + 1 := by
  let steps := (List.range n).filter fun m => (config m).phase.isRecover
  have hcount : recoveries config n = steps.toFinset.card :=
    (List.toFinset_card_of_nodup (List.nodup_range.filter _)).symm
  have hstep : ∀ m ∈ steps.toFinset, m < n ∧ (config m).phase = .recover := by
    intro m hm
    obtain ⟨hlt, hrecover⟩ := List.mem_filter.mp (List.mem_toFinset.mp hm)
    exact ⟨List.mem_range.mp hlt, Phase.isRecover_iff.mp hrecover⟩
  have hmaps : ∀ m ∈ steps.toFinset, (config m).fates.length
      ∈ Finset.range ((config n).fates.length + 1) := by
    intro m hm
    have hle := (h.fates_isPrefix (Nat.le_of_lt (hstep m hm).1)).length_le
    exact Finset.mem_range.mpr (Nat.lt_succ_of_le hle)
  have hapart : Set.InjOn (fun m => (config m).fates.length)
      steps.toFinset := by
    intro first hfirst second hsecond heq
    have hone := (hstep first hfirst).2
    have htwo := (hstep second hsecond).2
    by_contra hne
    rcases Nat.lt_or_gt_of_ne hne with hlt | hgt
    · exact (h.length_fates_lt hresolute hlt hone htwo).ne heq
    · exact (h.length_fates_lt hresolute hgt htwo hone).ne heq.symm
  rw [hcount, ← Finset.card_range ((config n).fates.length + 1)]
  exact Finset.card_le_card_of_injOn _ hmaps hapart

/-- **Every recovery is paid for with a token.**  Over resolute tables, any
tokens and any semantics: whenever the run is stuck, a token is pending, so the
semantics is never told of a syntax error at no token; when it is to recover,
unwinding takes fewer entries off the stack than are there, each with another
one below it, and comes to an end; between two recoveries a token is shifted or
thrown away; and so there is at most one recovery more than tokens that were. -/
theorem recoveries_use_up_tokens (tables : Tables)
    (hresolute : tables.Resolute) (semantics : Semantics S V E) (tape : Tape)
    (memory : S) (start : Nat) :
    let config := fun n =>
      (Config.initial semantics memory start).run tables semantics tape n
    let watched := fun n =>
      (Config.initial semantics.watched (memory, []) start).run tables
        semantics.watched tape n
    (∀ n, (watched n).unwatched = config n) ∧
    (∀ n, (config n).phase = .stuck →
      ∃ token, (config n).pending = some token) ∧
    (∀ n, none ∉ (watched n).complaints) ∧
    (∀ n, (config n).phase = .recover → ∃ pops found,
      Config.unwind tables (config n).stack.top (config n).stack.below
        = .ok found ∧
      Unwinds tables (config n).stack pops found ∧
      pops ≤ (config n).stack.height - 1) ∧
    (∀ m n, m < n → (config m).phase = .recover →
      (config n).phase = .recover →
      ∃ fates, fates ≠ [] ∧ (config n).fates = (config m).fates ++ fates) ∧
    ∀ n, recoveries config n ≤ (config n).fates.length + 1 := by
  intro config watched
  have hjourney : Journey tables config :=
    journey_run tables semantics tape memory start
  have hsame : ∀ n, (watched n).unwatched = config n := fun n =>
    Config.unwatched_run semantics tables tape
      (Config.initial semantics.watched (memory, []) start) n
  have hpending : ∀ n, (config n).phase = .stuck →
      ∃ token, (config n).pending = some token := fun n hstuck =>
    Option.isSome_iff_exists.mp ((hjourney.attentive hresolute n).stuck hstuck)
  refine ⟨hsame, hpending, ?_, ?_, ?_, hjourney.recoveries_le hresolute⟩
  · -- a complaint is made where the run is stuck, and names what is pending
    intro n
    have hhistory : History watched :=
      history_run tables semantics tape memory start
    induction n with
    | zero => exact List.not_mem_nil
    | succ n ih =>
        rcases (hhistory.turn n).complaints_cases with
          ⟨hstuck, _, hcomplaints⟩ | ⟨_, hcomplaints⟩
        · obtain ⟨token, htoken⟩ := hpending n (hsame n ▸ hstuck)
          have hfound : (watched n).pending = some token := by
            rw [← hsame n] at htoken
            exact htoken
          rw [hcomplaints, hfound]
          simpa using ih
        · rw [hcomplaints]
          exact ih
  · intro n hrecover
    have hrange : InRange tables (config n) := by
      rcases inRange_or_strayed_run semantics tape n
        (Or.inl (InRange.initial tables semantics memory start)) with
        hrange | hstrayed
      · exact hrange
      · -- a run that has strayed looks at the tables, and ends
        have hphase : (config n).phase = .consult ∨ _ := hstrayed.phase
        rw [hrecover] at hphase
        rcases hphase with hphase | hphase <;> cases hphase
    obtain ⟨found, hunwind, _⟩ := InRange.unwind hrange.states
    obtain ⟨pops, hunwinds⟩ := exists_unwinds hunwind
    exact ⟨pops, found, hunwind, hunwinds, Nat.le_pred_of_lt hunwinds.pops_lt⟩
  · intro m n hlt hfirst hsecond
    obtain ⟨fates, hfates⟩ := hjourney.fates_isPrefix (Nat.le_of_lt hlt)
    have hmore := hjourney.length_fates_lt hresolute hlt hfirst hsecond
    refine ⟨fates, ?_, hfates.symm⟩
    rintro rfl
    rw [List.append_nil] at hfates
    exact hmore.ne (congrArg List.length hfates)

end Recoveries

/-- Of five recoveries, four are paid for with three dots that are thrown away
and a name that is shifted.  The tables of the grammar are resolute as well. -/
theorem recoveries_among_dots :
    let tables : Tables := ⟨listingLayout, defect?_listingLayout⟩
    let dot := Token.bare .dot none
    let name := Token.bare .name (some "x")
    let config := fun n =>
      (Config.initial (Transcript.semantics none) {} 0).run tables
        (Transcript.semantics none)
        (Source.ofTokens [dot, dot, name, dot]).tape n
    Grammar.tables.Resolute ∧ tables.Resolute ∧
      recoveries config 40 = 5 ∧
      (config 40).fates = [(dot, .discarded), (dot, .discarded),
        (name, .shifted), (dot, .discarded), (Token.endOfInput, .shifted)] ∧
      recoveries config 40 ≤ (config 40).fates.length + 1 := by
  intro tables dot name config
  have hresolute : tables.Resolute := by decide +kernel
  refine ⟨by decide +kernel, hresolute, by decide +kernel, by decide +kernel,
    ?_⟩
  exact (recoveries_use_up_tokens tables hresolute (Transcript.semantics none)
    _ {} 0).2.2.2.2.2 40

end LambdaStack.Automaton
