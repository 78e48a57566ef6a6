import Mathlib.Order.Monotone.Basic
import LambdaStack.Proofs.Conservation

/-!
# When a syntax error is reported

A run that is stuck reports a syntax error, and then stays quiet about further
ones until three tokens have been shifted.  A counter keeps count of these
tokens; shifting the error token does not count:

    phase      counter    report
    stuck      0          yes, the first time
    recover    3
    stuck      3          no
    recover    3
    consult    2 1 0      three shifts
    stuck      0          yes

A step is a **turn** (`Turn`) of one of four kinds.  From them it follows where
the counter stands after any number of steps (`History.quiet_eq`), over every
automaton, with as many recoveries as there may be.

Main statement: `complains_first_or_after_three_shifts`.
-/

namespace LambdaStack.Automaton

section Complaints

variable {S V E : Type}

/-- The automaton is being followed. -/
def Phase.isBusy : Phase E → Bool
  | consult | fallback | reduce _ => true
  | stuck | recover | halted _ => false

/-- What a step can do to the counter, to the shifted tokens and to the
complaints. -/
inductive Turn (config next : Config (S × List (Call V)) V E) : Prop
  /-- nothing -/
  | plain (hbusy : config.phase.isBusy) (hphase : next.phase ≠ .recover)
      (hquiet : next.quiet = config.quiet)
      (hshifted : next.shifted = config.shifted)
      (hcomplaints : next.complaints = config.complaints)
  /-- a token is shifted and counted -/
  | shift (token : Token) (hbusy : config.phase.isBusy)
      (hphase : next.phase ≠ .recover)
      (hquiet : next.quiet = config.quiet - 1)
      (hshifted : next.shifted = config.shifted ++ [token])
      (hcomplaints : next.complaints = config.complaints)
  /-- the run is stuck, and complains if the counter is at zero -/
  | stuck (hstuck : config.phase = .stuck)
      (hphase : next.phase = .recover ∨ next.isHalted)
      (hquiet : next.quiet = config.quiet)
      (hshifted : next.shifted = config.shifted)
      (hcomplaints : next.complaints
        = config.complaints
          ++ if config.quiet = 0 then [config.pending] else [])
  /-- the counter is set anew, unless the run ends -/
  | recover (hrecover : config.phase = .recover)
      (hphase : next.phase ≠ .recover)
      (hquiet : next.quiet = quietSpell ∨ next.isHalted)
      (hshifted : next.shifted = config.shifted)
      (hcomplaints : next.complaints = config.complaints)
  /-- nothing, for the run is over -/
  | ended (hover : config.isHalted) (hsame : next = config)

/-! ### One turn -/

namespace Config

variable (config : Config (S × List (Call V)) V E) (tables : Tables)
  (semantics : Semantics S V E) (tape : Tape)

/-- Looking at a token reports nothing. -/
theorem complaints_look :
    (config.look tape).2.complaints = config.complaints := by
  unfold look
  split <;> rfl

/-- A syntax error is reported if the run is not to be quiet. -/
theorem complaints_complain :
    (config.complain semantics.watched).complaints
      = config.complaints
        ++ if config.quiet = 0 then [config.pending] else [] := by
  unfold complain
  split
  · exact List.reverse_cons
  · exact (List.append_nil config.complaints).symm

variable {config}

/-- Consulting the tables is a turn. -/
theorem turn_consult (hbusy : config.phase.isBusy) :
    Turn config (config.consult tables semantics.watched tape) := by
  have hquiet := config.quiet_look tape
  have hshifted := config.shifted_look tape
  have hcomplaints := config.complaints_look tape
  simp only [consult]
  split
  · exact .plain hbusy (by rintro ⟨⟩) rfl rfl rfl
  · split
    · exact .plain hbusy (by rintro ⟨⟩) rfl rfl rfl
    · exact .plain hbusy (by rintro ⟨⟩) rfl rfl rfl
    · split
      · exact .plain hbusy (by rintro ⟨⟩) hquiet hshifted hcomplaints
      · refine .shift (config.look tape).1 hbusy (by rintro ⟨⟩) ?_ ?_
          hcomplaints
        · exact congrArg (· - 1) hquiet
        · rw [shifted_shift, hshifted]
      · exact .plain hbusy (by rintro ⟨⟩) hquiet hshifted hcomplaints
      · exact .plain hbusy (by rintro ⟨⟩) hquiet hshifted hcomplaints
      · exact .plain hbusy (by rintro ⟨⟩) hquiet hshifted hcomplaints

/-- Falling back is a turn. -/
theorem turn_fallBack (hbusy : config.phase.isBusy) :
    Turn config (config.fallBack tables) := by
  unfold fallBack
  split <;> exact .plain hbusy (by rintro ⟨⟩) rfl rfl rfl

/-- Reducing a rule is a turn, and reports nothing. -/
theorem turn_reduce (hbusy : config.phase.isBusy) (rule : Nat) :
    Turn config (config.reduce tables semantics.watched rule) := by
  unfold reduce
  split
  · dsimp only
    split
    · unfold replace
      split
      · exact .plain hbusy (by rintro ⟨⟩) rfl rfl rfl
      · split
        · exact .plain hbusy (by rintro ⟨⟩) rfl rfl rfl
        · exact .plain hbusy (by rintro ⟨⟩) rfl rfl rfl
    · exact .plain hbusy (by rintro ⟨⟩) rfl rfl rfl
  · exact .plain hbusy (by rintro ⟨⟩) rfl rfl rfl

/-- Being stuck is a turn, and the only one that may report an error. -/
theorem turn_stuck (hstuck : config.phase = .stuck) :
    Turn config (config.stuck tables semantics.watched) := by
  have hquiet := config.quiet_complain semantics.watched
  have hshifted := config.shifted_complain semantics.watched
  have hcomplaints := config.complaints_complain semantics
  simp only [Config.stuck]
  split
  · split
    · exact .stuck hstuck (.inl rfl) hquiet hshifted hcomplaints
    · split
      · exact .stuck hstuck (.inr rfl) hquiet hshifted hcomplaints
      · exact .stuck hstuck (.inl rfl) hquiet hshifted hcomplaints
  · exact .stuck hstuck (.inl rfl) hquiet hshifted hcomplaints

/-- Recovering is a turn, which begins a new spell of quiet. -/
theorem turn_recover (hrecover : config.phase = .recover) :
    Turn config (config.recover tables semantics.watched) := by
  unfold Config.recover
  split
  · exact .recover hrecover (by rintro ⟨⟩) (.inr rfl) rfl rfl
  · exact .recover hrecover (by rintro ⟨⟩) (.inr rfl) rfl rfl
  · exact .recover hrecover (by rintro ⟨⟩) (.inl rfl) rfl rfl

/-- **Every step is a turn.** -/
theorem turn_step (config : Config (S × List (Call V)) V E) :
    Turn config (config.step tables semantics.watched tape) := by
  unfold step
  split
  · next hphase =>
    exact turn_consult tables semantics tape (by simp [hphase, Phase.isBusy])
  · next hphase => exact turn_fallBack tables (by simp [hphase, Phase.isBusy])
  · next hphase =>
    exact turn_reduce tables semantics (by simp [hphase, Phase.isBusy]) _
  · next hphase => exact turn_stuck tables semantics hphase
  · next hphase => exact turn_recover tables semantics hphase
  · next hphase => exact .ended (by rw [isHalted, hphase]) rfl

end Config

/-! ### The counter along a run -/

/-- In the step with this number the semantics is told of a syntax error. -/
def ComplainsAt (config : Nat → Config (S × List (Call V)) V E) (n : Nat) :
    Prop :=
  (config (n + 1)).complaints = (config n).complaints ++ [(config n).pending]

/-- Before step `n` the run was last to recover in step `last`. -/
structure LastRecovery (config : Nat → Config S V E) (last n : Nat) :
    Prop where
  before : last < n
  recovers : (config last).phase = .recover
  none_after : ∀ m, last < m → m < n → (config m).phase ≠ .recover

/-- In step `n` a report is due: the run was never stuck before, or three tokens
have been shifted since it was last to recover. -/
def Due (config : Nat → Config S V E) (n : Nat) : Prop :=
  (∀ earlier < n, (config earlier).phase ≠ .stuck) ∨
    ∃ last, LastRecovery config last n ∧
      (config last).shifted.length + 3 ≤ (config n).shifted.length

/-- There is at most one last recovery. -/
theorem LastRecovery.unique {config : Nat → Config S V E}
    {first second n : Nat} (hfirst : LastRecovery config first n)
    (hsecond : LastRecovery config second n) : first = second := by
  by_contra hne
  rcases Nat.lt_or_gt_of_ne hne with hlt | hgt
  · exact hfirst.none_after second hlt hsecond.before hsecond.recovers
  · exact hsecond.none_after first hgt hfirst.before hfirst.recovers

/-- The configurations of a run: it begins with the counter at zero, and each
step is a turn. -/
structure History (config : Nat → Config (S × List (Call V)) V E) :
    Prop where
  phase : (config 0).phase = .consult
  quiet : (config 0).quiet = 0
  turn : ∀ n, Turn (config n) (config (n + 1))

namespace Turn

variable {config next : Config (S × List (Call V)) V E}

/-- A turn takes no shifted token back. -/
theorem length_shifted_le (h : Turn config next) :
    config.shifted.length ≤ next.shifted.length := by
  cases h with
  | plain _ _ _ hshifted => rw [hshifted]
  | shift token _ _ _ hshifted => simp [hshifted]
  | stuck _ _ _ hshifted => rw [hshifted]
  | recover _ _ _ hshifted => rw [hshifted]
  | ended _ hsame => rw [hsame]

/-- Only a run that is stuck goes on to recover. -/
theorem phase_of_recover (h : Turn config next)
    (hnext : next.phase = .recover) : config.phase = .stuck := by
  cases h with
  | plain _ hphase => exact absurd hnext hphase
  | shift _ _ hphase => exact absurd hnext hphase
  | stuck hstuck => exact hstuck
  | recover _ hphase => exact absurd hnext hphase
  | ended hover hsame =>
      rw [← hsame, Config.isHalted, hnext] at hover
      cases hover

/-- A run that is stuck goes on to recover, or is over. -/
theorem recover_of_stuck (h : Turn config next)
    (hstuck : config.phase = .stuck) :
    next.phase = .recover ∨ next.isHalted := by
  cases h with
  | plain hbusy | shift _ hbusy =>
      rw [hstuck] at hbusy
      cases hbusy
  | stuck _ hphase => exact hphase
  | recover hrecover =>
      rw [hstuck] at hrecover
      cases hrecover
  | ended hover hsame => exact .inr (hsame ▸ hover)

/-- A run that is over stays so. -/
theorem isHalted (h : Turn config next) (hover : config.isHalted) :
    next.isHalted := by
  unfold Config.isHalted at hover
  split at hover
  · next halt hphase =>
    cases h with
    | plain hbusy | shift _ hbusy =>
        rw [hphase] at hbusy
        cases hbusy
    | stuck hstuck =>
        rw [hphase] at hstuck
        cases hstuck
    | recover hrecover =>
        rw [hphase] at hrecover
        cases hrecover
    | ended hover hsame => exact hsame ▸ hover
  · cases hover

/-- Only shifting moves the counter, as long as the run does not recover. -/
theorem quiet_eq (h : Turn config next) (hphase : config.phase ≠ .recover) :
    next.quiet
      = config.quiet - (next.shifted.length - config.shifted.length) := by
  cases h with
  | plain _ _ hquiet hshifted => simp [hquiet, hshifted]
  | shift token _ _ hquiet hshifted => simp [hquiet, hshifted]
  | stuck _ _ hquiet hshifted => simp [hquiet, hshifted]
  | recover hrecover => exact absurd hrecover hphase
  | ended _ hsame => simp [hsame]

/-- Recovering sets the counter anew. -/
theorem quiet_of_recover (h : Turn config next)
    (hrecover : config.phase = .recover) (hlive : ¬ next.isHalted) :
    next.quiet = quietSpell ∧ next.shifted = config.shifted := by
  cases h with
  | plain hbusy | shift _ hbusy =>
      rw [hrecover] at hbusy
      cases hbusy
  | stuck hstuck =>
      rw [hrecover] at hstuck
      cases hstuck
  | recover _ _ hquiet hshifted =>
      exact ⟨hquiet.resolve_right hlive, hshifted⟩
  | ended hover hsame => exact absurd (hsame ▸ hover) hlive

/-- A run that is stuck complains if the counter is at zero, and no other step
does. -/
theorem complaints_cases (h : Turn config next) :
    config.phase = .stuck ∧ config.quiet = 0 ∧
      next.complaints = config.complaints ++ [config.pending] ∨
    ¬ (config.phase = .stuck ∧ config.quiet = 0) ∧
      next.complaints = config.complaints := by
  cases h with
  | plain hbusy _ _ _ hcomplaints | shift _ hbusy _ _ _ hcomplaints =>
      refine .inr ⟨?_, hcomplaints⟩
      rintro ⟨hstuck, _⟩
      rw [hstuck] at hbusy
      cases hbusy
  | stuck hstuck _ _ _ hcomplaints =>
      by_cases hzero : config.quiet = 0
      · rw [if_pos hzero] at hcomplaints
        exact .inl ⟨hstuck, hzero, hcomplaints⟩
      · rw [if_neg hzero, List.append_nil] at hcomplaints
        exact .inr ⟨fun hboth => hzero hboth.2, hcomplaints⟩
  | recover hrecover _ _ _ hcomplaints =>
      refine .inr ⟨?_, hcomplaints⟩
      rintro ⟨hstuck, _⟩
      rw [hstuck] at hrecover
      cases hrecover
  | ended hover hsame =>
      refine .inr ⟨?_, by rw [hsame]⟩
      rintro ⟨hstuck, _⟩
      rw [Config.isHalted, hstuck] at hover
      cases hover

end Turn

namespace History

variable {config : Nat → Config (S × List (Call V)) V E} {m n : Nat}

/-- Shifted tokens only become more. -/
theorem length_shifted_le (h : History config) (hle : m ≤ n) :
    (config m).shifted.length ≤ (config n).shifted.length := by
  have hmono : Monotone fun n => (config n).shifted.length :=
    monotone_nat_of_le_succ fun n => (h.turn n).length_shifted_le
  exact hmono hle

/-- A run that is stuck was not over before. -/
theorem not_isHalted_of_stuck (h : History config) (hle : m ≤ n)
    (hstuck : (config n).phase = .stuck) : ¬ (config m).isHalted := by
  intro hover
  have hlast : (config n).isHalted :=
    Nat.le_induction hover (fun k _ hk => (h.turn k).isHalted hk) n hle
  rw [Config.isHalted, hstuck] at hlast
  cases hlast

/-- The run is stuck right before it is to recover. -/
theorem exists_stuck_before (h : History config)
    (hrecover : (config n).phase = .recover) :
    ∃ m, n = m + 1 ∧ (config m).phase = .stuck := by
  cases n with
  | zero =>
      rw [h.phase] at hrecover
      cases hrecover
  | succ m => exact ⟨m, rfl, (h.turn m).phase_of_recover hrecover⟩

/-- A run that is stuck again was to recover in between. -/
theorem recover_after_stuck (h : History config)
    (hfirst : (config m).phase = .stuck) (hlt : m < n)
    (hstuck : (config n).phase = .stuck) :
    m + 1 < n ∧ (config (m + 1)).phase = .recover := by
  have hlive := h.not_isHalted_of_stuck hlt hstuck
  have hrecover : (config (m + 1)).phase = .recover :=
    ((h.turn m).recover_of_stuck hfirst).resolve_right hlive
  refine ⟨?_, hrecover⟩
  rcases Nat.lt_or_eq_of_le hlt with hless | heq
  · exact hless
  · rw [← heq, Nat.succ_eq_add_one, hrecover] at hstuck
    cases hstuck

/-- **The counter**, as long as the run goes on: it is at zero until the run is
to recover for the first time, and since the last time it has gone down from
three by the tokens that were shifted. -/
theorem quiet_eq (h : History config) (n : Nat)
    (hlive : ¬ (config n).isHalted) :
    (∀ m < n, (config m).phase ≠ .recover) ∧ (config n).quiet = 0 ∨
    ∃ last, LastRecovery config last n ∧
      (config n).quiet = quietSpell
        - ((config n).shifted.length - (config last).shifted.length) := by
  induction n with
  | zero =>
      refine .inl ⟨?_, h.quiet⟩
      intro m hm
      cases hm
  | succ n ih =>
      have hbefore : ¬ (config n).isHalted :=
        fun hover => hlive ((h.turn n).isHalted hover)
      by_cases hrecover : (config n).phase = .recover
      · obtain ⟨hquiet, hshifted⟩ :=
          (h.turn n).quiet_of_recover hrecover hlive
        refine .inr ⟨n, ⟨Nat.lt_succ_self n, hrecover, ?_⟩, ?_⟩
        · intro m hlater hm
          omega
        · rw [hquiet, hshifted, Nat.sub_self, Nat.sub_zero]
      · have hquiet := (h.turn n).quiet_eq hrecover
        have hmore := (h.turn n).length_shifted_le
        rcases ih hbefore with ⟨hnever, hzero⟩ | ⟨last, hlast, hcount⟩
        · refine .inl ⟨?_, ?_⟩
          · intro m hm
            rcases Nat.lt_succ_iff_lt_or_eq.mp hm with hless | rfl
            · exact hnever m hless
            · exact hrecover
          · rw [hquiet, hzero, Nat.zero_sub]
        · refine .inr ⟨last, ⟨?_, hlast.recovers, ?_⟩, ?_⟩
          · exact Nat.lt_succ_of_lt hlast.before
          · intro m hlater hm
            rcases Nat.lt_succ_iff_lt_or_eq.mp hm with hless | rfl
            · exact hlast.none_after m hlater hless
            · exact hrecover
          · have hsince := h.length_shifted_le (Nat.le_of_lt hlast.before)
            omega

/-- **The counter is at zero exactly if a report is due.** -/
theorem quiet_eq_zero_iff_due (h : History config)
    (hstuck : (config n).phase = .stuck) :
    (config n).quiet = 0 ↔ Due config n := by
  have hlive := h.not_isHalted_of_stuck (Nat.le_refl n) hstuck
  rcases h.quiet_eq n hlive with ⟨hnever, hzero⟩ | ⟨last, hlast, hcount⟩
  · refine iff_of_true hzero (.inl ?_)
    intro earlier hearlier hfirst
    obtain ⟨hlt, hrecover⟩ := h.recover_after_stuck hfirst hearlier hstuck
    exact hnever (earlier + 1) hlt hrecover
  · have hsince := h.length_shifted_le (Nat.le_of_lt hlast.before)
    have hspell : quietSpell = 3 := rfl
    constructor
    · intro hzero
      exact .inr ⟨last, hlast, by omega⟩
    · rintro (hfirst | ⟨other, hother, hthree⟩)
      · -- the run was stuck right before the last recovery
        obtain ⟨before, rfl, hbefore⟩ := h.exists_stuck_before hlast.recovers
        exact absurd hbefore
          (hfirst before (Nat.lt_of_succ_lt hlast.before))
      · obtain rfl := hother.unique hlast
        omega

/-- An error is reported exactly where the run is stuck and not to be quiet. -/
theorem complainsAt_iff (h : History config) (n : Nat) :
    ComplainsAt config n ↔
      (config n).phase = .stuck ∧ (config n).quiet = 0 := by
  rcases (h.turn n).complaints_cases with
    ⟨hstuck, hzero, hcomplaints⟩ | ⟨hnot, hcomplaints⟩
  · exact iff_of_true hcomplaints ⟨hstuck, hzero⟩
  · refine iff_of_false ?_ hnot
    intro hcomplains
    have hlength := congrArg List.length (hcomplaints.symm.trans hcomplains)
    simp at hlength

/-- At any other step the reports stay as they are. -/
theorem complaints_eq (h : History config) (hnot : ¬ ComplainsAt config n) :
    (config (n + 1)).complaints = (config n).complaints := by
  rcases (h.turn n).complaints_cases with ⟨_, _, hcomplaints⟩ | ⟨_, hsame⟩
  · exact absurd hcomplaints hnot
  · exact hsame

/-- **Between two reports three tokens are shifted**, since the run is to
recover right after the first. -/
theorem three_shifts (h : History config) (hlt : m < n)
    (hfirst : ComplainsAt config m) (hsecond : ComplainsAt config n) :
    (config m).shifted.length + 3 ≤ (config n).shifted.length := by
  obtain ⟨hstuck, _⟩ := (h.complainsAt_iff m).mp hfirst
  obtain ⟨hagain, hzero⟩ := (h.complainsAt_iff n).mp hsecond
  obtain ⟨hbefore, hrecover⟩ := h.recover_after_stuck hstuck hlt hagain
  rcases (h.quiet_eq_zero_iff_due hagain).mp hzero with
    hnever | ⟨last, hlast, hthree⟩
  · exact absurd hstuck (hnever m hlt)
  · have hlater : m + 1 ≤ last := by
      by_contra hless
      exact hlast.none_after (m + 1) (by omega) hbefore hrecover
    have hmore := h.length_shifted_le (Nat.le_of_succ_le hlater)
    omega

end History

/-- Whether a report is due does not depend on the calls. -/
theorem due_unwatched (config : Nat → Config (S × List (Call V)) V E)
    (n : Nat) : Due (fun n => (config n).unwatched) n ↔ Due config n := by
  have hlast (last : Nat) :
      LastRecovery (fun n => (config n).unwatched) last n ↔
        LastRecovery config last n :=
    ⟨fun h => ⟨h.before, h.recovers, h.none_after⟩,
      fun h => ⟨h.before, h.recovers, h.none_after⟩⟩
  unfold Due
  simp only [hlast]
  rfl

/-- The steps of a run, with a watched semantics, make a history. -/
theorem history_run (tables : Tables) (semantics : Semantics S V E)
    (tape : Tape) (memory : S) (start : Nat) :
    History fun n =>
      (Config.initial semantics.watched (memory, []) start).run tables
        semantics.watched tape n where
  phase := rfl
  quiet := rfl
  turn n := by
    rw [Config.run_succ]
    exact Config.turn_step tables semantics tape _

/-- **A syntax error is reported the first time, or after three shifts.**  Over
any tables, tokens and semantics, and in every step in which the run is stuck,
the semantics is told of a syntax error if and only if the run has not been
stuck before, or three tokens have been shifted since it was last to recover,
not counting the error token.  It is told of none in any other step.  So between
two reports three tokens are shifted at least. -/
theorem complains_first_or_after_three_shifts (tables : Tables)
    (semantics : Semantics S V E) (tape : Tape) (memory : S) (start : Nat) :
    let config := fun n =>
      (Config.initial semantics memory start).run tables semantics tape n
    let watched := fun n =>
      (Config.initial semantics.watched (memory, []) start).run tables
        semantics.watched tape n
    (∀ n, (watched n).unwatched = config n) ∧
    (∀ n, (config n).phase = .stuck →
      (ComplainsAt watched n ↔ Due config n)) ∧
    (∀ n, ComplainsAt watched n → (config n).phase = .stuck) ∧
    (∀ n, ¬ ComplainsAt watched n →
      (watched (n + 1)).complaints = (watched n).complaints) ∧
    ∀ m n, m < n → ComplainsAt watched m → ComplainsAt watched n →
      (config m).shifted.length + 3 ≤ (config n).shifted.length := by
  intro config watched
  have hsame : ∀ n, (watched n).unwatched = config n := fun n =>
    Config.unwatched_run semantics tables tape
      (Config.initial semantics.watched (memory, []) start) n
  have hhistory : History watched :=
    history_run tables semantics tape memory start
  have hunwatched : config = fun n => (watched n).unwatched :=
    funext fun n => (hsame n).symm
  refine ⟨hsame, ?_⟩
  rw [hunwatched]
  refine ⟨?_, ?_, ?_, ?_⟩
  · intro n hstuck
    have hphase : (watched n).phase = .stuck := hstuck
    rw [hhistory.complainsAt_iff, due_unwatched,
      ← hhistory.quiet_eq_zero_iff_due hphase]
    exact and_iff_right hphase
  · intro n hcomplains
    exact ((hhistory.complainsAt_iff n).mp hcomplains).1
  · intro n hnot
    exact hhistory.complaints_eq hnot
  · intro m n hlt hfirst hsecond
    exact hhistory.three_shifts hlt hfirst hsecond

end Complaints

/-- The arrays of an automaton that takes names up to the end of input, and goes
on behind the error token. -/
def listingLayout : Layout :=
  { seekingLayout with
    table := #[2, 1, 0, 1]
    owner := #[0, 1, -1, 3] }

/-- The layout is a valid one. -/
theorem defect?_listingLayout : listingLayout.defect? = none := by
  decide +kernel

/-- Of three dots among names the second is passed over in silence, for only two
names are between it and the first. -/
example :
    let dot := Token.bare .dot none
    let name := Token.bare .name (some "x")
    let config := Transcript.ofSource ⟨listingLayout, defect?_listingLayout⟩
      none (Source.ofTokens [dot, name, name, dot, name, name, name, dot])
    config.discarded = [dot, dot, dot] ∧
      config.log.count (.complain (some .dot)) = 2 ∧
      config.halt? = some .accepted := by
  decide +kernel

end LambdaStack.Automaton
