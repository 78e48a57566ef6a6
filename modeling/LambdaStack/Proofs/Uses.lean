import LambdaStack.Proofs.Typing

/-!
# Where identifiers are used

An identifier right behind `let` is declared; anywhere else it is **used**
(`UsedAt`).  The automaton tells the two apart by its states: it enters state 7
with `let` and nothing else, and from there an identifier leads to state 17;
from everywhere else it leads to state 4, which looks at no further token and
reduces at once.  So an identifier that is used is looked up before the next
token is read.

`Resolved` puts this down for a run on a tape whose words have their texts:
every identifier used so far was bound when it was looked up, except perhaps
the last one, which is about to be.  A reading that fails does so at the last
token it has read, and that token is the use of a name that is not bound
(`use_of_failure`).
-/

namespace LambdaStack.Grammar

open Automaton

/-- The last of the tokens is a `let`. -/
def EndsWithLet (tokens : List Token) : Prop :=
  tokens.getLast?.map Token.kind = some .letWord

/-- The token with the given index is an identifier of the given name that
does not stand right behind a `let`. -/
def UsedAt (tokens : List Token) (index : Nat) (name : String) : Prop :=
  (∃ token, tokens[index]? = some token ∧ token.kind = .identifier ∧
    token.text = some name) ∧
  ¬ EndsWithLet (tokens.take index)

section Lists

variable {tokens more : List Token} {token : Token} {index : Nat}
  {name other : String}

@[simp]
theorem endsWithLet_concat :
    EndsWithLet (tokens ++ [token]) ↔ token.kind = .letWord := by
  simp [EndsWithLet]

theorem UsedAt.lt_length (h : UsedAt tokens index name) :
    index < tokens.length := by
  obtain ⟨⟨token, htoken, _⟩, _⟩ := h
  exact (List.getElem?_eq_some_iff.mp htoken).1

/-- A token has one name. -/
theorem UsedAt.name_eq (h : UsedAt tokens index name)
    (hother : UsedAt tokens index other) : other = name := by
  obtain ⟨⟨token, htoken, _, htext⟩, _⟩ := h
  obtain ⟨⟨found, hfound, _, hname⟩, _⟩ := hother
  rw [htoken] at hfound
  obtain rfl := Option.some.inj hfound
  rw [htext] at hname
  exact (Option.some.inj hname).symm

/-- Tokens behind a use do not matter to it. -/
theorem usedAt_append (hindex : index < tokens.length) :
    UsedAt (tokens ++ more) index name ↔ UsedAt tokens index name := by
  rw [UsedAt, UsedAt, List.getElem?_append_left hindex,
    List.take_append_of_le_length (Nat.le_of_lt hindex)]

/-- The last token is a use. -/
theorem usedAt_concat :
    UsedAt (tokens ++ [token]) tokens.length name ↔
      token.kind = .identifier ∧ token.text = some name ∧
        ¬ EndsWithLet tokens := by
  rw [UsedAt, List.take_left, List.getElem?_concat_length]
  constructor
  · rintro ⟨⟨found, hfound, hkind, htext⟩, hlet⟩
    obtain rfl := Option.some.inj hfound
    exact ⟨hkind, htext, hlet⟩
  · rintro ⟨hkind, htext, hlet⟩
    exact ⟨⟨token, rfl, hkind, htext⟩, hlet⟩

end Lists

/-! ### The states of a use and of a declaration -/

/-- The state with a used identifier on top. -/
def useState : Nat := 4

/-- The state with a `let` on top. -/
def letState : Nat := 7

/-- How edges keep uses and declarations apart. -/
def TellsApart (state : Nat) (symbol : GrammarSymbol) (target : Nat) : Prop :=
  state ≠ useState ∧
    (target = letState ↔ symbol = .terminal .letWord) ∧
    (target = useState ↔ symbol = .terminal .identifier ∧ state ≠ letState)

instance (state : Nat) (symbol : GrammarSymbol) (target : Nat) :
    Decidable (TellsApart state symbol target) :=
  inferInstanceAs (Decidable (_ ∧ _ ∧ _))

theorem tellsApart_of_edge? {state target : Nat} {symbol : GrammarSymbol}
    (hstate : state < stateCount) (h : edge? state symbol = some target) :
    TellsApart state symbol target := by
  have hall : ∀ state < stateCount, ∀ symbol ∈ allSymbols,
      ∀ target ∈ edge? state symbol, TellsApart state symbol target := by
    decide +kernel
  exact hall state hstate symbol (mem_allSymbols symbol) target h

/-- Behind a `let` nothing is reduced, and behind a used identifier nothing but
its own rule. -/
theorem completed_of_mem {state rule : Nat} {p : Rule}
    (hstate : state < stateCount) (hrule : production rule = some p)
    (hitem : ⟨rule, p.output.length⟩ ∈ itemsOf state) :
    state ≠ letState ∧ (state = useState ↔ rule = 10) := by
  have hall : ∀ state < stateCount, ∀ rule ≤ lastRule,
      ∀ p ∈ production rule, ⟨rule, p.output.length⟩ ∈ itemsOf state →
      state ≠ letState ∧ (state = useState ↔ rule = 10) := by
    decide +kernel
  exact hall state hstate rule (le_lastRule_of_production hrule) p hrule hitem

/-- A used identifier is reduced without a look at the next token. -/
theorem needsLookahead?_useState :
    tables.needsLookahead? useState = some false := by
  decide +kernel

/-! ### Uses are looked up one by one -/

/-- The names that are bound. -/
abbrev Draft.names (draft : Draft) : List String :=
  draft.program.symbols.names

/-- Reductions forget no name. -/
theorem mem_names_reduce {draft : Draft} {name : String}
    (h : name ∈ draft.names) (rule : Nat) (frame : List Value) :
    name ∈ (semantics.reduce draft rule frame).1.names := by
  simp only [semantics]
  split
  · next contribution _ =>
    show name ∈ (contribution.addTo draft.program).symbols.names
    unfold Contribution.addTo
    cases contribution.binding with
    | none => exact h
    | some binding => exact mem_names_insert binding.2 (Or.inr h)
  · exact h

/-- Every identifier that was used so far is bound, except perhaps the last
token if the run is about to look it up. -/
structure Resolved (config : Config Draft Value Refusal) : Prop where
  /-- the identifier that is about to be looked up is the last token read -/
  current : config.stack.state = useState → config.pending = none ∧
    ∃ name, UsedAt config.shifted (config.shifted.length - 1) name ∧
      config.stack.top.value = .text name
  declaring : config.stack.state = letState ↔ EndsWithLet config.shifted
  bound : ∀ index name, UsedAt config.shifted index name →
    index + 1 < config.shifted.length ∨ config.stack.state ≠ useState →
    name ∈ config.memory.names
  /-- a reading fails at a use, because the name is not bound -/
  failed : ∀ reason, config.phase = .halted (.failed reason) →
    config.stack.state = useState ∧ ∃ name, reason = .undefined name ∧
      config.stack.top.value = .text name ∧ name ∉ config.memory.names

/-- A name is bound or it is not. -/
theorem not_mem_names_iff {draft : Draft} {name : String} :
    name ∉ draft.names ↔ draft.program.symbols.get? name = none := by
  rw [mem_names_iff, Option.eq_none_iff_forall_ne_some]
  exact not_exists

section Moves

variable {tape : Tape} {start : Nat}
  {config next : Config Draft Value Refusal}
  {symbols after : List GrammarSymbol}

theorem resolved_initial (draft : Draft) :
    Resolved (Config.initial semantics draft start) where
  current h := by
    have hzero : 0 = useState := h
    exact absurd hzero (by decide)
  declaring := by simp [EndsWithLet, Config.shifted, Config.initial,
    Stack.initial, Stack.state, letState]
  bound index name h _ := absurd h.lt_length (by
    simp [Config.shifted, Config.initial])
  failed reason h := by cases h

/-- Nothing matters but the stack, the pending token, the shifted tokens and
the names. -/
theorem Resolved.of_eq (h : Resolved config)
    (hstack : next.stack = config.stack)
    (hpending : config.stack.state = useState →
      next.pending = config.pending)
    (hshifted : next.shifted = config.shifted)
    (hnames : ∀ name ∈ config.memory.names, name ∈ next.memory.names)
    (hrunning : ∀ reason, next.phase ≠ .halted (.failed reason)) :
    Resolved next where
  current := by
    rw [hstack, hshifted]
    intro hstate
    rw [hpending hstate]
    exact h.current hstate
  declaring := by
    rw [hstack, hshifted]
    exact h.declaring
  bound := by
    rw [hstack, hshifted]
    exact fun index name hused hearlier =>
      hnames name (h.bound index name hused hearlier)
  failed := fun reason hfailed => absurd hfailed (hrunning reason)

/-- Shifting a token: an identifier is about to be looked up unless it stands
behind a `let`. -/
theorem Resolved.shift (h : Resolved config) (htape : WordedTape tape)
    (hreads : config.ReadsFrom tape start) {target : Nat}
    (hstate : config.stack.state < stateCount)
    (hedge : edge? config.stack.state
      (.terminal (config.look tape).1.kind) = some target) :
    Resolved ((config.look tape).2.shift semantics (config.look tape).1
      target) := by
  obtain ⟨hbefore, hlet, huse⟩ := tellsApart_of_edge? hstate hedge
  have hshifted : ((config.look tape).2.shift semantics (config.look tape).1
      target).shifted = config.shifted ++ [(config.look tape).1] := by
    simp
  have hmemory : ((config.look tape).2.shift semantics (config.look tape).1
      target).memory = config.memory := by
    show (config.look tape).2.memory = _
    rw [Config.memory_look]
  generalize hnext : (config.look tape).2.shift semantics
    (config.look tape).1 target = next at hshifted hmemory
  have htarget : next.stack.state = target := by rw [← hnext]; rfl
  obtain ⟨place, hplace⟩ := exists_look_eq hreads
  refine ⟨?_, ?_, ?_, ?_⟩
  · intro hstate
    obtain ⟨hkind, hnotLet⟩ := huse.mp (htarget.symm.trans hstate)
    have hkind : (config.look tape).1.kind = .identifier := by
      simpa using hkind
    obtain ⟨name, hname⟩ : ∃ name, (config.look tape).1.text = some name := by
      rw [hplace] at hkind ⊢
      exact Option.isSome_iff_exists.mp (htape place (Or.inl hkind))
    refine ⟨by rw [← hnext]; rfl, name, ?_, ?_⟩
    · rw [hshifted, List.length_append, List.length_singleton,
        Nat.add_sub_cancel, usedAt_concat]
      exact ⟨hkind, hname, fun hends => hnotLet (h.declaring.mpr hends)⟩
    · rw [← hnext, ← tokenValue_of_text hname]
      rfl
  · rw [htarget, hshifted, endsWithLet_concat, hlet]
    simp
  · intro index name hused hearlier
    rw [hmemory]
    rw [hshifted] at hused hearlier
    rw [List.length_append, List.length_singleton, htarget] at hearlier
    rcases Nat.lt_or_ge index config.shifted.length with hlt | hge
    · exact h.bound index name ((usedAt_append hlt).mp hused) (Or.inr hbefore)
    · -- the new token: it is no use, or it is about to be looked up
      have hlast : index = config.shifted.length := by
        have hlt := hused.lt_length
        rw [List.length_append, List.length_singleton] at hlt
        omega
      rw [hlast, usedAt_concat] at hused
      obtain ⟨hkind, _, hnotLet⟩ := hused
      have hnotUse : target ≠ useState := hearlier.resolve_left (by omega)
      refine absurd (huse.mpr ⟨by rw [hkind], ?_⟩) hnotUse
      exact fun hstate => hnotLet (h.declaring.mp hstate)
  · intro reason hfailed
    rw [← hnext] at hfailed
    cases hfailed

/-- A rule that is about to be reduced has been read to its end. -/
theorem Tracked.item_of_reduce {rule : Nat} {p : Rule}
    (h : Tracked config symbols) (hphase : config.phase = .reduce rule)
    (hrule : production rule = some p) :
    ⟨rule, p.output.length⟩ ∈ itemsOf config.stack.state := by
  have hfits := h.fits
  rw [PhaseFits, hphase] at hfits
  obtain ⟨_, _, found, hfound, hitem⟩ := hfits
  obtain rfl : found = p := Option.some.inj (hfound.symm.trans hrule)
  exact hitem

/-- Reducing a rule: if it is the use of an identifier, the name is bound. -/
theorem Resolved.reduced (h : Resolved config) {rule target : Nat} {p : Rule}
    {memory : Draft} {value : Value} {rest : Stack Value}
    (htracked : Tracked config symbols) (hphase : config.phase = .reduce rule)
    (hrule : production rule = some p)
    (hvalue : semantics.reduce config.memory rule
      (config.stack.frame p.output.length) = (memory, .ok value))
    (hbelow : rest.state < stateCount)
    (hedge : edge? rest.state (.nonterminal p.input) = some target) :
    Resolved (config.reduced rule p.output.length target memory value
      rest) := by
  obtain ⟨_, hlet, huse⟩ := tellsApart_of_edge? hbelow hedge
  have hnotLet : target ≠ letState := fun htarget => by simpa using hlet.mp htarget
  have hnotUse : target ≠ useState := fun htarget => by simpa using huse.mp htarget
  have hpath := htracked.path
  rw [Stack.states_eq_cons] at hpath
  have hitem := htracked.item_of_reduce hphase hrule
  obtain ⟨hstate, hcompleted⟩ := completed_of_mem hpath.head_lt hrule hitem
  have hgrows : ∀ name ∈ config.memory.names, name ∈ memory.names := by
    intro name hname
    have hkept := mem_names_reduce hname rule
      (config.stack.frame p.output.length)
    rwa [hvalue] at hkept
  refine ⟨fun htarget => absurd htarget hnotUse, ?_, ?_, ?_⟩
  · refine ⟨fun htarget => absurd htarget hnotLet, fun hends => ?_⟩
    exact absurd (h.declaring.mpr hends) hstate
  · intro index name hused _
    rw [Config.shifted_reduced] at hused
    by_cases hearlier : index + 1 < config.shifted.length ∨
        config.stack.state ≠ useState
    · exact hgrows name (h.bound index name hused hearlier)
    · rw [not_or, not_not] at hearlier
      obtain ⟨hindex, hcurrent⟩ := hearlier
      obtain rfl := hcompleted.mp hcurrent
      obtain ⟨_, found, hfound, htop⟩ := h.current hcurrent
      have hlast : index = config.shifted.length - 1 := by
        have hlt := hused.lt_length
        omega
      rw [hlast] at hused
      obtain rfl := hfound.name_eq hused
      apply hgrows
      by_contra hunbound
      obtain rfl := Option.some.inj hrule
      have hframe : config.stack.frame 1 = [.text name] := by
        rw [← htop]
        rfl
      change semantics.reduce config.memory 10 (config.stack.frame 1)
        = (memory, .ok value) at hvalue
      rw [hframe, reduce_undefined (not_mem_names_iff.mp hunbound)] at hvalue
      cases hvalue
  · intro reason hfailed
    cases hfailed

/-- A refused rule is the use of an identifier that is not bound. -/
theorem Resolved.refused (h : Resolved config) {rule : Nat} {p : Rule}
    {memory : Draft} {reason : Refusal}
    (htracked : Tracked config symbols) (hphase : config.phase = .reduce rule)
    (hrule : production rule = some p)
    (hvalue : semantics.reduce config.memory rule
      (config.stack.frame p.output.length) = (memory, .error reason))
    (hkept : Kept (fun draft => draft.program.WellFormed)
      (fun draft value => Holds draft.program value) config)
    (hsuited : Suited symbols (stackValues config.stack)) :
    Resolved (config.refused rule memory reason) := by
  rcases htracked.reduce_cases hphase hrule hkept hsuited with
    ⟨_, _, hreduce, _⟩ | ⟨rfl, name, hframe, hnone, hreduce⟩
  · rw [hvalue] at hreduce
    cases hreduce
  · rw [hvalue] at hreduce
    cases hreduce
    refine ⟨h.current, h.declaring, h.bound, ?_⟩
    intro found hfound
    cases hfound
    have hitem := htracked.item_of_reduce hphase hrule
    have hpath := htracked.path
    rw [Stack.states_eq_cons] at hpath
    have hcurrent := (completed_of_mem hpath.head_lt hrule hitem).2.mpr rfl
    refine ⟨hcurrent, name, rfl, ?_, not_mem_names_iff.mpr hnone⟩
    obtain rfl := Option.some.inj hrule
    have htop : [config.stack.top.value] = [.text name] := hframe
    exact List.singleton_inj.mp htop

/-- **Moves look uses up one by one.** -/
theorem Move.resolved (hmove : Move semantics tape config symbols next after)
    (htape : WordedTape tape) (hreads : config.ReadsFrom tape start)
    (htracked : Tracked config symbols)
    (hkept : Kept (fun draft => draft.program.WellFormed)
      (fun draft value => Holds draft.program value) config)
    (hsuited : Suited symbols (stackValues config.stack))
    (h : Resolved config) : Resolved next := by
  have hpath := htracked.path
  rw [Stack.states_eq_cons] at hpath
  cases hmove with
  | shift hphase hfinal hedge => exact h.shift htape hreads hpath.head_lt hedge
  | pass hphase hfinal hnext hlooks =>
      have hnotUse : config.stack.state ≠ useState := by
        intro hstate
        rw [hstate, needsLookahead?_useState] at hlooks
        cases hlooks
      refine h.of_eq (Config.stack_look config tape)
        (fun hstate => absurd hstate hnotUse)
        (Config.shifted_look config tape) ?_ ?_
      · intro name hname
        show name ∈ (config.look tape).2.memory.names
        rw [Config.memory_look]
        exact hname
      · intro reason hfailed
        rcases hnext with rfl | rfl <;> cases hfailed
  | reduce hphase hreducible hrule hvalue hentries hrest hedge =>
      rw [Stack.states_eq_cons] at hrest
      exact h.reduced htracked hphase hrule hvalue hrest.head_lt hedge
  | refuse hphase hrule hvalue =>
      exact h.refused htracked hphase hrule hvalue hkept hsuited
  | complain hphase =>
      refine h.of_eq (Config.stack_complain config semantics)
        (fun _ => Config.pending_complain config semantics)
        (Config.shifted_complain config semantics) ?_ ?_
      · intro name hname
        show name ∈ (config.complain semantics).memory.names
        unfold Config.complain
        split <;> exact hname
      · intro reason hfailed
        cases hfailed
  | accept | blind | choose | despair | giveUp =>
      refine h.of_eq rfl (fun _ => rfl) rfl (fun _ hname => hname) ?_
      intro reason hfailed
      cases hfailed

end Moves

/-- **A reading fails at the use of a name that is not bound.**  On a tape whose
words have their texts a run fails for no other reason.  The use is the last
token it has read, and the names used before it are all bound by then. -/
theorem use_of_failure {tape : Tape} (htape : WordedTape tape) {draft : Draft}
    (hprogram : draft.program.WellFormed) {start fuel : Nat}
    {final : Config Draft Value Refusal}
    (hrun : (Config.initial semantics draft start).run tables semantics tape
      fuel = final)
    {reason : Refusal} (hfailed : final.phase = .halted (.failed reason)) :
    ∃ index name, reason = .undefined name ∧
      final.taken = start + (index + 1) ∧
      final.shifted = (List.range' start (index + 1)).map tape ∧
      UsedAt ((List.range' start (index + 1)).map tape) index name ∧
      name ∉ final.memory.names ∧
      ∀ earlier other, earlier < index →
        UsedAt ((List.range' start (index + 1)).map tape) earlier other →
        other ∈ final.memory.names := by
  obtain ⟨symbols, _, hrecorded, _, hresolved⟩ := exists_kept_run
    semantics_keeps tape
    (fun config symbols => Recorded tape start config symbols ∧
      Suited symbols (stackValues config.stack) ∧ Resolved config)
    (fun htracked hkept h hmove => ⟨hmove.recorded h.1,
      hmove.suited htape h.1.reads htracked hkept h.2.1,
      hmove.resolved htape h.1.reads htracked hkept h.2.1 h.2.2⟩)
    (tracked_initial semantics draft start)
    (Kept.initial semantics_keeps draft hprogram start)
    ⟨recorded_initial semantics tape draft start, Suited.bottom _,
      resolved_initial draft⟩ fuel
  rw [hrun] at hrecorded hresolved
  obtain ⟨hstate, name, hreason, htop, hunbound⟩ :=
    hresolved.failed reason hfailed
  obtain ⟨hpending, found, hused, hfound⟩ := hresolved.current hstate
  obtain rfl : found = name := by
    rw [htop] at hfound
    exact (Value.text.inj hfound).symm
  obtain ⟨hstart, hread⟩ := hrecorded.reads
  rw [hpending, Option.toList_none, List.append_nil] at hread
  have hlength := congrArg List.length hread
  rw [List.length_map, List.length_range'] at hlength
  have hpositive := hused.lt_length
  have hcount : final.shifted.length - 1 + 1 = final.taken - start := by omega
  rw [← hcount] at hread
  refine ⟨final.shifted.length - 1, found, hreason, by omega, hread, ?_,
    hunbound, ?_⟩
  · rw [← hread]
    exact hused
  · intro earlier other hearlier hother
    rw [← hread] at hother
    exact hresolved.bound earlier other hother (Or.inl (by omega))

end LambdaStack.Grammar
