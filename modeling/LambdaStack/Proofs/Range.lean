import Mathlib.Data.List.Basic
import LambdaStack.Automaton.Transcript
import LambdaStack.Grammar.Tables
import LambdaStack.Proofs.Trace
import LambdaStack.Proofs.Reachable

/-!
# States that a run can enter

The entries of a table are checked one at a time, and the check does not know
what an entry will be used for.  Used in a row, an entry is told apart by its
sign: it shifts, reduces or fails.  Used in a column, or for the error token,
it is taken for a state whatever it was meant to be.

So a shift always enters a state.  A reduction or a recovery enters a state or
is **misled**: it finds an entry that stands for a reduction or an error, and
takes the number of that for a state.  If there is no such state the run has
**strayed**, and ends as soon as it looks the state up.

Everything is proved from `Layout.Checked`, which lists what the check has
found out.
-/

namespace LambdaStack.Automaton

namespace Layout

/-- What is promised of a layout without defects. -/
structure Checked (layout : Layout) : Prop where
  rowDefault_size : layout.rowDefault.size = layout.states
  columnDefault_size : layout.columnDefault.size = layout.nonterminals
  owner_size : layout.owner.size = layout.table.size
  length_size : layout.length.size = layout.rules
  rowDefault : ∀ (state rule : Nat), layout.rowDefault[state]? = some rule →
    rule = 0 ∨ layout.isReducible rule
  columnDefault : ∀ (index : Nat) target,
    layout.columnDefault[index]? = some target →
    layout.isState target ∨ index = 0 ∧ target = -1
  table : ∀ (index : Nat) entry, layout.table[index]? = some entry →
    entry = 0 ∨ entry = layout.errorEntry ∨ layout.isState entry ∨
      layout.isReducible (-entry)
  head : ∀ (rule symbol : Nat), layout.head[rule]? = some symbol →
    rule = 0 ∨ layout.isNonterminal symbol
  terminalOf : ∀ kind, layout.terminalOf kind < layout.terminals
  finalState : layout.finalState < layout.states

/-- A length without defect is the expected one. -/
theorem lengthDefect?_eq_none_iff {array : String} {found expected : Nat} :
    lengthDefect? array found expected = none ↔ found = expected := by
  simp [lengthDefect?]

/-- Entries without defect are valid, each at its index. -/
theorem entryDefect?_eq_none_iff {array : String} {valid : Nat → Int → Bool}
    {start : Nat} {values : List Int} :
    entryDefect? array valid start values = none ↔
      ∀ index value, values[index]? = some value →
        valid (start + index) value := by
  induction values generalizing start with
  | nil => simp [entryDefect?]
  | cons first rest ih =>
      rw [entryDefect?]
      constructor
      · intro h index value hvalue
        split at h
        · next hfirst =>
          cases index with
          | zero =>
              obtain rfl := Option.some.inj hvalue
              exact hfirst
          | succ index =>
              have hlater := ih.mp h index value hvalue
              rwa [Nat.add_right_comm] at hlater
        · cases h
      · intro h
        have hfirst : valid start first := h 0 first rfl
        rw [if_pos hfirst, ih]
        intro index value hvalue
        have hlater := h (index + 1) value hvalue
        rwa [← Nat.add_assoc, Nat.add_right_comm] at hlater

/-- A layout without defect has all the properties that are checked. -/
theorem checked_of_defect? {layout : Layout} (h : layout.defect? = none) :
    layout.Checked := by
  simp only [defect?, Option.orElse_eq_orElse, Option.orElse_eq_or,
    Option.or_eq_none_iff, lengthDefect?_eq_none_iff,
    entryDefect?_eq_none_iff, Nat.zero_add] at h
  obtain ⟨hrow, hcolumn, howner, hlength, hdefact, hdefgoto, htable, hhead,
    htranslate, hfinal⟩ := h
  have hget : ∀ (values : Array Nat) (index value : Nat),
      values[index]? = some value →
      (values.toList.map Int.ofNat)[index]? = some (Int.ofNat value) := by
    intro values index value hvalue
    rw [List.getElem?_map, Array.getElem?_toList, hvalue]
    rfl
  refine ⟨hrow, hcolumn, howner, hlength, ?_, ?_, ?_, ?_, ?_, ?_⟩
  · intro state rule hrule
    simpa using hdefact state rule (hget _ _ _ hrule)
  · intro index target htarget
    simpa using hdefgoto index target (by simpa using htarget)
  · intro index entry hentry
    simpa [or_assoc] using htable index entry (by simpa using hentry)
  · intro rule symbol hsymbol
    simpa using hhead rule symbol (hget _ _ _ hsymbol)
  · intro kind
    have hkind : (Kind.all.map fun kind =>
        Int.ofNat (layout.terminalOf kind))[kind.index]?
        = some (Int.ofNat (layout.terminalOf kind)) := by
      rw [List.getElem?_map, Kind.all_index]
      rfl
    simpa using htranslate kind.index _ hkind
  · by_contra hle
    rw [if_neg hle] at hfinal
    cases hfinal

end Layout

/-! ### What checked tables answer -/

/-- An action of checked tables: to enter a state, or to reduce by a rule that
can be reduced. -/
def Action.Fits (tables : Tables) : Action → Prop
  | .shift target => 0 < target ∧ target < tables.states
  | .reduce rule => tables.layout.isReducible rule
  | .default | .fail => True

namespace Tables

variable {tables : Tables} {state rule head target : Nat}

/-- Tables are made only of layouts that were checked. -/
theorem checked (tables : Tables) : tables.layout.Checked :=
  Layout.checked_of_defect? tables.sound

/-- There is at least one state. -/
theorem states_pos (tables : Tables) : 0 < tables.states :=
  Nat.zero_lt_of_lt tables.checked.finalState

/-- Reducible rules are those from 2 on. -/
theorem isReducible_iff {value : Int} :
    tables.layout.isReducible value ↔
      2 ≤ value ∧ value < tables.layout.rules := by
  simp [Layout.isReducible]

/-- States are the numbers below the number of states. -/
theorem isState_iff {value : Int} :
    tables.layout.isState value ↔ 0 ≤ value ∧ value < tables.states := by
  simp [Layout.isState, states]

/-- Some entry of the table has the number of the state when its sign is
disregarded, and is no state: it stands for a reduction or for an error. -/
def Misnames (tables : Tables) (target : Nat) : Prop :=
  ∃ entry ∈ tables.layout.table.toList, entry.natAbs = target ∧
    (entry = tables.layout.errorEntry ∨ tables.layout.isReducible (-entry))

/-- An entry that is found stands in the table. -/
theorem exists_index_of_entry? {base entry : Int} {offset owner : Nat}
    (h : tables.entry? base offset owner = some entry) :
    ∃ index : Nat, tables.layout.table[index]? = some entry := by
  unfold entry? at h
  split at h
  · split at h
    · exact ⟨_, h⟩
    · cases h
  · cases h

/-- Every state has a row. -/
theorem exists_rowBase (h : state < tables.states) :
    ∃ base, tables.layout.rowBase[state]? = some base :=
  ⟨_, Array.getElem?_eq_getElem h⟩

/-- Every state is known to need a token or not. -/
theorem exists_needsLookahead? (h : state < tables.states) :
    ∃ looks, tables.needsLookahead? state = some looks := by
  obtain ⟨base, hbase⟩ := exists_rowBase h
  rw [needsLookahead?, hbase]
  exact ⟨_, rfl⟩

/-- **An entry of a row** leads to a state, or to a rule that can be
reduced. -/
theorem fits_readEntry {entry : Int} {index : Nat}
    (h : tables.layout.table[index]? = some entry) :
    (tables.readEntry entry).Fits tables := by
  have hentry := tables.checked.table index entry h
  rw [isState_iff, isReducible_iff] at hentry
  unfold readEntry
  split
  · trivial
  · next hfail =>
    rw [not_or] at hfail
    split
    · next hneg =>
      rw [Action.Fits, isReducible_iff]
      omega
    · next hpos =>
      rw [Action.Fits]
      omega

/-- Every state has an action on every symbol, which shifts to no other number
than a state's. -/
theorem exists_action? (h : state < tables.states) (symbol : Nat) :
    ∃ action, tables.action? state symbol = some action ∧
      action.Fits tables := by
  obtain ⟨base, hbase⟩ := exists_rowBase h
  rw [action?, hbase]
  refine ⟨_, rfl, ?_⟩
  dsimp only
  split
  · trivial
  · split
    · trivial
    · next entry hentry =>
      obtain ⟨index, hindex⟩ := exists_index_of_entry? hentry
      exact fits_readEntry hindex

/-- Every state has an entry for its default rule, which is reducible if there
is one. -/
theorem exists_defaultReduction? (h : state < tables.states) :
    ∃ found, tables.defaultReduction? state = some found ∧
      ∀ rule ∈ found, tables.layout.isReducible rule := by
  have hlt : state < tables.layout.rowDefault.size := by
    rw [tables.checked.rowDefault_size]
    exact h
  have hget := Array.getElem?_eq_getElem hlt
  rw [defaultReduction?, hget]
  refine ⟨_, rfl, ?_⟩
  intro rule hrule
  dsimp only at hrule
  rcases tables.checked.rowDefault state _ hget with hzero | hreducible
  · rw [if_pos hzero] at hrule
    cases hrule
  · split at hrule
    · cases hrule
    · obtain rfl := Option.some.inj hrule
      exact hreducible

/-- A rule that can be reduced has a length, and a nonterminal on its left. -/
theorem exists_rule (h : tables.layout.isReducible rule) :
    ∃ length head, tables.ruleLength? rule = some length ∧
      tables.ruleHead? rule = some head ∧
      tables.layout.isNonterminal head := by
  rw [isReducible_iff] at h
  have hrule : rule < tables.layout.head.size := by
    have hlt := h.2
    rw [Layout.rules] at hlt
    omega
  have hlength : rule < tables.layout.length.size := by
    rw [tables.checked.length_size]
    exact hrule
  have hhead := Array.getElem?_eq_getElem hrule
  refine ⟨_, _, Array.getElem?_eq_getElem hlength, hhead, ?_⟩
  rcases tables.checked.head rule _ hhead with hzero | hnonterminal
  · omega
  · exact hnonterminal

/-- **An entry of a column** is read without its sign.  It leads to a state; or
it is the one default that may be missing, and leads to state 1; or it was
never meant as a state. -/
theorem exists_goto? (h : tables.layout.isNonterminal head) (state : Nat) :
    ∃ target, tables.goto? state head = some target ∧
      (target < tables.states ∨ target = 1 ∨ tables.Misnames target) := by
  have hpos := tables.states_pos
  have hhead : tables.layout.terminals ≤ head ∧
      head < tables.layout.terminals + tables.layout.nonterminals := by
    simp only [Layout.isNonterminal, decide_eq_true_eq] at h
    omega
  obtain ⟨base, hbase⟩ : ∃ base, tables.layout.columnBase[head
      - tables.layout.terminals]? = some base := by
    refine ⟨_, Array.getElem?_eq_getElem ?_⟩
    have hlt := hhead.2
    rw [Layout.nonterminals] at hlt
    omega
  obtain ⟨fallback, hfallback⟩ : ∃ fallback, tables.layout.columnDefault[head
      - tables.layout.terminals]? = some fallback := by
    refine ⟨_, Array.getElem?_eq_getElem ?_⟩
    rw [tables.checked.columnDefault_size]
    omega
  have hgoto : tables.goto? state head
      = some ((tables.entry? base state state).getD fallback).natAbs := by
    rw [goto?, if_neg (by omega)]
    dsimp only
    rw [hbase, hfallback]
    rfl
  refine ⟨_, hgoto, ?_⟩
  cases hentry : tables.entry? base state state with
  | none =>
      rw [Option.getD_none]
      rcases tables.checked.columnDefault _ _ hfallback with hstate | ⟨_, hone⟩
      · rw [isState_iff] at hstate
        omega
      · rw [hone]
        exact Or.inr (Or.inl rfl)
  | some entry =>
      rw [Option.getD_some]
      obtain ⟨index, hindex⟩ := exists_index_of_entry? hentry
      have hmem : entry ∈ tables.layout.table.toList := by
        rw [← Array.getElem?_toList] at hindex
        exact List.mem_of_getElem? hindex
      rcases tables.checked.table index entry hindex with
        hzero | herror | hstate | hrule
      · rw [hzero]
        exact Or.inl hpos
      · exact Or.inr (Or.inr ⟨entry, hmem, rfl, Or.inl herror⟩)
      · rw [isState_iff] at hstate
        omega
      · exact Or.inr (Or.inr ⟨entry, hmem, rfl, Or.inr hrule⟩)

/-- **An entry for the error token** leads to a state, or it is the entry that
stands for an error. -/
theorem exists_recovery? (h : state < tables.states) :
    ∃ found, tables.recovery? state = some found ∧
      ∀ target ∈ found, target < tables.states ∨
        tables.layout.errorEntry = target ∧ tables.Misnames target := by
  obtain ⟨base, hbase⟩ := exists_rowBase h
  rw [recovery?, hbase]
  refine ⟨_, rfl, ?_⟩
  intro target htarget
  dsimp only at htarget
  split at htarget
  · cases htarget
  · split at htarget
    · cases htarget
    · next entry hentry =>
      split at htarget
      · next hpos =>
        obtain rfl := Option.some.inj htarget
        obtain ⟨index, hindex⟩ := exists_index_of_entry? hentry
        have hmem : entry ∈ tables.layout.table.toList := by
          rw [← Array.getElem?_toList] at hindex
          exact List.mem_of_getElem? hindex
        have hcases := tables.checked.table index entry hindex
        rw [isState_iff, isReducible_iff] at hcases
        by_cases herror : entry = tables.layout.errorEntry
        · refine Or.inr ⟨?_, entry, hmem, rfl, Or.inl herror⟩
          omega
        · omega
      · cases htarget

end Tables

/-! ### Runs -/

/-- The state that was entered. -/
def Event.entered? : Event → Option Nat
  | shift _ _ target | reduce _ _ target | recover target => some target
  | _ => none

/-- A reduction or a recovery has entered something beyond the last state, for
want of an entry that names one. -/
def Event.Misled (tables : Tables) : Event → Prop
  | reduce _ _ target => tables.states ≤ target ∧ tables.Misnames target
  | recover target => tables.states ≤ target ∧ tables.Misnames target ∧
    tables.layout.errorEntry = target
  | _ => False

/-- A misleading event enters a number that a table misnames. -/
theorem Event.Misled.misnames {tables : Tables} {event : Event} {target : Nat}
    (h : event.Misled tables) (htarget : event.entered? = some target) :
    tables.Misnames target := by
  cases event with
  | reduce rule length entered =>
      cases htarget
      exact h.2
  | recover entered =>
      cases htarget
      exact h.2.1
  | _ => exact h.elim

variable {S V E : Type} {tables : Tables} {semantics : Semantics S V E}
  {tape : Tape} {config next : Config S V E}

/-- So far nothing but states was entered. -/
structure InRange (tables : Tables) (config : Config S V E) : Prop where
  states : ∀ entry ∈ config.stack.entries, entry.state < tables.states
  entered : ∀ event ∈ config.log, ∀ target ∈ event.entered?,
    target < tables.states
  rule : ∀ rule, config.phase = .reduce rule → tables.layout.isReducible rule
  fault : ∀ fault, config.phase = .halted (.faulted fault) →
    ∃ count height, fault = .underflow count height
  /-- tables with a single state accept at once -/
  several : 2 ≤ tables.states ∨ config.phase = .consult ∨ config.isHalted

/-- The last thing that was entered is no state.  The run is about to end for
that reason, or has ended. -/
structure Strayed (tables : Tables) (config : Config S V E) : Prop where
  log : ∃ event earlier, config.log = event :: earlier ∧
    event.Misled tables ∧ event.entered? = some config.stack.state ∧
    ∀ other ∈ earlier, ∀ target ∈ other.entered?, target < tables.states
  beyond : tables.states ≤ config.stack.state
  phase : config.phase = .consult ∨
    config.phase = .halted (.faulted (.noState config.stack.state))

namespace InRange

/-- The state on top is a state. -/
theorem state_lt (h : InRange tables config) :
    config.stack.state < tables.states :=
  h.states config.stack.top List.mem_cons_self

/-- A phase that is neither a reduction nor a fault. -/
theorem of_phase (h : InRange tables config) (htwo : 2 ≤ tables.states)
    (hstack : next.stack = config.stack)
    (hlog : ∀ event ∈ next.log, event ∈ config.log ∨ event.entered? = none)
    (hrule : ∀ rule, next.phase = .reduce rule →
      tables.layout.isReducible rule)
    (hfault : ∀ fault, next.phase = .halted (.faulted fault) →
      ∃ count height, fault = .underflow count height) :
    InRange tables next := by
  refine ⟨?_, ?_, hrule, hfault, Or.inl htwo⟩
  · rw [hstack]
    exact h.states
  · intro event hevent target htarget
    rcases hlog event hevent with hold | hnone
    · exact h.entered event hold target htarget
    · rw [hnone] at htarget
      cases htarget

/-- **Entering a state** keeps the run in range if it is one, and leads it
astray if it is not. -/
theorem enters (h : InRange tables config) (htwo : 2 ≤ tables.states)
    {event : Event} (hlog : next.log = event :: config.log)
    (hentered : event.entered? = some next.stack.state)
    (hbelow : ∀ entry ∈ next.stack.below, entry ∈ config.stack.entries)
    (hphase : next.phase = .consult)
    (htarget : next.stack.state < tables.states ∨
      tables.states ≤ next.stack.state ∧ event.Misled tables) :
    InRange tables next ∨ Strayed tables next := by
  rcases htarget with hlt | ⟨hle, hmisled⟩
  · refine Or.inl ⟨?_, ?_, ?_, ?_, Or.inl htwo⟩
    · intro entry hentry
      rcases List.mem_cons.mp hentry with rfl | hold
      · exact hlt
      · exact h.states entry (hbelow entry hold)
    · rw [hlog]
      intro other hother target htarget
      rcases List.mem_cons.mp hother with rfl | hold
      · rw [hentered] at htarget
        obtain rfl := Option.some.inj htarget
        exact hlt
      · exact h.entered other hold target htarget
    · intro rule hrule
      rw [hphase] at hrule
      cases hrule
    · intro fault hfault
      rw [hphase] at hfault
      cases hfault
  · exact Or.inr ⟨⟨event, config.log, hlog, hmisled, hentered, h.entered⟩, hle,
      Or.inl hphase⟩

/-- Looking at a token keeps the run in range. -/
theorem look (h : InRange tables config) (htwo : 2 ≤ tables.states)
    (tape : Tape) : InRange tables (config.look tape).2 := by
  unfold Config.look
  split
  · exact h
  · refine h.of_phase htwo rfl ?_ h.rule h.fault
    intro event hevent
    rcases List.mem_cons.mp hevent with rfl | hold
    · exact Or.inr rfl
    · exact Or.inl hold

/-- Going on with the same stack and the same log. -/
theorem enter (h : InRange tables config) (htwo : 2 ≤ tables.states)
    {phase : Phase E}
    (hrule : ∀ rule, phase = .reduce rule → tables.layout.isReducible rule)
    (hfault : ∀ fault, phase = .halted (.faulted fault) →
      ∃ count height, fault = .underflow count height) :
    InRange tables (config.enter phase) :=
  h.of_phase htwo rfl (fun _ hold => Or.inl hold) hrule hfault

/-- Ending the run after something that enters nothing. -/
theorem halt (h : InRange tables config) (htwo : 2 ≤ tables.states)
    {event : Event} (hevent : event.entered? = none) {halt : Halt E}
    (hhalt : ∀ fault, halt ≠ .faulted fault) :
    InRange tables ((config.note event).enter (.halted halt)) := by
  refine h.of_phase htwo rfl ?_ ?_ ?_
  · intro other hother
    rcases List.mem_cons.mp hother with rfl | hold
    · exact Or.inr hevent
    · exact Or.inl hold
  · intro rule hrule
    cases hrule
  · intro fault hfault
    cases hfault
    exact absurd rfl (hhalt fault)

/-- A shift enters a state, always. -/
theorem consult (h : InRange tables config) (htwo : 2 ≤ tables.states)
    (semantics : Semantics S V E) (tape : Tape) :
    InRange tables (config.consult tables semantics tape) ∨
      Strayed tables (config.consult tables semantics tape) := by
  obtain ⟨looks, hlooks⟩ := Tables.exists_needsLookahead? h.state_lt
  obtain ⟨action, haction, hfits⟩ := Tables.exists_action? h.state_lt
    (tables.symbol (config.look tape).1.kind)
  have hlook := h.look htwo tape
  simp only [Config.consult, hlooks, haction]
  split
  · exact Or.inl (h.halt htwo rfl (by simp))
  · cases looks with
    | false => exact Or.inl (h.enter htwo (by simp) (by simp))
    | true =>
        cases action with
        | shift target =>
            refine hlook.enters htwo rfl rfl ?_ rfl (Or.inl hfits.2)
            exact fun entry hentry => hentry
        | reduce rule =>
            refine Or.inl (hlook.enter htwo ?_ (by simp))
            intro other hother
            cases hother
            exact hfits
        | default => exact Or.inl (hlook.enter htwo (by simp) (by simp))
        | fail => exact Or.inl (hlook.enter htwo (by simp) (by simp))

/-- A default rule is reducible, so the run stays in range. -/
theorem fallBack (h : InRange tables config) (htwo : 2 ≤ tables.states) :
    InRange tables (config.fallBack tables) := by
  obtain ⟨found, hfound, hrule⟩ := Tables.exists_defaultReduction? h.state_lt
  simp only [Config.fallBack, hfound]
  cases found with
  | none => exact h.enter htwo (by simp) (by simp)
  | some rule =>
      refine h.enter htwo ?_ (by simp)
      intro other hother
      cases hother
      exact hrule rule rfl

/-- A rule leads to a state, or to an entry that was not meant for one. -/
theorem replace (h : InRange tables config) (htwo : 2 ≤ tables.states)
    {head : Nat} (hhead : tables.layout.isNonterminal head)
    (rule length : Nat) (value : V) :
    InRange tables (config.replace tables rule length head value) ∨
      Strayed tables (config.replace tables rule length head value) := by
  unfold Config.replace
  split
  · refine Or.inl (h.enter htwo (by simp) ?_)
    intro fault hfault
    cases hfault
    exact ⟨_, _, rfl⟩
  · next rest hpop =>
    obtain ⟨target, hgoto, htarget⟩ := Tables.exists_goto? hhead rest.state
    simp only [hgoto]
    refine h.enters htwo rfl rfl ?_ rfl ?_
    · intro entry hentry
      have hdrop : entry ∈ config.stack.entries.drop length :=
        Stack.entries_of_pop? hpop ▸ hentry
      exact List.mem_of_mem_drop hdrop
    · rw [Stack.state_push]
      by_cases hlt : target < tables.states
      · exact Or.inl hlt
      · have hle : tables.states ≤ target := by omega
        rcases htarget with _ | hone | hmisnames
        · omega
        · omega
        · exact Or.inr ⟨hle, hle, hmisnames⟩

/-- Reducing a rule keeps the run in range, or a goto leads it astray. -/
theorem reduce (h : InRange tables config) (htwo : 2 ≤ tables.states)
    {rule : Nat} (hrule : tables.layout.isReducible rule)
    (semantics : Semantics S V E) :
    InRange tables (config.reduce tables semantics rule) ∨
      Strayed tables (config.reduce tables semantics rule) := by
  obtain ⟨length, head, hlength, hhead, hnonterminal⟩ :=
    Tables.exists_rule hrule
  simp only [Config.reduce, hlength, hhead]
  have hmemory (memory : S) : InRange tables { config with memory } :=
    h.of_phase htwo rfl (fun _ hold => Or.inl hold) h.rule h.fault
  split
  · next value _ =>
    exact (hmemory _).replace htwo hnonterminal rule length value
  · exact Or.inl ((hmemory _).halt htwo rfl (by simp))

/-- Reporting an error keeps the run in range. -/
theorem complain (h : InRange tables config) (htwo : 2 ≤ tables.states)
    (semantics : Semantics S V E) :
    InRange tables (config.complain semantics) := by
  unfold Config.complain
  split
  · refine h.of_phase htwo rfl ?_ h.rule h.fault
    intro event hevent
    rcases List.mem_cons.mp hevent with rfl | hold
    · exact Or.inr rfl
    · exact Or.inl hold
  · exact h

/-- Being stuck keeps the run in range. -/
theorem stuck (h : InRange tables config) (htwo : 2 ≤ tables.states)
    (semantics : Semantics S V E) :
    InRange tables (config.stuck tables semantics) := by
  have hcomplain := h.complain htwo semantics
  simp only [Config.stuck]
  split
  · split
    · exact hcomplain.enter htwo (by simp) (by simp)
    · split
      · exact hcomplain.halt htwo rfl (by simp)
      · refine hcomplain.of_phase htwo rfl ?_ (by simp) (by simp)
        intro event hevent
        rcases List.mem_cons.mp hevent with rfl | hold
        · exact Or.inr rfl
        · exact Or.inl hold
  · exact hcomplain.enter htwo (by simp) (by simp)

/-- Unwinding finds an answer for every state on the stack. -/
theorem unwind {top : Entry V} {below : List (Entry V)}
    (h : ∀ entry ∈ top :: below, entry.state < tables.states) :
    ∃ found, Config.unwind tables top below = .ok found ∧
      ∀ target stack, found = some (target, stack) →
        target < tables.states ∨
          tables.layout.errorEntry = target ∧ tables.Misnames target := by
  obtain ⟨found, hfound, htarget⟩ :=
    Tables.exists_recovery? (h top List.mem_cons_self)
  induction below generalizing top found with
  | nil =>
      simp only [Config.unwind, hfound]
      cases found with
      | none => exact ⟨none, rfl, by simp⟩
      | some target =>
          refine ⟨_, rfl, ?_⟩
          intro other stack hother
          cases hother
          exact htarget target rfl
  | cons next below ih =>
      simp only [Config.unwind, hfound]
      cases found with
      | none =>
          have hbelow : ∀ entry ∈ next :: below, entry.state < tables.states :=
            fun entry hentry => h entry (List.mem_cons_of_mem _ hentry)
          obtain ⟨found, hfound, htarget⟩ :=
            Tables.exists_recovery? (hbelow next List.mem_cons_self)
          exact ih hbelow found hfound htarget
      | some target =>
          refine ⟨_, rfl, ?_⟩
          intro other stack hother
          cases hother
          exact htarget target rfl

/-- Recovering keeps the run in range, or the error token leads it astray. -/
theorem recover (h : InRange tables config) (htwo : 2 ≤ tables.states)
    (semantics : Semantics S V E) :
    InRange tables (config.recover tables semantics) ∨
      Strayed tables (config.recover tables semantics) := by
  obtain ⟨found, hfound, htarget⟩ := unwind h.states
  simp only [Config.recover, hfound]
  cases found with
  | none =>
      have hquiet : InRange tables { config with quiet := quietSpell } :=
        h.of_phase htwo rfl (fun _ hold => Or.inl hold) h.rule h.fault
      exact Or.inl (hquiet.halt htwo rfl (by simp))
  | some unwound =>
      obtain ⟨target, stack⟩ := unwound
      refine h.enters htwo rfl rfl ?_ rfl ?_
      · exact Kept.mem_of_unwind hfound
      · rw [Stack.state_push]
        by_cases hlt : target < tables.states
        · exact Or.inl hlt
        · have hle : tables.states ≤ target := by omega
          rcases htarget target stack rfl with _ | ⟨herror, hmisnames⟩
          · omega
          · exact Or.inr ⟨hle, hle, hmisnames, herror⟩

/-- **A step** goes astray by a single entry of the tables, or not at
all. -/
theorem step (h : InRange tables config) (semantics : Semantics S V E)
    (tape : Tape) :
    InRange tables (config.step tables semantics tape) ∨
      Strayed tables (config.step tables semantics tape) := by
  by_cases htwo : 2 ≤ tables.states
  · unfold Config.step
    split
    · exact h.consult htwo semantics tape
    · exact Or.inl (h.fallBack htwo)
    · next rule hphase => exact h.reduce htwo (h.rule rule hphase) semantics
    · exact Or.inl (h.stuck htwo semantics)
    · exact h.recover htwo semantics
    · exact Or.inl h
  · -- the one state there is accepts
    rcases h.several with hmany | hconsult | hhalted
    · exact absurd hmany htwo
    · have hfinal : config.stack.state = tables.finalState := by
        have hstate := h.state_lt
        have hlast : tables.finalState < tables.states :=
          tables.checked.finalState
        omega
      rw [Config.step_accept hconsult hfinal]
      refine Or.inl ⟨h.states, ?_, ?_, ?_, Or.inr (Or.inr rfl)⟩
      · intro event hevent target htarget
        rcases List.mem_cons.mp hevent with rfl | hold
        · cases htarget
        · exact h.entered event hold target htarget
      · intro rule hrule
        cases hrule
      · intro fault hfault
        cases hfault
    · rw [Config.step_of_isHalted hhalted]
      exact Or.inl h

/-- A run starts in range, in state 0. -/
theorem initial (tables : Tables) (semantics : Semantics S V E) (memory : S)
    (taken : Nat) :
    InRange tables (Config.initial semantics memory taken) := by
  refine ⟨?_, ?_, ?_, ?_, Or.inr (Or.inl rfl)⟩
  · intro entry hentry
    obtain rfl := List.mem_singleton.mp hentry
    exact tables.states_pos
  · intro event hevent
    cases hevent
  · intro rule hrule
    cases hrule
  · intro fault hfault
    cases hfault

end InRange

/-- **Once astray**, the run ends with the next look at the tables. -/
theorem Strayed.step (h : Strayed tables config)
    (semantics : Semantics S V E) (tape : Tape) :
    (config.step tables semantics tape).phase
        = .halted (.faulted (.noState config.stack.state)) ∧
      Strayed tables (config.step tables semantics tape) := by
  have hbeyond := h.beyond
  rcases h.phase with hphase | hphase
  · have hfinal : config.stack.state ≠ tables.finalState := by
      have hlast : tables.finalState < tables.states :=
        tables.checked.finalState
      omega
    have hrow : tables.needsLookahead? config.stack.state = none := by
      have hnone : tables.layout.rowBase[config.stack.state]? = none :=
        Array.getElem?_eq_none hbeyond
      rw [Tables.needsLookahead?, hnone]
      rfl
    have hstep : config.step tables semantics tape
        = config.fault (.noState config.stack.state) := by
      rw [Config.step, hphase]
      simp only [Config.consult, if_neg hfinal, hrow]
    rw [hstep]
    exact ⟨rfl, h.log, hbeyond, Or.inr rfl⟩
  · have hhalted : config.isHalted := by rw [Config.isHalted, hphase]
    rw [Config.step_of_isHalted hhalted]
    exact ⟨hphase, h⟩

/-- A run is in range until it goes astray. -/
theorem inRange_or_strayed_run (semantics : Semantics S V E) (tape : Tape)
    (fuel : Nat) (h : InRange tables config ∨ Strayed tables config) :
    InRange tables (config.run tables semantics tape fuel) ∨
      Strayed tables (config.run tables semantics tape fuel) := by
  induction fuel generalizing config with
  | zero => exact h
  | succ fuel ih =>
      unfold Config.run
      split
      · exact h
      · rcases h with hrange | hstrayed
        · exact ih (hrange.step semantics tape)
        · exact ih (Or.inr (hstrayed.step semantics tape).2)

/-- **A run goes astray only by an entry that was never meant as a state.**
Over any checked tables, tokens and semantics, whatever a shift enters is a
state; a reduction or a recovery enters one too, unless it has found an entry
that stands for a reduction or an error, and has taken its number for a state.
The run then ends at the next step, since no array answers; and apart from a
stack that is too low nothing else makes tables and run disagree.  So tables
that hold no number beyond the last state keep every run among the states. -/
theorem run_strays_only_by_misnamed_entry (tables : Tables)
    (semantics : Semantics S V E) (tape : Tape) (memory : S)
    (taken fuel : Nat) :
    let config := (Config.initial semantics memory taken).run tables semantics
      tape fuel
    (∀ event ∈ config.log, ∀ target ∈ event.entered?,
      target < tables.states ∨ event.Misled tables) ∧
    (∀ fault, config.phase = .halted (.faulted fault) →
      (∃ count height, fault = .underflow count height) ∨
        fault = .noState config.stack.state ∧
          tables.states ≤ config.stack.state) ∧
    (tables.states ≤ config.stack.state →
      (config.step tables semantics tape).phase
        = .halted (.faulted (.noState config.stack.state))) ∧
    ((∀ entry ∈ tables.layout.table.toList, entry.natAbs < tables.states) →
      (∀ event ∈ config.log, ∀ target ∈ event.entered?,
        target < tables.states) ∧
      ∀ state, config.phase ≠ .halted (.faulted (.noState state))) := by
  intro config
  have hrun : InRange tables config ∨ Strayed tables config :=
    inRange_or_strayed_run semantics tape fuel
      (Or.inl (InRange.initial tables semantics memory taken))
  rcases hrun with hrange | hstrayed
  · refine ⟨?_, ?_, ?_, ?_⟩
    · exact fun event hevent target htarget =>
        Or.inl (hrange.entered event hevent target htarget)
    · exact fun fault hfault => Or.inl (hrange.fault fault hfault)
    · intro hle
      exact absurd hrange.state_lt (Nat.not_lt.mpr hle)
    · refine fun _ => ⟨hrange.entered, ?_⟩
      intro state hstate
      obtain ⟨count, height, hfault⟩ := hrange.fault _ hstate
      cases hfault
  · obtain ⟨last, earlier, hlog, hmisled, hlast, hearlier⟩ := hstrayed.log
    refine ⟨?_, ?_, ?_, ?_⟩
    · rw [hlog]
      intro event hevent target htarget
      rcases List.mem_cons.mp hevent with rfl | hold
      · exact Or.inr hmisled
      · exact Or.inl (hearlier event hold target htarget)
    · intro fault hfault
      rcases hstrayed.phase with hphase | hphase
      · rw [hphase] at hfault
        cases hfault
      · rw [hphase] at hfault
        cases hfault
        exact Or.inr ⟨rfl, hstrayed.beyond⟩
    · exact fun _ => (hstrayed.step semantics tape).1
    · intro hsmall
      have hmisnames := hmisled.misnames hlast
      obtain ⟨entry, hentry, hname, _⟩ := hmisnames
      have hlt := hsmall entry hentry
      have hbeyond := hstrayed.beyond
      omega

/-- The tables of the grammar hold no number beyond the last state. -/
theorem transcript_keeps_to_states :
    (∀ entry ∈ Grammar.tables.layout.table.toList,
      entry.natAbs < Grammar.tables.states) ∧
    ∀ event ∈ (Transcript.ofSource Grammar.tables none
        (Source.ofText "let X = \\x.x )")).log,
      ∀ target ∈ event.entered?, target < Grammar.tables.states := by
  have hsmall : ∀ entry ∈ Grammar.tables.layout.table.toList,
      entry.natAbs < Grammar.tables.states := by decide +kernel
  exact ⟨hsmall, ((run_strays_only_by_misnamed_entry Grammar.tables
    (Transcript.semantics none) _ {} 0 _).2.2.2 hsmall).1⟩

/-- The arrays of the grammar, with another number for the entry that is an
error, and that entry where the column of expressions leads from state 1. -/
def strayLayout : Layout :=
  { Grammar.layout with
    table := Grammar.layout.table.set! 23 (-99)
    errorEntry := -99 }

/-- Nothing is found wrong with them. -/
theorem defect?_strayLayout : strayLayout.defect? = none := by
  decide +kernel

/-- An automaton of 26 states that can enter state 99. -/
def strayTables : Tables :=
  ⟨strayLayout, defect?_strayLayout⟩

/-- One name is enough to lead it astray. -/
theorem checked_tables_stray :
    strayTables.states = 26 ∧
    Event.reduce 11 1 99 ∈ (Transcript.ofSource strayTables none
      (Source.ofText "x")).log ∧
    (Transcript.ofSource strayTables none (Source.ofText "x")).phase
      = .halted (.faulted (.noState 99)) := by
  decide +kernel

end LambdaStack.Automaton
