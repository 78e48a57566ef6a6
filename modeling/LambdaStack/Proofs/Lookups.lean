import LambdaStack.Proofs.Range

/-!
# Look-ups in checked tables

The arrays of an automaton are checked once, before it is known how their
entries will be read, and are indexed without a further check ever after:

    terminalOf kind                 a terminal, to look up in a row
    rowBase, rowDefault             by state
    owner, table                    by base and terminal, or base and state
    length, head                    by rule
    columnBase, columnDefault       by head, less the number of terminals

An entry of the table may be negative, for a rule, or be the number that was
chosen for errors, which can be any number, also one that names a state.  What
is looked up in a row is a rule or a state after all, and what is looked up for
the rule is there.

Main statement: `checked_lookups_stay_in_bounds`.
-/

namespace LambdaStack.Automaton

namespace Tables

variable {layout : Layout} {tables : Tables}

/-- The check hands out the layout that it was given. -/
theorem layout_of_ofLayout (h : ofLayout layout = .ok tables) :
    tables.layout = layout := by
  unfold ofLayout at h
  split at h
  · cases h
    rfl
  · cases h

theorem ofLayout_eq_ok (h : layout.defect? = none) :
    ofLayout layout = .ok ⟨layout, h⟩ := by
  unfold ofLayout
  split
  · rfl
  · next defect hdefect =>
    rw [h] at hdefect
    cases hdefect

/-- The arrays have all that is looked up when a rule is reduced: its length,
and its head with a place in both arrays of the goto table. -/
structure HasRule (tables : Tables) (rule : Nat) : Prop where
  two_le : 2 ≤ rule
  lt_rules : rule < tables.layout.rules
  length : ∃ length, tables.ruleLength? rule = some length
  head : ∃ head, tables.ruleHead? rule = some head ∧
    tables.layout.terminals ≤ head ∧
    head < tables.layout.terminals + tables.layout.nonterminals ∧
    head - tables.layout.terminals < tables.layout.columnBase.size ∧
    head - tables.layout.terminals < tables.layout.columnDefault.size ∧
    ∀ state, ∃ target, tables.goto? state head = some target

/-- **A number that passes for a rule** stands for one in every array. -/
theorem hasRule_of_isReducible {rule : Nat}
    (h : tables.layout.isReducible rule) : tables.HasRule rule := by
  obtain ⟨length, head, hlength, hhead, hnonterminal⟩ := exists_rule h
  have hgoto (state : Nat) :
      ∃ target, tables.goto? state head = some target := by
    obtain ⟨target, htarget, _⟩ := exists_goto? hnonterminal state
    exact ⟨target, htarget⟩
  have hcolumns := tables.checked.columnDefault_size
  rw [isReducible_iff] at h
  simp only [Layout.isNonterminal, decide_eq_true_eq] at hnonterminal
  simp only [Layout.nonterminals] at hcolumns hnonterminal
  refine ⟨by omega, by omega, ⟨length, hlength⟩, head, hhead, by omega, ?_,
    by omega, by omega, hgoto⟩
  rw [Layout.nonterminals]
  omega

/-- Whoever finds the owner of an entry finds the entry. -/
theorem exists_entry_of_owner {index : Nat} {owner : Int}
    (h : tables.layout.owner[index]? = some owner) :
    ∃ entry, tables.layout.table[index]? = some entry := by
  obtain ⟨hlt, _⟩ := Array.getElem?_eq_some_iff.mp h
  rw [tables.checked.owner_size] at hlt
  exact ⟨_, Array.getElem?_eq_getElem hlt⟩

end Tables

/-- **No look-up in checked tables leaves its array.**  Let nothing be found
wrong with a layout, whatever its entries are.  Then every kind of token is a
terminal, and every state has an action for it and a default.  If the action
is to shift, it leads to a state other than the first.  If the action or the
default is to reduce, it is by a rule that can be reduced, whose length and
head are known, and the head is a nonterminal with a place in both arrays of
the goto table.  An owner always has an entry. -/
theorem checked_lookups_stay_in_bounds {layout : Layout} {tables : Tables}
    (h : Tables.ofLayout layout = .ok tables) {state : Nat}
    (hstate : state < layout.rowBase.size) (kind : Kind) :
    tables.layout = layout ∧
    tables.symbol kind < layout.terminals ∧
    (∃ action, tables.action? state (tables.symbol kind) = some action ∧
      (∀ target, action = .shift target →
        1 ≤ target ∧ target ≤ layout.rowBase.size - 1) ∧
      ∀ rule, action = .reduce rule → tables.HasRule rule) ∧
    (∃ found, tables.defaultReduction? state = some found ∧
      ∀ rule ∈ found, tables.HasRule rule) ∧
    ∀ (index : Nat) owner, layout.owner[index]? = some owner →
      ∃ entry, layout.table[index]? = some entry := by
  obtain rfl := Tables.layout_of_ofLayout h
  obtain ⟨action, haction, hfits⟩ :=
    Tables.exists_action? hstate (tables.symbol kind)
  obtain ⟨found, hfound, hrules⟩ := Tables.exists_defaultReduction? hstate
  refine ⟨rfl, tables.checked.terminalOf kind, ⟨action, haction, ?_, ?_⟩,
    ⟨found, hfound, ?_⟩, ?_⟩
  · rintro target rfl
    obtain ⟨hpos, hlt⟩ := hfits
    exact ⟨hpos, Nat.le_sub_one_of_lt hlt⟩
  · rintro rule rfl
    exact Tables.hasRule_of_isReducible hfits
  · exact fun rule hrule => Tables.hasRule_of_isReducible (hrules rule hrule)
  · exact fun index owner howner => Tables.exists_entry_of_owner howner

/-- The arrays of the grammar, with the number of state 7 for errors, and a
reduction where state 1 used to shift an identifier. -/
def signedLayout : Layout :=
  { Grammar.layout with
    table := Grammar.layout.table.set! 4 (-16)
    errorEntry := 7 }

/-- Nothing is found wrong with them. -/
theorem defect?_signedLayout : signedLayout.defect? = none := by
  decide +kernel

/-- State 1 now fails where it shifted into state 7, and reduces. -/
theorem lookups_beside_positive_error_entry :
    Tables.ofLayout signedLayout = .ok ⟨signedLayout, defect?_signedLayout⟩ ∧
    1 < signedLayout.rowBase.size ∧
    Tables.action? ⟨signedLayout, defect?_signedLayout⟩ 1 10 = some .fail ∧
    Tables.action? ⟨signedLayout, defect?_signedLayout⟩ 1 4
      = some (.reduce 16) ∧
    Tables.HasRule ⟨signedLayout, defect?_signedLayout⟩ 16 := by
  have hchecked := Tables.ofLayout_eq_ok defect?_signedLayout
  have hstate : 1 < signedLayout.rowBase.size := by decide
  have hreduce : Tables.action? ⟨signedLayout, defect?_signedLayout⟩ 1 4
      = some (.reduce 16) := by decide +kernel
  obtain ⟨_, _, ⟨action, haction, _, hrule⟩, _⟩ :=
    checked_lookups_stay_in_bounds hchecked hstate .identifier
  have hsame : action = .reduce 16 :=
    Option.some.inj (haction.symm.trans hreduce)
  exact ⟨hchecked, hstate, by decide +kernel, hreduce, hrule 16 hsame⟩

end LambdaStack.Automaton
