import Mathlib.Data.Option.Defs
import LambdaStack.Proofs.Trace

/-!
# A stack in two columns

The entries of a stack can be taken apart: the states go into one column, the
values into another, and both are listed from the bottom up.

    states   0  4  7        the top is on the right
    values   a  b  c

Nothing ties the columns together but the operations.  A push lengthens both.
A pop works out from the column of states how many entries are left, and cuts
each column to that length by itself.  A frame is a stretch of the column of
values alone, and is read backwards, by subtraction.

A stack and its columns go through the same **changes**.  What each of them
keeps is `Columns.Shows`: either column holds its half of the entries.

Main statement: `columns_behave_as_one_list`.
-/

namespace LambdaStack.Automaton

variable {V : Type}

/-! ### Changes -/

/-- One change of a stack. -/
inductive Change (V : Type) where
  | push (state : Nat) (value : V)
  | pop (count : Nat)
  deriving DecidableEq, Repr

/-- What a change does to a list of entries, the topmost first. -/
def Change.apply (entries : List (Entry V)) : Change V → List (Entry V)
  | push state value => ⟨state, value⟩ :: entries
  | pop count => entries.drop count

/-- Makes a change, if the stack allows it. -/
def Stack.change? (stack : Stack V) : Change V → Option (Stack V)
  | .push state value => some (stack.push state value)
  | .pop count => stack.pop? count

/-- The states and the values of a stack, each listed from the bottom up. -/
structure Columns (V : Type) where
  states : Array Nat
  values : Array V
  deriving DecidableEq, Repr

namespace Columns

/-- The columns that hold one entry only. -/
def initial (state : Nat) (value : V) : Columns V :=
  ⟨#[state], #[value]⟩

/-- The number of entries. -/
def height (columns : Columns V) : Nat :=
  columns.states.size

/-- The state on top. -/
def state (columns : Columns V) : Nat :=
  columns.states.back?.getD 0

/-- Puts an entry on top. -/
def push (columns : Columns V) (state : Nat) (value : V) : Columns V :=
  ⟨columns.states.push state, columns.values.push value⟩

/-- Cuts both columns to what is left without `count` entries, and to no less
than one. -/
def cut (columns : Columns V) (count : Nat) : Columns V :=
  let kept := max (columns.states.size - count) 1
  ⟨columns.states.take kept, columns.values.take kept⟩

/-- Removes `count` entries; refused if that would remove the bottom entry. -/
def pop? (columns : Columns V) (count : Nat) : Option (Columns V) :=
  if count < columns.states.size then some (columns.cut count) else none

/-- The topmost values, at most `length` of them, from the bottom up. -/
def frame (columns : Columns V) (length : Nat) : Array V :=
  columns.values.extract (columns.values.size - length) columns.values.size

/-- The value of a frame at a distance from the top. -/
def valueAt? (frame : Array V) (depth : Nat) : Option V :=
  if depth + 1 ≤ frame.size then frame[frame.size - (depth + 1)]? else none

/-- Makes a change, if the columns allow it. -/
def change? (columns : Columns V) : Change V → Option (Columns V)
  | .push state value => some (columns.push state value)
  | .pop count => columns.pop? count

/-- A column holds one half of the entries, from the bottom up. -/
def Holds {α : Type} (column : Array α) (half : Entry V → α)
    (stack : Stack V) : Prop :=
  column.toList = stack.entries.reverse.map half

/-- Each column holds its half of the entries. -/
structure Shows (columns : Columns V) (stack : Stack V) : Prop where
  states : Holds columns.states Entry.state stack
  values : Holds columns.values Entry.value stack

/-! ### One column -/

namespace Holds

variable {α : Type} {column : Array α} {half : Entry V → α} {stack : Stack V}

theorem size_eq (h : Holds column half stack) : column.size = stack.height := by
  rw [← Array.length_toList, h, List.length_map, List.length_reverse,
    Stack.length_entries]

/-- The bottom entry stands in front. -/
theorem front (h : Holds column half stack) {bottom : Entry V}
    (hbottom : stack.entries.getLast? = some bottom) :
    column[0]? = some (half bottom) := by
  rw [← Array.getElem?_toList, h, List.getElem?_map, ← List.head?_eq_getElem?,
    List.head?_reverse, hbottom]
  rfl

theorem push (h : Holds column half stack) (state : Nat) (value : V) :
    Holds (column.push (half ⟨state, value⟩)) half
      (stack.push state value) := by
  rw [Holds, Array.toList_push, h, Stack.entries_push, List.reverse_cons,
    List.map_append, List.map_singleton]

/-- What is cut off is what is popped. -/
theorem take (h : Holds column half stack) {count : Nat} {rest : Stack V}
    (hpop : stack.pop? count = some rest) :
    Holds (column.take (stack.height - count)) half rest := by
  have hrest : rest.entries.reverse
      = stack.entries.reverse.take (stack.height - count) := by
    rw [Stack.entries_of_pop? hpop, List.reverse_drop, Stack.length_entries]
  rw [Holds, hrest, List.map_take, ← h, Array.take_eq_extract,
    Array.toList_extract, List.extract_eq_take_drop, List.drop_zero,
    Nat.sub_zero]

end Holds

/-! ### What the columns show -/

theorem shows_initial (state : Nat) (value : V) :
    (initial state value).Shows (Stack.initial state value) :=
  ⟨rfl, rfl⟩

namespace Shows

variable {columns : Columns V} {stack : Stack V}

/-- The last state of the column is the one on top. -/
theorem state_eq (h : columns.Shows stack) : columns.state = stack.state := by
  rw [state, ← Array.getLast?_toList, h.states]
  simp [Stack.entries, Stack.state]

/-- **A frame read backwards** is what the stack has on top. -/
theorem frame_eq (h : columns.Shows stack) (length : Nat) :
    (columns.frame length).toList.reverse = stack.frame length := by
  have hframe : (columns.frame length).toList
      = columns.values.toList.drop (columns.values.toList.length - length) := by
    rw [frame, Array.toList_extract, List.extract_eq_take_drop,
      Array.length_toList]
    apply List.take_of_length_le
    apply Nat.le_of_eq
    rw [List.length_drop, Array.length_toList]
  rw [hframe, ← List.take_reverse, h.values, ← List.map_reverse,
    List.reverse_reverse, ← List.map_take, Stack.frame]

end Shows

/-- The distance from the top is the place in the frame read backwards. -/
theorem valueAt?_eq (frame : Array V) (depth : Nat) :
    valueAt? frame depth = frame.toList.reverse[depth]? := by
  unfold valueAt?
  split
  · next hle =>
    have hlt : depth < frame.toList.length := hle
    have hplace : frame.size - (depth + 1)
        = frame.toList.length - 1 - depth := by
      rw [Array.length_toList]
      omega
    rw [List.getElem?_reverse hlt, hplace, Array.getElem?_toList]
  · next hgt =>
    rw [List.getElem?_eq_none]
    rw [List.length_reverse, Array.length_toList]
    omega

theorem pop?_eq_none_iff (columns : Columns V) (count : Nat) :
    columns.pop? count = none ↔ columns.height ≤ count := by
  rw [pop?, ite_eq_right_iff, height]
  simp

/-! ### What changes keep -/

namespace Shows

variable {columns : Columns V} {stack : Stack V}

theorem push (h : columns.Shows stack) (state : Nat) (value : V) :
    (columns.push state value).Shows (stack.push state value) :=
  ⟨h.states.push state value, h.values.push state value⟩

/-- Cutting the columns at one height removes the same entries from both. -/
theorem cut (h : columns.Shows stack) {count : Nat} {rest : Stack V}
    (hpop : stack.pop? count = some rest) :
    (columns.cut count).Shows rest := by
  have hlt : ¬ stack.height ≤ count := by
    rw [← stack.pop?_eq_none_iff count, hpop]
    exact Option.some_ne_none rest
  -- an entry is left in any case, so the least length of a cut is no limit
  have hkept : max (columns.states.size - count) 1 = stack.height - count := by
    rw [h.states.size_eq]
    omega
  rw [Columns.cut, hkept]
  exact ⟨h.states.take hpop, h.values.take hpop⟩

/-- **One change.**  Both refuse it, or both make it and it still shows. -/
theorem change (h : columns.Shows stack) (change : Change V) :
    Option.Rel Shows (columns.change? change) (stack.change? change) := by
  cases change with
  | push state value => exact .some (h.push state value)
  | pop count =>
      rw [Columns.change?, Stack.change?, pop?, h.states.size_eq]
      split
      · next hlt =>
        obtain ⟨rest, hpop, _⟩ := Stack.exists_pop? hlt
        rw [hpop]
        exact .some (h.cut hpop)
      · next hge =>
        rw [(stack.pop?_eq_none_iff count).mpr (by omega)]
        exact .none

/-- **All changes.** -/
theorem changes (h : columns.Shows stack) (changes : List (Change V)) :
    Option.Rel Shows (changes.foldlM change? columns)
      (changes.foldlM Stack.change? stack) := by
  induction changes generalizing columns stack with
  | nil => exact .some h
  | cons change changes ih =>
      have hchange := h.change change
      rw [List.foldlM_cons, List.foldlM_cons]
      generalize columns.change? change = left at hchange ⊢
      generalize stack.change? change = right at hchange ⊢
      cases hchange with
      | some hnext => exact ih hnext
      | none => exact .none

end Shows

end Columns

namespace Stack

/-- A change that is allowed does to the entries what it does to a list. -/
theorem entries_of_change? {stack next : Stack V} {change : Change V}
    (h : stack.change? change = some next) :
    next.entries = change.apply stack.entries := by
  cases change with
  | push state value =>
      cases h
      rfl
  | pop count => exact entries_of_pop? h

/-- No change that is allowed touches the bottom entry. -/
theorem bottom_of_change? {stack next : Stack V} {change : Change V}
    (h : stack.change? change = some next) :
    next.entries.getLast? = stack.entries.getLast? := by
  have hentries := entries_of_change? h
  cases change with
  | push state value =>
      rw [hentries, Change.apply, entries, List.getLast?_cons_cons]
  | pop count =>
      have hlt : ¬ stack.entries.length ≤ count := by
        rw [stack.length_entries, ← stack.pop?_eq_none_iff count]
        rw [change?] at h
        rw [h]
        exact Option.some_ne_none next
      rw [hentries, Change.apply, List.getLast?_drop, if_neg hlt]

/-- Changes that are allowed do to the entries what they do to a list, and leave
the bottom entry where it is. -/
theorem entries_of_changes {stack last : Stack V} {changes : List (Change V)}
    (h : changes.foldlM change? stack = some last) :
    last.entries = changes.foldl Change.apply stack.entries ∧
      last.entries.getLast? = stack.entries.getLast? := by
  induction changes generalizing stack with
  | nil =>
      cases h
      exact ⟨rfl, rfl⟩
  | cons change changes ih =>
      rw [List.foldlM_cons] at h
      obtain ⟨next, hnext, hlast⟩ := Option.bind_eq_some_iff.mp h
      obtain ⟨hentries, hbottom⟩ := ih hlast
      rw [List.foldl_cons, ← entries_of_change? hnext]
      exact ⟨hentries, hbottom.trans (bottom_of_change? hnext)⟩

end Stack

namespace Columns.Shows

variable {columns : Columns V} {stack : Stack V}

theorem size_frame (h : columns.Shows stack) (length : Nat) :
    (columns.frame length).size = min length stack.height := by
  rw [← stack.length_frame, ← h.frame_eq, List.length_reverse,
    Array.length_toList]

/-- **A frame is asked by the distance from the top**, and answers for as many
entries as it has. -/
theorem valueAt?_frame (h : columns.Shows stack) (length depth : Nat) :
    valueAt? (columns.frame length) depth
      = if depth < min length stack.height then
          stack.entries[depth]?.map Entry.value
        else none := by
  rw [valueAt?_eq, h.frame_eq]
  split
  · next hlt =>
    have hdepth : depth < length := by omega
    rw [Stack.frame, List.getElem?_map, List.getElem?_take, if_pos hdepth]
  · next hge =>
    rw [List.getElem?_eq_none]
    rw [Stack.length_frame]
    omega

end Columns.Shows

/-- **Two columns behave as one list of entries.**  Let any changes be made,
from any first entry, none of which is refused.  Then the stack allows the same
changes, and the columns hold its entries, which are those that the changes
leave of a list.  There is at least one, and the first one is still at the
bottom.  The state is that of the topmost entry.  A frame has as many values as
asked for, or as there are; it answers with the value at a distance from the
top, and with nothing beyond its own length.  To remove as many entries as
there are, or more, is refused, and nothing else is. -/
theorem columns_behave_as_one_list {state : Nat} {value : V}
    {changes : List (Change V)} {columns : Columns V}
    (h : changes.foldlM Columns.change? (Columns.initial state value)
      = some columns) :
    let entries := changes.foldl Change.apply [⟨state, value⟩]
    (∃ stack : Stack V,
      changes.foldlM Stack.change? (Stack.initial state value) = some stack ∧
      stack.entries = entries ∧ stack.height = columns.height ∧
      stack.state = columns.state ∧
      ∀ length, stack.frame length = (columns.frame length).toList.reverse) ∧
    columns.states.toList = entries.reverse.map Entry.state ∧
    columns.values.toList = entries.reverse.map Entry.value ∧
    columns.states.size = columns.values.size ∧ 1 ≤ columns.states.size ∧
    columns.states[0]? = some state ∧ columns.values[0]? = some value ∧
    entries.head?.map Entry.state = some columns.state ∧
    (∀ length, (columns.frame length).size = min length columns.height ∧
      ∀ depth, Columns.valueAt? (columns.frame length) depth
        = if depth < min length columns.height then
            entries[depth]?.map Entry.value
          else none) ∧
    ∀ count, columns.pop? count = none ↔ columns.height ≤ count := by
  intro entries
  have hchanges := (Columns.shows_initial state value).changes changes
  rw [h] at hchanges
  generalize hstack : changes.foldlM Stack.change? (Stack.initial state value)
    = result at hchanges
  cases hchanges with
  | @some _ stack hshows =>
      obtain ⟨hentries, hbottom⟩ := Stack.entries_of_changes hstack
      have hlist : stack.entries = entries := hentries
      have hheight : stack.height = columns.height :=
        hshows.states.size_eq.symm
      rw [← hlist, ← hheight]
      refine ⟨⟨stack, rfl, rfl, rfl, hshows.state_eq.symm, ?_⟩, hshows.states,
        hshows.values, ?_, ?_, hshows.states.front hbottom,
        hshows.values.front hbottom, ?_, ?_, ?_⟩
      · exact fun length => (hshows.frame_eq length).symm
      · exact hshows.states.size_eq.trans hshows.values.size_eq.symm
      · rw [hshows.states.size_eq, Stack.height]
        omega
      · rw [hshows.state_eq]
        rfl
      · exact fun length =>
          ⟨hshows.size_frame length, hshows.valueAt?_frame length⟩
      · intro count
        rw [hheight]
        exact columns.pop?_eq_none_iff count

/-- Down to the bottom entry and up again: a frame that asks for too much, a
distance as great as the height, and a pop of everything there is. -/
theorem columns_popped_to_the_bottom :
    [Change.push 4 'b', .push 7 'c', .pop 2, .push 9 'd'].foldlM Columns.change?
        (Columns.initial 0 'a')
      = some ⟨#[0, 9], #['a', 'd']⟩ ∧
    (Columns.frame ⟨#[0, 9], #['a', 'd']⟩ 5).size = 2 ∧
    Columns.valueAt? (Columns.frame ⟨#[0, 9], #['a', 'd']⟩ 5) 1 = some 'a' ∧
    Columns.valueAt? (Columns.frame ⟨#[0, 9], #['a', 'd']⟩ 5) 2 = none ∧
    Columns.pop? ⟨#[0, 9], #['a', 'd']⟩ 2 = none := by
  have hchanges : [Change.push 4 'b', .push 7 'c', .pop 2, .push 9 'd'].foldlM
        Columns.change? (Columns.initial 0 'a')
      = some ⟨#[0, 9], #['a', 'd']⟩ := by decide
  obtain ⟨_, _, _, _, _, _, _, _, hframe, hpop⟩ :=
    columns_behave_as_one_list hchanges
  obtain ⟨hsize, hvalue⟩ := hframe 5
  exact ⟨hchanges, hsize, hvalue 1, hvalue 2, (hpop 2).mpr (by decide)⟩

end LambdaStack.Automaton
