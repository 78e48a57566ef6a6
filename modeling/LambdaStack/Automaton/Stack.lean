/-!
# The parse stack

A shift/reduce automaton keeps a stack of **entries**, each a state with
the value it was entered with.  The bottom entry (the initial state and
its value) is never removed, so a stack is an entry on top of a possibly
empty list of entries, and "the state of the automaton" is always
defined.

A reduction looks at a **frame**, the topmost values, listed from the top
down; `Stack.pop?` removes entries and refuses to reach the bottom one.
-/

namespace LambdaStack.Automaton

/-- A state of the automaton and the value it was entered with. -/
structure Entry (V : Type) where
  state : Nat
  value : V
  deriving DecidableEq, Repr

/-- A stack with at least one entry. -/
structure Stack (V : Type) where
  top : Entry V
  below : List (Entry V)
  deriving DecidableEq, Repr

namespace Stack

variable {V : Type}

/-- The stack that holds one entry only. -/
def initial (state : Nat) (value : V) : Stack V :=
  ⟨⟨state, value⟩, []⟩

/-- All entries, from the top down. -/
def entries (stack : Stack V) : List (Entry V) :=
  stack.top :: stack.below

/-- The state on top. -/
def state (stack : Stack V) : Nat :=
  stack.top.state

/-- The number of entries. -/
def height (stack : Stack V) : Nat :=
  stack.below.length + 1

/-- Puts an entry on top. -/
def push (stack : Stack V) (state : Nat) (value : V) : Stack V :=
  ⟨⟨state, value⟩, stack.entries⟩

/-- Removes `count` entries; nothing if that would remove the bottom
entry. -/
def pop? (stack : Stack V) (count : Nat) : Option (Stack V) :=
  match stack.entries.drop count with
  | [] => none
  | top :: below => some ⟨top, below⟩

/-- The topmost values, at most `length` of them, from the top down. -/
def frame (stack : Stack V) (length : Nat) : List V :=
  (stack.entries.take length).map Entry.value

/-- What is said when `count` entries cannot be removed. -/
def underflowMessage (count height : Nat) : String :=
  s!"popping {count} of {height} stack entries"

/-- The height is the number of entries. -/
theorem length_entries (stack : Stack V) :
    stack.entries.length = stack.height := rfl

@[simp]
theorem entries_push (stack : Stack V) (state : Nat) (value : V) :
    (stack.push state value).entries = ⟨state, value⟩ :: stack.entries := rfl

@[simp]
theorem height_push (stack : Stack V) (state : Nat) (value : V) :
    (stack.push state value).height = stack.height + 1 := by
  simp [height, push, entries]

/-- Removing entries fails exactly when it would reach the bottom
entry. -/
theorem pop?_eq_none_iff (stack : Stack V) (count : Nat) :
    stack.pop? count = none ↔ stack.height ≤ count := by
  unfold pop?
  split
  · next h => simpa [length_entries] using h
  · next h =>
    have := congrArg List.length h
    simp only [List.length_drop, length_entries, List.length_cons] at this
    simp only [reduceCtorEq, false_iff]
    omega

/-- What is left after removing entries. -/
theorem entries_of_pop? {stack rest : Stack V} {count : Nat}
    (h : stack.pop? count = some rest) :
    rest.entries = stack.entries.drop count := by
  unfold pop? at h
  split at h
  · exact absurd h (by simp)
  · next heq =>
    cases h
    exact heq.symm

/-- A frame is as long as asked for, or as the stack is high. -/
theorem length_frame (stack : Stack V) (length : Nat) :
    (stack.frame length).length = min length stack.height := by
  simp [frame, length_entries]

end Stack

end LambdaStack.Automaton
