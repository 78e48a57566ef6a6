import LambdaStack.Term.Graph

/-!
# Global bindings

A table of bindings from names to operands.  Declaring a name again
replaces its value and keeps its place, and nothing is ever removed: the
table lists its names in the order in which they were first declared.
-/

namespace LambdaStack

/-- Bindings in the order of first declaration. -/
structure Symbols where
  entries : List (String × Operand) := []
  deriving DecidableEq, Repr, Inhabited

namespace Symbols

/-- The table without bindings. -/
def empty : Symbols := {}

/-- The names in the order of first declaration. -/
def names (symbols : Symbols) : List String :=
  symbols.entries.map Prod.fst

/-- The number of names. -/
def size (symbols : Symbols) : Nat :=
  symbols.entries.length

/-- Sets the value of a name in a list of bindings, in place if it is
there and at the end if it is not. -/
def setEntry (name : String) (value : Operand) :
    List (String × Operand) → List (String × Operand)
  | [] => [(name, value)]
  | entry :: entries =>
    if entry.1 = name then (name, value) :: entries
    else entry :: setEntry name value entries

/-- Binds a name. -/
def insert (symbols : Symbols) (name : String) (value : Operand) : Symbols :=
  ⟨setEntry name value symbols.entries⟩

/-- What a name is bound to. -/
def get? (symbols : Symbols) (name : String) : Option Operand :=
  symbols.entries.lookup name

/-- Whether a name is bound. -/
def contains (symbols : Symbols) (name : String) : Bool :=
  (symbols.get? name).isSome

/-- Binds names one after the other. -/
def insertAll (symbols : Symbols) (bindings : List (String × Operand)) :
    Symbols :=
  bindings.foldl (fun symbols binding => symbols.insert binding.1 binding.2)
    symbols

/-- A name that was just bound has its new value. -/
@[simp]
theorem get?_insert_self (symbols : Symbols) (name : String)
    (value : Operand) : (symbols.insert name value).get? name = some value := by
  simp only [get?, insert]
  induction symbols.entries with
  | nil => simp [setEntry]
  | cons entry entries ih =>
    unfold setEntry
    split
    · simp
    · next h =>
      rw [List.lookup_cons, beq_false_of_ne (Ne.symm h)]
      exact ih

/-- Binding a name changes the value of no other. -/
theorem get?_insert_of_ne (symbols : Symbols) {name other : String}
    (value : Operand) (h : other ≠ name) :
    (symbols.insert name value).get? other = symbols.get? other := by
  simp only [get?, insert]
  induction symbols.entries with
  | nil => simp [setEntry, List.lookup_cons, beq_false_of_ne h]
  | cons entry entries ih =>
    unfold setEntry
    split
    · next heq =>
      rw [List.lookup_cons, List.lookup_cons, heq, beq_false_of_ne h]
    · rw [List.lookup_cons, List.lookup_cons, ih]

end Symbols

end LambdaStack
