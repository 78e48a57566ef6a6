/-!
# Interned names

In byte code a name is a number.  A `Names` table lists names in the
order in which they were first asked for, and the **code** of a name is
its position in that list.  Codes never change.

Operands are single bytes, so only the first 256 names have a code that
can be written; a name beyond them is listed all the same.
-/

namespace LambdaStack.Bytecode

/-- Names in the order of their codes. -/
structure Names where
  list : Array String := #[]
  deriving DecidableEq, Repr, Inhabited

namespace Names

/-- The table with one more name at the end. -/
def add (names : Names) (name : String) : Names :=
  ⟨names.list.push name⟩

/-- The position of a name, if it is listed. -/
def position? (names : Names) (name : String) : Option Nat :=
  names.list.idxOf? name

/-- The position of a name, which is listed at the end if it was not
listed yet. -/
def intern (names : Names) (name : String) : Nat × Names :=
  match names.position? name with
  | some position => (position, names)
  | none => (names.list.size, names.add name)

/-- The name at a position. -/
def name? (names : Names) (position : Nat) : Option String :=
  names.list[position]?

/-- The names with their positions. -/
def pairs (names : Names) : List (Nat × String) :=
  names.list.toList.zipIdx.map fun (name, position) => (position, name)

end Names

/-- The operand byte of a position, if there is one. -/
def byteOf? (position : Nat) : Option UInt8 :=
  if position < 256 then some (UInt8.ofNat position) else none

end LambdaStack.Bytecode
