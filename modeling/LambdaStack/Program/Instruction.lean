import LambdaStack.Term.Rendering

/-!
# Instructions

Reading a program leaves a list of **instructions**.  Each has an
operation and one or two operands:

    operation   first            second
    assign      value            the identifier it is bound to
    func        bound variable   body
    apply       applied          applicand
    eval        value            -
    print       value            -

The type does not enforce these shapes: an instruction from elsewhere may
lack its second operand or have one too many, and is kept as it is.
-/

namespace LambdaStack

/-- What an instruction does. -/
inductive Operation where
  | assign
  | func
  | apply
  | eval
  | print
  deriving DecidableEq, Repr, Inhabited

namespace Operation

/-- The name of an operation. -/
def name : Operation → String
  | assign => "assign"
  | func => "func"
  | apply => "apply"
  | eval => "eval"
  | print => "print"

/-- The operation with a given name. -/
def ofName? (text : String) : Option Operation :=
  [assign, func, apply, eval, print].find? fun operation =>
    operation.name = text

end Operation

/-- An operation with its operands. -/
structure Instruction where
  operation : Operation
  first : Operand
  second : Option Operand := none
  deriving DecidableEq, Repr, Inhabited

namespace Instruction

/-- Binds `value` to the identifier `target`. -/
def assign (value target : Operand) : Instruction :=
  ⟨.assign, value, some target⟩

/-- Makes a function. -/
def func (bound body : Operand) : Instruction :=
  ⟨.func, bound, some body⟩

/-- Makes an application. -/
def apply (applied applicand : Operand) : Instruction :=
  ⟨.apply, applied, some applicand⟩

/-- Evaluates a value. -/
def eval (value : Operand) : Instruction :=
  ⟨.eval, value, none⟩

/-- Prints a value. -/
def print (value : Operand) : Instruction :=
  ⟨.print, value, none⟩

/-- The instruction as text. -/
def render (graph : Graph) (instruction : Instruction) : String :=
  let first := instruction.operation.name ++ " "
    ++ graph.render instruction.first
  match instruction.second with
  | none => first
  | some second => first ++ ", " ++ graph.render second

end Instruction

/-- Instructions as lines of text, numbered from `index` on. -/
def instructionLines (graph : Graph) :
    Nat → List Instruction → List String
  | _, [] => []
  | index, instruction :: instructions =>
    s!"{index}: {instruction.render graph}"
      :: instructionLines graph (index + 1) instructions

/-- Lines of text, each ended by a line feed. -/
def joinLines (lines : List String) : String :=
  String.join (lines.map (· ++ "\n"))

end LambdaStack
