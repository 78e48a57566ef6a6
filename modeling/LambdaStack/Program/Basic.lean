import LambdaStack.Program.Instruction
import LambdaStack.Program.Symbols

/-!
# Programs

A **program** is what reading a source leaves behind: the graph of the
terms it mentions, the instructions in the order in which they arose, and
the bindings its declarations made.  A program can be read on: later
sources add to it.
-/

namespace LambdaStack

/-- Terms, instructions and bindings. -/
structure Program where
  graph : Graph := {}
  code : Array Instruction := #[]
  symbols : Symbols := {}
  deriving DecidableEq, Repr, Inhabited

namespace Program

/-- The program without anything in it. -/
def empty : Program := {}

/-- One line of text for each instruction. -/
def lines (program : Program) : List String :=
  instructionLines program.graph 0 program.code.toList

/-- The instructions as a text, one line each. -/
def dump (program : Program) : String :=
  joinLines program.lines

end Program

end LambdaStack
