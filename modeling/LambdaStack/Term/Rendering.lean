import LambdaStack.Term.Graph

/-!
# Terms as text

A function is written `(\x.body)`, an application `(applied applicand)`,
the result of an instruction `#3`, a reference to a node that is not
there `<dangling 7>`.  A shared node is written out wherever it occurs.

Terms nest without bound (`a a a ...` nests to the left once per name),
so `Graph.render` does not descend into them: it works off a list of
**pieces**, text to be written and operands to be taken apart.  Each
operand carries the depth to which it may still be taken apart.  A graph
without cycles has no path longer than it has nodes, so its size is depth
enough; past the depth, which only a cycle reaches, an ellipsis stands
for what would go on forever.

`Graph.spell` is the same text by plain descent.
-/

namespace LambdaStack

namespace Graph

/-- What stands for a term that would never end. -/
def ellipsis : String := "..."

/-- A part of a text that is being written. -/
inductive Piece where
  /-- text to be written as it is -/
  | text (text : String)
  /-- an operand that may be taken apart `depth` levels deep -/
  | operand (depth : Nat) (operand : Operand)
  deriving DecidableEq, Repr

/-- A bound for the steps that it takes to write an operand. -/
def depthWeight : Nat → Nat
  | 0 => 4
  | depth + 1 => 3 * depthWeight depth

/-- A bound for the steps that it takes to write a piece. -/
def Piece.weight : Piece → Nat
  | text _ => 1
  | operand depth _ => depthWeight depth

/-- A bound for the steps that it takes to write all pieces. -/
def piecesWeight : List Piece → Nat
  | [] => 0
  | piece :: pieces => piece.weight + piecesWeight pieces

/-- An operand outweighs the marks that its node is written with. -/
theorem four_le_depthWeight (depth : Nat) : 4 ≤ depthWeight depth := by
  induction depth with
  | zero => exact Nat.le_refl 4
  | succ depth ih =>
    simp only [depthWeight]
    omega

/-- The text of an operand, by descent to the given depth. -/
def spell (graph : Graph) : Nat → Operand → String
  | _, .result instruction => s!"#{instruction}"
  | 0, .node _ => ellipsis
  | depth + 1, .node index =>
    match graph.node? index with
    | none => s!"<dangling {index}>"
    | some (.var name) | some (.identifier name) => name
    | some (.lam bound body) =>
      "(\\" ++ graph.spell depth (.node bound) ++ "."
        ++ graph.spell depth body ++ ")"
    | some (.app applied applicand) =>
      "(" ++ graph.spell depth applied ++ " "
        ++ graph.spell depth applicand ++ ")"

/-- Writes the pieces, first to last, after `written`. -/
def writePieces (graph : Graph) (written : String) : List Piece → String
  | [] => written
  | .text text :: pieces => graph.writePieces (written ++ text) pieces
  | .operand _ (.result instruction) :: pieces =>
    graph.writePieces (written ++ s!"#{instruction}") pieces
  | .operand 0 (.node _) :: pieces =>
    graph.writePieces (written ++ ellipsis) pieces
  | .operand (depth + 1) (.node index) :: pieces =>
    match graph.node? index with
    | none => graph.writePieces (written ++ s!"<dangling {index}>") pieces
    | some (.var name) | some (.identifier name) =>
      graph.writePieces (written ++ name) pieces
    | some (.lam bound body) =>
      graph.writePieces written
        (.text "(\\" :: .operand depth (.node bound) :: .text "."
          :: .operand depth body :: .text ")" :: pieces)
    | some (.app applied applicand) =>
      graph.writePieces written
        (.text "(" :: .operand depth applied :: .text " "
          :: .operand depth applicand :: .text ")" :: pieces)
termination_by pieces => piecesWeight pieces
decreasing_by
  all_goals
    simp only [piecesWeight, Piece.weight, depthWeight]
    grind [four_le_depthWeight]

/-- The text of an operand. -/
def render (graph : Graph) (operand : Operand) : String :=
  graph.writePieces "" [.operand (graph.size + 1) operand]

end Graph

end LambdaStack
