/-!
# Term graphs

The terms of a program share one **graph**: an array of nodes that refer
to each other by index.  A node is a variable, an identifier, a function
with its bound variable and body, or an application.  An **operand** is
what a node or an instruction can refer to: a node of the graph, or the
result of an instruction.

Nodes are only ever added at the end, so an index keeps its meaning.  A
graph may hold references to nodes that are not there; `Graph.node?`
answers nothing for them.
-/

namespace LambdaStack

/-- What a node or an instruction refers to. -/
inductive Operand where
  /-- a node of the graph -/
  | node (index : Nat)
  /-- the result of an instruction -/
  | result (instruction : Nat)
  deriving DecidableEq, Repr, Inhabited

/-- A node of a term graph. -/
inductive Node where
  /-- a lambda-bound name -/
  | var (name : String)
  /-- a global name -/
  | identifier (name : String)
  /-- a function of one parameter; `bound` is the node of the parameter -/
  | lam (bound : Nat) (body : Operand)
  /-- `applied` applied to `applicand` -/
  | app (applied applicand : Operand)
  deriving DecidableEq, Repr, Inhabited

namespace Node

/-- The name of a variable or identifier. -/
def name? : Node → Option String
  | var name | identifier name => some name
  | lam _ _ | app _ _ => none

end Node

/-- The nodes of a term graph. -/
structure Graph where
  nodes : Array Node := #[]
  deriving DecidableEq, Repr, Inhabited

namespace Graph

/-- The number of nodes. -/
def size (graph : Graph) : Nat :=
  graph.nodes.size

/-- Adds a node; its index is the size the graph had. -/
def add (graph : Graph) (node : Node) : Graph :=
  ⟨graph.nodes.push node⟩

/-- The node with a given index. -/
def node? (graph : Graph) (index : Nat) : Option Node :=
  graph.nodes[index]?

/-- The node behind an operand, if it is not the result of an
instruction. -/
def resolve? (graph : Graph) : Operand → Option Node
  | .node index => graph.node? index
  | .result _ => none

@[simp]
theorem size_add (graph : Graph) (node : Node) :
    (graph.add node).size = graph.size + 1 := by
  simp [size, add]

/-- The added node stands at the old size. -/
@[simp]
theorem node?_add_size (graph : Graph) (node : Node) :
    (graph.add node).node? graph.size = some node := by
  simp [size, add, node?]

/-- Adding a node changes none of the others. -/
theorem node?_add_of_lt {graph : Graph} {index : Nat}
    (h : index < graph.size) (node : Node) :
    (graph.add node).node? index = graph.node? index := by
  simp only [node?, add, size] at h ⊢
  rw [Array.getElem?_push_lt h, Array.getElem?_eq_getElem h]

end Graph

end LambdaStack
