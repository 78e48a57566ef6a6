import LambdaStack.Automaton.Run
import LambdaStack.Program.Basic

/-!
# What the productions mean

Reading a sentence builds a `Program`.  The automaton's values are the
texts of words and the operands of expressions; each production that is
reduced adds its nodes and instructions:

    declaration    binds the name, adds an identifier node for it and
                   emits `assign`
    evaluation     emits `eval`; its value is the result of that
                   instruction
    print          emits `print`
    identifier     adds nothing: it denotes what it is bound to
    name           adds a variable
    group          denotes what stands in the brackets
    function       adds its bound variable, then itself, and emits `func`
    application    adds itself and emits `apply`

All other productions pass on the value of their first symbol.

What a production adds is a `Contribution`, which is worked out from the
program and the values of the production's symbols before anything is
changed.  A production can be refused: an identifier may be unbound, an
operand may be a bare identifier node, and a word or an operand may be
missing where the tokens did not come from a text.  A refused production
leaves the program as it was.
-/

namespace LambdaStack.Grammar

open Automaton

/-- A part of a sentence that is missing. -/
inductive Gap where
  | declaredName
  | declaredValue
  | evaluatedValue
  | printedValue
  | identifier
  | variableName
  | functionBody
  | applicationPart
  deriving DecidableEq, Repr

namespace Gap

/-- The wording of a gap. -/
def message : Gap → String
  | declaredName => "null identifier in declaration"
  | declaredValue => "null expression in declaration"
  | evaluatedValue => "null expression in evaluation"
  | printedValue => "null expression in print"
  | identifier => "null identifier"
  | variableName => "null variable name"
  | functionBody => "null expression in function body"
  | applicationPart => "null expression in application"

end Gap

/-- Why a production is refused. -/
inductive Refusal where
  /-- an identifier is not bound -/
  | undefined (name : String)
  /-- an operand is an identifier node, not a value -/
  | unexpanded (name : String)
  /-- a part of the sentence is missing -/
  | missing (gap : Gap)
  deriving DecidableEq, Repr

namespace Refusal

/-- The wording of a refusal. -/
def message : Refusal → String
  | undefined name => s!"identifier `{name}` is not defined"
  | unexpanded name => s!"identifier `{name}` was not replaced by its value"
  | missing gap => gap.message

end Refusal

/-- A syntax error: the token at which no sentence can go on. -/
structure Complaint where
  token : Token
  deriving DecidableEq, Repr

namespace Complaint

/-- The wording of a syntax error. -/
def message (complaint : Complaint) : String :=
  let token := complaint.token
  let spelling := match token.text with
    | some text => s!" `{text}`"
    | none => ""
  let place := s!"{token.line}:{token.column}"
  s!"syntax error at {place}: unexpected {token.kind.describe}{spelling}"

end Complaint

/-- The values on the automaton's stack. -/
inductive Value where
  /-- of marks, reserved words and statements -/
  | empty
  /-- of a word that was shifted -/
  | text (text : String)
  /-- of an expression or an evaluation -/
  | operand (operand : Operand)
  deriving DecidableEq, Repr, Inhabited

/-- The productions that do something. -/
inductive Production where
  | declaration
  | evaluation
  | print
  | identifier
  | name
  | group
  | function
  | application
  /-- any other production -/
  | pass
  deriving DecidableEq, Repr

/-- The production with a given rule number. -/
def Production.ofRule : Nat → Production
  | 6 | 7 => .declaration
  | 8 => .evaluation
  | 9 => .print
  | 10 => .identifier
  | 11 => .name
  | 14 => .group
  | 15 => .function
  | 16 => .application
  | _ => .pass

/-- A word on the stack. -/
def wordAt (value : Option Value) (gap : Gap) : Except Refusal String :=
  match value with
  | some (.text text) => .ok text
  | _ => .error (.missing gap)

/-- An operand on the stack that may be stored or embedded: it is there,
and it is not a bare identifier. -/
def operandAt (graph : Graph) (value : Option Value) (gap : Gap) :
    Except Refusal Operand :=
  match value with
  | some (.operand operand) =>
    match graph.resolve? operand with
    | some (.identifier name) => .error (.unexpanded name)
    | _ => .ok operand
  | _ => .error (.missing gap)

/-- What a production adds to a program, and its value. -/
structure Contribution where
  /-- a name and what it is bound to -/
  binding : Option (String × Operand) := none
  /-- nodes to be added, in order -/
  nodes : List Node := []
  instruction : Option Instruction := none
  value : Value := .empty
  deriving DecidableEq, Repr

/-- Adds a contribution to a program. -/
def Contribution.addTo (contribution : Contribution) (program : Program) :
    Program where
  graph := contribution.nodes.foldl Graph.add program.graph
  code := match contribution.instruction with
    | some instruction => program.code.push instruction
    | none => program.code
  symbols := match contribution.binding with
    | some (name, value) => program.symbols.insert name value
    | none => program.symbols

/-- Binds the name two symbols before the last to the last value. -/
def declaration (program : Program) (frame : List Value) :
    Except Refusal Contribution := do
  let name ← wordAt frame[2]? .declaredName
  let value ← operandAt program.graph frame[0]? .declaredValue
  return {
    binding := some (name, value)
    nodes := [.identifier name]
    instruction := some (.assign value (.node program.graph.size)) }

/-- Evaluates the last value. -/
def evaluation (program : Program) (frame : List Value) :
    Except Refusal Contribution := do
  let value ← operandAt program.graph frame[0]? .evaluatedValue
  return {
    instruction := some (.eval value)
    value := .operand (.result program.code.size) }

/-- Prints the last value. -/
def printing (program : Program) (frame : List Value) :
    Except Refusal Contribution := do
  let value ← operandAt program.graph frame[0]? .printedValue
  return { instruction := some (.print value) }

/-- Looks up an identifier. -/
def identifierUse (program : Program) (frame : List Value) :
    Except Refusal Contribution := do
  let name ← wordAt frame[0]? .identifier
  match program.symbols.get? name with
  | some value => return { value := .operand value }
  | none => throw (.undefined name)

/-- Makes a variable of a name. -/
def nameUse (program : Program) (frame : List Value) :
    Except Refusal Contribution := do
  let name ← wordAt frame[0]? .variableName
  return {
    nodes := [.var name]
    value := .operand (.node program.graph.size) }

/-- Makes a function of the name two symbols before the last and the last
value. -/
def function (program : Program) (frame : List Value) :
    Except Refusal Contribution := do
  let name ← wordAt frame[2]? .variableName
  let body ← operandAt program.graph frame[0]? .functionBody
  let bound := program.graph.size
  return {
    nodes := [.var name, .lam bound body]
    instruction := some (.func (.node bound) body)
    value := .operand (.node (bound + 1)) }

/-- Applies the value before the last to the last. -/
def application (program : Program) (frame : List Value) :
    Except Refusal Contribution := do
  let applied ← operandAt program.graph frame[1]? .applicationPart
  let applicand ← operandAt program.graph frame[0]? .applicationPart
  return {
    nodes := [.app applied applicand]
    instruction := some (.apply applied applicand)
    value := .operand (.node program.graph.size) }

/-- What a production contributes to a program.  The frame holds the
values of its symbols, the last one first. -/
def Production.meaning (production : Production) (program : Program)
    (frame : List Value) : Except Refusal Contribution :=
  match production with
  | .declaration => Grammar.declaration program frame
  | .evaluation => Grammar.evaluation program frame
  | .print => printing program frame
  | .identifier => identifierUse program frame
  | .name => nameUse program frame
  | .group => .ok { value := frame[1]?.getD .empty }
  | .function => Grammar.function program frame
  | .application => Grammar.application program frame
  | .pass => .ok { value := frame.getLast?.getD .empty }

/-- A program that is being read, and the syntax errors so far. -/
structure Draft where
  program : Program := {}
  complaints : Array Complaint := #[]
  deriving DecidableEq, Repr, Inhabited

/-- The value of a token: its text, if it has one. -/
def tokenValue (token : Token) : Value :=
  match token.text with
  | some text => .text text
  | none => .empty

/-- The semantics that builds a program.  A syntax error without a token
is reported at the start of the input. -/
def semantics : Semantics Draft Value Refusal where
  blank := .empty
  token draft token := (draft, tokenValue token)
  reduce draft rule frame :=
    match (Production.ofRule rule).meaning draft.program frame with
    | .ok contribution =>
      ({ draft with program := contribution.addTo draft.program },
        .ok contribution.value)
    | .error refusal => (draft, .error refusal)
  complain draft found :=
    { draft with
      complaints := draft.complaints.push ⟨found.getD Token.start⟩ }

end LambdaStack.Grammar
