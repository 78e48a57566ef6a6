import LambdaStack.Bytecode.Decode
import LambdaStack.Bytecode.Names
import LambdaStack.Program.Basic

/-!
# Lowering instructions to bytes

Lowering an instruction has two halves.  The first, `plan`, looks at the
graph and the bindings and says in names what is to be done: a list of
**steps**, each of which binds a name, writes a command, or gives up.
The second, `Assembler.perform`, carries the steps out: it interns the
names and writes the bytes.

    assign value target    LOAD or PUSH the value if it is an identifier
                           or a variable, then STORE target
    func bound body        PUSH bound, LOAD or PUSH the body if it is an
                           identifier or a variable, then FUNC
    apply                  nothing
    eval, print            EVAL, PRINT

Any other value or body was made by an earlier instruction.  A body that
is the function's own parameter is pushed under the reserved name
`substitute`, which always has code 0, so that an evaluator can replace
it without knowing what it was called.

A step that cannot be done ends the lowering; what was done before it
stays.
-/

namespace LambdaStack.Bytecode

/-- The name that stands for a function's own parameter. -/
def substitute : String := "SUBSTITUTE"

/-- The two classes of interned names. -/
inductive NameClass where
  | identifier
  | bound
  deriving DecidableEq, Repr

namespace NameClass

/-- What a name of the class is called. -/
def describe : NameClass → String
  | identifier => "identifier"
  | bound => "variable"

/-- The same with its article. -/
def describeOne : NameClass → String
  | identifier => "an identifier"
  | bound => "a variable"

end NameClass

/-- The class of the names that a command takes: `PUSH` takes variables,
the other commands take identifiers. -/
def Command.nameClass : Command → NameClass
  | .push => .bound
  | _ => .identifier

/-- Why instructions cannot be lowered. -/
inductive LoweringError where
  /-- an identifier is not bound -/
  | undefined (index : Nat) (name : String)
  /-- an instruction lacks its second operand -/
  | missingOperand (index : Nat) (operation : Operation)
  /-- an operand is not what the operation asks for -/
  | shape (index : Nat) (expected : NameClass) (found : String)
  /-- there are more names than operand bytes -/
  | tooManyNames (nameClass : NameClass)
  /-- the bytes cannot be read back -/
  | decode (error : DecodeError)
  deriving DecidableEq, Repr

namespace LoweringError

/-- The wording of an error. -/
def message : LoweringError → String
  | undefined index name =>
    s!"instruction {index}: identifier `{name}` is not defined"
  | missingOperand index operation =>
    s!"instruction {index}: `{operation.name}` is missing its second operand"
  | shape index expected found =>
    s!"instruction {index}: expected {expected.describeOne}, found `{found}`"
  | tooManyNames nameClass =>
    s!"too many distinct {nameClass.describe} names for one-byte operands"
  | decode error => error.message

end LoweringError

/-- One thing to be done for an instruction. -/
inductive Step where
  /-- binds a name -/
  | bind (name : String) (value : Operand)
  /-- writes a command without operand -/
  | bare (command : Command)
  /-- writes a command with the code of a name -/
  | named (command : Command) (name : String)
  /-- gives up -/
  | fail (error : LoweringError)
  deriving DecidableEq, Repr

/-- The steps that bind `value` to the identifier `target`. -/
def planAssign (graph : Graph) (symbols : Symbols) (index : Nat)
    (value target : Operand) : List Step :=
  match graph.resolve? target with
  | some (.identifier name) =>
    match graph.resolve? value with
    | some (.identifier source) =>
      match symbols.get? source with
      | some meaning =>
        [.bind name meaning, .named .load source, .named .store name]
      | none => [.fail (.undefined index source)]
    | some (.var source) =>
      [.bind name value, .named .push source, .named .store name]
    | _ => [.named .store name]
  | _ => [.fail (.shape index .identifier (graph.render target))]

/-- The steps that put the body of a function with the given parameter on
the machine's stack. -/
def planBody (graph : Graph) (symbols : Symbols) (index : Nat)
    (parameter : String) (body : Operand) : List Step :=
  match graph.resolve? body with
  | some (.identifier name) =>
    if symbols.contains name then [.named .load name]
    else [.fail (.undefined index name)]
  | some (.var name) =>
    [.named .push (if name = parameter then substitute else name)]
  | _ => []

/-- The steps that make a function. -/
def planFunc (graph : Graph) (symbols : Symbols) (index : Nat)
    (bound body : Operand) : List Step :=
  match graph.resolve? bound with
  | some (.var parameter) =>
    .named .push parameter
      :: planBody graph symbols index parameter body ++ [.bare .func]
  | _ => [.fail (.shape index .bound (graph.render bound))]

/-- The steps of the instruction at `index`. -/
def plan (graph : Graph) (symbols : Symbols) (index : Nat)
    (instruction : Instruction) : List Step :=
  match instruction.operation, instruction.second with
  | .assign, some target =>
    planAssign graph symbols index instruction.first target
  | .func, some body => planFunc graph symbols index instruction.first body
  | .assign, none => [.fail (.missingOperand index .assign)]
  | .func, none => [.fail (.missingOperand index .func)]
  | .apply, _ => []
  | .eval, _ => [.bare .eval]
  | .print, _ => [.bare .print]

/-- The bytes written so far, the bindings, and the interned names. -/
structure Assembler where
  bytes : Array UInt8 := #[]
  symbols : Symbols := {}
  identifierNames : Names := {}
  variableNames : Names := ⟨#[substitute]⟩
  deriving DecidableEq, Repr

namespace Assembler

/-- An assembler that has written nothing. -/
def initial (symbols : Symbols) : Assembler :=
  { symbols }

/-- The names of a class. -/
def names (assembler : Assembler) : NameClass → Names
  | .identifier => assembler.identifierNames
  | .bound => assembler.variableNames

/-- Exchanges the names of a class. -/
def setNames (assembler : Assembler) (nameClass : NameClass)
    (names : Names) : Assembler :=
  match nameClass with
  | .identifier => { assembler with identifierNames := names }
  | .bound => { assembler with variableNames := names }

/-- The code of a name, which is interned if need be.  A name that has no
code is interned all the same. -/
def code (assembler : Assembler) (nameClass : NameClass) (name : String) :
    Except LoweringError UInt8 × Assembler :=
  let (position, names) := (assembler.names nameClass).intern name
  let answer := match byteOf? position with
    | some byte => .ok byte
    | none => .error (.tooManyNames nameClass)
  (answer, assembler.setNames nameClass names)

/-- Appends bytes. -/
def write (assembler : Assembler) (bytes : List UInt8) : Assembler :=
  { assembler with bytes := assembler.bytes ++ bytes }

end Assembler

/-- An assembler, and the error that stopped it if there was one.  What
was done before the error stays. -/
structure Assembly where
  assembler : Assembler
  error? : Option LoweringError := none
  deriving DecidableEq, Repr

/-- The assembler, unless it was stopped. -/
def Assembly.result (assembly : Assembly) : Except LoweringError Assembler :=
  match assembly.error? with
  | none => .ok assembly.assembler
  | some error => .error error

namespace Assembler

/-- Carries out a step. -/
def perform (assembler : Assembler) : Step → Assembly
  | .bind name value =>
    ⟨{ assembler with symbols := assembler.symbols.insert name value }, none⟩
  | .bare command => ⟨assembler.write (encode command none), none⟩
  | .named command name =>
    match assembler.code command.nameClass name with
    | (.ok byte, assembler) =>
      ⟨assembler.write (encode command (some byte)), none⟩
    | (.error error, assembler) => ⟨assembler, some error⟩
  | .fail error => ⟨assembler, some error⟩

/-- Carries out steps up to the first error. -/
def performAll (assembler : Assembler) : List Step → Assembly
  | [] => ⟨assembler, none⟩
  | step :: steps =>
    match assembler.perform step with
    | ⟨assembler, none⟩ => performAll assembler steps
    | ⟨assembler, some error⟩ => ⟨assembler, some error⟩

/-- Lowers the instruction at `index`. -/
def lower (assembler : Assembler) (graph : Graph) (index : Nat)
    (instruction : Instruction) : Assembly :=
  assembler.performAll (plan graph assembler.symbols index instruction)

/-- Lowers instructions, the first of which has the given index, up to the
first error. -/
def assembleFrom (graph : Graph) :
    Nat → List Instruction → Assembler → Assembly
  | _, [], assembler => ⟨assembler, none⟩
  | index, instruction :: instructions, assembler =>
    match assembler.lower graph index instruction with
    | ⟨assembler, none⟩ =>
      assembleFrom graph (index + 1) instructions assembler
    | ⟨assembler, some error⟩ => ⟨assembler, some error⟩

/-- Lowers a list of instructions, numbered from zero. -/
def assemble (assembler : Assembler) (graph : Graph)
    (instructions : List Instruction) : Assembly :=
  assembleFrom graph 0 instructions assembler

/-- The name that an item's operand stands for. -/
def nameOf? (assembler : Assembler) (item : Item) : Option String :=
  item.operand.bind fun operand =>
    (assembler.names item.command.nameClass).name? operand.toNat

/-- An item as a line of text, with the name of its operand. -/
def describeItem (assembler : Assembler) (item : Item) : String :=
  match assembler.nameOf? item with
  | some name => s!"{item.describe} ; {name}"
  | none => item.describe

/-- The written bytes as lines of text, one command each. -/
def listing (assembler : Assembler) : Except LoweringError (List String) :=
  match decode assembler.bytes.toList with
  | .ok items => .ok (items.map assembler.describeItem)
  | .error error => .error (.decode error)

/-- The listing as one text. -/
def listingText (assembler : Assembler) : Except LoweringError String :=
  assembler.listing.map joinLines

end Assembler

/-- Lowers a program against its own bindings. -/
def assembleProgram (program : Program) : Assembly :=
  (Assembler.initial program.symbols).assemble program.graph
    program.code.toList

end LambdaStack.Bytecode
