import LambdaStack.Bytecode.Lowering
import LambdaStack.Grammar.Reading

/-!
# Log lines

What a reading and a lowering do can be followed in a log.  A log line
has a level, a message and named fields with texts for values.
-/

namespace LambdaStack

open Automaton Bytecode Grammar

/-- How much a log line matters. -/
inductive Level where
  | trace
  | debug
  deriving DecidableEq, Repr

namespace Level

/-- The name of a level. -/
def name : Level → String
  | trace => "TRACE"
  | debug => "DEBUG"

end Level

/-- A line of a log. -/
structure LogLine where
  level : Level
  message : String
  fields : List (String × String) := []
  deriving DecidableEq, Repr

namespace LogLine

/-- The token that a syntax error was found at. -/
def foundText : Option Kind → String
  | some kind => s!"Some({kind.label})"
  | none => "None"

/-- The line of an event. -/
def ofEvent : Event → LogLine
  | .read token => ⟨.trace, "lookahead", [("token", token.describe)]⟩
  | .shift token state target =>
    ⟨.trace, "shift",
      [("token", token.describe), ("state", toString state),
        ("target", toString target)]⟩
  | .reduce rule length target =>
    ⟨.trace, "reduce",
      [("rule", toString rule), ("len", toString length),
        ("target", toString target)]⟩
  | .refuse rule =>
    ⟨.debug, "semantic action aborted the parse",
      [("rule", toString rule)]⟩
  | .complain found =>
    ⟨.debug, "syntax error", [("found", foundText found)]⟩
  | .discard _ => ⟨.trace, "discarding lookahead", []⟩
  | .recover target =>
    ⟨.debug, "recovered from syntax error", [("target", toString target)]⟩
  | .accept => ⟨.debug, "input accepted", []⟩
  | .reject => ⟨.debug, "input rejected", []⟩

/-- The line that a scanner adds for a character that begins no token. -/
def ofInvalid (token : Token) : LogLine :=
  ⟨.trace, "unrecognised input",
    [("err", invalidTokenMessage), ("span", token.span.describe)]⟩

/-- The lines of the events of a reading.  If the tokens were scanned,
each invalid character is logged before it is read. -/
def ofReading (scanned : Bool) (log : List Event) : List LogLine :=
  log.flatMap fun event =>
    match event with
    | .read token =>
      if scanned ∧ token.kind = .invalid then
        [ofInvalid token, ofEvent event]
      else
        [ofEvent event]
    | _ => [ofEvent event]

/-- A log line as text. -/
def describe (line : LogLine) : String :=
  let fields := line.fields.map fun (name, text) => s!" {name}={text}"
  s!"{line.level.name} {line.message}{String.join fields}"

/-- Bytes as a list of numbers. -/
def bytesText (bytes : List UInt8) : String :=
  "[" ++ ", ".intercalate (bytes.map fun byte => toString byte.toNat) ++ "]"

/-- The lines of the instructions that can be lowered, up to the first
error.  The bytes of an instruction do not depend on those written before
it, so it is lowered onto none. -/
def ofLowering (graph : Graph) :
    Nat → List Instruction → Assembler → List LogLine
  | _, [], _ => []
  | index, instruction :: instructions, assembler =>
    let assembly :=
      { assembler with bytes := #[] }.lower graph index instruction
    match assembly.error? with
    | some _ => []
    | none =>
      ⟨.trace, "lowered",
        [("index", toString index),
          ("instruction", instruction.render graph),
          ("bytes", bytesText assembly.assembler.bytes.toList)]⟩
        :: ofLowering graph (index + 1) instructions assembly.assembler

/-- The lines of the lowering of a program. -/
def ofProgram (program : Program) : List LogLine :=
  ofLowering program.graph 0 program.code.toList
    (Assembler.initial program.symbols)

end LogLine

end LambdaStack
