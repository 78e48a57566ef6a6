import LambdaStack.Log
import LambdaStack.Session.Input

/-!
# Sessions

A **session** reads one input after the other into one program.  An
input counts only if it is accepted and its program can be lowered:
otherwise the program stays as it was.  An input that counts shows the
instructions and commands that it added, so all that was shown so far is
always the whole program.

`Session.answer` is what an input does; `Session.interactive` and
`Session.file` put the answers into words.
-/

namespace LambdaStack

open Automaton Bytecode Grammar Session

/-- The program read so far and how much of it was shown. -/
structure Session where
  program : Program := {}
  /-- the number of instructions that were shown -/
  instructionsShown : Nat := 0
  /-- the number of commands that were shown -/
  commandsShown : Nat := 0
  deriving DecidableEq, Repr, Inhabited

/-- What an input leads to. -/
inductive Reply where
  /-- the input counts; these instructions and commands are new -/
  | extended (instructions commands : List String)
  /-- the input is no sentence -/
  | rejected (complaints : List Complaint)
  /-- a production of the input was refused -/
  | refused (refusal : Refusal)
  /-- the program cannot be lowered -/
  | unlowered (error : LoweringError)
  /-- the reading did not come to an end -/
  | undecided
  deriving DecidableEq, Repr

namespace Session

/-- Takes over a program that was accepted, if it can be lowered. -/
def extend (session : Session) (program : Program) : Session × Reply :=
  match (assembleProgram program).result.bind Assembler.listing with
  | .error error => (session, .unlowered error)
  | .ok commands =>
    let lines := program.lines
    ({ program
       instructionsShown := lines.length
       commandsShown := commands.length },
      .extended (lines.drop session.instructionsShown)
        (commands.drop session.commandsShown))

/-- Reads an input. -/
def answer (session : Session) (text : String) : Session × Reply :=
  let attempt := readText text session.program
  match attempt.outcome with
  | some .accepted => session.extend attempt.reading.program
  | some .rejected => (session, .rejected attempt.reading.complaints)
  | some (.failed refusal) => (session, .refused refusal)
  | some (.faulted _) | none => (session, .undecided)

/-- What happens when an input is read, and lowered if it is accepted, as
log lines. -/
def logRows (session : Session) (text : String) : List String :=
  let attempt := readText text session.program
  let program := attempt.reading.program
  let reading := LogLine.ofReading true attempt.log
  let lowering := match attempt.outcome with
    | some .accepted => LogLine.ofProgram program
    | _ => []
  (reading ++ lowering).map LogLine.describe

/-- The bindings of the program, one line each. -/
def symbolRows (session : Session) : List String :=
  session.program.symbols.entries.map fun (name, value) =>
    s!"{Colour.blue.paint name} = {session.program.graph.render value}"

/-- An empty span is widened to the byte in front of it, so that there is
something to put a label on. -/
def visibleSpan (span : Span) : Span :=
  if span.isEmpty then ⟨span.start - 1, span.stop⟩ else span

/-- The block of a syntax error. -/
def complaintRows (name : String) (lines : List Line)
    (complaint : Complaint) : List String :=
  let message := Colour.red.paint complaint.message
  let label := ⟨visibleSpan complaint.token.span, .red, message⟩
  (labelBlock? name lines label).getD [message]

/-- The label of a token. -/
def tokenLabel (token : Token) : Label :=
  if token.kind = .invalid then
    ⟨token.span, .red, Colour.red.paint token.kind.describe⟩
  else
    ⟨token.span, .blue, Colour.green.paint token.kind.describe⟩

/-- The tokens of a text in one block for each line that has any. -/
def tokenRows (name text : String) : List String :=
  let labels := ((tokensOf text).filter (·.kind ≠ .endOfInput)).map tokenLabel
  (linesOf text).flatMap fun line =>
    let inLine := labels.filter fun label =>
      line.start ≤ label.span.start ∧ label.span.start < line.stop
    if inLine.isEmpty then [] else lineBlock name line inLine

/-- A reply as lines of text.  An error of lowering is worded by whoever
asked. -/
def replyRows (name text : String) : Reply → List String
  | .extended instructions commands =>
    instructions.map Colour.cyan.paint ++ commands.map Colour.yellow.paint
  | .rejected complaints =>
    complaints.flatMap (complaintRows name (linesOf text))
  | .refused refusal =>
    [Colour.red.paint s!"parse aborted: {refusal.message}"]
  | .unlowered _ | .undecided => []

/-- What an input shows: its tokens if asked for, then the reply. -/
def inputRows (name text : String) (tokens : Bool) (reply : Reply) :
    List String :=
  (if tokens then tokenRows name text else []) ++ replyRows name text reply

/-- The name under which typed input is shown. -/
def typedName : String := "input"

/-- The command that lists the bindings. -/
def symbolsCommand : String := ":symbols"

/-- What a typed line asks for. -/
inductive Request where
  /-- nothing, because the line is blank -/
  | nothing
  /-- a list of the bindings -/
  | symbols
  /-- that the line is read -/
  | read
  deriving DecidableEq, Repr

/-- Tells blank lines and the session's own command from input. -/
def requestOf (line : String) : Request :=
  let trimmed := trim line.toList
  if trimmed.isEmpty then .nothing
  else if trimmed = symbolsCommand.toList then .symbols
  else .read

/-- Answers one typed line. -/
def typeLine (tokens : Bool) (session : Session) (line : String) :
    Session × List String :=
  match requestOf line with
  | .nothing => (session, [])
  | .symbols => (session, session.symbolRows)
  | .read =>
    let (next, reply) := session.answer line
    let rows := inputRows typedName line tokens reply
    match reply with
    | .unlowered error => (next, rows ++ [Colour.red.paint error.message])
    | _ => (next, rows)

/-- Answers typed lines one after the other. -/
def typeLines (tokens : Bool) : Session → List String → List String
  | _, [] => []
  | session, line :: lines =>
    let (session, rows) := session.typeLine tokens line
    rows ++ typeLines tokens session lines

/-- What a run of the program leaves behind. -/
structure Output where
  exitCode : Nat := 0
  stdout : String := ""
  stderr : String := ""
  deriving DecidableEq, Repr

/-- An error message of the program as a whole. -/
def failureText (message : String) : String :=
  s!"Error: {message}\n"

/-- A session over typed input. -/
def interactive (tokens : Bool) (input : String) : Output :=
  { stdout := joinLines (typeLines tokens {} (inputLines input)) }

/-- A session over one file. -/
def file (tokens : Bool) (name text : String) : Output :=
  let (session, reply) := answer {} text
  let rows := inputRows name text tokens reply
  match reply with
  | .unlowered error =>
    { exitCode := 1
      stdout := joinLines rows
      stderr := failureText error.message }
  | _ => { stdout := joinLines (rows ++ session.symbolRows) }

/-- What is said of a file that is not there. -/
def missingFile : Output :=
  { exitCode := 1
    stderr := failureText "No such file or directory (os error 2)" }

end Session

end LambdaStack
