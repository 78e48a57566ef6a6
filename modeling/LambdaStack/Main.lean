import LambdaStack.Session.Basic

/-!
# The command line

    lambda-stack [--tokens] [--trace] [file]

With a file, reads it and shows its instructions, its commands and its
bindings.  Without one, answers standard input line by line; the line
`:symbols` lists the bindings made so far.  `--tokens` shows the tokens of
every input, `--trace` writes to standard error what happens to it.
-/

namespace LambdaStack.Main

/-- What was asked for on the command line. -/
structure Options where
  file : Option String := none
  tokens : Bool := false
  trace : Bool := false
  deriving DecidableEq, Repr

/-- Reads the words of the command line; nothing if one of them cannot be
understood. -/
def Options.ofWords? (options : Options) : List String → Option Options
  | [] => some options
  | "--tokens" :: words => { options with tokens := true }.ofWords? words
  | "--trace" :: words => { options with trace := true }.ofWords? words
  | word :: words =>
    if word.startsWith "-" || options.file.isSome then none
    else { options with file := some word }.ofWords? words

/-- How the program is called. -/
def usage : String :=
  "usage: lambda-stack [--tokens] [--trace] [file]"

/-- Writes log lines. -/
def writeLog (rows : List String) : IO Unit :=
  rows.forM fun row => IO.eprintln row

/-- Reads one file. -/
def runFile (options : Options) (name : String) : IO UInt32 := do
  let output ←
    try
      let text ← IO.FS.readFile name
      if options.trace then
        writeLog (Session.logRows {} text)
      pure (Session.file options.tokens name text)
    catch error =>
      match error with
      | .noFileOrDirectory _ _ _ => pure Session.missingFile
      | _ =>
        pure { exitCode := 1
               stderr := Session.failureText (toString error) }
  IO.print output.stdout
  IO.eprint output.stderr
  return UInt32.ofNat output.exitCode

/-- Answers standard input until it ends. -/
partial def runLines (options : Options) (input : IO.FS.Stream)
    (session : Session) : IO UInt32 := do
  if ← input.isTty then
    IO.print "λ> "
    (← IO.getStdout).flush
  let typed ← input.getLine
  if typed.isEmpty then
    return 0
  let mut session := session
  for line in Session.inputLines typed do
    if options.trace && Session.requestOf line = .read then
      writeLog (session.logRows line)
    let (next, rows) := session.typeLine options.tokens line
    session := next
    for row in rows do
      IO.println row
  runLines options input session

end LambdaStack.Main

open LambdaStack.Main in
/-- Runs a session as the command line asks for it. -/
def main (words : List String) : IO UInt32 := do
  match Options.ofWords? {} words with
  | none =>
    IO.eprintln usage
    return 2
  | some options =>
    match options.file with
    | some name => runFile options name
    | none => runLines options (← IO.getStdin) {}
