import LambdaStack.Grammar.Meaning
import LambdaStack.Grammar.Tables

/-!
# Reading a source into a program

A `Reading` is a source, the number of tokens already taken from it, and
the draft built so far.  `Reading.attempt` runs the grammar's automaton
once.  A source can be read several times in a row: the next attempt goes
on behind the last token that was taken, so a token that was looked at
and not shifted is lost, while the program and the syntax errors pile up.

An attempt is accepted, rejected with a syntax error, or stopped because
a production was refused.  The number of steps it may take grows with the
length of the source.
-/

namespace LambdaStack.Grammar

open Automaton

/-- A source that is being read. -/
structure Reading where
  source : Source
  /-- how many tokens were taken from the source -/
  taken : Nat := 0
  draft : Draft := {}

/-- The outcome of an attempt, the reading after it, and what happened,
in order.  An attempt that has no outcome ran out of steps. -/
structure Attempt where
  outcome : Option (Halt Refusal)
  reading : Reading
  log : List Event

namespace Reading

/-- Goes on reading `program` from a new source. -/
def resume (source : Source) (program : Program) : Reading :=
  { source, draft := { program } }

/-- The program as far as it was read. -/
def program (reading : Reading) : Program :=
  reading.draft.program

/-- The syntax errors so far. -/
def complaints (reading : Reading) : List Complaint :=
  reading.draft.complaints.toList

/-- The next token of the source. -/
def nextToken (reading : Reading) : Token :=
  reading.source.tape reading.taken

/-- Steps enough for a source of the given length.  A token costs its own
shift and the reductions it leads to. -/
def fuel (length : Nat) : Nat :=
  64 * (length + 4)

/-- Runs the automaton once. -/
def attempt (reading : Reading) : Attempt :=
  let final :=
    (Config.initial semantics reading.draft reading.taken).run tables
      semantics reading.source.tape (fuel reading.source.length)
  { outcome := final.halt?
    reading :=
      { reading with taken := final.taken, draft := final.memory }
    log := final.log.reverse }

/-- Runs the automaton `count` times, and answers all attempts. -/
def attempts : Nat → Reading → List Attempt
  | 0, _ => []
  | count + 1, reading =>
    let attempt := reading.attempt
    attempt :: attempts count attempt.reading

end Reading

/-- Reads a text on top of a program. -/
def readText (text : String) (program : Program) : Attempt :=
  (Reading.resume (Source.ofText text) program).attempt

end LambdaStack.Grammar
