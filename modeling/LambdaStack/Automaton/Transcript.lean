import LambdaStack.Automaton.Run

/-!
# Transcripts

The plainest semantics for an automaton: a value is a text that spells
out how it was derived, and every call is written down.  A token is worth
its own text, or the label of its kind if it has none; a rule is worth
its number followed by the values of its right-hand side in brackets.

A transcript run can be told to stop at a rule, and it stops by itself
when it has reduced `Transcript.limit` times, so tables whose reductions
never end can be looked at too.
-/

namespace LambdaStack.Automaton

/-- One remark of a transcript. -/
inductive Remark where
  /-- a token was given a value -/
  | token (value : String)
  /-- a rule was reduced over values, listed in the order of its symbols -/
  | reduce (rule : Nat) (values : List String)
  /-- a syntax error was reported -/
  | error (found : Option Token)
  deriving DecidableEq, Repr

/-- Why a transcript run was stopped. -/
inductive Stop where
  /-- the rule that was to be stopped at was reduced -/
  | rule
  /-- there were too many reductions -/
  | limit
  deriving DecidableEq, Repr

/-- The remarks so far, newest first, and the number of reductions among
them. -/
structure Transcript where
  remarks : List Remark := []
  reductions : Nat := 0
  deriving DecidableEq, Repr

namespace Transcript

/-- The number of the reduction that stops a run. -/
def limit : Nat := 500

/-- What a token is worth. -/
def tokenValue (token : Token) : String :=
  token.text.getD token.kind.label

/-- What a rule is worth. -/
def ruleValue (rule : Nat) (values : List String) : String :=
  let inner := " ".intercalate values
  s!"{rule}[{inner}]"

/-- The semantics that writes everything down and stops at `stopAt`. -/
def semantics (stopAt : Option Nat) : Semantics Transcript String Stop where
  blank := ""
  token transcript token :=
    let value := tokenValue token
    ({ transcript with remarks := .token value :: transcript.remarks }, value)
  reduce transcript rule frame :=
    let values := frame.reverse
    let transcript : Transcript :=
      { remarks := .reduce rule values :: transcript.remarks
        reductions := transcript.reductions + 1 }
    if stopAt = some rule then
      (transcript, .error .rule)
    else if limit ≤ transcript.reductions then
      (transcript, .error .limit)
    else
      (transcript, .ok (ruleValue rule values))
  complain transcript found :=
    { transcript with remarks := .error found :: transcript.remarks }

/-- Steps enough for every run over a source of `length` tokens that does
not go on forever between two reductions. -/
def fuel (tables : Tables) (length : Nat) : Nat :=
  16 * (length + (limit + 2) * (tables.states + 2))

/-- Runs an automaton over a source and writes down what it does. -/
def ofSource (tables : Tables) (stopAt : Option Nat) (source : Source) :
    Config Transcript String Stop :=
  (Config.initial (semantics stopAt) {} 0).run tables (semantics stopAt)
    source.tape (fuel tables source.length)

end Transcript

end LambdaStack.Automaton
