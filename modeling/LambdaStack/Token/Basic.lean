/-!
# Tokens of the lambda notation

A source text is read as a sequence of **tokens**.  Each token has a
**kind**, the place where it starts and, for the kinds whose spelling is
not fixed, its text.  There are twelve kinds: five marks, two sorts of
word, two reserved words, the start and the end of the input, and a kind
for characters that begin no token.

The reserved kinds `Kind.start` and `Kind.endOfInput` stand for no
characters: the first marks the bottom of a parse, the second is answered
whenever the input is used up.
-/

namespace LambdaStack

/-- The kinds of token, in the order of their indices. -/
inductive Kind where
  /-- the sign `=` -/
  | equals
  /-- the backslash that opens a function -/
  | lambda
  /-- the full stop between a parameter and its body -/
  | dot
  /-- the sign `(` -/
  | openBracket
  /-- the sign `)` -/
  | closeBracket
  /-- a global name, which begins with a capital letter or a digit -/
  | identifier
  /-- a lambda-bound name, which begins with a small letter -/
  | name
  /-- the reserved word that opens a declaration -/
  | letWord
  /-- the reserved word that opens an evaluation -/
  | evalWord
  /-- the bottom of a parse; never scanned -/
  | start
  /-- the end of the input -/
  | endOfInput
  /-- a character that begins no token -/
  | invalid
  deriving DecidableEq, Repr, Inhabited

namespace Kind

/-- Every kind, in the order of their indices. -/
def all : List Kind :=
  [equals, lambda, dot, openBracket, closeBracket, identifier, name,
    letWord, evalWord, start, endOfInput, invalid]

/-- The position of a kind in `all`. -/
def index : Kind → Nat
  | equals => 0
  | lambda => 1
  | dot => 2
  | openBracket => 3
  | closeBracket => 4
  | identifier => 5
  | name => 6
  | letWord => 7
  | evalWord => 8
  | start => 9
  | endOfInput => 10
  | invalid => 11

/-- The one-word label of a kind, as it stands in logs. -/
def label : Kind → String
  | equals => "Equals"
  | lambda => "Lambda"
  | dot => "Dot"
  | openBracket => "BracketOpen"
  | closeBracket => "BracketClose"
  | identifier => "Identifier"
  | name => "Name"
  | letWord => "Let"
  | evalWord => "Eval"
  | start => "Start"
  | endOfInput => "EndOfInput"
  | invalid => "Error"

/-- The kind with a given label. -/
def ofLabel? (text : String) : Option Kind :=
  all.find? (fun kind => kind.label = text)

/-- How a kind is named to the user. -/
def describe : Kind → String
  | equals => "`=`"
  | lambda => "`\\`"
  | dot => "`.`"
  | openBracket => "`(`"
  | closeBracket => "`)`"
  | identifier => "identifier"
  | name => "name"
  | letWord => "`let`"
  | evalWord => "`eval`"
  | start => "start of input"
  | endOfInput => "end of input"
  | invalid => "invalid token"

/-- Only words whose spelling is free, and invalid characters, carry
their text. -/
def carriesText : Kind → Bool
  | identifier | name | invalid => true
  | _ => false

/-- A kind stands at its own index. -/
theorem all_index (kind : Kind) : all[kind.index]? = some kind := by
  cases kind <;> rfl

/-- Labels tell the kinds apart. -/
theorem ofLabel?_label (kind : Kind) : ofLabel? kind.label = some kind := by
  cases kind <;> decide +kernel

end Kind

/-- A stretch of a text, in bytes of its UTF-8 form: `stop` is the first
byte that no longer belongs to it. -/
structure Span where
  start : Nat
  stop : Nat
  deriving DecidableEq, Repr, Inhabited

namespace Span

/-- A span without bytes. -/
def isEmpty (span : Span) : Bool :=
  span.stop ≤ span.start

/-- The span as it stands in logs. -/
def describe (span : Span) : String :=
  s!"{span.start}..{span.stop}"

end Span

/-- A token.  Lines and columns count from one; a token that was not
scanned from a text has line and column zero. -/
structure Token where
  kind : Kind
  line : Nat := 0
  column : Nat := 0
  text : Option String := none
  span : Span := ⟨0, 0⟩
  deriving DecidableEq, Repr, Inhabited

namespace Token

/-- A token without a place in a text. -/
def bare (kind : Kind) (text : Option String) : Token :=
  { kind, text }

/-- The token under the initial state of a parse. -/
def start : Token :=
  bare .start none

/-- The token that a list of tokens answers once it is used up. -/
def endOfInput : Token :=
  bare .endOfInput none

/-- A token with its place, as it stands in logs. -/
def describe (token : Token) : String :=
  let spelling := match token.text with
    | some text => s!": {text}"
    | none => ""
  s!"[{token.line}:{token.column}] {token.kind.describe}{spelling}"

end Token

end LambdaStack
