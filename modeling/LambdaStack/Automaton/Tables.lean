import LambdaStack.Token.Basic

/-!
# Packed automaton tables

The automaton of a grammar is kept in a handful of short arrays.  The
rows of the action table (one per state) and the columns of the goto
table (one per nonterminal) overlap in one array, `table`; `owner` says
to whom each entry belongs, so an entry of somebody else is told apart.

A row is found at `rowBase state + terminal`, a column at
`columnBase nonterminal + state`.  Where the table has nothing to say,
`rowDefault` gives the rule to reduce by (zero meaning none), and
`columnDefault` the state to go to.

Symbols are numbered: the terminals first, then the nonterminals.
Terminal 0 is the end of input, terminal 1 the error token.

A `Layout` is such a set of arrays as it was written down.  `Tables` are
a layout in which `Layout.defect?` found nothing wrong; a defect names
the arrays by their customary short names (`pact`, `defact`, `pgoto`,
`defgoto`, `table`, `check`, `r1`, `r2`).  Every accessor is an `Option`:
it has no answer where an array has no entry.
-/

namespace LambdaStack.Automaton

/-- The symbol of the end of input. -/
def endSymbol : Nat := 0

/-- The symbol that stands for a stretch of faulty input. -/
def errorSymbol : Nat := 1

/-- The arrays of an automaton. -/
structure Layout where
  /-- where the row of each state begins -/
  rowBase : Array Int
  /-- the rule each state reduces by when its row is silent; 0 for none -/
  rowDefault : Array Nat
  /-- where the column of each nonterminal begins -/
  columnBase : Array Int
  /-- the state each nonterminal leads to when its column is silent -/
  columnDefault : Array Int
  /-- the entries of all rows and columns -/
  table : Array Int
  /-- the terminal or state that each entry belongs to -/
  owner : Array Int
  /-- the left-hand symbol of each rule -/
  head : Array Nat
  /-- the length of the right-hand side of each rule -/
  length : Array Nat
  /-- the terminal of each kind of token -/
  terminalOf : Kind → Nat
  /-- the state that accepts -/
  finalState : Nat
  /-- the number of terminals -/
  terminals : Nat
  /-- the row base of a state that never looks at a token -/
  noRow : Int
  /-- the table entry of a token that is an error -/
  errorEntry : Int

/-- What can be wrong with a layout. -/
inductive Defect where
  /-- an array has the wrong number of entries -/
  | length (array : String) (found expected : Nat)
  /-- an entry means nothing -/
  | outOfRange (array : String) (index : Nat) (value : Int)
  deriving DecidableEq, Repr

namespace Defect

/-- The wording of a defect. -/
def message : Defect → String
  | length array found expected =>
    s!"`{array}` has {found} entries, expected {expected}"
  | outOfRange array index value =>
    s!"`{array}[{index}]` holds {value}, which is out of range"

end Defect

namespace Layout

/-- The number of states. -/
def states (layout : Layout) : Nat := layout.rowBase.size

/-- The number of rules, counting the unused rule 0. -/
def rules (layout : Layout) : Nat := layout.head.size

/-- The number of nonterminals. -/
def nonterminals (layout : Layout) : Nat := layout.columnBase.size

/-- A number that names a state. -/
def isState (layout : Layout) (value : Int) : Bool :=
  0 ≤ value ∧ value < layout.states

/-- A number that names a rule which can be reduced: rule 0 is unused,
and rule 1 is never reduced because entering the final state accepts. -/
def isReducible (layout : Layout) (value : Int) : Bool :=
  2 ≤ value ∧ value < layout.rules

/-- A number that names a nonterminal. -/
def isNonterminal (layout : Layout) (symbol : Int) : Bool :=
  layout.terminals ≤ symbol
    ∧ symbol < layout.terminals + layout.nonterminals

/-- The defect of an array whose size is not as expected. -/
def lengthDefect? (array : String) (found expected : Nat) : Option Defect :=
  if found = expected then none else some (.length array found expected)

/-- The first entry, from `index` on, that is not valid. -/
def entryDefect? (array : String) (valid : Nat → Int → Bool) :
    Nat → List Int → Option Defect
  | _, [] => none
  | index, value :: values =>
    if valid index value then entryDefect? array valid (index + 1) values
    else some (.outOfRange array index value)

/-- The largest final state that a defect reports. -/
def reportedStateLimit : Nat := 2147483647

/-- The first defect of a layout.  Sizes come before contents; a
negative table entry is a reduction, a positive one a state, and the
first nonterminal may lack a default target. -/
def defect? (layout : Layout) : Option Defect :=
  lengthDefect? "defact" layout.rowDefault.size layout.states
  <|> lengthDefect? "defgoto" layout.columnDefault.size layout.nonterminals
  <|> lengthDefect? "check" layout.owner.size layout.table.size
  <|> lengthDefect? "r2" layout.length.size layout.rules
  <|> entryDefect? "defact"
    (fun _ rule => rule = 0 || layout.isReducible rule)
    0 (layout.rowDefault.toList.map Int.ofNat)
  <|> entryDefect? "defgoto"
    (fun index target =>
      layout.isState target || (index = 0 && target = -1))
    0 layout.columnDefault.toList
  <|> entryDefect? "table"
    (fun _ entry => entry = 0 || entry = layout.errorEntry
      || layout.isState entry || layout.isReducible (-entry))
    0 layout.table.toList
  <|> entryDefect? "r1"
    (fun rule symbol => rule = 0 || layout.isNonterminal symbol)
    0 (layout.head.toList.map Int.ofNat)
  <|> entryDefect? "translate"
    (fun _ symbol => symbol < layout.terminals)
    0 (Kind.all.map (fun kind => Int.ofNat (layout.terminalOf kind)))
  <|> if layout.finalState < layout.states then none
    else some (.outOfRange "final_state" 0
      (Int.ofNat (min layout.finalState reportedStateLimit)))

end Layout

/-- A layout without defects. -/
structure Tables where
  layout : Layout
  sound : layout.defect? = none

/-- What the action table says for a state and a terminal. -/
inductive Action where
  /-- enter a state with the token -/
  | shift (target : Nat)
  /-- reduce by a rule -/
  | reduce (rule : Nat)
  /-- nothing in particular: use the default of the state -/
  | default
  /-- the token is an error here -/
  | fail
  deriving DecidableEq, Repr

namespace Tables

/-- Checks a layout. -/
def ofLayout (layout : Layout) : Except Defect Tables :=
  match h : layout.defect? with
  | none => .ok ⟨layout, h⟩
  | some defect => .error defect

/-- The state whose entry means that the input is accepted. -/
def finalState (tables : Tables) : Nat :=
  tables.layout.finalState

/-- The number of states. -/
def states (tables : Tables) : Nat :=
  tables.layout.states

/-- The terminal of a kind of token. -/
def symbol (tables : Tables) (kind : Kind) : Nat :=
  tables.layout.terminalOf kind

/-- The entry at `base + offset`, provided it belongs to `owner`. -/
def entry? (tables : Tables) (base : Int) (offset owner : Nat) :
    Option Int :=
  match base + offset with
  | .ofNat index =>
    if tables.layout.owner[index]? = some (Int.ofNat owner) then
      tables.layout.table[index]?
    else
      none
  | .negSucc _ => none

/-- Whether a state looks at the next token. -/
def needsLookahead? (tables : Tables) (state : Nat) : Option Bool :=
  tables.layout.rowBase[state]?.map fun base => base ≠ tables.layout.noRow

/-- Reads an entry of the action table. -/
def readEntry (tables : Tables) (entry : Int) : Action :=
  if entry = 0 ∨ entry = tables.layout.errorEntry then .fail
  else if entry < 0 then .reduce entry.natAbs
  else .shift entry.natAbs

/-- What to do in a state on a terminal. -/
def action? (tables : Tables) (state symbol : Nat) : Option Action :=
  tables.layout.rowBase[state]?.map fun base =>
    if base = tables.layout.noRow then .default
    else
      match tables.entry? base symbol symbol with
      | none => .default
      | some entry => tables.readEntry entry

/-- The rule that a state reduces by when nothing in particular is to be
done.  The inner `none` means that there is no such rule. -/
def defaultReduction? (tables : Tables) (state : Nat) :
    Option (Option Nat) :=
  tables.layout.rowDefault[state]?.map fun rule =>
    if rule = 0 then none else some rule

/-- The number of symbols on the right-hand side of a rule. -/
def ruleLength? (tables : Tables) (rule : Nat) : Option Nat :=
  tables.layout.length[rule]?

/-- The symbol on the left-hand side of a rule. -/
def ruleHead? (tables : Tables) (rule : Nat) : Option Nat :=
  tables.layout.head[rule]?

/-- The state entered after reducing to the nonterminal `head` on top of
`state`.  The sign of an entry is disregarded. -/
def goto? (tables : Tables) (state head : Nat) : Option Nat :=
  if head < tables.layout.terminals then none
  else do
    let nonterminal := head - tables.layout.terminals
    let base ← tables.layout.columnBase[nonterminal]?
    let fallback ← tables.layout.columnDefault[nonterminal]?
    return ((tables.entry? base state state).getD fallback).natAbs

/-- The state entered with the error token.  The inner `none` means that
the state has no transition on it. -/
def recovery? (tables : Tables) (state : Nat) : Option (Option Nat) :=
  tables.layout.rowBase[state]?.map fun base =>
    if base = tables.layout.noRow then none
    else
      match tables.entry? base errorSymbol errorSymbol with
      | none => none
      | some entry => if 0 < entry then some entry.natAbs else none

end Tables

end LambdaStack.Automaton
