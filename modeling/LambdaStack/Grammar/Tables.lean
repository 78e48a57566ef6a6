import LambdaStack.Automaton.Tables

/-!
# The tables of the lambda grammar

The grammar, with the numbers of its rules:

    accept       :  program end                           1
    program      :  program declaration                   2
                 |  program evaluation                    3
                 |  program print                         4
                 |                                        5
    declaration  :  let IDENTIFIER = expression           6
                 |  let IDENTIFIER = evaluation           7
    evaluation   :  eval expression                       8
    print        :  expression                            9
    expression   :  IDENTIFIER                           10
                 |  NAME                                 11
                 |  function                             12
                 |  application                          13
                 |  ( expression )                       14
    function     :  \ NAME . expression                  15
    application  :  expression expression                16

The terminals are numbered: end 0, error 1, unknown 2, NAME 3,
IDENTIFIER 4, `\` 5, `.` 6, `=` 7, `(` 8, `)` 9, `let` 10, `eval` 11.  The
nonterminals follow from 12 on, in the order above.

The grammar is ambiguous.  The tables settle every conflict by shifting,
except after `expression expression`, where they reduce: so application
associates to the left, and the body of a function and the expression of
a statement reach as far as they can.
-/

namespace LambdaStack.Grammar

open Automaton

/-- The terminal of each kind of token.  The start of input and invalid
characters belong to no sentence. -/
def terminal : Kind → Nat
  | .equals => 7
  | .lambda => 5
  | .dot => 6
  | .openBracket => 8
  | .closeBracket => 9
  | .identifier => 4
  | .name => 3
  | .letWord => 10
  | .evalWord => 11
  | .start => 2
  | .endOfInput => 0
  | .invalid => 2

/-- The arrays of the grammar's automaton. -/
def layout : Layout where
  rowBase := #[
    -42, 0, -42, -42, -42, -2, 28, 2, 35, -42, -42, -42, 42, -42, -42,
    -4, 9, 8, 48, -42, 54, -42, 16, 60, -42, 66]
  rowDefault := #[
    5, 0, 0, 11, 10, 0, 0, 0, 0, 2, 3, 4, 9, 12, 13, 0, 0, 0, 8, 16, 0,
    14, 0, 15, 7, 6]
  columnBase := #[-42, -42, -42, -15, -42, 22, -42, -42]
  columnDefault := #[-1, 1, 9, 10, 11, 19, 13, 14]
  table := #[
    2, 15, 20, 3, 4, 5, 17, 24, 6, 0, 7, 8, 3, 4, 5, 22, 0, 6, 21, 3, 4,
    5, 0, 12, 6, 0, 0, 8, 16, 0, 18, 3, 4, 5, 0, 0, 6, 0, 3, 4, 5, 0, 23,
    6, 25, 3, 4, 5, 0, 0, 6, 3, 4, 5, 0, 0, 6, 3, 4, 5, 0, 0, 6, 3, 4, 5,
    0, 0, 6, 3, 4, 5, 0, 0, 6]
  owner := #[
    0, 3, 6, 3, 4, 5, 4, 22, 8, -1, 10, 11, 3, 4, 5, 7, -1, 8, 9, 3, 4,
    5, -1, 1, 8, -1, -1, 11, 6, -1, 8, 3, 4, 5, -1, -1, 8, -1, 3, 4, 5,
    -1, 20, 8, 22, 3, 4, 5, -1, -1, 8, 3, 4, 5, -1, -1, 8, 3, 4, 5, -1,
    -1, 8, 3, 4, 5, -1, -1, 8, 3, 4, 5, -1, -1, 8]
  head := #[0, 12, 13, 13, 13, 13, 14, 14, 15, 16, 17, 17, 17, 17, 17, 18,
    19]
  length := #[0, 2, 2, 2, 2, 0, 4, 4, 2, 1, 1, 1, 1, 1, 3, 4, 2]
  terminalOf := terminal
  finalState := 2
  terminals := 12
  noRow := -42
  errorEntry := -1

/-- Nothing is wrong with the arrays. -/
theorem defect?_layout : layout.defect? = none := by
  decide +kernel

/-- The automaton of the grammar. -/
def tables : Tables :=
  ⟨layout, defect?_layout⟩

end LambdaStack.Grammar
