import Mathlib.Computability.ContextFreeGrammar
import LambdaStack.Grammar.Tables

/-!
# Sentences and their derivations

The grammar behind the tables, as a context-free grammar over the kinds of
token.  `production` lists its sixteen rules under their numbers; the end of
input occurs in rule 1 alone, and the start of input and invalid characters
occur in none, so they belong to no sentence.

Two forms of derivation are used beside the stepwise one of the library:

* `RightmostDerivation rules form final` rewrites the last nonterminal of
  `form` again and again, by the rules in the order in which they are listed;
* `Spells symbols kinds` derives a sentence from the left, symbol by symbol,
  so that each symbol is answerable for a slice of its own.

`spells_iff_derives` says that `Spells` is derivability, and
`RightmostDerivation.derives` that a rightmost derivation is a derivation.
-/

namespace LambdaStack.Grammar

/-- The left-hand symbols of the rules, in the order of their numbers. -/
inductive Nonterminal where
  | accept
  | program
  | declaration
  | evaluation
  | print
  | expression
  | function
  | application
  deriving DecidableEq, Repr

/-- Every nonterminal, in the order of their numbers. -/
def Nonterminal.all : List Nonterminal :=
  [accept, program, declaration, evaluation, print, expression, function,
    application]

/-- What a right-hand side consists of. -/
abbrev GrammarSymbol := Symbol Kind Nonterminal

/-- A rule of the grammar. -/
abbrev Rule := ContextFreeRule Kind Nonterminal

/-- The rule with a given number. -/
def production : Nat → Option Rule
  | 1 => some ⟨.accept, [.nonterminal .program, .terminal .endOfInput]⟩
  | 2 => some ⟨.program, [.nonterminal .program, .nonterminal .declaration]⟩
  | 3 => some ⟨.program, [.nonterminal .program, .nonterminal .evaluation]⟩
  | 4 => some ⟨.program, [.nonterminal .program, .nonterminal .print]⟩
  | 5 => some ⟨.program, []⟩
  | 6 => some ⟨.declaration, [.terminal .letWord, .terminal .identifier,
      .terminal .equals, .nonterminal .expression]⟩
  | 7 => some ⟨.declaration, [.terminal .letWord, .terminal .identifier,
      .terminal .equals, .nonterminal .evaluation]⟩
  | 8 => some ⟨.evaluation, [.terminal .evalWord, .nonterminal .expression]⟩
  | 9 => some ⟨.print, [.nonterminal .expression]⟩
  | 10 => some ⟨.expression, [.terminal .identifier]⟩
  | 11 => some ⟨.expression, [.terminal .name]⟩
  | 12 => some ⟨.expression, [.nonterminal .function]⟩
  | 13 => some ⟨.expression, [.nonterminal .application]⟩
  | 14 => some ⟨.expression, [.terminal .openBracket, .nonterminal .expression,
      .terminal .closeBracket]⟩
  | 15 => some ⟨.function, [.terminal .lambda, .terminal .name,
      .terminal .dot, .nonterminal .expression]⟩
  | 16 => some ⟨.application, [.nonterminal .expression,
      .nonterminal .expression]⟩
  | _ => none

/-- The number of the last rule. -/
def lastRule : Nat := 16

/-- The lambda grammar.  Its sentences are derived from `program`. -/
@[reducible]
def grammar : ContextFreeGrammar Kind where
  NT := Nonterminal
  initial := .program
  rules := ((List.range (lastRule + 1)).filterMap production).toFinset

/-- Kinds of token as a string of terminals. -/
def terminals (kinds : List Kind) : List GrammarSymbol :=
  kinds.map .terminal

@[simp]
theorem terminals_append (left right : List Kind) :
    terminals (left ++ right) = terminals left ++ terminals right :=
  List.map_append

/-- Only the numbers from 1 to 16 are rules. -/
theorem le_lastRule_of_production {rule : Nat} {p : Rule}
    (h : production rule = some p) : rule ≤ lastRule := by
  unfold production at h
  split at h <;> first | contradiction | decide

/-- The rules of the grammar are the numbered ones. -/
theorem mem_rules_iff {p : Rule} :
    p ∈ grammar.rules ↔ ∃ rule, production rule = some p := by
  have hlist : p ∈ grammar.rules ↔
      p ∈ (List.range (lastRule + 1)).filterMap production :=
    List.mem_toFinset
  rw [hlist, List.mem_filterMap]
  constructor
  · rintro ⟨rule, _, h⟩
    exact ⟨rule, h⟩
  · rintro ⟨rule, h⟩
    have hle := le_lastRule_of_production h
    exact ⟨rule, List.mem_range.mpr (by omega), h⟩

/-! ### Rightmost derivations -/

/-- Rewriting the last nonterminal of a string, once for each listed rule. -/
inductive RightmostDerivation :
    List Nat → List GrammarSymbol → List GrammarSymbol → Prop
  | nil (form : List GrammarSymbol) : RightmostDerivation [] form form
  | cons {rule : Nat} {p : Rule} {rules : List Nat}
      {final : List GrammarSymbol}
      (hrule : production rule = some p)
      (before : List GrammarSymbol) (after : List Kind)
      (tail : RightmostDerivation rules
        (before ++ p.output ++ terminals after) final) :
      RightmostDerivation (rule :: rules)
        (before ++ [.nonterminal p.input] ++ terminals after) final

/-- Terminals behind a string do not disturb its rightmost derivation. -/
theorem RightmostDerivation.append_terminals {rules : List Nat}
    {form final : List GrammarSymbol}
    (h : RightmostDerivation rules form final) (kinds : List Kind) :
    RightmostDerivation rules (form ++ terminals kinds)
      (final ++ terminals kinds) := by
  induction h with
  | nil form => exact RightmostDerivation.nil _
  | cons hrule before after tail ih =>
      rw [List.append_assoc _ (terminals after), ← terminals_append] at ih ⊢
      exact RightmostDerivation.cons hrule before (after ++ kinds) ih

/-- A rightmost derivation is a derivation. -/
theorem RightmostDerivation.derives {rules : List Nat}
    {form final : List GrammarSymbol}
    (h : RightmostDerivation rules form final) :
    grammar.Derives form final := by
  induction h with
  | nil form => exact Relation.ReflTransGen.refl
  | @cons rule p rules final hrule before after tail ih =>
      have hstep : grammar.Produces
          (before ++ [.nonterminal p.input] ++ terminals after)
          (before ++ p.output ++ terminals after) :=
        ⟨p, mem_rules_iff.mpr ⟨rule, hrule⟩,
          ContextFreeRule.rewrites_of_exists_parts p before (terminals after)⟩
      exact hstep.trans_derives ih

/-! ### Derivations from the left -/

/-- A string of symbols derives a sentence, one symbol after the other. -/
inductive Spells : List GrammarSymbol → List Kind → Prop
  | nil : Spells [] []
  | terminal (kind : Kind) {symbols : List GrammarSymbol} {kinds : List Kind}
      (tail : Spells symbols kinds) :
      Spells (.terminal kind :: symbols) (kind :: kinds)
  | rule {number : Nat} {p : Rule} {symbols : List GrammarSymbol}
      {slice kinds : List Kind}
      (hrule : production number = some p) (inner : Spells p.output slice)
      (tail : Spells symbols kinds) :
      Spells (.nonterminal p.input :: symbols) (slice ++ kinds)

/-- A string of terminals spells itself. -/
theorem spells_terminals (kinds : List Kind) :
    Spells (terminals kinds) kinds := by
  induction kinds with
  | nil => exact Spells.nil
  | cons kind kinds ih => exact Spells.terminal kind ih

/-- Strings of symbols side by side spell sentences side by side. -/
theorem Spells.append {left right : List GrammarSymbol}
    {kinds more : List Kind} (hleft : Spells left kinds)
    (hright : Spells right more) :
    Spells (left ++ right) (kinds ++ more) := by
  induction hleft with
  | nil => exact hright
  | terminal kind tail ih => exact Spells.terminal kind ih
  | rule hrule inner tail _ ih =>
      rw [List.append_assoc]
      exact Spells.rule hrule inner ih

/-- What two strings spell side by side can be cut between them. -/
theorem Spells.split {left right : List GrammarSymbol} {kinds : List Kind}
    (h : Spells (left ++ right) kinds) :
    ∃ first second, kinds = first ++ second ∧
      Spells left first ∧ Spells right second := by
  induction left generalizing kinds with
  | nil => exact ⟨[], kinds, rfl, Spells.nil, h⟩
  | cons symbol left ih =>
      cases h with
      | terminal kind tail =>
          obtain ⟨first, second, rfl, hfirst, hsecond⟩ := ih tail
          exact ⟨kind :: first, second, rfl,
            Spells.terminal kind hfirst, hsecond⟩
      | @rule number p _ slice rest hrule inner tail =>
          obtain ⟨first, second, rfl, hfirst, hsecond⟩ := ih tail
          exact ⟨slice ++ first, second, by rw [List.append_assoc],
            Spells.rule hrule inner hfirst, hsecond⟩

/-- What the right-hand side of a rule spells, its left-hand symbol spells. -/
theorem Spells.of_rule {rule : Nat} {p : Rule} {kinds : List Kind}
    (hrule : production rule = some p) (h : Spells p.output kinds) :
    Spells [.nonterminal p.input] kinds := by
  simpa using Spells.rule hrule h Spells.nil

/-- Undoing one rewriting step keeps what a string spells. -/
theorem Spells.of_produces {before after : List GrammarSymbol}
    {kinds : List Kind} (hstep : grammar.Produces before after)
    (h : Spells after kinds) : Spells before kinds := by
  obtain ⟨p, hmem, hrewrites⟩ := hstep
  obtain ⟨rule, hrule⟩ := mem_rules_iff.mp hmem
  obtain ⟨left, right, rfl, rfl⟩ := hrewrites.exists_parts
  obtain ⟨front, last, rfl, hfront, hlast⟩ := h.split
  obtain ⟨first, slice, rfl, hfirst, hslice⟩ := hfront.split
  exact (hfirst.append (Spells.of_rule hrule hslice)).append hlast

/-- What a string spells can be derived from it. -/
theorem Spells.derives {symbols : List GrammarSymbol} {kinds : List Kind}
    (h : Spells symbols kinds) :
    grammar.Derives symbols (terminals kinds) := by
  induction h with
  | nil => exact Relation.ReflTransGen.refl
  | terminal kind tail ih => exact ih.append_left [.terminal kind]
  | @rule number p symbols slice kinds hrule inner tail ihinner ihtail =>
      have hstep : grammar.Produces (.nonterminal p.input :: symbols)
          (p.output ++ symbols) :=
        ⟨p, mem_rules_iff.mpr ⟨number, hrule⟩, ContextFreeRule.Rewrites.head _⟩
      have hinner := ihinner.append_right symbols
      have htail := ihtail.append_left (terminals slice)
      rw [terminals_append]
      exact hstep.trans_derives (hinner.trans htail)

/-- A string spells exactly the sentences that can be derived from it. -/
theorem spells_iff_derives {symbols : List GrammarSymbol}
    {kinds : List Kind} :
    Spells symbols kinds ↔ grammar.Derives symbols (terminals kinds) := by
  refine ⟨Spells.derives, fun h => ?_⟩
  induction h using Relation.ReflTransGen.head_induction_on with
  | refl => exact spells_terminals kinds
  | head hstep _ ih => exact ih.of_produces hstep

/-- Each symbol of a string is answerable for a slice of what the string
derives, and the slices stand in the order of the symbols. -/
theorem exists_slices_of_spells {symbols : List GrammarSymbol}
    {tokens : List Token} (h : Spells symbols (tokens.map Token.kind)) :
    ∃ slices : List (List Token), slices.flatten = tokens ∧
      List.Forall₂ (fun symbol slice =>
        grammar.Derives [symbol] (terminals (slice.map Token.kind)))
        symbols slices := by
  induction symbols generalizing tokens with
  | nil =>
      cases tokens with
      | nil => exact ⟨[], rfl, List.Forall₂.nil⟩
      | cons token tokens => cases h
  | cons symbol symbols ih =>
      have hcons : Spells ([symbol] ++ symbols) (tokens.map Token.kind) := h
      obtain ⟨first, second, heq, hfirst, hsecond⟩ := hcons.split
      obtain ⟨slice, rest, rfl, rfl, rfl⟩ := List.map_eq_append_iff.mp heq
      obtain ⟨slices, rfl, hslices⟩ := ih hsecond
      exact ⟨slice :: slices, rfl, List.Forall₂.cons hfirst.derives hslices⟩

end LambdaStack.Grammar
