import LambdaStack.Proofs.Derivation

/-!
# The automaton behind the tables

An **item** is a rule with a dot in its right-hand side: what stands before
the dot has been read.  A state of the automaton is a set of items.  It is
the `closure` of its **kernel**: wherever a nonterminal is awaited, the rules
for that nonterminal may begin.  Reading a symbol moves the dot across it in
all items that await it, and the moved items are the kernel of the next
state:

    advance (itemsOf s) X = kernel of t      -- edge? s X = some t

This is built from the rules alone; only the numbering of the states is taken
over from the tables.  The second half compares the two.  Every move of the
tables is an edge (`edge?_of_shift`, `edge?_of_opening`), every default
reduction is by a rule that has been read to its end
(`completed_of_defaultReduction`), and no state knows the error token
(`recovery?_eq_none`).  State 19 has edges on tokens that the tables do not
use, since they reduce there.
-/

namespace LambdaStack.Grammar

open Automaton

/-- A rule with a dot before its symbol number `dot`. -/
structure Item where
  rule : Nat
  dot : Nat
  deriving DecidableEq, Repr

namespace Item

/-- The symbol behind the dot. -/
def next? (item : Item) : Option GrammarSymbol :=
  (production item.rule).bind fun p => p.output[item.dot]?

/-- The nonterminal behind the dot. -/
def awaited? (item : Item) : Option Nonterminal :=
  match item.next? with
  | some (.nonterminal symbol) => some symbol
  | _ => none

/-- The item with its dot one symbol further on. -/
def moved (item : Item) : Item :=
  ⟨item.rule, item.dot + 1⟩

end Item

/-- The rules for the given nonterminals, nothing of them read yet. -/
def openings (awaited : List Nonterminal) : List Item :=
  ((List.range (lastRule + 1)).filter fun rule =>
    (production rule).any fun p => p.input ∈ awaited).map fun rule => ⟨rule, 0⟩

/-- A kernel and the rules that its items call for, the rules that those
call for, and so on for a number of rounds. -/
def expand (kernel : List Item) : Nat → List Item
  | 0 => kernel
  | round + 1 =>
    openings ((expand kernel round).filterMap Item.awaited?) ++ kernel

/-- A kernel and all that it calls for.  The longest chain of nonterminals
that open with one another has five members. -/
def closure (kernel : List Item) : List Item :=
  expand kernel 5

/-- The items that a set leads to across a symbol. -/
def advance (set : List Item) (symbol : GrammarSymbol) : List Item :=
  (set.filter fun item => item.next? = some symbol).map Item.moved

/-- The kernels of the states, in the order of the tables. -/
def kernels : Array (List Item) := #[
  [⟨1, 0⟩], [⟨2, 1⟩, ⟨3, 1⟩, ⟨4, 1⟩, ⟨1, 1⟩], [⟨1, 2⟩], [⟨11, 1⟩],
  [⟨10, 1⟩], [⟨15, 1⟩], [⟨14, 1⟩], [⟨6, 1⟩, ⟨7, 1⟩], [⟨8, 1⟩], [⟨2, 2⟩],
  [⟨3, 2⟩], [⟨4, 2⟩], [⟨9, 1⟩, ⟨16, 1⟩], [⟨12, 1⟩], [⟨13, 1⟩], [⟨15, 2⟩],
  [⟨16, 1⟩, ⟨14, 2⟩], [⟨6, 2⟩, ⟨7, 2⟩], [⟨16, 1⟩, ⟨8, 2⟩],
  [⟨16, 1⟩, ⟨16, 2⟩], [⟨15, 3⟩], [⟨14, 3⟩], [⟨6, 3⟩, ⟨7, 3⟩],
  [⟨16, 1⟩, ⟨15, 4⟩], [⟨7, 4⟩], [⟨16, 1⟩, ⟨6, 4⟩]]

/-- The number of states. -/
def stateCount : Nat := 26

/-- The items of a state. -/
def itemsOf (state : Nat) : List Item :=
  closure (kernels.getD state [])

/-- The state that a state leads to across a symbol. -/
def edge? (state : Nat) (symbol : GrammarSymbol) : Option Nat :=
  (List.range stateCount).find? fun target =>
    kernels.getD target [] = advance (itemsOf state) symbol

/-- The number under which the tables know a nonterminal. -/
def Nonterminal.code : Nonterminal → Nat
  | accept => 12
  | program => 13
  | declaration => 14
  | evaluation => 15
  | print => 16
  | expression => 17
  | function => 18
  | application => 19

/-! ### Items along an edge -/

/-- An item that has been read in part belongs to the kernel. -/
theorem mem_kernel_of_mem_expand {kernel : List Item} {item : Item}
    {rounds : Nat} (h : item ∈ expand kernel rounds) (hdot : item.dot ≠ 0) :
    item ∈ kernel := by
  cases rounds with
  | zero => exact h
  | succ round =>
      rcases List.mem_append.mp h with hopen | hkernel
      · obtain ⟨rule, _, rfl⟩ := List.mem_map.mp hopen
        exact absurd rfl hdot
      · exact hkernel

/-- An edge leads to the state whose kernel is the advanced set. -/
theorem kernel_of_edge? {state target : Nat} {symbol : GrammarSymbol}
    (h : edge? state symbol = some target) :
    kernels.getD target [] = advance (itemsOf state) symbol := by
  simpa using List.find?_some h

/-- Edges lead to states. -/
theorem lt_stateCount_of_edge? {state target : Nat} {symbol : GrammarSymbol}
    (h : edge? state symbol = some target) : target < stateCount :=
  List.mem_range.mp (List.mem_of_find?_eq_some h)

/-- **Stepping back.**  If an edge leads to a state where a rule has been
read beyond its first symbol, the edge crossed the last symbol read, and the
state before it has the same item one symbol earlier. -/
theorem item_before_edge {state target : Nat} {symbol : GrammarSymbol}
    (hedge : edge? state symbol = some target) {rule dot : Nat}
    (hitem : ⟨rule, dot + 1⟩ ∈ itemsOf target) :
    ⟨rule, dot⟩ ∈ itemsOf state ∧
      (⟨rule, dot⟩ : Item).next? = some symbol := by
  have hkernel := mem_kernel_of_mem_expand hitem (Nat.succ_ne_zero dot)
  rw [kernel_of_edge? hedge] at hkernel
  obtain ⟨before, hbefore, heq⟩ := List.mem_map.mp hkernel
  obtain ⟨hmem, hnext⟩ := List.mem_filter.mp hbefore
  have hsame : before = ⟨rule, dot⟩ := by
    cases before
    simpa [Item.moved] using heq
  subst hsame
  exact ⟨hmem, by simpa using hnext⟩

/-! ### The tables against the automaton -/

/-- What the tables do in a state on a token agrees with the automaton: a
token is shifted along an edge, and only defaults reduce. -/
def actionAgrees (state : Nat) (kind : Kind) : Bool :=
  match tables.action? state (tables.symbol kind) with
  | some (.shift target) => edge? state (.terminal kind) = some target
  | some .default | some .fail => true
  | some (.reduce _) | none => false

/-- Where a rule may begin, its left-hand symbol has an edge, and the tables
go along it. -/
def gotoAgrees (state rule : Nat) : Bool :=
  match production rule with
  | some p =>
    (edge? state (.nonterminal p.input)).isSome
      && tables.goto? state p.input.code
        = edge? state (.nonterminal p.input)
  | none => false

/-- The default rule of a state, if it has one, has been read to its end. -/
def defaultAgrees (state : Nat) : Bool :=
  match tables.defaultReduction? state with
  | some (some rule) =>
    2 ≤ rule && (production rule).any fun p =>
      ⟨rule, p.output.length⟩ ∈ itemsOf state
  | some none => true
  | none => false

theorem actionAgrees_all :
    ∀ state < stateCount, ∀ kind ∈ Kind.all, actionAgrees state kind := by
  decide +kernel

theorem gotoAgrees_all :
    ∀ state < stateCount, ∀ rule ≤ lastRule, 2 ≤ rule →
      ⟨rule, 0⟩ ∈ itemsOf state → gotoAgrees state rule := by
  decide +kernel

theorem defaultAgrees_all : ∀ state < stateCount, defaultAgrees state := by
  decide +kernel

/-- A token is shifted along an edge. -/
theorem edge?_of_shift {state target : Nat} {kind : Kind}
    (hstate : state < stateCount)
    (h : tables.action? state (tables.symbol kind) = some (.shift target)) :
    edge? state (.terminal kind) = some target := by
  have hagrees := actionAgrees_all state hstate kind (by cases kind <;> decide)
  simpa [actionAgrees, h] using hagrees

/-- The action table has an entry for every state and token, and it never
reduces. -/
theorem action?_cases {state : Nat} (hstate : state < stateCount)
    (kind : Kind) :
    (∃ target,
      tables.action? state (tables.symbol kind) = some (.shift target)) ∨
    tables.action? state (tables.symbol kind) = some .default ∨
    tables.action? state (tables.symbol kind) = some .fail := by
  have hagrees := actionAgrees_all state hstate kind (by cases kind <;> decide)
  unfold actionAgrees at hagrees
  split at hagrees
  · next target h => exact Or.inl ⟨target, h⟩
  · next h => exact Or.inr (Or.inl h)
  · next h => exact Or.inr (Or.inr h)
  · contradiction
  · contradiction

/-- Where a rule may begin, its left-hand symbol has an edge, and the goto
table says where it leads. -/
theorem edge?_of_opening {state rule : Nat} {p : Rule}
    (hstate : state < stateCount) (hrule : production rule = some p)
    (hreducible : 2 ≤ rule) (hitem : ⟨rule, 0⟩ ∈ itemsOf state) :
    ∃ target, edge? state (.nonterminal p.input) = some target ∧
      tables.goto? state p.input.code = some target := by
  have hagrees := gotoAgrees_all state hstate rule
    (le_lastRule_of_production hrule) hreducible hitem
  simp only [gotoAgrees, hrule, Bool.and_eq_true, decide_eq_true_eq] at hagrees
  obtain ⟨target, htarget⟩ := Option.isSome_iff_exists.mp hagrees.1
  exact ⟨target, htarget, hagrees.2.trans htarget⟩

/-- Every state has an entry among the defaults, and a default rule has been
read to its end. -/
theorem completed_of_defaultReduction {state : Nat}
    (hstate : state < stateCount) :
    tables.defaultReduction? state = some none ∨
    ∃ rule p, tables.defaultReduction? state = some (some rule) ∧
      2 ≤ rule ∧ production rule = some p ∧
      ⟨rule, p.output.length⟩ ∈ itemsOf state := by
  have hagrees := defaultAgrees_all state hstate
  unfold defaultAgrees at hagrees
  split at hagrees
  · next rule h =>
    rw [Bool.and_eq_true, decide_eq_true_eq] at hagrees
    obtain ⟨hreducible, hany⟩ := hagrees
    cases hp : production rule with
    | none => simp [hp] at hany
    | some p =>
        refine Or.inr ⟨rule, p, h, hreducible, hp, ?_⟩
        simpa [hp] using hany
  · next h => exact Or.inl h
  · contradiction

/-- Whether a state looks at a token is laid down for every state. -/
theorem needsLookahead?_isSome :
    ∀ state < stateCount, (tables.needsLookahead? state).isSome := by
  decide +kernel

/-- No state can shift the error token. -/
theorem recovery?_eq_none :
    ∀ state < stateCount, tables.recovery? state = some none := by
  decide +kernel

/-- Nothing is read in the initial state. -/
theorem dot_eq_zero_of_initial :
    ∀ item ∈ itemsOf 0, item.dot = 0 := by
  decide +kernel

/-- The tables have the length and the left-hand symbol of every rule. -/
theorem rule_data {rule : Nat} {p : Rule} (h : production rule = some p) :
    tables.ruleLength? rule = some p.output.length ∧
      tables.ruleHead? rule = some p.input.code := by
  unfold production at h
  split at h
  all_goals first
    | contradiction
    | (cases h; exact ⟨rfl, rfl⟩)

end LambdaStack.Grammar
