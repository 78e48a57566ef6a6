import LambdaStack.Proofs.Locality
import LambdaStack.Proofs.Recognition

/-!
# Viable prefixes

Kinds of token are **viable** if a sentence and the end of input behind it can
begin with them.  Two facts tie the automaton to this notion, one for each
direction.

* What a run has shifted is viable.  A path goes on to a sentence by any item
  of its last state: the rest of the item is spelt out, then the rest of the
  item that called for it, and so on to the bottom (`Path.goesOn`).
* If what a run has read is viable, the run might as well be on a tape that
  goes on to a sentence, for it knows nothing of the tokens it has not taken.
  There the automaton walks a greedy program, so the outcome of the run is that
  of the walk (`outcome_of_reading`).
-/

namespace LambdaStack.Grammar

open Automaton

/-- The kinds can go on to a sentence with the end of input behind it. -/
def Viable (kinds : List Kind) : Prop :=
  ∃ rest, grammar.Derives [.nonterminal .accept] (terminals (kinds ++ rest))

/-- What can go on as a whole can go on after any part. -/
theorem Viable.of_append {kinds more : List Kind} (h : Viable (kinds ++ more)) :
    Viable kinds := by
  obtain ⟨rest, hderives⟩ := h
  exact ⟨more ++ rest, by rwa [← List.append_assoc]⟩

/-! ### Every symbol spells something -/

/-- Every nonterminal spells something. -/
theorem exists_spelled_nonterminal (head : Nonterminal) :
    ∃ kinds, Spells [.nonterminal head] kinds := by
  have hrule : ∀ {number : Nat} {p : Rule} {kinds : List Kind},
      production number = some p → Spells p.output kinds →
      ∃ kinds, Spells [.nonterminal p.input] kinds :=
    fun hrule h => ⟨_, Spells.of_rule hrule h⟩
  have hname : Spells [.nonterminal .expression] [.name] :=
    Spells.of_rule (show production 11 = some _ from rfl)
      (spells_terminals [.name])
  have hempty : Spells [.nonterminal .program] [] :=
    Spells.of_rule (show production 5 = some _ from rfl) Spells.nil
  cases head with
  | accept =>
      exact hrule (show production 1 = some _ from rfl)
        (hempty.append (spells_terminals [.endOfInput]))
  | program => exact ⟨_, hempty⟩
  | declaration =>
      exact hrule (show production 6 = some _ from rfl)
        ((spells_terminals [.letWord, .identifier, .equals]).append hname)
  | evaluation =>
      exact hrule (show production 8 = some _ from rfl)
        ((spells_terminals [.evalWord]).append hname)
  | print => exact hrule (show production 9 = some _ from rfl) hname
  | expression => exact ⟨_, hname⟩
  | function =>
      exact hrule (show production 15 = some _ from rfl)
        ((spells_terminals [.lambda, .name, .dot]).append hname)
  | application =>
      exact hrule (show production 16 = some _ from rfl) (hname.append hname)

/-- Every string of symbols spells something. -/
theorem exists_spelled (symbols : List GrammarSymbol) :
    ∃ kinds, Spells symbols kinds := by
  induction symbols with
  | nil => exact ⟨[], Spells.nil⟩
  | cons symbol symbols ih =>
      obtain ⟨kinds, hrest⟩ := ih
      cases symbol with
      | terminal kind => exact ⟨kind :: kinds, Spells.terminal kind hrest⟩
      | nonterminal head =>
          obtain ⟨slice, hhead⟩ := exists_spelled_nonterminal head
          exact ⟨slice ++ kinds, hhead.append hrest⟩

/-! ### Every path goes on to a sentence -/

/-- What has been read, followed by what an item has not read yet, goes on to
a sentence. -/
def Item.GoesOn (read : List GrammarSymbol) (item : Item) : Prop :=
  ∀ p, production item.rule = some p → ∃ kinds,
    grammar.Derives [.nonterminal .accept]
      (read ++ p.output.drop item.dot ++ terminals kinds)

/-- A rule goes on where its left-hand symbol is awaited: the rest of the
awaiting item is spelt out, and the left-hand symbol is rewritten. -/
theorem Item.GoesOn.opening {read : List GrammarSymbol} {item : Item}
    (h : item.GoesOn read) {rule : Nat} {p : Rule}
    (hrule : production rule = some p) (hawaits : item.awaited? = some p.input) :
    (⟨rule, 0⟩ : Item).GoesOn read := by
  intro found hfound
  obtain rfl : p = found := Option.some.inj (hrule.symm.trans hfound)
  have hnext : item.next? = some (.nonterminal p.input) := by
    unfold Item.awaited? at hawaits
    split at hawaits
    · next symbol hsymbol =>
      rw [hsymbol, Option.some.inj hawaits]
    · cases hawaits
  obtain ⟨outer, houter, hsymbol⟩ := Option.bind_eq_some_iff.mp hnext
  obtain ⟨hlt, hget⟩ := List.getElem?_eq_some_iff.mp hsymbol
  obtain ⟨kinds, hderives⟩ := h outer houter
  rw [List.drop_eq_getElem_cons hlt, hget] at hderives
  obtain ⟨spelled, hspelled⟩ := exists_spelled (outer.output.drop (item.dot + 1))
  have hrest : grammar.Derives
      (read ++ [.nonterminal p.input]
        ++ (outer.output.drop (item.dot + 1) ++ terminals kinds))
      (read ++ [.nonterminal p.input] ++ terminals (spelled ++ kinds)) := by
    rw [terminals_append]
    exact (hspelled.derives.append_right (terminals kinds)).append_left _
  have hrewrite : grammar.Produces
      (read ++ [.nonterminal p.input] ++ terminals (spelled ++ kinds))
      (read ++ p.output ++ terminals (spelled ++ kinds)) :=
    ⟨p, mem_rules_iff.mpr ⟨rule, hrule⟩,
      ContextFreeRule.rewrites_of_exists_parts p read
        (terminals (spelled ++ kinds))⟩
  refine ⟨spelled ++ kinds, ?_⟩
  have hform : read ++ (.nonterminal p.input :: outer.output.drop (item.dot + 1))
      ++ terminals kinds
      = read ++ [.nonterminal p.input]
        ++ (outer.output.drop (item.dot + 1) ++ terminals kinds) := by
    simp
  rw [hform] at hderives
  exact (hderives.trans hrest).trans_produces hrewrite

/-- If the kernel of a state goes on, so does all that it calls for. -/
theorem goesOn_of_mem_expand {read : List GrammarSymbol} {kernel : List Item}
    (h : ∀ item ∈ kernel, item.GoesOn read) (rounds : Nat) :
    ∀ item ∈ expand kernel rounds, item.GoesOn read := by
  induction rounds with
  | zero => exact h
  | succ round ih =>
      intro item hmem
      rcases List.mem_append.mp hmem with hopen | hkernel
      · obtain ⟨rule, hrule, rfl⟩ := List.mem_map.mp hopen
        cases hp : production rule with
        | none => simp [hp] at hrule
        | some p =>
            have hawaited : ∃ earlier ∈ expand kernel round,
                earlier.awaited? = some p.input := by
              simpa [hp] using (List.mem_filter.mp hrule).2
            obtain ⟨earlier, hearlier, hawaits⟩ := hawaited
            exact (ih earlier hearlier).opening hp hawaits
      · exact h item hkernel

/-- **Every path goes on to a sentence.** -/
theorem Path.goesOn {state : Nat} {below : List Nat}
    {symbols : List GrammarSymbol} (h : Path (state :: below) symbols) :
    ∀ item ∈ itemsOf state, item.GoesOn symbols.reverse := by
  generalize hstates : state :: below = states at h
  induction h generalizing state below with
  | start =>
      obtain ⟨rfl, rfl⟩ := List.cons.inj hstates
      apply goesOn_of_mem_expand
      intro item hmem p hp
      obtain rfl : item = ⟨1, 0⟩ := by simpa [kernels] using hmem
      refine ⟨[], ?_⟩
      have hrewrites : p.Rewrites [.nonterminal .accept] (p.output ++ []) := by
        obtain rfl := Option.some.inj hp
        exact ContextFreeRule.Rewrites.head []
      exact Relation.ReflTransGen.single
        ⟨p, mem_rules_iff.mpr ⟨1, hp⟩, by simpa [terminals] using hrewrites⟩
  | @step before target rest symbol symbols tail edge ih =>
      obtain ⟨rfl, rfl⟩ := List.cons.inj hstates
      apply goesOn_of_mem_expand
      intro item hmem
      rw [kernel_of_edge? edge] at hmem
      obtain ⟨earlier, hearlier, rfl⟩ := List.mem_map.mp hmem
      obtain ⟨hitem, hnext⟩ := List.mem_filter.mp hearlier
      intro p hp
      obtain ⟨kinds, hderives⟩ := ih rfl earlier hitem p hp
      have hsymbol : p.output[earlier.dot]? = some symbol := by
        have hrule : production earlier.rule = some p := hp
        simpa [Item.next?, hrule] using hnext
      obtain ⟨hlt, hget⟩ := List.getElem?_eq_some_iff.mp hsymbol
      rw [List.drop_eq_getElem_cons hlt, hget] at hderives
      refine ⟨kinds, ?_⟩
      simpa [Item.moved] using hderives

/-- Every state has an item. -/
theorem exists_item : ∀ state < stateCount, ∃ item ∈ itemsOf state,
    (production item.rule).isSome := by
  decide +kernel

/-- **Shifted tokens are viable.**  What the symbols of a path derive goes on
to a sentence. -/
theorem Path.viable {states : List Nat} {symbols : List GrammarSymbol}
    {kinds : List Kind} (h : Path states symbols)
    (hkinds : grammar.Derives symbols.reverse (terminals kinds)) :
    Viable kinds := by
  obtain ⟨state, below, rfl⟩ : ∃ state below, states = state :: below := by
    cases h <;> exact ⟨_, _, rfl⟩
  obtain ⟨item, hitem, hrule⟩ := exists_item state h.head_lt
  obtain ⟨p, hp⟩ := Option.isSome_iff_exists.mp hrule
  obtain ⟨rest, hderives⟩ := h.goesOn item hitem p hp
  obtain ⟨spelled, hspelled⟩ := exists_spelled (p.output.drop item.dot)
  refine ⟨spelled ++ rest, ?_⟩
  rw [terminals_append, terminals_append, ← List.append_assoc]
  refine hderives.trans ?_
  have hfront := (hkinds.append_right (p.output.drop item.dot)).trans
    (hspelled.derives.append_left (terminals kinds))
  exact hfront.append_right (terminals rest)

/-! ### Going on with other tokens -/

/-- Tokens of viable kinds go on to a greedy program and an end of input, with
more tokens all of which have a text. -/
theorem Viable.exists_reading {tokens : List Token}
    (h : Viable (tokens.map Token.kind)) :
    ∃ (more : List Token) (statements : List Statement)
      (last : Word .endOfInput), (∀ token ∈ more, token.text.isSome) ∧
      GreedyProgram statements ∧
      tokens ++ more = statementTokens statements ++ [last.1] := by
  obtain ⟨rest, hderives⟩ := h
  have hkinds : (tokens ++ rest.map (Token.bare · (some ""))).map Token.kind
      = tokens.map Token.kind ++ rest := by
    simp [Token.bare, Function.comp_def]
  obtain ⟨first, back, heq, ⟨statements, last, hgreedy, rfl⟩, rfl⟩ :=
    readsAll_of_spells (spells_iff_derives.mpr hderives) hkinds
  refine ⟨_, statements, last, ?_, hgreedy, heq.trans (List.append_nil _)⟩
  intro token hmem
  obtain ⟨kind, _, rfl⟩ := List.mem_map.mp hmem
  rfl

/-- The tape up to a position, and from there on other tokens up to an end of
input. -/
def goingOn (tape : Tape) (position : Nat) (more : List Token) : Tape :=
  fun index =>
    if index < position then tape index
    else more.getD (index - position) Token.endOfInput

theorem goingOn_eq_of_lt (tape : Tape) {position index : Nat}
    (more : List Token) (h : index < position) :
    goingOn tape position more index = tape index :=
  if_pos h

/-- Behind its position such a tape carries the other tokens. -/
theorem carries_goingOn (tape : Tape) (start count : Nat)
    (more : List Token) :
    Carries (goingOn tape (start + count) more) start
      ((List.range' start count).map tape ++ more) := by
  have hmore : ∀ skipped rest, more = skipped ++ rest →
      Carries (goingOn tape (start + count) more)
        (start + count + skipped.length) rest := by
    intro skipped rest
    induction rest generalizing skipped with
    | nil => exact fun _ => trivial
    | cons token rest ih =>
        intro hsplit
        refine ⟨?_, ?_⟩
        · have hlt : ¬ start + count + skipped.length < start + count := by
            omega
          rw [goingOn, if_neg hlt, Nat.add_sub_cancel_left, hsplit]
          simp
        · have hnext := ih (skipped ++ [token]) (by simp [hsplit])
          rw [List.length_append] at hnext
          exact hnext
  have hread : ∀ first length, first + length ≤ start + count →
      Carries (goingOn tape (start + count) more) first
        ((List.range' first length).map tape) := by
    intro first length
    induction length generalizing first with
    | zero => exact fun _ => trivial
    | succ length ih =>
        intro hle
        exact ⟨goingOn_eq_of_lt tape more (by omega), ih (first + 1) (by omega)⟩
  refine carries_append.mpr ⟨hread start count (Nat.le_refl _), ?_⟩
  have hall := hmore [] more rfl
  simpa using hall

variable {S V E : Type} {semantics : Semantics S V E} {tape other : Tape}
  {config final : Config S V E}

/-- What a run comes to, it comes to on every tape that agrees with its own
on the tokens it has taken. -/
theorem Reaches.of_agree (h : Reaches semantics tape config final)
    (hagree : ∀ index < final.taken, other index = tape index) :
    Reaches semantics other config final := by
  obtain ⟨fuel, rfl⟩ := h
  exact ⟨fuel, Config.run_eq_of_agree hagree⟩

/-- **The outcome of a run is that of walking any program that goes on from
the tokens it has taken.** -/
theorem outcome_of_reading {memory : S} {start : Nat}
    {statements : List Statement} {more : List Token} {last : Word .endOfInput}
    (hgreedy : GreedyProgram statements)
    (hreach : Reaches semantics tape (Config.initial semantics memory start)
      final)
    (hhalted : final.isHalted)
    (hread : (List.range' start (final.taken - start)).map tape ++ more
      = statementTokens statements ++ [last.1]) :
    match walkProgram semantics statements memory with
    | (_, .ok _) => final.phase = .halted .accepted
    | (after, .error reason) => final.phase = .halted (.failed reason) ∧
      final.memory = after := by
  have hstart : start ≤ final.taken := by
    obtain ⟨fuel, rfl⟩ := hreach
    have htaken : (Config.initial semantics memory start).taken = start := rfl
    rw [← htaken]
    exact Config.taken_le_run fuel
  have hcarries := carries_goingOn tape start (final.taken - start) more
  rw [hread, Nat.add_sub_cancel' hstart] at hcarries
  obtain ⟨hprogram, hlast, _⟩ := carries_append.mp hcarries
  obtain ⟨other, hother, houtcome⟩ := run_of_greedy semantics memory hgreedy
    hprogram rfl (by rw [hlast]; exact last.2)
  obtain ⟨fuel, hrun⟩ : Reaches semantics (goingOn tape final.taken more)
      (Config.initial semantics memory start) final :=
    hreach.of_agree fun index hindex => goingOn_eq_of_lt tape more hindex
  rw [← hrun] at hhalted ⊢
  rcases hwalk : walkProgram semantics statements memory with
    ⟨after, reason | value⟩
  · rw [hwalk] at houtcome
    have hover : other.isHalted := by rw [Config.isHalted, houtcome.1]
    rw [run_eq_of_reaches hother hover hhalted]
    exact houtcome
  · rw [hwalk] at houtcome
    have hover : other.isHalted := by rw [Config.isHalted, houtcome.1]
    rw [run_eq_of_reaches hother hover hhalted]
    exact houtcome.1

/-- A shorter stretch of the tape is as viable as a longer one. -/
theorem Viable.of_le {start length count : Nat}
    (h : Viable (((List.range' start count).map tape).map Token.kind))
    (hle : length ≤ count) :
    Viable (((List.range' start length).map tape).map Token.kind) := by
  obtain ⟨rest, rfl⟩ := Nat.exists_eq_add_of_le hle
  rw [← List.range'_append_1, List.map_append, List.map_append] at h
  exact h.of_append

/-- What a run has shifted is viable. -/
theorem viable_shifted (semantics : Semantics S V E) (tape : Tape)
    (memory : S) (start fuel : Nat) :
    Viable (((Config.initial semantics memory start).run tables semantics tape
      fuel).shifted.map Token.kind) := by
  obtain ⟨symbols, htracked, hderived⟩ :=
    exists_derived_run semantics tape memory start fuel
  exact htracked.path.viable hderived.derives

/-- What a rejecting run has read is not viable. -/
theorem not_viable_of_rejected {memory : S} {start : Nat}
    (hreach : Reaches semantics tape (Config.initial semantics memory start)
      final)
    (hrejected : final.phase = .halted .rejected) :
    ¬ Viable (((List.range' start (final.taken - start)).map tape).map
      Token.kind) := by
  intro hviable
  obtain ⟨more, statements, last, _, hgreedy, hread⟩ :=
    hviable.exists_reading
  have hhalted : final.isHalted := by rw [Config.isHalted, hrejected]
  have houtcome := outcome_of_reading hgreedy hreach hhalted hread
  rcases hwalk : walkProgram semantics statements memory with
    ⟨after, reason | value⟩
  · rw [hwalk, hrejected] at houtcome
    cases houtcome.1
  · rw [hwalk, hrejected] at houtcome
    cases houtcome

end LambdaStack.Grammar
