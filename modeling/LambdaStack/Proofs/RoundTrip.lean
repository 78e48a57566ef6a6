import LambdaStack.Proofs.Resumption
import LambdaStack.Proofs.Tiling
import LambdaStack.Proofs.Unfolding

/-!
# Reading what was written

The text of a plain operand can be read back.  It is full of brackets, so there
is one way only to take it apart, and each layer hands on the tree:

    operand    a graph with sharing
    tree       `Graph.Unfolds`
    text       `Tree.chars`
    phrase     `Phrase.tree?`, which forgets brackets and places
    program    new nodes, nothing shared, and the instructions that make them

Scanning cuts the text into the tokens of a greedy phrase for the tree
(`exists_depicting`), whatever comes behind it that does not go on with a name.
Elaborating a phrase adds new nodes that unfold into its tree, and the code
that makes these nodes from the inside out (`Graph.Makes`).

Main statement: `reading_rendered_term`.
-/

namespace LambdaStack

/-! ### Scanning marks, blanks and names -/

namespace Cursor

/-- A token that is not preceded by blanks or comments. -/
theorem tokens_of_read {c : Char} (hblank : isBlank c = false)
    (hslash : c ≠ '/') (cs : List Char) (place : Place) :
    tokens ⟨c :: cs, place⟩
      = tokenAt place (Lexeme.read c cs).kind (Lexeme.read c cs).text
        :: tokens ⟨(Lexeme.read c cs).rest,
          place.advance (Lexeme.read c cs).text⟩ := by
  apply tokens_of_solid
  rintro _ _ heq
  obtain ⟨rfl, rfl⟩ := List.cons.inj heq
  rw [← opens_comment_iff]
  exact ⟨hblank, fun hopen => hslash hopen.1⟩

/-- A mark is a token by itself. -/
theorem tokens_mark {c : Char} (hmark : c ∈ ['(', '\\', '.', ')'])
    (cs : List Char) (place : Place) :
    tokens ⟨c :: cs, place⟩
      = tokenAt place (markKind c) [c] :: tokens ⟨cs, place.step c⟩ := by
  have hmarks : ∀ c ∈ ['(', '\\', '.', ')'], isBlank c = false ∧ c ≠ '/' ∧
      isIdentifierStart c = false ∧ c.isLower = false := by
    simp [isBlank, isIdentifierStart]
  obtain ⟨hblank, hslash, hstart, hlower⟩ := hmarks c hmark
  have hread : Lexeme.read c cs = ⟨markKind c, [c], cs⟩ := by
    simp [Lexeme.read, hstart, hlower]
  rw [tokens_of_read hblank hslash, hread]
  rfl

/-- A space is no token. -/
theorem tokens_space (cs : List Char) (place : Place) :
    tokens ⟨' ' :: cs, place⟩ = tokens ⟨cs, place.step ' '⟩ :=
  tokens_blanks (show ∀ c ∈ [' '], isBlank c by simp [isBlank]) cs place

/-- Nothing is left but the end of input. -/
theorem exists_tokens_nil (place : Place) :
    ∃ token, tokens ⟨[], place⟩ = [token] := by
  have hkind : (next ⟨[], place⟩).1.kind = .endOfInput := rfl
  rw [tokens, dif_pos hkind]
  exact ⟨_, rfl⟩

end Cursor

/-- A small letter is no blank, opens no comment and begins no identifier. -/
theorem begins_name_of_isLower {c : Char} (h : c.isLower) :
    isBlank c = false ∧ c ≠ '/' ∧ isIdentifierStart c = false := by
  have hne : ∀ d : Char, d.isLower = false → c ≠ d := by
    rintro d hd rfl
    rw [h] at hd
    cases hd
  refine ⟨?_, hne '/' rfl, ?_⟩
  · simp [isBlank, hne ' ' rfl, hne '\t' rfl, hne '\r' rfl, hne '\n' rfl,
      hne '\x0c' rfl]
  · -- the small letters lie behind the capital letters and the digits
    have hsmall : (decide (97 ≤ c.val) && decide (c.val ≤ 122)) = true := h
    change (decide (65 ≤ c.val ∧ c.val ≤ 90)
      || (decide (48 ≤ c.val) && decide (c.val ≤ 57))) = false
    grind

/-- The characters of the name of a variable. -/
theorem exists_chars_of_isVariableName {name : String}
    (h : isVariableName name) :
    ∃ c cs, name.toList = c :: cs ∧ c.isLower ∧
      (∀ c ∈ cs, isNameChar c) ∧ wordKind (c :: cs) = .name := by
  unfold isVariableName at h
  cases hchars : name.toList with
  | nil => simp [hchars] at h
  | cons c cs =>
      simp only [hchars, Bool.and_eq_true, List.all_eq_true] at h
      obtain ⟨⟨⟨hlower, hall⟩, hlet⟩, heval⟩ := h
      have hnotLet : c :: cs ≠ ['l', 'e', 't'] := by
        rw [← hchars]
        intro heq
        have hsame : name = "let" := String.ext heq
        simp [hsame] at hlet
      have hnotEval : c :: cs ≠ ['e', 'v', 'a', 'l'] := by
        rw [← hchars]
        intro heq
        have hsame : name = "eval" := String.ext heq
        simp [hsame] at heval
      refine ⟨c, cs, rfl, hlower, hall, ?_⟩
      rw [wordKind, if_neg hnotLet, if_neg hnotEval]

/-- The text does not go on with a name. -/
def StopsName (rest : List Char) : Prop :=
  ∀ c ∈ rest.head?, isNameChar c = false

/-- A name takes in all its characters and no more. -/
theorem Cursor.tokens_name {name : String} (h : isVariableName name)
    {rest : List Char} (hrest : StopsName rest) (place : Place) :
    tokens ⟨name.toList ++ rest, place⟩
      = tokenAt place .name name.toList
        :: tokens ⟨rest, place.advance name.toList⟩ := by
  obtain ⟨c, cs, hchars, hlower, hall, hkind⟩ :=
    exists_chars_of_isVariableName h
  obtain ⟨hblank, hslash, hstart⟩ := begins_name_of_isLower hlower
  have hstop : rest.takeWhile isNameChar = [] ∧
      rest.dropWhile isNameChar = rest := by
    cases rest with
    | nil => exact ⟨rfl, rfl⟩
    | cons d rest =>
        have hd : isNameChar d = false := hrest d rfl
        simp [hd]
  have hread : Lexeme.read c (cs ++ rest) = ⟨.name, c :: cs, rest⟩ := by
    rw [Lexeme.read, if_neg (by simp [hstart]), if_pos hlower,
      List.takeWhile_append_of_pos hall, List.dropWhile_append_of_pos hall,
      hstop.1, hstop.2, List.append_nil, hkind]
  rw [hchars, List.cons_append, tokens_of_read hblank hslash, hread]

namespace Grammar

open Automaton

/-! ### Phrases of trees -/

/-- The tree that a phrase without identifiers stands for. -/
def Phrase.tree? : Phrase → Option Tree
  | identifier _ => none
  | name word => word.1.text.map .var
  | group _ inner _ => inner.tree?
  | function _ parameter _ body => do
    let parameter ← parameter.1.text
    let body ← body.tree?
    return .lam parameter body
  | application applied applicand => do
    let applied ← applied.tree?
    let applicand ← applicand.tree?
    return .app applied applicand

/-- A greedy phrase that stands for the tree and goes on with nothing. -/
structure Depicts (phrase : Phrase) (tree : Tree) : Prop where
  tree : phrase.tree? = some tree
  greedy : phrase.Greedy
  closed : phrase.isOpen = false
  atom : phrase.isAtom = true

/-- **Scanning the text of a tree** gives the tokens of a phrase for it, and
then those of whatever follows. -/
theorem exists_depicting {tree : Tree} (hnamed : tree.Named) {rest : List Char}
    (hrest : StopsName rest) (place : Place) :
    ∃ phrase, Depicts phrase tree ∧
      Cursor.tokens ⟨tree.chars ++ rest, place⟩
        = phrase.tokens ++ Cursor.tokens ⟨rest, place.advance tree.chars⟩ := by
  -- what follows a part of a tree is one of these, so its last name ends there
  have hstop : ∀ c ∈ ['.', ' ', ')'], ∀ rest, StopsName (c :: rest) := by
    intro c hc rest d hd
    have hmarks : ∀ c ∈ ['.', ' ', ')'], isNameChar c = false := by
      simp [isNameChar]
    obtain rfl : c = d := by simpa using hd
    exact hmarks c hc
  induction tree generalizing rest place with
  | var name =>
      have htext : (Cursor.tokenAt place .name name.toList).text
          = some name := by
        simp [Cursor.tokenAt, Kind.carriesText]
      refine ⟨.name ⟨Cursor.tokenAt place .name name.toList, rfl⟩,
        ⟨?_, trivial, rfl, rfl⟩, Cursor.tokens_name hnamed hrest place⟩
      rw [Phrase.tree?, htext]
      rfl
  | lam parameter body ih =>
      let second := place.step '('
      let third := second.step '\\'
      let fourth := third.advance parameter.toList
      let fifth := fourth.step '.'
      have hchars : (Tree.lam parameter body).chars ++ rest
          = '(' :: '\\' :: (parameter.toList
            ++ '.' :: (body.chars ++ ')' :: rest)) := by
        simp [Tree.chars]
      have hplace : place.advance (Tree.lam parameter body).chars
          = (fifth.advance body.chars).step ')' := by
        simp [Tree.chars, Place.advance, fifth, fourth, third, second]
      have htext : (Cursor.tokenAt third .name parameter.toList).text
          = some parameter := by
        simp [Cursor.tokenAt, Kind.carriesText]
      obtain ⟨inner, hinner, htokens⟩ :=
        ih hnamed.2 (hstop ')' (by decide) rest) fifth
      refine ⟨.group ⟨Cursor.tokenAt place .openBracket ['('], rfl⟩
        (.function ⟨Cursor.tokenAt second .lambda ['\\'], rfl⟩
          ⟨Cursor.tokenAt third .name parameter.toList, rfl⟩
          ⟨Cursor.tokenAt fourth .dot ['.'], rfl⟩ inner)
        ⟨Cursor.tokenAt (fifth.advance body.chars) .closeBracket [')'], rfl⟩,
        ⟨?_, hinner.greedy, rfl, rfl⟩, ?_⟩
      · simp [Phrase.tree?, htext, hinner.tree]
      · rw [hchars, hplace, Cursor.tokens_mark (by decide),
          Cursor.tokens_mark (by decide),
          Cursor.tokens_name hnamed.1 (hstop '.' (by decide) _),
          Cursor.tokens_mark (by decide), htokens,
          Cursor.tokens_mark (by decide)]
        simp [Phrase.tokens, markKind, fourth, third, second]
  | app applied applicand ihapplied ihapplicand =>
      let second := place.step '('
      let third := (second.advance applied.chars).step ' '
      have hchars : (Tree.app applied applicand).chars ++ rest
          = '(' :: (applied.chars
            ++ ' ' :: (applicand.chars ++ ')' :: rest)) := by
        simp [Tree.chars]
      have hplace : place.advance (Tree.app applied applicand).chars
          = (third.advance applicand.chars).step ')' := by
        simp [Tree.chars, Place.advance, third, second]
      obtain ⟨left, hleft, hleftTokens⟩ :=
        ihapplied hnamed.1 (hstop ' ' (by decide)
          (applicand.chars ++ ')' :: rest)) second
      obtain ⟨right, hright, hrightTokens⟩ :=
        ihapplicand hnamed.2 (hstop ')' (by decide) rest) third
      refine ⟨.group ⟨Cursor.tokenAt place .openBracket ['('], rfl⟩
        (.application left right)
        ⟨Cursor.tokenAt (third.advance applicand.chars) .closeBracket [')'],
          rfl⟩,
        ⟨?_, ⟨hleft.greedy, hright.greedy, hleft.closed, hright.atom⟩, rfl,
          rfl⟩, ?_⟩
      · simp [Phrase.tree?, hleft.tree, hright.tree]
      · rw [hchars, hplace, Cursor.tokens_mark (by decide), hleftTokens,
          Cursor.tokens_space, hrightTokens, Cursor.tokens_mark (by decide)]
        simp [Phrase.tokens, markKind]

end Grammar

/-! ### Building a tree -/

namespace Graph

/-- The later graph has all nodes of the earlier one under the same numbers. -/
structure Keeps (graph later : Graph) : Prop where
  size_le : graph.size ≤ later.size
  node? : ∀ {index node}, graph.node? index = some node →
    later.node? index = some node

/-- What is kept twice is kept. -/
theorem Keeps.trans {graph later last : Graph} (h : graph.Keeps later)
    (hlast : later.Keeps last) : graph.Keeps last :=
  ⟨h.size_le.trans hlast.size_le, fun hnode => hlast.node? (h.node? hnode)⟩

/-- A new node keeps all others. -/
theorem keeps_add (graph : Graph) (node : Node) :
    graph.Keeps (graph.add node) := by
  refine ⟨by simp, ?_⟩
  intro index found hfound
  rw [node?_add_of_lt (lt_size_of_node? hfound)]
  exact hfound

/-- The instructions that make an operand: none for a variable; for any other
node, those that make its parts and then its own. -/
inductive Makes (graph : Graph) : Operand → List Instruction → Prop
  | var {index : Nat} {name : String}
      (hnode : graph.node? index = some (.var name)) :
      Makes graph (.node index) []
  | lam {index bound : Nat} {body : Operand} {code : List Instruction}
      (hnode : graph.node? index = some (.lam bound body))
      (hbody : Makes graph body code) :
      Makes graph (.node index) (code ++ [.func (.node bound) body])
  | app {index : Nat} {applied applicand : Operand}
      {left right : List Instruction}
      (hnode : graph.node? index = some (.app applied applicand))
      (hleft : Makes graph applied left)
      (hright : Makes graph applicand right) :
      Makes graph (.node index) (left ++ right ++ [.apply applied applicand])

section Later

variable {graph later : Graph} {operand : Operand}

/-- An operand unfolds to the same tree in a larger graph. -/
theorem Unfolds.keep {tree : Tree} (h : graph.Unfolds operand tree)
    (hkeeps : graph.Keeps later) : later.Unfolds operand tree := by
  induction h with
  | var hnode => exact .var (hkeeps.node? hnode)
  | lam hnode hbound _ ih =>
      exact .lam (hkeeps.node? hnode) (hkeeps.node? hbound) ih
  | app hnode _ _ ihleft ihright =>
      exact .app (hkeeps.node? hnode) ihleft ihright

/-- Instructions make the same value in a larger graph. -/
theorem Makes.keep {code : List Instruction} (h : graph.Makes operand code)
    (hkeeps : graph.Keeps later) : later.Makes operand code := by
  induction h with
  | var hnode => exact .var (hkeeps.node? hnode)
  | lam hnode _ ih => exact .lam (hkeeps.node? hnode) ih
  | app hnode _ _ ihleft ihright =>
      exact .app (hkeeps.node? hnode) ihleft ihright

end Later

end Graph

namespace Grammar

open Automaton

/-- The later program has a new operand that unfolds into the tree, and the
code that makes it behind the code that was there. -/
structure Built (program : Program) (tree : Tree) (later : Program)
    (value : Operand) (code : List Instruction) : Prop where
  keeps : program.graph.Keeps later.graph
  unfolds : later.graph.Unfolds value tree
  makes : later.graph.Makes value code
  depth_le : tree.depth ≤ later.graph.size
  code : later.code.toList = program.code.toList ++ code

namespace Built

variable {program middle later : Program} {value other : Operand}
  {code more : List Instruction} {tree left right : Tree}

/-- A variable takes a node and no instruction. -/
theorem var (program : Program) (name : String) :
    Built program (.var name) (program.addNode (.var name))
      (.node program.graph.size) [] := by
  have hnode := program.graph.node?_add_size (.var name)
  refine ⟨program.graph.keeps_add _, .var hnode, .var hnode, ?_, ?_⟩
  · simp [Tree.depth, Program.addNode]
  · simp [Program.addNode]

/-- A function is made behind its body, together with its bound variable. -/
theorem lam (h : Built program tree later value code) (parameter : String) :
    Built program (.lam parameter tree)
      (((later.addNode (.var parameter)).addNode
        (.lam later.graph.size value)).emit
          (.func (.node later.graph.size) value))
      (.node (later.graph.size + 1))
      (code ++ [.func (.node later.graph.size) value]) := by
  have hfirst := later.graph.keeps_add (.var parameter)
  have hsecond := (later.graph.add (.var parameter)).keeps_add
    (.lam later.graph.size value)
  have hboth := hfirst.trans hsecond
  have hbound := hsecond.node? (later.graph.node?_add_size (.var parameter))
  have hnode := (later.graph.add (.var parameter)).node?_add_size
    (.lam later.graph.size value)
  rw [Graph.size_add] at hnode
  refine ⟨h.keeps.trans hboth, .lam hnode hbound (h.unfolds.keep hboth),
    .lam hnode (h.makes.keep hboth), ?_, ?_⟩
  · have hle := h.depth_le
    simp only [Tree.depth, Program.emit, Program.addNode, Graph.size_add]
    omega
  · simp [Program.emit, Program.addNode, h.code]

/-- An application is made behind its parts. -/
theorem app (hleft : Built program left middle value code)
    (hright : Built middle right later other more) :
    Built program (.app left right)
      ((later.addNode (.app value other)).emit (.apply value other))
      (.node later.graph.size)
      (code ++ more ++ [.apply value other]) := by
  have hkeeps := later.graph.keeps_add (.app value other)
  have hnode := later.graph.node?_add_size (.app value other)
  refine ⟨(hleft.keeps.trans hright.keeps).trans hkeeps,
    .app hnode (hleft.unfolds.keep (hright.keeps.trans hkeeps))
      (hright.unfolds.keep hkeeps),
    .app hnode (hleft.makes.keep (hright.keeps.trans hkeeps))
      (hright.makes.keep hkeeps), ?_, ?_⟩
  · have hfirst := hleft.depth_le
    have hsecond := hright.depth_le
    have hgrown := hright.keeps.size_le
    simp only [Tree.depth, Program.emit, Program.addNode, Graph.size_add]
    omega
  · simp [Program.emit, Program.addNode, hright.code, hleft.code]

end Built

/-- **Elaborating a phrase builds its tree.** -/
theorem Phrase.exists_built {phrase : Phrase} {tree : Tree}
    (h : phrase.tree? = some tree) (program : Program) :
    ∃ later value code,
      phrase.elaborate program = some (later, value) ∧
      Built program tree later value code := by
  induction phrase generalizing tree program with
  | identifier word => cases h
  | name word =>
      obtain ⟨name, htext, rfl⟩ := Option.map_eq_some_iff.mp h
      refine ⟨_, _, [], ?_, Built.var program name⟩
      simp [Phrase.elaborate, htext]
  | group bracket inner closing ih => exact ih h program
  | function lambda parameter dot body ih =>
      simp only [tree?, Option.bind_eq_bind, Option.bind_eq_some_iff,
        Option.pure_def, Option.some.injEq] at h
      obtain ⟨name, htext, inner, hinner, rfl⟩ := h
      obtain ⟨later, value, code, helaborate, hbuilt⟩ := ih hinner program
      refine ⟨_, _, _, ?_, hbuilt.lam name⟩
      simp [Phrase.elaborate, helaborate, htext]
  | application applied applicand ihapplied ihapplicand =>
      simp only [tree?, Option.bind_eq_bind, Option.bind_eq_some_iff,
        Option.pure_def, Option.some.injEq] at h
      obtain ⟨left, hleft, right, hright, rfl⟩ := h
      obtain ⟨middle, value, code, hfirst, hbuilt⟩ := ihapplied hleft program
      obtain ⟨later, other, more, hsecond, hlater⟩ := ihapplicand hright middle
      refine ⟨_, _, _, ?_, hbuilt.app hlater⟩
      simp [Phrase.elaborate, hfirst, hsecond]

/-- A phrase that is a tree has no identifiers in it. -/
theorem Phrase.identifiers_of_tree? {phrase : Phrase} {tree : Tree}
    (h : phrase.tree? = some tree) : phrase.identifiers = [] := by
  induction phrase generalizing tree with
  | identifier word => cases h
  | name word => rfl
  | group bracket inner closing ih => exact ih h
  | function lambda parameter dot body ih =>
      simp only [tree?, Option.bind_eq_bind, Option.bind_eq_some_iff] at h
      obtain ⟨_, _, _, hinner, _⟩ := h
      exact ih hinner
  | application applied applicand ihapplied ihapplicand =>
      simp only [tree?, Option.bind_eq_bind, Option.bind_eq_some_iff] at h
      obtain ⟨_, hleft, _, hright, _⟩ := h
      rw [identifiers, ihapplied hleft, ihapplicand hright]
      rfl

/-! ### Reading the text of a term -/

/-- The statements of a text that are scoped are elaborated, and the text is
accepted. -/
theorem readText_of_scoped {program : Program}
    (hprogram : program.WellFormed) {text : String}
    {statements : List Statement} (hgreedy : GreedyProgram statements)
    (htokens : statementTokens statements = sentenceOf (tokensOf text))
    (hscoped : Scoped program.symbols.names statements) :
    (readText text program).outcome = some .accepted ∧
      elaborateStatements statements program
        = some (readText text program).reading.program := by
  have hclosing := kind_closing_ofText text
  obtain ⟨hcarries, hend⟩ := carries_source hclosing
  rw [tokens_ofText, ← htokens] at hcarries hend
  rw [← Nat.zero_add (List.length _)] at hend
  have hworded : Worded (statementTokens statements) := by
    rw [htokens]
    exact worded_sentenceOf text
  have hdraft : ({ program } : Draft).program.WellFormed := hprogram
  obtain ⟨final, helaborate, hwalk⟩ := exists_elaborateStatements hdraft
    hworded hscoped (fun _ hname => hname) .empty
  have hwhole : walkProgram semantics statements { program }
      = ({ program := final }, .ok .empty) := hwalk
  obtain ⟨config, hreach, houtcome⟩ :=
    run_of_greedy semantics { program } hgreedy hcarries rfl hend
  rw [hwhole] at houtcome
  have hover : config.isHalted := by rw [Config.isHalted, houtcome.1]
  have hrun : textRun text program = config :=
    run_eq_of_reaches hreach hover (isHalted_of_closing hclosing { program } 0)
  rw [readText_eq, hrun, Reading.program, houtcome.2]
  exact ⟨by rw [Config.halt?, houtcome.1], helaborate⟩

/-- The tokens of a text that spells a tree are those of a phrase for it. -/
theorem exists_depicting_text {tree : Tree} (hnamed : tree.Named)
    {text : String} (htext : text.toList = tree.chars) :
    ∃ phrase, Depicts phrase tree ∧
      phrase.tokens = sentenceOf (tokensOf text) := by
  have hstops : StopsName [] := by simp [StopsName]
  obtain ⟨phrase, hdepicts, htokens⟩ :=
    exists_depicting hnamed hstops Place.origin
  obtain ⟨last, hlast⟩ :=
    Cursor.exists_tokens_nil (Place.origin.advance tree.chars)
  refine ⟨phrase, hdepicts, ?_⟩
  rw [sentenceOf_tokensOf, tokensOf, Cursor.ofText, htext,
    ← List.append_nil tree.chars, htokens, hlast, List.dropLast_concat]

/-- **A text that spells a tree** is accepted and builds the tree; the last
instruction prints it. -/
theorem readText_of_spells_tree {tree : Tree} (hnamed : tree.Named)
    {text : String} (htext : text.toList = tree.chars) :
    (readText text .empty).outcome = some .accepted ∧
      ∃ later value code, Built .empty tree later value code ∧
        (readText text .empty).reading.program
          = later.emit (.print value) := by
  obtain ⟨phrase, hdepicts, htokens⟩ := exists_depicting_text hnamed htext
  have hgreedy : GreedyProgram [.print phrase] := by
    refine ⟨?_, by simp⟩
    intro statement hstatement
    rw [List.mem_singleton.mp hstatement]
    exact hdepicts.greedy
  have hwhole : statementTokens [.print phrase]
      = sentenceOf (tokensOf text) := by
    rw [← htokens]
    simp [statementTokens, Statement.tokens, Statement.lead, Statement.value]
  -- the empty program binds nothing, and the phrase asks for nothing
  have hscoped : Scoped Program.empty.symbols.names [.print phrase] := by
    refine ⟨?_, trivial⟩
    simp [Statement.value, Phrase.identifiers_of_tree? hdepicts.tree]
  obtain ⟨haccepted, helaborate⟩ :=
    readText_of_scoped Program.wellFormed_empty hgreedy hwhole hscoped
  obtain ⟨later, value, code, hphrase, hbuilt⟩ :=
    Phrase.exists_built hdepicts.tree .empty
  refine ⟨haccepted, later, value, code, hbuilt, ?_⟩
  have hprogram : elaborateStatements [.print phrase] .empty
      = some (later.emit (.print value)) := by
    simp [elaborateStatements, Statement.elaborate, hphrase]
  rw [helaborate] at hprogram
  exact Option.some.inj hprogram

/-- **The text of a term reads back as the term.**  Let an operand of any graph
have variables, functions and applications within it and nothing else, with
proper names, and without a cycle.  Then its text is accepted.  The last
instruction of the program prints a value that unfolds into the same tree, and
so has the same text; the other instructions are those that make this value,
one for each function and each application in it. -/
theorem reading_rendered_term (graph : Graph) (operand : Operand)
    (h : graph.Plain operand) :
    let text := graph.render operand
    let attempt := readText text .empty
    let program := attempt.reading.program
    attempt.outcome = some .accepted ∧
      ∃ value code, program.code.toList = code ++ [.print value] ∧
        program.graph.Makes value code ∧
        (∃ tree, graph.Unfolds operand tree) ∧
        (∀ tree, graph.Unfolds operand tree
          ↔ program.graph.Unfolds value tree) ∧
        program.graph.render value = text := by
  intro text attempt program
  obtain ⟨tree, htree, hnamed, hdepth⟩ := h.exists_unfolds
  have htext : text.toList = tree.chars := htree.toList_render hdepth
  obtain ⟨haccepted, later, value, code, hbuilt, hprogram⟩ :=
    readText_of_spells_tree hnamed htext
  have hsame : program = later.emit (.print value) := hprogram
  have hgraph : program.graph = later.graph := by rw [hsame, Program.emit]
  have hcode : program.code.toList = code ++ [.print value] := by
    simp [hsame, Program.emit, hbuilt.code, Program.empty]
  clear_value program
  rw [hgraph]
  refine ⟨haccepted, value, code, hcode, hbuilt.makes, ⟨tree, htree⟩, ?_, ?_⟩
  · intro other
    constructor
    · intro hother
      rw [hother.unique htree]
      exact hbuilt.unfolds
    · intro hother
      rw [hother.unique hbuilt.unfolds]
      exact htree
  · apply String.ext
    rw [hbuilt.unfolds.toList_render hbuilt.depth_le, htext]

/-- Node 0 applies a function to itself, and the function comes behind it. -/
def sharedGraph : Graph :=
  ⟨#[.app (.node 2) (.node 2), .var "y1", .lam 3 (.node 1), .var "x"]⟩

/-- A function that is used twice is written twice, and read back as two
functions. -/
theorem reading_rendered_sharing :
    sharedGraph.Plain (.node 0) ∧
      sharedGraph.render (.node 0) = "((\\x.y1) (\\x.y1))" ∧
      let attempt := readText (sharedGraph.render (.node 0)) .empty
      let program := attempt.reading.program
      attempt.outcome = some .accepted ∧
        ∃ value code, program.code.toList = code ++ [.print value] ∧
          program.graph.Makes value code ∧
          (∃ tree, sharedGraph.Unfolds (.node 0) tree) ∧
          (∀ tree, sharedGraph.Unfolds (.node 0) tree
            ↔ program.graph.Unfolds value tree) ∧
          program.graph.render value = sharedGraph.render (.node 0) := by
  have hranked : sharedGraph.RankedBy ([3, 0, 2, 1].getD · 0) := by
    decide +kernel
  have hplain : sharedGraph.Plain (.node 0) := hranked.plain (by decide)
  have htext : sharedGraph.render (.node 0) = "((\\x.y1) (\\x.y1))" := by
    decide +kernel
  exact ⟨hplain, htext, reading_rendered_term sharedGraph (.node 0) hplain⟩

end Grammar

end LambdaStack
