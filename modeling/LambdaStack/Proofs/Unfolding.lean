import Mathlib.Logic.Relation
import Mathlib.Data.Finset.Card
import LambdaStack.Proofs.WellFormed

/-!
# Graphs unfold into trees

A graph shares nodes, and a **tree** does not: it is what an operand looks like
when every node is written out wherever it occurs.  `Graph.Unfolds` says that
an operand unfolds into a tree; there is at most one (`Unfolds.unique`).

An operand is **plain** if everything within it is a variable with a proper
name, a function of a variable or an application, and nothing is within itself.
A plain operand unfolds.  The reason is that a path downwards never comes to
the same node twice, so it is no longer than the graph has nodes:

    path from the root     index ... index ... index     all different
    nodes left             graph size - length of the path

This is also why the size of the graph is depth enough for its text
(`Unfolds.toList_render`).
-/

namespace LambdaStack

/-! ### Trees -/

/-- A term in which nothing is shared. -/
inductive Tree where
  | var (name : String)
  | lam (parameter : String) (body : Tree)
  | app (applied applicand : Tree)
  deriving DecidableEq, Repr

/-- A small letter, then small letters and digits, and no reserved word. -/
def isVariableName (name : String) : Bool :=
  match name.toList with
  | [] => false
  | c :: cs =>
    c.isLower && cs.all (fun c => c.isLower || c.isDigit)
      && name ≠ "let" && name ≠ "eval"

namespace Tree

/-- The number of levels. -/
def depth : Tree → Nat
  | var _ => 1
  | lam _ body => body.depth + 1
  | app applied applicand => max applied.depth applicand.depth + 1

theorem depth_pos (tree : Tree) : 0 < tree.depth := by
  cases tree <;> simp [depth]

/-- Every name is the name of a variable. -/
def Named : Tree → Prop
  | var name => isVariableName name
  | lam parameter body => isVariableName parameter ∧ body.Named
  | app applied applicand => applied.Named ∧ applicand.Named

/-- The characters of a tree, with brackets around all but variables. -/
def chars : Tree → List Char
  | var name => name.toList
  | lam parameter body =>
    '(' :: '\\' :: parameter.toList ++ '.' :: body.chars ++ [')']
  | app applied applicand =>
    '(' :: applied.chars ++ ' ' :: applicand.chars ++ [')']

end Tree

/-! ### Parts -/

/-- What a node refers to. -/
def Node.parts : Node → List Operand
  | var _ | identifier _ => []
  | lam bound body => [.node bound, body]
  | app applied applicand => [applied, applicand]

/-- The node is a variable with a proper name, a function of a variable, or an
application. -/
def Node.isPlain (graph : Graph) : Node → Bool
  | var name => isVariableName name
  | identifier _ => false
  | lam bound _ => graph.isVar (.node bound)
  | app _ _ => true

namespace Graph

/-- One operand is referred to by the node behind the other. -/
def IsPart (graph : Graph) (part whole : Operand) : Prop :=
  ∃ node, graph.resolve? whole = some node ∧ part ∈ node.parts

/-- One operand is reached from the other in one step or more. -/
def Below (graph : Graph) : Operand → Operand → Prop :=
  Relation.TransGen graph.IsPart

/-- One operand is reached from the other, or is the other. -/
def Within (graph : Graph) : Operand → Operand → Prop :=
  Relation.ReflTransGen graph.IsPart

/-- Everything within the operand is a plain node, and there are no cycles.
Nodes may be shared. -/
structure Plain (graph : Graph) (operand : Operand) : Prop where
  node : ∀ part, graph.Within part operand →
    ∃ node, graph.resolve? part = some node ∧ node.isPlain graph
  acyclic : ∀ part, graph.Within part operand → ¬ graph.Below part part

/-- Nothing within the operand is below itself. -/
def Acyclic (graph : Graph) (operand : Operand) : Prop :=
  ∀ part, graph.Within part operand → ¬ graph.Below part part

/-- The operand unfolds into the tree. -/
inductive Unfolds (graph : Graph) : Operand → Tree → Prop
  | var {index : Nat} {name : String}
      (hnode : graph.node? index = some (.var name)) :
      Unfolds graph (.node index) (.var name)
  | lam {index bound : Nat} {body : Operand} {parameter : String} {tree : Tree}
      (hnode : graph.node? index = some (.lam bound body))
      (hbound : graph.node? bound = some (.var parameter))
      (hbody : Unfolds graph body tree) :
      Unfolds graph (.node index) (.lam parameter tree)
  | app {index : Nat} {applied applicand : Operand} {left right : Tree}
      (hnode : graph.node? index = some (.app applied applicand))
      (hleft : Unfolds graph applied left)
      (hright : Unfolds graph applicand right) :
      Unfolds graph (.node index) (.app left right)

/-- An operand unfolds into one tree at most. -/
theorem Unfolds.unique {graph : Graph} {operand : Operand} {tree other : Tree}
    (h : graph.Unfolds operand tree) (hother : graph.Unfolds operand other) :
    tree = other := by
  induction h generalizing other with
  | var hnode =>
      cases hother with
      | var hsame => grind
      | lam hsame => grind
      | app hsame => grind
  | lam hnode hbound hbody ih =>
      cases hother with
      | var hsame => grind
      | lam hsame hparameter hinner =>
          rw [hnode, Option.some.injEq, Node.lam.injEq] at hsame
          obtain ⟨rfl, rfl⟩ := hsame
          rw [hbound, Option.some.injEq, Node.var.injEq] at hparameter
          rw [hparameter, ih hinner]
      | app hsame => grind
  | app hnode hleft hright ihleft ihright =>
      cases hother with
      | var hsame => grind
      | lam hsame => grind
      | app hsame happlied happlicand =>
          rw [hnode, Option.some.injEq, Node.app.injEq] at hsame
          obtain ⟨rfl, rfl⟩ := hsame
          rw [ihleft happlied, ihright happlicand]

/-! ### Plain operands unfold -/

/-- Only what is within the graph is a node. -/
theorem lt_size_of_node? {graph : Graph} {index : Nat} {node : Node}
    (h : graph.node? index = some node) : index < graph.size := by
  rw [Graph.node?, Array.getElem?_eq_some_iff] at h
  exact h.1

/-- A variable has a name. -/
theorem node?_of_isVar {graph : Graph} {index : Nat}
    (h : graph.isVar (.node index)) :
    ∃ name, graph.node? index = some (.var name) := by
  rw [isVar, resolve?] at h
  cases hnode : graph.node? index with
  | none =>
      rw [hnode] at h
      cases h
  | some node =>
      cases node with
      | var name => exact ⟨name, rfl⟩
      | identifier | lam | app =>
          rw [hnode] at h
          cases h

section Paths

variable {graph : Graph} {root operand : Operand} {path : List Nat}

/-- A path downwards from the root to just above the operand: different nodes,
with the operand below each of them. -/
structure Leads (graph : Graph) (path : List Nat) (operand : Operand) :
    Prop where
  nodup : path.Nodup
  lt : ∀ index ∈ path, index < graph.size
  below : ∀ index ∈ path, graph.Below operand (.node index)

/-- A path is no longer than the graph has nodes. -/
theorem length_le_size (hnodup : path.Nodup)
    (hlt : ∀ index ∈ path, index < graph.size) : path.length ≤ graph.size := by
  have hsub : path.toFinset ⊆ Finset.range graph.size := by
    intro index hindex
    exact Finset.mem_range.mpr (hlt index (List.mem_toFinset.mp hindex))
  have hcard := Finset.card_le_card hsub
  rw [List.toFinset_card_of_nodup hnodup, Finset.card_range] at hcard
  exact hcard

theorem leads_nil (graph : Graph) (operand : Operand) :
    graph.Leads [] operand :=
  ⟨List.nodup_nil, by simp, by simp⟩

/-- **A path never comes to the same node twice**, so it can be made longer by
the node it leads to, and leads on to the parts of that node. -/
theorem Acyclic.leads_parts (h : graph.Acyclic root) {index : Nat} {node : Node}
    (hwithin : graph.Within (.node index) root)
    (hpath : graph.Leads path (.node index))
    (hnode : graph.node? index = some node) :
    path.length < graph.size ∧
      ∀ part ∈ node.parts, graph.Within part root ∧
        graph.Leads (index :: path) part := by
  have hnew : index ∉ path := fun hmem =>
    h _ hwithin (hpath.below index hmem)
  have hnodup : (index :: path).Nodup :=
    List.nodup_cons.mpr ⟨hnew, hpath.nodup⟩
  have hall : ∀ other ∈ index :: path, other < graph.size := by
    intro other hother
    rcases List.mem_cons.mp hother with rfl | hother
    · exact lt_size_of_node? hnode
    · exact hpath.lt other hother
  refine ⟨length_le_size hnodup hall, ?_⟩
  intro part hpart
  have hstep : graph.IsPart part (.node index) := ⟨node, hnode, hpart⟩
  refine ⟨hwithin.head hstep, hnodup, hall, ?_⟩
  intro other hother
  rcases List.mem_cons.mp hother with rfl | hother
  · exact Relation.TransGen.single hstep
  · exact (hpath.below other hother).head hstep

/-- Within a plain operand there are nodes only. -/
theorem Plain.exists_node (h : graph.Plain root)
    (hwithin : graph.Within operand root) (hpath : graph.Leads path operand) :
    ∃ index node, operand = .node index ∧ graph.node? index = some node ∧
      node.isPlain graph ∧ path.length < graph.size ∧
      ∀ part ∈ node.parts, graph.Within part root ∧
        graph.Leads (index :: path) part := by
  obtain ⟨node, hnode, hplain⟩ := h.node operand hwithin
  cases operand with
  | result instruction => cases hnode
  | node index =>
      have hacyclic : graph.Acyclic root := h.acyclic
      exact ⟨index, node, rfl, hnode, hplain,
        hacyclic.leads_parts hwithin hpath hnode⟩

/-- By induction on the number of nodes that are left. -/
theorem Plain.exists_unfolds_of_leads (h : graph.Plain root) {depth : Nat}
    (hwithin : graph.Within operand root) (hpath : graph.Leads path operand)
    (hdepth : graph.size ≤ path.length + depth) :
    ∃ tree, graph.Unfolds operand tree ∧ tree.Named ∧ tree.depth ≤ depth := by
  induction depth generalizing operand path with
  | zero =>
      obtain ⟨_, _, _, _, _, hlength, _⟩ := h.exists_node hwithin hpath
      omega
  | succ depth ih =>
      obtain ⟨index, node, rfl, hnode, hplain, hlength, hparts⟩ :=
        h.exists_node hwithin hpath
      have hbelow : graph.size ≤ (index :: path).length + depth := by
        rw [List.length_cons]
        omega
      cases node with
      | var name => exact ⟨.var name, .var hnode, hplain, Nat.succ_pos depth⟩
      | identifier name => cases hplain
      | lam bound body =>
          obtain ⟨hboundWithin, _⟩ := hparts (.node bound) List.mem_cons_self
          obtain ⟨hbodyWithin, hbodyPath⟩ :=
            hparts body (List.mem_cons_of_mem _ List.mem_cons_self)
          obtain ⟨tree, htree, hnamed, hle⟩ := ih hbodyWithin hbodyPath hbelow
          obtain ⟨parameter, hparameter⟩ := node?_of_isVar hplain
          obtain ⟨found, hfound, hname⟩ := h.node _ hboundWithin
          rw [resolve?, hparameter] at hfound
          obtain rfl := Option.some.inj hfound
          exact ⟨.lam parameter tree, .lam hnode hparameter htree,
            ⟨hname, hnamed⟩, Nat.succ_le_succ hle⟩
      | app applied applicand =>
          obtain ⟨hleftWithin, hleftPath⟩ := hparts applied List.mem_cons_self
          obtain ⟨hrightWithin, hrightPath⟩ :=
            hparts applicand (List.mem_cons_of_mem _ List.mem_cons_self)
          obtain ⟨left, hleft, hleftNamed, hleftLe⟩ :=
            ih hleftWithin hleftPath hbelow
          obtain ⟨right, hright, hrightNamed, hrightLe⟩ :=
            ih hrightWithin hrightPath hbelow
          exact ⟨.app left right, .app hnode hleft hright,
            ⟨hleftNamed, hrightNamed⟩,
            Nat.succ_le_succ (Nat.max_le.mpr ⟨hleftLe, hrightLe⟩)⟩

/-- **A plain operand unfolds**, into a tree that is no deeper than the graph
has nodes. -/
theorem Plain.exists_unfolds (h : graph.Plain operand) :
    ∃ tree, graph.Unfolds operand tree ∧ tree.Named ∧
      tree.depth ≤ graph.size := by
  exact h.exists_unfolds_of_leads Relation.ReflTransGen.refl
    (graph.leads_nil operand) (by simp)

end Paths

/-! ### Checking that an operand is plain -/

/-- The parts of a node rank lower than the node. -/
def Ranked (graph : Graph) (rank : Operand → Nat) : Prop :=
  ∀ index < graph.size, ∀ node ∈ graph.node? index, ∀ part ∈ node.parts,
    rank part < rank (.node index)

instance (graph : Graph) (rank : Operand → Nat) :
    Decidable (graph.Ranked rank) :=
  inferInstanceAs (Decidable (∀ index < graph.size,
    ∀ node ∈ graph.node? index, ∀ part ∈ node.parts, _))

/-- A ranking shows that there are no cycles at all. -/
theorem Ranked.acyclic {graph : Graph} {rank : Operand → Nat}
    (h : graph.Ranked rank) (operand : Operand) : graph.Acyclic operand := by
  have hpart : ∀ part whole, graph.IsPart part whole →
      rank part < rank whole := by
    rintro part whole ⟨node, hnode, hmem⟩
    cases whole with
    | result instruction => cases hnode
    | node index =>
        exact h index (lt_size_of_node? hnode) node hnode part hmem
  have hbelow : ∀ part whole, graph.Below part whole →
      rank part < rank whole := by
    intro part whole hbelow
    induction hbelow with
    | single hstep => exact hpart _ _ hstep
    | tail _ hstep ih => exact Nat.lt_trans ih (hpart _ _ hstep)
  intro part _ hself
  exact Nat.lt_irrefl _ (hbelow part part hself)

section Ranks

variable {graph : Graph} {rank : Nat → Nat}

/-- All nodes are plain and refer to nodes of the graph that rank lower. -/
def RankedBy (graph : Graph) (rank : Nat → Nat) : Prop :=
  ∀ index < graph.size, ∀ node ∈ graph.node? index,
    node.isPlain graph ∧ ∀ part ∈ node.parts,
      ∃ below < graph.size, part = .node below ∧ rank below < rank index

instance : Decidable (graph.RankedBy rank) :=
  inferInstanceAs (Decidable (∀ index < graph.size,
    ∀ node ∈ graph.node? index, _ ∧ ∀ part ∈ node.parts, _))

/-- A rank of the nodes is one of the operands. -/
theorem RankedBy.ranked (h : graph.RankedBy rank) :
    graph.Ranked fun
      | .node index => rank index
      | .result _ => 0 := by
  intro index hindex node hnode part hpart
  obtain ⟨below, _, rfl, hlt⟩ := (h index hindex node hnode).2 part hpart
  exact hlt

/-- Nothing but nodes of the graph is within one of them. -/
theorem RankedBy.exists_node (h : graph.RankedBy rank) {index : Nat}
    (hindex : index < graph.size) {part : Operand}
    (hwithin : graph.Within part (.node index)) :
    ∃ below < graph.size, part = .node below := by
  induction hwithin using Relation.ReflTransGen.head_induction_on with
  | refl => exact ⟨index, hindex, rfl⟩
  | head hpart _ ih =>
      obtain ⟨middle, hmiddle, rfl⟩ := ih
      obtain ⟨node, hnode, hmem⟩ := hpart
      obtain ⟨below, hlow, heq, _⟩ := (h middle hmiddle node hnode).2 _ hmem
      exact ⟨below, hlow, heq⟩

/-- A ranking shows that every node is plain. -/
theorem RankedBy.plain (h : graph.RankedBy rank) {index : Nat}
    (hindex : index < graph.size) : graph.Plain (.node index) where
  node := by
    intro part hpart
    obtain ⟨below, hlow, rfl⟩ := h.exists_node hindex hpart
    have hnode : graph.node? below = some (graph.nodes[below]) :=
      Array.getElem?_eq_getElem hlow
    exact ⟨_, hnode, (h below hlow _ hnode).1⟩
  acyclic := h.ranked.acyclic (.node index)

end Ranks

/-! ### Text -/

/-- The characters of a piece. -/
def Piece.chars (graph : Graph) : Piece → List Char
  | .text content => content.toList
  | .operand depth whole => (graph.spell depth whole).toList

/-- **Working off pieces writes them out one after the other.** -/
theorem toList_writePieces (graph : Graph) (written : String)
    (pieces : List Piece) :
    (graph.writePieces written pieces).toList
      = written.toList ++ pieces.flatMap (Piece.chars graph) := by
  fun_induction writePieces graph written pieces with
  | case1 written => simp
  | _ => simp_all [Piece.chars, spell]

/-- An operand is written as deep as there are nodes, and one level more. -/
theorem toList_render (graph : Graph) (operand : Operand) :
    (graph.render operand).toList
      = (graph.spell (graph.size + 1) operand).toList := by
  rw [render, toList_writePieces]
  simp [Piece.chars]

/-- An operand that may be taken apart deep enough is written as its tree. -/
theorem Unfolds.toList_spell {graph : Graph} {operand : Operand} {tree : Tree}
    (h : graph.Unfolds operand tree) {depth : Nat}
    (hdepth : tree.depth ≤ depth) :
    (graph.spell depth operand).toList = tree.chars := by
  -- one level is left for the parts of a node, and a bound variable needs one
  obtain ⟨below, rfl⟩ : ∃ below, depth = below + 1 :=
    ⟨depth - 1, by have := tree.depth_pos; omega⟩
  induction h generalizing below with
  | var hnode => simp [spell, hnode, Tree.chars]
  | @lam index bound body parameter tree hnode hbound hbody ih =>
      have hpos := tree.depth_pos
      obtain ⟨below, rfl⟩ : ∃ lower, below = lower + 1 :=
        ⟨below - 1, by rw [Tree.depth] at hdepth; omega⟩
      have htext := ih below (by rw [Tree.depth] at hdepth; omega)
      have hparameter : graph.spell (below + 1) (.node bound) = parameter := by
        simp [spell, hbound]
      rw [spell]
      simp [hnode, hparameter, htext, Tree.chars]
  | @app index applied applicand left right hnode hleft hright ihleft ihright =>
      have hpos := left.depth_pos
      obtain ⟨below, rfl⟩ : ∃ lower, below = lower + 1 :=
        ⟨below - 1, by rw [Tree.depth] at hdepth; omega⟩
      have hfirst := ihleft below (by rw [Tree.depth] at hdepth; omega)
      have hsecond := ihright below (by rw [Tree.depth] at hdepth; omega)
      rw [spell]
      simp [hnode, hfirst, hsecond, Tree.chars]

/-- What unfolds within the graph is written in full. -/
theorem Unfolds.toList_render {graph : Graph} {operand : Operand} {tree : Tree}
    (h : graph.Unfolds operand tree) (hdepth : tree.depth ≤ graph.size) :
    (graph.render operand).toList = tree.chars := by
  rw [Graph.toList_render]
  exact h.toList_spell (Nat.le_succ_of_le hdepth)

end Graph

end LambdaStack
