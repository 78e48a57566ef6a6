import LambdaStack.Proofs.Reachable
import LambdaStack.Proofs.Unfolding

/-!
# Writing operands without depth

`Graph.render` tells each operand how deep it may be taken apart.  Writing can
do without: a **work list** has the jobs that are left, the next one last.  A
round takes the last job off the list and writes its text, or puts the parts of
its node on the list instead.

    written            pending
    ""                 function
    ""                 ")"  body  "."  bound  "(\"
    "(\"               ")"  body  "."  bound
    "(\x"              ")"  body  "."
    ...                ...

On a cycle this goes on forever.  Otherwise the list gets empty: an operand at
its end is written after some rounds, and the jobs below it are as they were
(`WorkList.finishes_of_writes`).  The text is the one that descent gives,
`Graph.Writes`.  It is the text of `Graph.render` as well, for the depth that
is allowed there is never used up.

Main statement: `work_list_writes_by_descent`.
-/

namespace LambdaStack

namespace Graph

variable {graph : Graph} {operand : Operand}

/-! ### Descent -/

/-- The text of an operand, by descent.  A shared node is written out wherever
it occurs. -/
inductive Writes (graph : Graph) : Operand → String → Prop
  | result (instruction : Nat) :
      Writes graph (.result instruction) s!"#{instruction}"
  | dangling {index : Nat} (hnode : graph.node? index = none) :
      Writes graph (.node index) s!"<dangling {index}>"
  | name {index : Nat} {node : Node} {name : String}
      (hnode : graph.node? index = some node)
      (hname : node.name? = some name) : Writes graph (.node index) name
  | lam {index bound : Nat} {body : Operand} {parameter inner : String}
      (hnode : graph.node? index = some (.lam bound body))
      (hbound : Writes graph (.node bound) parameter)
      (hbody : Writes graph body inner) :
      Writes graph (.node index) ("(\\" ++ parameter ++ "." ++ inner ++ ")")
  | app {index : Nat} {applied applicand : Operand} {left right : String}
      (hnode : graph.node? index = some (.app applied applicand))
      (hleft : Writes graph applied left)
      (hright : Writes graph applicand right) :
      Writes graph (.node index) ("(" ++ left ++ " " ++ right ++ ")")

/-- **Without cycles there is a text**, and the depth that is left is enough for
it: by induction on the depth, along a path of different nodes. -/
theorem Acyclic.writes_spell {root : Operand} (h : graph.Acyclic root)
    {path : List Nat} {depth : Nat} (hwithin : graph.Within operand root)
    (hpath : graph.Leads path operand)
    (hdepth : graph.size < path.length + depth) :
    graph.Writes operand (graph.spell depth operand) := by
  induction depth generalizing operand path with
  | zero =>
      have hlength := length_le_size hpath.nodup hpath.lt
      omega
  | succ depth ih =>
      cases operand with
      | result instruction =>
          rw [spell]
          exact .result instruction
      | node index =>
          rw [spell]
          cases hnode : graph.node? index with
          | none => exact .dangling hnode
          | some node =>
              have hpart := (h.leads_parts hwithin hpath hnode).2
              have hbelow : graph.size < (index :: path).length + depth := by
                rw [List.length_cons]
                omega
              have hwrites : ∀ part ∈ node.parts,
                  graph.Writes part (graph.spell depth part) := by
                intro part hmem
                obtain ⟨hinside, hleads⟩ := hpart part hmem
                exact ih hinside hleads hbelow
              cases node with
              | var name => exact .name hnode rfl
              | identifier name => exact .name hnode rfl
              | lam bound body =>
                  exact .lam hnode (hwrites _ (by simp [Node.parts]))
                    (hwrites _ (by simp [Node.parts]))
              | app applied applicand =>
                  exact .app hnode (hwrites _ (by simp [Node.parts]))
                    (hwrites _ (by simp [Node.parts]))

/-- What has no cycle is written out by the descent as it is rendered. -/
theorem Acyclic.writes_render (h : graph.Acyclic operand) :
    graph.Writes operand (graph.render operand) := by
  have hrender : graph.render operand = graph.spell (graph.size + 1) operand :=
    String.toList_inj.mp (graph.toList_render operand)
  rw [hrender]
  exact h.writes_spell Relation.ReflTransGen.refl (graph.leads_nil operand)
    (by simp)

/-! ### The work list -/

/-- What is left to be done: text to be written, or an operand to be taken
apart. -/
inductive Job where
  | text (content : String)
  | operand (operand : Operand)
  deriving DecidableEq, Repr

/-- The text written so far and the jobs that are left, the next one last. -/
structure WorkList where
  written : String
  pending : Array Job
  deriving DecidableEq, Repr

/-- Does a job that was taken off the list: writes a text, or puts the parts of
a node on the list, the last part first. -/
def Job.perform (graph : Graph) (list : WorkList) : Job → WorkList
  | .text content => { list with written := list.written ++ content }
  | .operand (.result instruction) =>
    { list with written := list.written ++ s!"#{instruction}" }
  | .operand (.node index) =>
    match graph.node? index with
    | none => { list with written := list.written ++ s!"<dangling {index}>" }
    | some (.var name) | some (.identifier name) =>
      { list with written := list.written ++ name }
    | some (.lam bound body) =>
      { list with
        pending := list.pending ++ #[.text ")", .operand body, .text ".",
          .operand (.node bound), .text "(\\"] }
    | some (.app applied applicand) =>
      { list with
        pending := list.pending ++ #[.text ")", .operand applicand, .text " ",
          .operand applied, .text "("] }

namespace WorkList

/-- The list with nothing but the operand on it. -/
def start (operand : Operand) : WorkList :=
  ⟨"", #[.operand operand]⟩

/-- One round: the last job is taken off and done.  There is none if the list
is empty. -/
def round? (graph : Graph) (list : WorkList) : Option WorkList :=
  list.pending.back?.map fun job =>
    job.perform graph { list with pending := list.pending.pop }

/-- After finitely many rounds the list is empty, and the text is written. -/
inductive Finishes (graph : Graph) : WorkList → String → Prop
  | done {list : WorkList} (hround : list.round? graph = none) :
      Finishes graph list list.written
  | round {list next : WorkList} {text : String}
      (hround : list.round? graph = some next)
      (tail : Finishes graph next text) : Finishes graph list text

/-- A work list finishes with one text only. -/
theorem Finishes.unique {list : WorkList} {text other : String}
    (h : Finishes graph list text) (hother : Finishes graph list other) :
    text = other := by
  induction h with
  | done hround =>
      cases hother with
      | done => rfl
      | round hother =>
          rw [hround] at hother
          cases hother
  | round hround _ ih =>
      cases hother with
      | done hother =>
          rw [hround] at hother
          cases hother
      | round hother tail =>
          rw [hround, Option.some.injEq] at hother
          exact ih (hother ▸ tail)

/-- The job that was put on the list last is done next. -/
theorem Finishes.push {written text : String} {pending : Array Job}
    {job : Job}
    (h : Finishes graph (job.perform graph ⟨written, pending⟩) text) :
    Finishes graph ⟨written, pending.push job⟩ text := by
  apply Finishes.round _ h
  rw [round?, Array.back?_push, Array.pop_push]
  rfl

/-- **An operand is written and taken off the list**, and what is below it on
the list stays: by induction on the descent. -/
theorem finishes_of_writes {part : String} (h : graph.Writes operand part)
    {written text : String} {pending : Array Job}
    (hrest : Finishes graph ⟨written ++ part, pending⟩ text) :
    Finishes graph ⟨written, pending.push (.operand operand)⟩ text := by
  induction h generalizing written pending with
  | result instruction => exact hrest.push
  | dangling hnode =>
      apply Finishes.push
      simp only [Job.perform, hnode]
      exact hrest
  | @name index node name hnode hname =>
      apply Finishes.push
      cases node with
      | var other | identifier other =>
          obtain rfl := Option.some.inj hname
          simp only [Job.perform, hnode]
          exact hrest
      | lam | app => cases hname
  | @lam index bound body parameter inner hnode _ _ ihbound ihbody =>
      -- five jobs are put on the list and done in turn, marks and parts
      apply Finishes.push
      simp only [Job.perform, hnode]
      apply Finishes.push
      apply ihbound
      apply Finishes.push
      apply ihbody
      apply Finishes.push
      simpa [Job.perform, String.append_assoc] using hrest
  | @app index applied applicand left right hnode _ _ ihleft ihright =>
      apply Finishes.push
      simp only [Job.perform, hnode]
      apply Finishes.push
      apply ihleft
      apply Finishes.push
      apply ihright
      apply Finishes.push
      simpa [Job.perform, String.append_assoc] using hrest

end WorkList

/-- The parts of a node have smaller numbers. -/
theorem ranked_of_wellFormed {program : Program} (h : program.WellFormed) :
    program.graph.Ranked fun
      | .node index => index + 1
      | .result _ => 0 := by
  have hrank : ∀ index part, program.UsesBelow index part →
      (match part with
        | .node below => below + 1
        | .result _ => 0) < index + 1 := by
    intro index part huses
    cases part with
    | node below => exact Nat.succ_lt_succ huses.2
    | result instruction => exact Nat.succ_pos index
  intro index hindex node hnode part hpart
  have hfits := h.nodes index hindex node hnode
  cases node with
  | var | identifier => cases hpart
  | lam bound body =>
      simp only [Node.parts, List.mem_cons, List.not_mem_nil, or_false] at hpart
      rcases hpart with rfl | rfl
      · exact Nat.succ_lt_succ hfits.1
      · exact hrank index part hfits.2.2
  | app applied applicand =>
      simp only [Node.parts, List.mem_cons, List.not_mem_nil, or_false] at hpart
      rcases hpart with rfl | rfl
      · exact hrank index part hfits.1
      · exact hrank index part hfits.2

/-- **The work list is worked off, and writes what descent writes.**  If nothing
within an operand is below itself, then it has one text by descent, the work
list that begins with the operand gets empty and leaves this text, and it is
the text that `Graph.render` gives.  All operands of a program that reading can
lead to are such. -/
theorem work_list_writes_by_descent :
    (∀ (graph : Graph) (operand : Operand), graph.Acyclic operand →
      ∃ text, (∀ other, graph.Writes operand other ↔ other = text) ∧
        (∀ other, (WorkList.start operand).Finishes graph other
          ↔ other = text) ∧
        graph.render operand = text) ∧
    (∀ program, Grammar.Reachable Program.empty program →
      ∀ operand, program.graph.Acyclic operand) := by
  constructor
  · intro graph operand hacyclic
    have hwrites := hacyclic.writes_render
    have hfinishes : ∀ other, graph.Writes operand other →
        (WorkList.start operand).Finishes graph other := by
      intro other hother
      have hdone : WorkList.Finishes graph ⟨"" ++ other, #[]⟩ other := by
        rw [String.empty_append]
        exact .done rfl
      exact WorkList.finishes_of_writes hother hdone
    refine ⟨graph.render operand, ?_, ?_, rfl⟩
    · intro other
      constructor
      · intro hother
        exact (hfinishes _ hother).unique (hfinishes _ hwrites)
      · rintro rfl
        exact hwrites
    · intro other
      constructor
      · intro hother
        exact hother.unique (hfinishes _ hwrites)
      · rintro rfl
        exact hfinishes _ hwrites
  · intro program hprogram operand
    have hformed := hprogram.wellFormed Program.wellFormed_empty
    exact (ranked_of_wellFormed hformed).acyclic operand

/-- Node 1 applies node 3 to itself, node 9 is missing, and a function comes
before what it is made of. -/
def tangled : Graph :=
  ⟨#[.lam 2 (.node 1), .app (.node 3) (.node 3), .var "x",
    .app (.node 4) (.node 9), .app (.node 5) (.result 7), .identifier "N"]⟩

/-- Shared nodes, a result and a reference to no node are written out, and
programs that were read have no cycles. -/
theorem work_list_of_shared_nodes :
    let text := "(\\x.(((N #7) <dangling 9>) ((N #7) <dangling 9>)))"
    let program := (Grammar.readText "let I = \\x.x x" .empty).reading.program
    tangled.Acyclic (.node 0) ∧
      (WorkList.start (.node 0)).Finishes tangled text ∧
      ∀ operand, program.graph.Acyclic operand := by
  intro text program
  have hranked : tangled.Ranked fun
      | .node index => [5, 4, 1, 3, 2, 1].getD index 0
      | .result _ => 0 := by
    decide +kernel
  have hacyclic := hranked.acyclic (.node 0)
  obtain ⟨_, _, hfinishes, hrender⟩ :=
    work_list_writes_by_descent.1 tangled (.node 0) hacyclic
  have htext : tangled.render (.node 0) = text := by
    decide +kernel
  refine ⟨hacyclic, (hfinishes text).mpr (htext.symm.trans hrender), ?_⟩
  exact work_list_writes_by_descent.2 program
    (Relation.ReflTransGen.single (Grammar.readsOn_attempt
      (Grammar.Reading.resume (Source.ofText "let I = \\x.x x") .empty)))

end Graph

end LambdaStack
