import LambdaStack.Grammar.Meaning

/-!
# Reductions in place

A production works out its contribution before anything is changed.  The same
can be done in place: a reduction is a sequence of **edits**, each of which
looks at the draft as it stands or changes it, and an edit that fails keeps
whatever was changed before it.

    word, resolved, lookUp         look, and may fail
    bindName, allocate, emit       change the draft, and cannot fail

Nothing in the type of edits keeps a reduction from failing halfway.  It does
not happen because every production has its checks in front: up to the last of
them the draft is as it was, and behind it there is nothing that fails.

Main statement: `answer_reduceInPlace`, by which both ways come to the same
draft and the same answer, refusals included.
-/

namespace LambdaStack.Grammar

/-- Work on a draft.  When it fails, what was done to the draft stays done. -/
abbrev Editing := EStateM Refusal Draft

namespace Editing

/-- The draft that is left, and the result or the refusal. -/
def answer {α : Type} (editing : Editing α) (draft : Draft) :
    Draft × Except Refusal α :=
  match editing.run draft with
  | .ok value after => (after, .ok value)
  | .error refusal after => (after, .error refusal)

/-! ### Edits -/

/-- Asks for a word. -/
def word (value : Option Value) (gap : Gap) : Editing String :=
  match value with
  | some (.text text) => return text
  | _ => throw (.missing gap)

/-- Asks for an operand that is no bare identifier in the graph as it
stands. -/
def resolved (value : Option Value) (gap : Gap) : Editing Operand := do
  match value with
  | some (.operand operand) =>
    match (← get).program.graph.resolve? operand with
    | some (.identifier name) => throw (.unexpanded name)
    | _ => return operand
  | _ => throw (.missing gap)

/-- Asks what a name is bound to. -/
def lookUp (name : String) : Editing Operand := do
  match (← get).program.symbols.get? name with
  | some value => return value
  | none => throw (.undefined name)

/-- Binds a name. -/
def bindName (name : String) (value : Operand) : Editing Unit :=
  modify fun draft => { draft with
    program.symbols := draft.program.symbols.insert name value }

/-- Adds a node, and tells its index. -/
def allocate (node : Node) : Editing Nat :=
  modifyGet fun draft => (draft.program.graph.size, { draft with
    program.graph := draft.program.graph.add node })

/-- Adds an instruction, and tells its number. -/
def emit (instruction : Instruction) : Editing Nat :=
  modifyGet fun draft => (draft.program.code.size, { draft with
    program.code := draft.program.code.push instruction })

/-! ### Productions -/

/-- Carries a production out on the draft.  The frame holds the values of its
symbols, the last one first. -/
def produce (production : Production) (frame : List Value) :
    Editing Value := do
  match production with
  | .declaration =>
    let name ← word frame[2]? .declaredName
    let value ← resolved frame[0]? .declaredValue
    bindName name value
    let target ← allocate (.identifier name)
    let _ ← emit (.assign value (.node target))
    return .empty
  | .evaluation =>
    let value ← resolved frame[0]? .evaluatedValue
    let result ← emit (.eval value)
    return .operand (.result result)
  | .print =>
    let value ← resolved frame[0]? .printedValue
    let _ ← emit (.print value)
    return .empty
  | .identifier =>
    let name ← word frame[0]? .identifier
    let value ← lookUp name
    return .operand value
  | .name =>
    let name ← word frame[0]? .variableName
    let index ← allocate (.var name)
    return .operand (.node index)
  | .group => return frame[1]?.getD .empty
  | .function =>
    let name ← word frame[2]? .variableName
    let body ← resolved frame[0]? .functionBody
    let bound ← allocate (.var name)
    let function ← allocate (.lam bound body)
    let _ ← emit (.func (.node bound) body)
    return .operand (.node function)
  | .application =>
    let applied ← resolved frame[1]? .applicationPart
    let applicand ← resolved frame[0]? .applicationPart
    let application ← allocate (.app applied applicand)
    let _ ← emit (.apply applied applicand)
    return .operand (.node application)
  | .pass => return frame.getLast?.getD .empty

/-- Reduces by a rule, in place. -/
def reduceInPlace (rule : Nat) (frame : List Value) : Editing Value :=
  produce (.ofRule rule) frame

/-! ### Checks -/

/-- Goes on if a check succeeds, and leaves the draft alone if not. -/
def checked {α β : Type} (draft : Draft) (check : Except Refusal α)
    (next : α → Draft × Except Refusal β) : Draft × Except Refusal β :=
  match check with
  | .ok value => next value
  | .error refusal => (draft, .error refusal)

variable {α β : Type}

/-- An edit that leaves the draft as it is can be made before all others. -/
theorem answer_bind_of_unchanged {editing : Editing α} {draft : Draft}
    {check : Except Refusal α} (h : editing.answer draft = (draft, check))
    (next : α → Editing β) :
    answer (editing >>= next) draft
      = checked draft check fun value => (next value).answer draft := by
  have hbind : answer (editing >>= next) draft
      = match editing.run draft with
        | .ok value after => (next value).answer after
        | .error refusal after => (after, .error refusal) := by
    simp only [answer, EStateM.run, bind, EStateM.bind]
    cases editing draft <;> rfl
  rw [hbind]
  unfold answer at h
  cases hrun : editing.run draft with
  | ok value after =>
      rw [hrun] at h
      cases h
      rfl
  | error refusal after =>
      rw [hrun] at h
      cases h
      rfl

/-- Asking for a word changes nothing. -/
theorem answer_word (value : Option Value) (gap : Gap) (draft : Draft) :
    (word value gap).answer draft = (draft, wordAt value gap) := by
  rcases value with _ | _ | text | operand <;> rfl

/-- Asking for an operand changes nothing. -/
theorem answer_resolved (value : Option Value) (gap : Gap) (draft : Draft) :
    (resolved value gap).answer draft
      = (draft, operandAt draft.program.graph value gap) := by
  rcases value with _ | _ | text | operand
  · rfl
  · rfl
  · rfl
  · show answer (get >>= fun state =>
        match state.program.graph.resolve? operand with
        | some (.identifier name) => throw (.unexpanded name)
        | _ => pure operand) draft = _
    rw [answer_bind_of_unchanged rfl, operandAt]
    simp only [checked]
    cases draft.program.graph.resolve? operand with
    | none => rfl
    | some node => cases node <;> rfl

/-- Asking for a binding changes nothing. -/
theorem answer_lookUp (name : String) (draft : Draft) :
    (lookUp name).answer draft = (draft,
      match draft.program.symbols.get? name with
      | some value => .ok value
      | none => .error (.undefined name)) := by
  rw [lookUp, answer_bind_of_unchanged rfl]
  simp only [checked]
  cases draft.program.symbols.get? name <;> rfl

/-! ### Both ways agree -/

/-- The answer of a contribution that is worked out beforehand. -/
def settled (draft : Draft) (meaning : Except Refusal Contribution) :
    Draft × Except Refusal Value :=
  checked draft meaning fun contribution =>
    ({ draft with program := contribution.addTo draft.program },
      .ok contribution.value)

/-- **Checks come first.**  If an edit only checks something, and both ways go
on alike behind it, then they are alike from there on. -/
theorem answer_bind_eq_settled {editing : Editing α} {draft : Draft}
    {check : Except Refusal α} (h : editing.answer draft = (draft, check))
    {next : α → Editing Value} {rest : α → Except Refusal Contribution}
    (hnext : ∀ value, (next value).answer draft = settled draft (rest value)) :
    answer (editing >>= next) draft = settled draft (check >>= rest) := by
  rw [answer_bind_of_unchanged h]
  cases check with
  | error refusal => rfl
  | ok value => exact hnext value

/-- A production that is carried out in place comes to what it contributes. -/
theorem answer_produce (production : Production) (frame : List Value)
    (draft : Draft) :
    (produce production frame).answer draft
      = settled draft (production.meaning draft.program frame) := by
  cases production with
  | declaration =>
      refine answer_bind_eq_settled (answer_word _ _ _) fun name => ?_
      refine answer_bind_eq_settled (answer_resolved _ _ _) fun value => ?_
      rfl
  | evaluation =>
      exact answer_bind_eq_settled (answer_resolved _ _ _) fun value => rfl
  | print =>
      exact answer_bind_eq_settled (answer_resolved _ _ _) fun value => rfl
  | identifier =>
      refine answer_bind_eq_settled (answer_word _ _ _) fun name => ?_
      rw [answer_bind_of_unchanged (answer_lookUp _ _)]
      cases draft.program.symbols.get? name <;> rfl
  | name =>
      exact answer_bind_eq_settled (answer_word _ _ _) fun name => rfl
  | group => rfl
  | function =>
      refine answer_bind_eq_settled (answer_word _ _ _) fun name => ?_
      refine answer_bind_eq_settled (answer_resolved _ _ _) fun body => ?_
      -- the function is allocated when its variable is there already
      dsimp only
      rw [← Graph.size_add _ (.var name)]
      rfl
  | application =>
      refine answer_bind_eq_settled (answer_resolved _ _ _) fun applied => ?_
      refine answer_bind_eq_settled (answer_resolved _ _ _) fun applicand => ?_
      rfl
  | pass => rfl

/-- **Reducing in place comes to the same**: to the same draft, and to the same
value or refusal. -/
theorem answer_reduceInPlace (rule : Nat) (frame : List Value)
    (draft : Draft) :
    (reduceInPlace rule frame).answer draft
      = semantics.reduce draft rule frame := by
  rw [reduceInPlace, answer_produce]
  simp only [semantics]
  cases (Production.ofRule rule).meaning draft.program frame <;> rfl

end Editing

end LambdaStack.Grammar
