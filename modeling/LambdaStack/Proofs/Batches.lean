import Mathlib.Data.List.Induction
import LambdaStack.Proofs.Assembly

/-!
# One batch or two

Instructions may be lowered all at once or in batches.  A batch numbers its
instructions from zero, and an error tells the number of the instruction that
raised it; apart from this number nothing depends on where a batch begins:

    lowered at once           a, then b
    assembler                 the same assembler
    error raised in a         the same error
    error raised by b's       the error raised by instruction i of the batch b,
    instruction i             moved by the length of a

A plan at a later index is the same plan with its errors moved (`plan_moved`).
Carrying out the steps never looks at an index, so this goes through to a
whole batch (`assembleFrom_moved`).

Main statement: `lowering_in_two_batches`.
-/

namespace LambdaStack.Bytecode

/-! ### The place of an error -/

namespace LoweringError

/-- The same error, so many instructions further on. -/
def moved (places : Nat) : LoweringError → LoweringError
  | undefined index name => undefined (places + index) name
  | missingOperand index operation => missingOperand (places + index) operation
  | shape index expected found => shape (places + index) expected found
  | tooManyNames nameClass => tooManyNames nameClass
  | decode error => decode error

/-- An error that is moved is about an instruction further on. -/
theorem place?_moved (places : Nat) (error : LoweringError) :
    (error.moved places).place? = error.place?.map (places + ·) := by
  cases error <;> rfl

end LoweringError

/-- The same step, with its error moved. -/
def Step.moved (places : Nat) : Step → Step
  | fail error => fail (error.moved places)
  | step => step

/-- The same assembly, with its error moved. -/
def Assembly.moved (places : Nat) (assembly : Assembly) : Assembly :=
  ⟨assembly.assembler, assembly.error?.map (LoweringError.moved places)⟩

section Plans

variable (graph : Graph) (symbols : Symbols) (places index : Nat)

/-- An assignment further on has the same plan, its errors moved. -/
theorem planAssign_moved (value target : Operand) :
    planAssign graph symbols (places + index) value target
      = (planAssign graph symbols index value target).map
        (Step.moved places) := by
  unfold planAssign
  split
  · split
    · split <;> rfl
    · rfl
    · rfl
  · rfl

/-- So has a body. -/
theorem planBody_moved (parameter : String) (body : Operand) :
    planBody graph symbols (places + index) parameter body
      = (planBody graph symbols index parameter body).map
        (Step.moved places) := by
  unfold planBody
  split
  · split <;> rfl
  · rfl
  · rfl

/-- So has a function. -/
theorem planFunc_moved (bound body : Operand) :
    planFunc graph symbols (places + index) bound body
      = (planFunc graph symbols index bound body).map (Step.moved places) := by
  unfold planFunc
  split
  · rw [planBody_moved, List.cons_append, List.cons_append, List.map_cons,
      List.map_append]
    rfl
  · rfl

/-- **A plan depends on the index by its errors only.** -/
theorem plan_moved (instruction : Instruction) :
    plan graph symbols (places + index) instruction
      = (plan graph symbols index instruction).map (Step.moved places) := by
  obtain ⟨operation, first, second⟩ := instruction
  cases operation with
  | assign =>
      cases second with
      | none => rfl
      | some target =>
          exact planAssign_moved graph symbols places index first target
  | func =>
      cases second with
      | none => rfl
      | some body =>
          exact planFunc_moved graph symbols places index first body
  | apply => rfl
  | eval => rfl
  | print => rfl

end Plans

/-! ### Moving a batch -/

namespace Assembler

variable (places index : Nat) (graph : Graph) (assembler : Assembler)

/-- A step further on does the same, and its error is moved. -/
theorem perform_moved (step : Step) :
    assembler.perform (step.moved places)
      = (assembler.perform step).moved places := by
  cases step with
  | bind name value => rfl
  | bare command => rfl
  | named command name =>
      simp only [Step.moved, perform]
      rcases hcode : assembler.code command.nameClass name with
        ⟨error | byte, interned⟩
      · rw [error_of_code hcode]
        rfl
      · rfl
  | fail error => rfl

/-- So do steps one after the other. -/
theorem performAll_moved (steps : List Step) :
    assembler.performAll (steps.map (Step.moved places))
      = (assembler.performAll steps).moved places := by
  induction steps generalizing assembler with
  | nil => rfl
  | cons step steps ih =>
      rw [List.map_cons, performAll, performAll, perform_moved]
      obtain ⟨after, error⟩ := assembler.perform step
      cases error with
      | none => exact ih after
      | some error => rfl

/-- An instruction further on is lowered to the same. -/
theorem lower_moved (instruction : Instruction) :
    assembler.lower graph (places + index) instruction
      = (assembler.lower graph index instruction).moved places := by
  rw [lower, plan_moved, performAll_moved, lower]

/-- **A batch does the same wherever its numbers begin**, and its error tells
the number from there. -/
theorem assembleFrom_moved (instructions : List Instruction) :
    assembleFrom graph (places + index) instructions assembler
      = (assembleFrom graph index instructions assembler).moved places := by
  induction instructions generalizing index assembler with
  | nil => rfl
  | cons instruction instructions ih =>
      rw [assembleFrom, assembleFrom, lower_moved]
      obtain ⟨after, error⟩ := assembler.lower graph index instruction
      cases error with
      | none => exact ih (index + 1) after
      | some error => rfl

/-- One instruction is lowered by itself. -/
theorem assembleFrom_singleton (instruction : Instruction) :
    assembleFrom graph index [instruction] assembler
      = assembler.lower graph index instruction := by
  rw [assembleFrom]
  obtain ⟨after, error⟩ := assembler.lower graph index instruction
  cases error <;> rfl

/-- **A batch is its first part and then the rest**, with the errors of the
rest moved. -/
theorem assemble_append (first second : List Instruction) :
    assembler.assemble graph (first ++ second)
      = (assembler.assemble graph first).andThen fun middle =>
        (middle.assemble graph second).moved first.length := by
  rw [assemble, assembleFrom_append]
  congr 1
  funext middle
  rw [assemble, Nat.zero_add]
  exact middle.assembleFrom_moved first.length 0 graph second

end Assembler

/-! ### The instruction that raises an error -/

namespace Assembler

variable {graph : Graph} {assembler front after : Assembler} {index : Nat}
  {error : LoweringError} {first second : List Instruction}

/-- Steps that are stopped are stopped by an error that tells the number of
the instruction, or by one that tells none. -/
theorem place_of_performAll {steps : List Step}
    (hsuits : steps.all (Step.suits index))
    (h : assembler.performAll steps = ⟨after, some error⟩) :
    ∀ place ∈ error.place?, place = index := by
  induction steps generalizing assembler with
  | nil => cases h
  | cons step steps ih =>
      rw [List.all_cons, Bool.and_eq_true] at hsuits
      rw [performAll] at h
      cases step with
      | bind name value => exact ih hsuits.2 h
      | bare command => exact ih hsuits.2 h
      | named command name =>
          simp only [perform] at h
          rcases hcode : assembler.code command.nameClass name with
            ⟨reason | byte, interned⟩
          · rw [hcode] at h
            cases h
            rw [error_of_code hcode]
            intro place hplace
            cases hplace
          · rw [hcode] at h
            exact ih hsuits.2 h
      | fail reason =>
          cases h
          have hplace : error.place? = some index := by
            simpa [Step.suits] using hsuits.1
          intro place hsome
          rw [hplace] at hsome
          exact (Option.some.inj hsome).symm

/-- The instructions in front of the one at `index` are lowered, and that one
raises the error.  If the error tells a number, it is `index`. -/
structure StopsAt (assembler : Assembler) (graph : Graph)
    (instructions : List Instruction) (index : Nat) (error : LoweringError)
    (after : Assembler) : Prop where
  raised : ∃ middle instruction,
    assembler.assemble graph (instructions.take index) = ⟨middle, none⟩ ∧
    instructions[index]? = some instruction ∧
    middle.lower graph index instruction = ⟨after, some error⟩
  place : ∀ place ∈ error.place?, place = index

/-- What follows a batch that was stopped is not looked at. -/
theorem StopsAt.append_right
    (h : assembler.StopsAt graph first index error after)
    (second : List Instruction) :
    assembler.StopsAt graph (first ++ second) index error after := by
  obtain ⟨⟨middle, instruction, hfront, hfound, hraised⟩, hplace⟩ := h
  have hlt := (List.getElem?_eq_some_iff.mp hfound).1
  refine ⟨⟨middle, instruction, ?_, ?_, hraised⟩, hplace⟩
  · rw [List.take_append_of_le_length (Nat.le_of_lt hlt)]
    exact hfront
  · rw [List.getElem?_append_left hlt]
    exact hfound

/-- Behind a batch that was lowered, the next one is stopped by the same
instruction. -/
theorem StopsAt.append_left
    (h : front.StopsAt graph second index error after)
    (hfirst : assembler.assemble graph first = ⟨front, none⟩) :
    assembler.StopsAt graph (first ++ second) (first.length + index)
      (error.moved first.length) after := by
  obtain ⟨⟨middle, instruction, hfront, hfound, hraised⟩, hplace⟩ := h
  refine ⟨⟨middle, instruction, ?_, ?_, ?_⟩, ?_⟩
  · rw [List.take_length_add_append, assemble_append, hfirst]
    show (front.assemble graph (second.take index)).moved first.length = _
    rw [hfront]
    rfl
  · rw [List.getElem?_append_right (Nat.le_add_right _ _),
      Nat.add_sub_cancel_left]
    exact hfound
  · rw [lower_moved, hraised]
    rfl
  · intro place hsome
    rw [LoweringError.place?_moved, Option.mem_def,
      Option.map_eq_some_iff] at hsome
    obtain ⟨told, htold, rfl⟩ := hsome
    rw [hplace told htold]

/-- **A batch that fails was stopped by one of its instructions**, by induction
on the instructions from the last one back. -/
theorem exists_stopsAt {instructions : List Instruction}
    (h : assembler.assemble graph instructions = ⟨after, some error⟩) :
    ∃ index, assembler.StopsAt graph instructions index error after := by
  induction instructions using List.reverseRecOn with
  | nil => cases h
  | append_singleton instructions last ih =>
      rw [assemble, assembleFrom_append, ← assemble, Nat.zero_add] at h
      rcases hfront : assembler.assemble graph instructions with
        ⟨middle, reason⟩
      cases reason with
      | some reason =>
          rw [hfront] at h
          cases h
          obtain ⟨index, hstop⟩ := ih hfront
          exact ⟨index, hstop.append_right [last]⟩
      | none =>
          have hraised : middle.lower graph instructions.length last
              = ⟨after, some error⟩ := by
            rw [hfront] at h
            rw [← assembleFrom_singleton]
            exact h
          refine ⟨instructions.length, ⟨middle, last, ?_, ?_, hraised⟩, ?_⟩
          · rw [List.take_left]
            exact hfront
          · rw [List.getElem?_append_right (Nat.le_refl _), Nat.sub_self]
            rfl
          · exact place_of_performAll
              (suits_plan graph middle.symbols instructions.length last)
              hraised

end Assembler

/-- **Instructions can be lowered in two batches.**  A first batch that fails
is all that is done of the joint batch: the same assembler is left, and the
same instruction has raised the same error.  After a first batch that succeeds,
the second one leaves the assembler that the joint batch leaves; it succeeds if
the joint batch does, and if its instruction at some index raises an error, the
joint batch is stopped by the same instruction, with the same error moved by
the length of the first batch. -/
theorem lowering_in_two_batches (graph : Graph) (assembler : Assembler)
    (first second : List Instruction) :
    let front := assembler.assemble graph first
    let back := front.assembler.assemble graph second
    let joint := assembler.assemble graph (first ++ second)
    match front.error?, back.error? with
    | some error, _ =>
      joint = front ∧
      ∃ index,
        assembler.StopsAt graph first index error front.assembler ∧
        assembler.StopsAt graph (first ++ second) index error front.assembler
    | none, none => joint = back
    | none, some error =>
      joint = ⟨back.assembler, some (error.moved first.length)⟩ ∧
      ∃ index,
        front.assembler.StopsAt graph second index error back.assembler ∧
        assembler.StopsAt graph (first ++ second) (first.length + index)
          (error.moved first.length) back.assembler := by
  intro front back joint
  have hjoint : joint = front.andThen fun middle =>
      (middle.assemble graph second).moved first.length :=
    assembler.assemble_append graph first second
  rcases hfront : front with ⟨middle, reason⟩
  rw [hfront] at hjoint
  cases reason with
  | some error =>
      obtain ⟨index, hstop⟩ := Assembler.exists_stopsAt hfront
      exact ⟨hjoint, index, hstop, hstop.append_right second⟩
  | none =>
      have hback : back = middle.assemble graph second := by
        simp only [back, hfront]
      rw [Assembly.andThen, ← hback] at hjoint
      rcases hsecond : back with ⟨after, reason⟩
      rw [hsecond] at hjoint hback
      cases reason with
      | none => exact hjoint
      | some error =>
          obtain ⟨index, hstop⟩ := Assembler.exists_stopsAt hback.symm
          exact ⟨hjoint, index, hstop, hstop.append_left hfront⟩

/-- A batch whose second instruction loads an identifier without meaning. -/
example :
    let graph : Graph := ⟨#[.var "x", .identifier "F", .identifier "G"]⟩
    let first := [Instruction.assign (.node 0) (.node 1)]
    let second := [Instruction.eval (.node 0), .assign (.node 2) (.node 1)]
    let front := (Assembler.initial {}).assemble graph first
    (front.assembler.assemble graph second).error?
        = some (.undefined 1 "G") ∧
      ((Assembler.initial {}).assemble graph (first ++ second)).error?
        = some (.undefined 2 "G") := by
  decide +kernel

end LambdaStack.Bytecode
