import LambdaStack.Proofs.Capacity
import LambdaStack.Proofs.Unfolding

/-!
# What was said of a program stays said

Reading on adds to a program, and leaves alone what is there.  So whatever was
said of the program before is said of it again, and more is said behind it:

    instructions    an operand is written from the nodes it is made of, and
                    these have smaller numbers: later nodes do not matter,
                    nor does it matter how deep the writing may go
    commands        a line is said from the nodes of its instruction, and its
                    code is the rank of its name: later names rank behind

Redeclaring a name changes neither, since no line depends on what is bound.

Main statements: `Program.Grows.lines_prefix` and `listing_prefix`.
-/

namespace LambdaStack

namespace Program

/-- Adding nothing is growth. -/
theorem Grows.refl (program : Program) : Grows program program :=
  ⟨Nat.le_refl _, fun _ _ => rfl, fun _ _ => rfl⟩

namespace Grows

variable {before after : Program}

/-- The instructions go on where they stopped. -/
theorem code_prefix (h : Grows before after) :
    before.code.toList <+: after.code.toList := by
  rw [List.prefix_iff_getElem?]
  intro index hindex
  rw [Array.length_toList] at hindex
  rw [Array.getElem?_toList, h.code index hindex, Array.getElem_toList,
    Array.getElem?_eq_getElem hindex]

/-! ### Instructions -/

/-- **An operand is written as before**, however deep the writing may go, if
that is deep enough for the number of the operand. -/
theorem spell (h : Grows before after) (hbefore : before.WellFormed)
    {operand : Operand} (hhas : before.Has operand) {depth other : Nat}
    (hdepth : ∀ index, operand = .node index → index < depth ∧ index < other) :
    after.graph.spell other operand = before.graph.spell depth operand := by
  induction depth generalizing operand other with
  | zero =>
      cases operand with
      | node index => exact absurd (hdepth index rfl).1 (Nat.not_lt_zero _)
      | result instruction => simp [Graph.spell]
  | succ depth ih =>
      cases operand with
      | result instruction => simp [Graph.spell]
      | node index =>
          obtain ⟨hlt, hother⟩ := hdepth index rfl
          obtain ⟨other, rfl⟩ : ∃ lower, other = lower + 1 :=
            ⟨other - 1, by omega⟩
          have hpart : ∀ part, before.UsesBelow index part →
              after.graph.spell other part
                = before.graph.spell depth part := by
            intro part hpart
            apply ih hpart.1.1
            rintro number rfl
            have hbelow : number < index := hpart.2
            omega
          simp only [Graph.spell, h.node? index hhas]
          cases hnode : before.graph.node? index with
          | none => rfl
          | some node =>
              have hfits := hbefore.nodes index hhas node hnode
              cases node with
              | var name => rfl
              | identifier name => rfl
              | lam bound body =>
                  obtain ⟨hbound, _, hbody⟩ := hfits
                  have hhasBound : before.Has (.node bound) :=
                    Nat.lt_trans hbound hhas
                  have hparameter : after.graph.spell other (.node bound)
                      = before.graph.spell depth (.node bound) := by
                    apply ih hhasBound
                    rintro number heq
                    obtain rfl := Operand.node.inj heq
                    omega
                  dsimp only
                  rw [hparameter, hpart body hbody]
              | app applied applicand =>
                  dsimp only
                  rw [hpart applied hfits.1, hpart applicand hfits.2]

/-- What is there is written in the same way. -/
theorem render (h : Grows before after) (hbefore : before.WellFormed)
    {operand : Operand} (hhas : before.Has operand) :
    after.graph.render operand = before.graph.render operand := by
  rw [← String.toList_inj, Graph.toList_render, Graph.toList_render,
    h.spell hbefore hhas]
  rintro index rfl
  have hindex : index < before.graph.size := hhas
  have hsize := h.size_le
  omega

/-- An instruction all whose operands are there is written as before. -/
theorem render_instruction (h : Grows before after)
    (hbefore : before.WellFormed) {instruction : Instruction}
    (hhas : ∀ operand ∈ instruction.operands, before.Has operand) :
    instruction.render after.graph = instruction.render before.graph := by
  obtain ⟨operation, first, second⟩ := instruction
  have hfirst := h.render hbefore (hhas first List.mem_cons_self)
  cases second with
  | none => simp only [Instruction.render, hfirst]
  | some second =>
      have hsecond := h.render hbefore (hhas second
        (List.mem_cons_of_mem _ List.mem_cons_self))
      simp only [Instruction.render, hfirst, hsecond]

end Grows

/-- Lines are numbered on. -/
theorem instructionLines_append (graph : Graph) (index : Nat)
    (instructions more : List Instruction) :
    instructionLines graph index (instructions ++ more)
      = instructionLines graph index instructions
        ++ instructionLines graph (index + instructions.length) more := by
  induction instructions generalizing index with
  | nil => rfl
  | cons instruction instructions ih =>
      simp only [List.cons_append, instructionLines, ih, List.length_cons,
        Nat.add_assoc, Nat.add_comm 1]

/-- Lines depend on nothing but how the instructions are written. -/
theorem instructionLines_congr {graph later : Graph} {index : Nat}
    {instructions : List Instruction}
    (h : ∀ instruction ∈ instructions,
      instruction.render later = instruction.render graph) :
    instructionLines later index instructions
      = instructionLines graph index instructions := by
  induction instructions generalizing index with
  | nil => rfl
  | cons instruction instructions ih =>
      rw [instructionLines, instructionLines, h instruction List.mem_cons_self,
        ih fun other hother => h other (List.mem_cons_of_mem _ hother)]

/-- **The instructions that were written stay as they are.** -/
theorem Grows.lines_prefix {before after : Program} (h : Grows before after)
    (hbefore : before.WellFormed) : before.lines <+: after.lines := by
  obtain ⟨more, hmore⟩ := h.code_prefix
  have hsame : instructionLines after.graph 0 before.code.toList
      = before.lines := by
    apply instructionLines_congr
    intro instruction hmem
    exact h.render_instruction hbefore (hbefore.has_of_mem hmem).2
  rw [lines, lines, ← hmore, instructionLines_append, hsame]
  exact List.prefix_append _ _

end Program

/-! ### Commands -/

namespace Bytecode

/-- A line of a listing, given the names that were asked for. -/
def Line.text (asked : NameClass → List String) (line : Line) : String :=
  (Item.mk 0 line.command (line.code? asked)).describe ++ line.comment

/-- **A listing is made of lines.** -/
theorem Assembler.Follows.listing_eq {assembler : Assembler} {script : Script}
    (h : assembler.Follows script) :
    assembler.listing
      = .ok (script.lines.map (Line.text script.asked)) := by
  obtain ⟨items, hdecode, hlines, hitems⟩ := h.exists_items
  have hdescribe : items.map assembler.describeItem
      = (items.map assembler.lineOf).map (Line.text script.asked) := by
    rw [List.map_map]
    apply List.map_congr_left
    intro item hitem
    obtain ⟨line, hline, hcommand, hoperand⟩ := hitems item hitem
    have hof := h.lineOf_eq hline (Prod.ext hcommand hoperand)
    rw [assembler.describeItem_eq, Function.comp_apply, hof, Line.text]
    simp only [Item.describe, hcommand, hoperand]
  simp only [Assembler.listing, hdecode, hdescribe, hlines]

/-- The names that a program asks for, the reserved one included. -/
def askedBy (program : Program) (nameClass : NameClass) : List String :=
  (Script.initial program.symbols).asked nameClass
    ++ namesIn nameClass (programLines program)

/-- The listing of a well-formed program, if it can be lowered. -/
theorem listing_of_wellFormed {program : Program} (h : program.WellFormed)
    {assembler : Assembler}
    (hresult : (assembleProgram program).result = .ok assembler) :
    (∀ line ∈ programLines program, line.Sayable (askedBy program)) ∧
      assembler.listing
        = .ok ((programLines program).map (Line.text (askedBy program))) := by
  rcases assembleProgram_cases h with
    ⟨script, hdone, hfollows, hlines, hasked⟩ | ⟨nameClass, herror, _⟩
  · rw [Assembly.result, hdone] at hresult
    obtain rfl := Except.ok.inj hresult
    have hsame : script.asked = askedBy program :=
      funext fun nameClass => (hasked nameClass).1
    rw [← hsame, ← hlines]
    exact ⟨hfollows.sayable, hfollows.listing_eq⟩
  · rw [Assembly.result, herror] at hresult
    cases hresult

/-- An instruction all whose operands are there says what it said before. -/
theorem utterance_of_grows {before after : Program}
    (h : before.Grows after) {instruction : Instruction}
    (hhas : ∀ operand ∈ instruction.operands, before.Has operand) :
    utterance after.graph instruction = utterance before.graph instruction := by
  have hbinding := h.binding? hhas
  obtain ⟨operation, first, second⟩ := instruction
  have hfirst := h.varName? (hhas first List.mem_cons_self)
  cases second with
  | none => cases operation <;> rfl
  | some second =>
      have hsecond := h.varName? (hhas second
        (List.mem_cons_of_mem _ List.mem_cons_self))
      cases operation <;>
        simp only [utterance, hbinding, hfirst, hsecond]

/-- The lines of a listing stay when a program grows. -/
theorem programLines_prefix {before after : Program} (h : before.Grows after)
    (hbefore : before.WellFormed) :
    programLines before <+: programLines after := by
  obtain ⟨more, hmore⟩ := h.code_prefix
  have hsame : before.code.toList.flatMap (utterance after.graph)
      = programLines before := by
    apply List.flatMap_congr
    intro instruction hmem
    exact utterance_of_grows h (hbefore.has_of_mem hmem).2
  rw [programLines, programLines, ← hmore, List.flatMap_append, hsame]
  exact List.prefix_append _ _

/-- **The commands that were listed stay as they are.** -/
theorem listing_prefix {before after : Program} (h : before.Grows after)
    (hbefore : before.WellFormed) (hafter : after.WellFormed)
    {assembler later : Assembler}
    (hfirst : (assembleProgram before).result = .ok assembler)
    (hsecond : (assembleProgram after).result = .ok later) :
    ∃ commands more, assembler.listing = .ok commands ∧
      later.listing = .ok more ∧ commands <+: more := by
  obtain ⟨hsayable, hlisting⟩ := listing_of_wellFormed hbefore hfirst
  obtain ⟨_, hlater⟩ := listing_of_wellFormed hafter hsecond
  obtain ⟨more, hmore⟩ := programLines_prefix h hbefore
  have hasked : askedBy after = fun nameClass =>
      askedBy before nameClass ++ namesIn nameClass more := by
    funext nameClass
    rw [askedBy, askedBy, ← hmore, namesIn_append, ← List.append_assoc]
    rfl
  have hsame : (programLines before).map (Line.text (askedBy after))
      = (programLines before).map (Line.text (askedBy before)) := by
    apply List.map_congr_left
    intro line hline
    rw [Line.text, Line.text, hasked, Line.code?_append (hsayable line hline)]
  refine ⟨_, _, hlisting, hlater, ?_⟩
  rw [← hmore, List.map_append, hsame]
  exact List.prefix_append _ _

end Bytecode

namespace Grammar

open Automaton

/-- Reading only adds. -/
theorem semantics_keeps_growing (start : Program) :
    semantics.Keeps (fun draft => start.Grows draft.program)
      (fun _ _ => True) where
  blank _ := trivial
  token draft token h := ⟨h, trivial, fun _ _ => trivial⟩
  reduce draft rule frame h _ := by
    refine ⟨?_, fun _ _ => trivial, fun _ _ => trivial⟩
    simp only [semantics]
    split
    · next contribution _ =>
      exact h.trans (contribution.grows draft.program)
    · exact h
  complain _ _ h := ⟨h, fun _ _ => trivial⟩

/-- A run only adds to a program. -/
theorem ReadsOn.grows {before after : Program} (h : ReadsOn before after) :
    before.Grows after := by
  obtain ⟨complaints, tape, taken, fuel, rfl⟩ := h
  have hkept := Kept.initial (semantics_keeps_growing before)
    ⟨before, complaints⟩ (Program.Grows.refl before) taken
  exact (hkept.run (semantics_keeps_growing before) tables tape fuel).memory

/-- So does reading a text. -/
theorem grows_readText (text : String) (program : Program) :
    program.Grows (readText text program).reading.program := by
  unfold readText
  exact (readsOn_attempt (.resume (Source.ofText text) program)).grows

end Grammar

end LambdaStack
