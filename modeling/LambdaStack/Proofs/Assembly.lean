import Mathlib.Data.List.Basic
import LambdaStack.Bytecode.Lowering

/-!
# Lowering one instruction after the other

An assembly that comes to its end has carried out every step of every
instruction, and each of them has only added to what was there: bytes at the
end, and names behind the names that had their codes already
(`Assembler.Keeps`).  A command that takes a name is written with the position
of the name (`Assembler.perform_named`), so a code that was written once means
the same name ever after.

Main statement: `lower_of_getElem?`, by which every instruction of a program
that can be lowered is lowered, with the assembler that the instructions before
it lead to; the bytes that it adds are its own (`loweredBytes`).
-/

namespace LambdaStack.Bytecode

/-! ### Codes -/

namespace Names

variable {names : Names} {name : String} {position : Nat}

/-- The position of a name is the first one at which it is listed. -/
theorem position?_eq_some_iff :
    names.position? name = some position ↔
      names.name? position = some name ∧
      ∀ earlier < position, names.name? earlier ≠ some name := by
  obtain ⟨⟨list⟩⟩ := names
  rw [position?, List.idxOf?_toArray, List.idxOf?_eq_some_iff]
  simp only [name?, List.getElem?_toArray]
  constructor
  · rintro ⟨hlt, hget, hearlier⟩
    refine ⟨List.getElem?_eq_some_iff.mpr ⟨hlt, hget⟩, ?_⟩
    intro earlier hless hfound
    obtain ⟨_, hsame⟩ := List.getElem?_eq_some_iff.mp hfound
    exact hearlier earlier hless hsame
  · rintro ⟨hfound, hearlier⟩
    obtain ⟨hlt, hget⟩ := List.getElem?_eq_some_iff.mp hfound
    refine ⟨hlt, hget, ?_⟩
    intro earlier hless hsame
    exact hearlier earlier hless (List.getElem?_eq_some_iff.mpr ⟨_, hsame⟩)

/-- A name without a position is not listed. -/
theorem name?_ne_of_position?_eq_none (h : names.position? name = none)
    (position : Nat) : names.name? position ≠ some name := by
  obtain ⟨⟨list⟩⟩ := names
  rw [position?, List.idxOf?_toArray, List.idxOf?_eq_none_iff] at h
  intro hfound
  rw [name?, List.getElem?_toArray] at hfound
  exact h (List.mem_of_getElem? hfound)

/-- Only the first name has the first position. -/
theorem position_eq_zero_iff {first : String}
    (hfirst : names.name? 0 = some first)
    (h : names.position? name = some position) :
    position = 0 ↔ name = first := by
  obtain ⟨hname, hearlier⟩ := position?_eq_some_iff.mp h
  constructor
  · rintro rfl
    rw [hfirst] at hname
    exact (Option.some.inj hname).symm
  · rintro rfl
    by_contra hpos
    exact hearlier 0 (Nat.pos_of_ne_zero hpos) hfirst

/-- The second table has every name of the first under the same code. -/
def Keeps (before after : Names) : Prop :=
  ∀ position name, before.name? position = some name →
    after.name? position = some name

/-- Names keep themselves. -/
theorem Keeps.refl (names : Names) : names.Keeps names :=
  fun _ _ hfound => hfound

/-- A new name keeps all others. -/
theorem keeps_add (names : Names) (name : String) :
    names.Keeps (names.add name) := by
  intro position found hfound
  obtain ⟨hlt, hget⟩ := Array.getElem?_eq_some_iff.mp hfound
  rw [name?, add, Array.getElem?_push_lt hlt, hget]

/-- A name that is added has the next position. -/
theorem position?_add (h : names.position? name = none) :
    (names.add name).position? name = some names.list.size := by
  rw [position?_eq_some_iff]
  refine ⟨Array.getElem?_push_size, ?_⟩
  intro earlier hless
  rw [name?, add, Array.getElem?_push_lt hless,
    ← Array.getElem?_eq_getElem hless]
  exact name?_ne_of_position?_eq_none h earlier

/-- Adding a name changes the position of no other. -/
theorem position?_add_of_eq_some (h : names.position? name = some position)
    (new : String) : (names.add new).position? name = some position := by
  rw [position?_eq_some_iff] at h ⊢
  obtain ⟨hfound, hearlier⟩ := h
  refine ⟨names.keeps_add new position name hfound, ?_⟩
  intro earlier hless hsame
  have hlt : position < names.list.size :=
    (Array.getElem?_eq_some_iff.mp hfound).1
  have hsize : earlier < names.list.size := by omega
  rw [name?, add, Array.getElem?_push_lt hsize,
    ← Array.getElem?_eq_getElem hsize] at hsame
  exact hearlier earlier hless hsame

/-- A name that is neither listed nor added is not listed afterwards. -/
theorem position?_add_of_ne {new : String} (h : names.position? name = none)
    (hne : name ≠ new) : (names.add new).position? name = none := by
  obtain ⟨⟨list⟩⟩ := names
  simp only [position?, add, List.push_toArray, List.idxOf?_toArray,
    List.idxOf?_eq_none_iff] at h ⊢
  simp [h, hne]

/-- **Interning a name** answers its position and changes no code. -/
theorem intern_cases (names : Names) (name : String) :
    (names.intern name).2.position? name = some (names.intern name).1 ∧
      names.Keeps (names.intern name).2 := by
  unfold intern
  split
  · next position hposition =>
    exact ⟨hposition, Keeps.refl names⟩
  · next hposition =>
    exact ⟨position?_add hposition, names.keeps_add name⟩

end Names

/-! ### Planning -/

/-- The number of the instruction that an error tells, if it tells one. -/
def LoweringError.place? : LoweringError → Option Nat
  | undefined index _ => some index
  | missingOperand index _ => some index
  | shape index _ _ => some index
  | tooManyNames _ => none
  | decode _ => none

/-- The step suits the instruction at `index`: it writes a command the way the
command is written, and if it gives up, its error tells this index. -/
def Step.suits (index : Nat) : Step → Bool
  | bind _ _ => true
  | bare command => !command.hasOperand
  | named command _ => command.hasOperand
  | fail error => error.place? = some index

section Plans

variable (graph : Graph) (symbols : Symbols) (index : Nat)

/-- The steps of an assignment suit it. -/
theorem suits_planAssign (value target : Operand) :
    (planAssign graph symbols index value target).all (Step.suits index) := by
  unfold planAssign
  split
  · split
    · split
      · rfl
      · simp [Step.suits, LoweringError.place?]
    · rfl
    · rfl
  · simp [Step.suits, LoweringError.place?]

/-- So do the steps of a body. -/
theorem suits_planBody (parameter : String) (body : Operand) :
    (planBody graph symbols index parameter body).all
      (Step.suits index) := by
  unfold planBody
  split
  · split
    · rfl
    · simp [Step.suits, LoweringError.place?]
  · rfl
  · rfl

/-- **The steps of a plan suit its instruction.** -/
theorem suits_plan (instruction : Instruction) :
    (plan graph symbols index instruction).all (Step.suits index) := by
  unfold plan
  split
  · exact suits_planAssign graph symbols index _ _
  · unfold planFunc
    split
    · simp [suits_planBody, Step.suits, Command.hasOperand]
    · simp [Step.suits, LoweringError.place?]
  · simp [Step.suits, LoweringError.place?]
  · simp [Step.suits, LoweringError.place?]
  all_goals rfl

end Plans

/-! ### Assembling -/

/-- Goes on unless there was an error. -/
def Assembly.andThen (assembly : Assembly) (next : Assembler → Assembly) :
    Assembly :=
  match assembly with
  | ⟨assembler, none⟩ => next assembler
  | ⟨assembler, some error⟩ => ⟨assembler, some error⟩

/-- What succeeds in the end has succeeded all along. -/
theorem Assembly.exists_of_andThen {assembly : Assembly}
    {next : Assembler → Assembly} {after : Assembler}
    (h : assembly.andThen next = ⟨after, none⟩) :
    ∃ middle, assembly = ⟨middle, none⟩ ∧ next middle = ⟨after, none⟩ := by
  obtain ⟨middle, error⟩ := assembly
  cases error with
  | none => exact ⟨middle, rfl, h⟩
  | some error => cases h

namespace Assembler

/-- No code of a name is changed from one assembler to the other. -/
def Keeps (before after : Assembler) : Prop :=
  ∀ nameClass, (before.names nameClass).Keeps (after.names nameClass)

variable {assembler middle after : Assembler}

/-- An assembler keeps what it has. -/
theorem Keeps.refl (assembler : Assembler) : assembler.Keeps assembler :=
  fun nameClass => Names.Keeps.refl (assembler.names nameClass)

/-- What is kept twice is kept. -/
theorem Keeps.trans (h : assembler.Keeps middle) (hnext : middle.Keeps after) :
    assembler.Keeps after :=
  fun nameClass position name hfound =>
    hnext nameClass position name (h nameClass position name hfound)

/-- Names that keep the old ones may be put in their place. -/
theorem keeps_setNames {nameClass : NameClass} {names : Names}
    (h : (assembler.names nameClass).Keeps names) :
    assembler.Keeps (assembler.setNames nameClass names) := by
  intro other
  cases nameClass <;> cases other
  · exact h
  · exact Names.Keeps.refl assembler.variableNames
  · exact Names.Keeps.refl assembler.identifierNames
  · exact h

theorem names_setNames (assembler : Assembler) (nameClass : NameClass)
    (names : Names) :
    (assembler.setNames nameClass names).names nameClass = names := by
  cases nameClass <;> rfl

theorem bytes_setNames (assembler : Assembler) (nameClass : NameClass)
    (names : Names) :
    (assembler.setNames nameClass names).bytes = assembler.bytes := by
  cases nameClass <;> rfl

theorem symbols_setNames (assembler : Assembler) (nameClass : NameClass)
    (names : Names) :
    (assembler.setNames nameClass names).symbols = assembler.symbols := by
  cases nameClass <;> rfl

theorem names_write (assembler : Assembler) (bytes : List UInt8)
    (nameClass : NameClass) :
    (assembler.write bytes).names nameClass = assembler.names nameClass := by
  cases nameClass <;> rfl

/-- Bytes are written at the end. -/
theorem toList_bytes_write (assembler : Assembler) (bytes : List UInt8) :
    (assembler.write bytes).bytes.toList = assembler.bytes.toList ++ bytes := by
  simp [write]

/-- A position that fits a byte is that byte. -/
theorem toNat_of_byteOf? {position : Nat} {byte : UInt8}
    (h : byteOf? position = some byte) : byte.toNat = position := by
  unfold byteOf? at h
  split at h
  · next hlt =>
    obtain rfl := Option.some.inj h
    exact Nat.mod_eq_of_lt hlt
  · cases h

/-- A code is refused only for want of room. -/
theorem error_of_code {nameClass : NameClass} {name : String}
    {error : LoweringError}
    (h : assembler.code nameClass name = (.error error, after)) :
    error = .tooManyNames nameClass := by
  simp only [code] at h
  split at h
  · cases h
  · cases h
    rfl

/-- **A command with a name** is written with the code of the name, and binds
nothing. -/
theorem perform_named {command : Command} {name : String}
    (h : assembler.perform (.named command name) = ⟨after, none⟩) :
    assembler.Keeps after ∧ after.symbols = assembler.symbols ∧
      ∃ byte, after.bytes.toList
          = assembler.bytes.toList ++ encode command (some byte) ∧
        (after.names command.nameClass).position? name = some byte.toNat := by
  obtain ⟨hposition, hkeeps⟩ :=
    (assembler.names command.nameClass).intern_cases name
  simp only [perform, code] at h
  generalize (assembler.names command.nameClass).intern name = interned at *
  obtain ⟨position, names⟩ := interned
  cases hbyte : byteOf? position with
  | none =>
      rw [hbyte] at h
      cases h
  | some byte =>
      rw [hbyte] at h
      cases h
      refine ⟨?_, symbols_setNames assembler _ names, byte, ?_, ?_⟩
      · intro nameClass
        rw [names_write]
        exact keeps_setNames hkeeps nameClass
      · rw [toList_bytes_write, bytes_setNames]
      · rw [names_write, names_setNames, toNat_of_byteOf? hbyte]
        exact hposition

/-- Every step that succeeds keeps the codes. -/
theorem keeps_perform {step : Step}
    (h : assembler.perform step = ⟨after, none⟩) : assembler.Keeps after := by
  cases step with
  | bind name value =>
      cases h
      exact Keeps.refl assembler
  | bare command =>
      cases h
      intro nameClass
      rw [names_write]
      exact Names.Keeps.refl (assembler.names nameClass)
  | named command name => exact (perform_named h).1
  | fail error => cases h

/-- Steps are carried out one after the other. -/
theorem performAll_cons {step : Step} {steps : List Step}
    (h : assembler.performAll (step :: steps) = ⟨after, none⟩) :
    ∃ middle, assembler.perform step = ⟨middle, none⟩ ∧
      middle.performAll steps = ⟨after, none⟩ := by
  unfold performAll at h
  split at h
  · next middle hstep => exact ⟨middle, hstep, h⟩
  · cases h

/-- Steps that succeed keep all that was there. -/
theorem keeps_performAll {steps : List Step}
    (h : assembler.performAll steps = ⟨after, none⟩) :
    assembler.Keeps after := by
  induction steps generalizing assembler with
  | nil =>
      cases h
      exact Keeps.refl after
  | cons step steps ih =>
      obtain ⟨middle, hstep, hsteps⟩ := performAll_cons h
      exact (keeps_perform hstep).trans (ih hsteps)

variable {graph : Graph} {instructions others : List Instruction}
  {index : Nat}

/-- Instructions are lowered one after the other. -/
theorem assembleFrom_cons {instruction : Instruction}
    (h : assembleFrom graph index (instruction :: instructions) assembler
      = ⟨after, none⟩) :
    ∃ middle, assembler.lower graph index instruction = ⟨middle, none⟩ ∧
      assembleFrom graph (index + 1) instructions middle = ⟨after, none⟩ := by
  unfold assembleFrom at h
  split at h
  · next middle hlower => exact ⟨middle, hlower, h⟩
  · cases h

/-- So do instructions. -/
theorem keeps_assembleFrom
    (h : assembleFrom graph index instructions assembler = ⟨after, none⟩) :
    assembler.Keeps after := by
  induction instructions generalizing index assembler with
  | nil =>
      cases h
      exact Keeps.refl after
  | cons instruction instructions ih =>
      obtain ⟨middle, hfirst, hrest⟩ := assembleFrom_cons h
      exact (keeps_performAll hfirst).trans (ih hrest)

/-- Instructions are lowered one part after the other. -/
theorem assembleFrom_append (graph : Graph) (index : Nat)
    (first second : List Instruction) (assembler : Assembler) :
    assembleFrom graph index (first ++ second) assembler
      = (assembleFrom graph index first assembler).andThen
        (assembleFrom graph (index + first.length) second) := by
  induction first generalizing index assembler with
  | nil => rfl
  | cons instruction first ih =>
      have hlength : index + (instruction :: first).length
          = index + 1 + first.length := by
        rw [List.length_cons]
        omega
      rw [List.cons_append, assembleFrom, assembleFrom, hlength]
      obtain ⟨after, error⟩ := assembler.lower graph index instruction
      cases error with
      | none => exact ih (index + 1) after
      | some error => rfl

/-- If all instructions are lowered, those in front are, and then the rest. -/
theorem exists_of_assembleFrom_append
    (h : assembleFrom graph index (instructions ++ others) assembler
      = ⟨after, none⟩) :
    ∃ middle, assembleFrom graph index instructions assembler
        = ⟨middle, none⟩ ∧
      assembleFrom graph (index + instructions.length) others middle
        = ⟨after, none⟩ := by
  rw [assembleFrom_append] at h
  exact Assembly.exists_of_andThen h

end Assembler

/-! ### The bytes of one instruction -/

/-- The assembler with which the instruction at `index` is lowered. -/
def assemblerBefore (program : Program) (index : Nat) : Assembler :=
  ((Assembler.initial program.symbols).assemble program.graph
    (program.code.toList.take index)).assembler

/-- The bytes to which the instruction at `index` is lowered. -/
def loweredBytes (program : Program) (index : Nat) : List UInt8 :=
  (assemblerBefore program (index + 1)).bytes.toList.drop
    (assemblerBefore program index).bytes.size

/-- An assembly that was not stopped. -/
theorem Assembly.eq_of_result {assembly : Assembly} {after : Assembler}
    (h : assembly.result = .ok after) : assembly = ⟨after, none⟩ := by
  obtain ⟨assembler, error⟩ := assembly
  cases error with
  | none =>
      cases h
      rfl
  | some error => cases h

section Program

variable {program : Program} {assembler : Assembler}
  {instruction : Instruction} {index : Nat}

/-- The assembler in front of an instruction is the one that the instructions
before it lead to, and goes on to the last one. -/
theorem assemblerBefore_eq
    (hassembly : assembleProgram program = ⟨assembler, none⟩)
    (index : Nat) :
    Assembler.assembleFrom program.graph 0 (program.code.toList.take index)
        (Assembler.initial program.symbols)
        = ⟨assemblerBefore program index, none⟩ ∧
      (assemblerBefore program index).Keeps assembler := by
  have hwhole : Assembler.assembleFrom program.graph 0
      (program.code.toList.take index ++ program.code.toList.drop index)
      (Assembler.initial program.symbols) = ⟨assembler, none⟩ := by
    rw [List.take_append_drop]
    exact hassembly
  obtain ⟨front, hfront, hrest⟩ :=
    Assembler.exists_of_assembleFrom_append hwhole
  have hsame : assemblerBefore program index = front := by
    rw [assemblerBefore, Assembler.assemble, hfront]
  rw [hsame]
  exact ⟨hfront, Assembler.keeps_assembleFrom hrest⟩

/-- Every instruction of a program that can be lowered is lowered. -/
theorem lower_of_getElem?
    (hassembly : assembleProgram program = ⟨assembler, none⟩)
    (h : program.code.toList[index]? = some instruction) :
    (assemblerBefore program index).lower program.graph index instruction
      = ⟨assemblerBefore program (index + 1), none⟩ := by
  obtain ⟨hfront, _⟩ := assemblerBefore_eq hassembly index
  obtain ⟨hnext, _⟩ := assemblerBefore_eq hassembly (index + 1)
  -- up to the next instruction, this one is the last
  rw [List.take_add_one, h, Option.toList_some] at hnext
  obtain ⟨middle, hmiddle, hlast⟩ :=
    Assembler.exists_of_assembleFrom_append hnext
  obtain rfl : middle = assemblerBefore program index := by
    rw [hfront] at hmiddle
    cases hmiddle
    rfl
  have hlt := (List.getElem?_eq_some_iff.mp h).1
  rw [Nat.zero_add, List.length_take_of_le (Nat.le_of_lt hlt)] at hlast
  obtain ⟨last, hlower, hdone⟩ := Assembler.assembleFrom_cons hlast
  cases hdone
  exact hlower

/-- The reserved name has the first code. -/
theorem name?_zero_assemblerBefore
    (hassembly : assembleProgram program = ⟨assembler, none⟩)
    (index : Nat) :
    (assemblerBefore program index).variableNames.name? 0
      = some substitute := by
  obtain ⟨hfront, _⟩ := assemblerBefore_eq hassembly index
  exact Assembler.keeps_assembleFrom hfront .bound 0 substitute rfl

/-- What an instruction adds to the bytes is what it is lowered to. -/
theorem loweredBytes_of_append {bytes : List UInt8}
    (h : (assemblerBefore program (index + 1)).bytes.toList
      = (assemblerBefore program index).bytes.toList ++ bytes) :
    loweredBytes program index = bytes := by
  rw [loweredBytes, h, ← Array.length_toList, List.drop_left]

end Program

end LambdaStack.Bytecode
