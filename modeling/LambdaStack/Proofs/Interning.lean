import LambdaStack.Proofs.Script

/-!
# Tables in the order of first request

Names are interned in two tables, one for identifiers and one for variables.
Whoever asks for the code of a name asks one of them: a caller who wants
nothing else, or a batch that lowers an instruction with a name in it.  Every
such **inquiry** is written down here with its answer, also those of batches
and instructions that fail:

    inquiry              table of identifiers    answer
    F                    F                       0
    G                    F G                     1
    F                    F G                     0
    the 257th new name   F G ...                 too many names
    the same name        F G ...                 too many names
    G                    F G ...                 1

Whatever an assembler does, all that happens to its tables is a sequence of
inquiries (`Asks`); the invariants of the tables are proved over the three
constructors of that relation.

Main statement: `tables_list_first_requests`.
-/

namespace LambdaStack.Bytecode

/-! ### Inquiries -/

/-- A name whose code is asked for, the table that is asked, and the answer. -/
structure Inquiry where
  nameClass : NameClass
  name : String
  answer : Except LoweringError UInt8

/-- The names that one table is asked for, in the order of asking. -/
def namesAsked (nameClass : NameClass) (inquiries : List Inquiry) :
    List String :=
  (inquiries.filter (·.nameClass = nameClass)).map Inquiry.name

/-- The names that a table lists before it is asked for any. -/
def NameClass.reserved : NameClass → List String
  | identifier => []
  | bound => [substitute]

namespace Assembler

/-- The inquiry for a name, answered by this assembler. -/
def inquire (assembler : Assembler) (nameClass : NameClass) (name : String) :
    Inquiry :=
  ⟨nameClass, name, (assembler.code nameClass name).1⟩

/-- The inquiry that is made for a step. -/
def inquiry? (assembler : Assembler) : Step → Option Inquiry
  | .named command name => some (assembler.inquire command.nameClass name)
  | .bind _ _ | .bare _ | .fail _ => none

/-- The inquiries that are made for steps, up to the first error. -/
def stepInquiries (assembler : Assembler) : List Step → List Inquiry
  | [] => []
  | step :: steps =>
    (assembler.inquiry? step).toList ++
      match assembler.perform step with
      | ⟨after, none⟩ => stepInquiries after steps
      | ⟨_, some _⟩ => []

/-- The inquiries that are made for instructions, up to the first error. -/
def batchInquiries (graph : Graph) :
    Nat → List Instruction → Assembler → List Inquiry
  | _, [], _ => []
  | index, instruction :: instructions, assembler =>
    assembler.stepInquiries (plan graph assembler.symbols index instruction) ++
      match assembler.lower graph index instruction with
      | ⟨after, none⟩ => batchInquiries graph (index + 1) instructions after
      | ⟨_, some _⟩ => []

/-- The inquiries that are made for a request. -/
def requestInquiries (assembler : Assembler) : Request → List Inquiry
  | .batch graph instructions => batchInquiries graph 0 instructions assembler
  | .code nameClass name => [assembler.inquire nameClass name]

/-- The inquiries that are made for requests. -/
def inquiries (assembler : Assembler) : List Request → List Inquiry
  | [] => []
  | request :: requests =>
    assembler.requestInquiries request
      ++ (assembler.answer request).inquiries requests

/-- From one assembler to the other, the tables were asked exactly this. -/
inductive Asks : Assembler → List Inquiry → Assembler → Prop
  | still {before after : Assembler}
      (hsame : ∀ nameClass, after.names nameClass = before.names nameClass) :
      Asks before [] after
  | ask {before after : Assembler} {nameClass : NameClass} {name : String}
      (hsame : ∀ other,
        after.names other = (before.code nameClass name).2.names other) :
      Asks before [before.inquire nameClass name] after
  | trans {before middle after : Assembler} {first second : List Inquiry}
      (hfirst : Asks before first middle) (hsecond : Asks middle second after) :
      Asks before (first ++ second) after

section Asking

variable (assembler : Assembler)

/-- A step asks for at most one name. -/
theorem asks_perform (step : Step) :
    Asks assembler (assembler.inquiry? step).toList
      (assembler.perform step).assembler := by
  cases step with
  | bind name value => exact .still fun nameClass => by cases nameClass <;> rfl
  | bare command => exact .still (assembler.names_write _)
  | named command name =>
      simp only [perform]
      apply Asks.ask
      rcases hcode : assembler.code command.nameClass name with
        ⟨error | byte, interned⟩
      · exact fun other => rfl
      · exact interned.names_write _
  | fail error => exact .still fun nameClass => rfl

theorem asks_performAll (steps : List Step) :
    Asks assembler (assembler.stepInquiries steps)
      (assembler.performAll steps).assembler := by
  induction steps generalizing assembler with
  | nil => exact .still fun nameClass => rfl
  | cons step steps ih =>
      have hfirst := assembler.asks_perform step
      rw [stepInquiries, performAll]
      rcases hstep : assembler.perform step with ⟨after, error⟩
      rw [hstep] at hfirst
      cases error with
      | none => exact hfirst.trans (ih after)
      | some error => exact hfirst.trans (.still fun nameClass => rfl)

theorem asks_assembleFrom (graph : Graph) (index : Nat)
    (instructions : List Instruction) :
    Asks assembler (batchInquiries graph index instructions assembler)
      (assembleFrom graph index instructions assembler).assembler := by
  induction instructions generalizing index assembler with
  | nil => exact .still fun nameClass => rfl
  | cons instruction instructions ih =>
      have hfirst := assembler.asks_performAll
        (plan graph assembler.symbols index instruction)
      rw [← lower] at hfirst
      rw [batchInquiries, assembleFrom]
      rcases hlower : assembler.lower graph index instruction with
        ⟨after, error⟩
      rw [hlower] at hfirst
      cases error with
      | none => exact hfirst.trans (ih after (index + 1))
      | some error => exact hfirst.trans (.still fun nameClass => rfl)

/-- **Requests do nothing to the tables but ask them.** -/
theorem asks_answerAll (requests : List Request) :
    Asks assembler (assembler.inquiries requests)
      (requests.foldl answer assembler) := by
  induction requests generalizing assembler with
  | nil => exact .still fun nameClass => rfl
  | cons request requests ih =>
      have hfirst : Asks assembler (assembler.requestInquiries request)
          (assembler.answer request) := by
        cases request with
        | batch graph instructions =>
            exact assembler.asks_assembleFrom graph 0 instructions
        | code nameClass name => exact .ask fun other => rfl
      exact hfirst.trans (ih (assembler.answer request))

end Asking

end Assembler

/-! ### What asking does to a table -/

namespace Names

/-- The names in the order of their positions. -/
def toList (names : Names) : List String :=
  names.list.toList

/-- A name that is listed stays where it is, and any other one is put at the
end. -/
theorem toList_intern (names : Names) (name : String) :
    (names.intern name).2.toList
      = if name ∈ names.toList then names.toList
        else names.toList ++ [name] := by
  obtain ⟨⟨list⟩⟩ := names
  simp only [intern, position?, List.idxOf?_toArray, toList]
  cases hfound : list.idxOf? name with
  | none => simp [List.idxOf?_eq_none_iff.mp hfound, add]
  | some position =>
      have hmem : name ∈ list := by
        by_contra hnot
        rw [List.idxOf?_eq_none_iff.mpr hnot] at hfound
        cases hfound
      simp [hmem]

end Names

/-- The names of a list, each where it stands first, if one more is put behind
them. -/
theorem eraseDups_concat (names : List String) (name : String) :
    (names ++ [name]).eraseDups
      = if name ∈ names then names.eraseDups
        else names.eraseDups ++ [name] := by
  rw [List.eraseDups_append]
  by_cases hmem : name ∈ names
  · simp [List.removeAll, hmem]
  · simp [List.removeAll, hmem, List.eraseDups_cons]

namespace Assembler

variable {before after : Assembler} {asked : List Inquiry}

theorem names_code (assembler : Assembler) (nameClass : NameClass)
    (name : String) :
    (assembler.code nameClass name).2.names nameClass
      = ((assembler.names nameClass).intern name).2 :=
  assembler.names_setNames nameClass _

/-- **One table is asked without the other noticing.** -/
theorem names_code_of_ne (assembler : Assembler) {nameClass other : NameClass}
    (hother : other ≠ nameClass) (name : String) :
    (assembler.code nameClass name).2.names other
      = assembler.names other := by
  cases nameClass <;> cases other
  · exact absurd rfl hother
  · rfl
  · rfl
  · exact absurd rfl hother

/-- The name has a position in its table, and the answer is that position if it
is a byte. -/
def Answers (assembler : Assembler) (inquiry : Inquiry) : Prop :=
  ∃ position,
    (assembler.names inquiry.nameClass).name? position = some inquiry.name ∧
    inquiry.answer
      = if position ≤ 255 then .ok (UInt8.ofNat position)
        else .error (.tooManyNames inquiry.nameClass)

namespace Asks

/-- **No position changes.** -/
theorem keeps (h : Asks before asked after) : before.Keeps after := by
  induction h with
  | still hsame =>
      intro nameClass
      rw [hsame nameClass]
      exact Names.Keeps.refl _
  | @ask before after nameClass name hsame =>
      intro other
      rw [hsame other]
      exact keeps_setNames
        ((before.names nameClass).intern_cases name).2 other
  | trans _ _ hfirst hsecond => exact hfirst.trans hsecond

theorem nodup (h : Asks before asked after) {nameClass : NameClass}
    (hbefore : (before.names nameClass).toList.Nodup) :
    (after.names nameClass).toList.Nodup := by
  induction h with
  | still hsame =>
      rw [hsame nameClass]
      exact hbefore
  | @ask before after asked name hsame =>
      rw [hsame nameClass]
      by_cases hclass : nameClass = asked
      · subst hclass
        rw [names_code, Names.toList_intern]
        split
        · exact hbefore
        · next hnew =>
          rw [← List.concat_eq_append]
          exact hbefore.concat hnew
      · rw [before.names_code_of_ne hclass]
        exact hbefore
  | trans _ _ hfirst hsecond => exact hsecond (hfirst hbefore)

/-- **A table lists what it was asked for, in the order of asking**, each name
where it was asked for first. -/
theorem toList_eq (h : Asks before asked after) {nameClass : NameClass}
    {earlier : List String}
    (hbefore : (before.names nameClass).toList = earlier.eraseDups) :
    (after.names nameClass).toList
      = (earlier ++ namesAsked nameClass asked).eraseDups := by
  induction h generalizing earlier with
  | still hsame =>
      rw [hsame nameClass, hbefore]
      simp [namesAsked]
  | @ask before after asked name hsame =>
      rw [hsame nameClass]
      by_cases hclass : nameClass = asked
      · subst hclass
        have hnames : namesAsked nameClass [before.inquire nameClass name]
            = [name] := by
          simp [namesAsked, inquire]
        rw [names_code, Names.toList_intern, hbefore, hnames,
          eraseDups_concat]
        simp only [List.mem_eraseDups]
      · have hnames : namesAsked nameClass [before.inquire asked name]
            = [] := by
          simp [namesAsked, inquire, Ne.symm hclass]
        rw [before.names_code_of_ne hclass, hbefore, hnames, List.append_nil]
  | trans _ _ hfirst hsecond =>
      rw [hsecond (hfirst hbefore), List.append_assoc]
      simp [namesAsked]

/-- **Every answer is the position of the name**, as far as that is a byte. -/
theorem answers (h : Asks before asked after) :
    ∀ inquiry ∈ asked, after.Answers inquiry := by
  induction h with
  | still hsame =>
      intro inquiry hmem
      cases hmem
  | @ask before after nameClass name hsame =>
      intro inquiry hmem
      obtain rfl := List.mem_singleton.mp hmem
      obtain ⟨hposition, _⟩ := (before.names nameClass).intern_cases name
      refine ⟨((before.names nameClass).intern name).1, ?_, ?_⟩
      · rw [hsame]
        show ((before.code nameClass name).2.names nameClass).name? _
          = some name
        rw [names_code]
        exact (Names.position?_eq_some_iff.mp hposition).1
      · simp only [inquire, code, byteOf?, ← Nat.lt_succ_iff]
        by_cases hlt : ((before.names nameClass).intern name).1 < 256
        · simp [hlt]
        · simp [hlt]
  | trans _ hsecond hfirst hlater =>
      intro inquiry hmem
      rcases List.mem_append.mp hmem with hearly | hlate
      · -- what was answered before is still right, for no position changes
        obtain ⟨position, hname, hanswer⟩ := hfirst inquiry hearly
        exact ⟨position, hsecond.keeps _ _ _ hname, hanswer⟩
      · exact hlater inquiry hlate

end Asks

end Assembler

/-! ### Names and codes -/

theorem Names.position_unique {names : Names} {name : String}
    {first second : Nat} (hnodup : names.toList.Nodup)
    (hfirst : names.name? first = some name)
    (hsecond : names.name? second = some name) : first = second := by
  obtain ⟨⟨list⟩⟩ := names
  simp only [name?, List.getElem?_toArray] at hfirst hsecond
  obtain ⟨hlt, hget⟩ := List.getElem?_eq_some_iff.mp hfirst
  obtain ⟨hless, hsame⟩ := List.getElem?_eq_some_iff.mp hsecond
  exact (List.Nodup.getElem_inj_iff hnodup).mp (hget.trans hsame.symm)

namespace Assembler.Answers

variable {assembler : Assembler} {inquiry other : Inquiry}

/-- The same name is always answered in the same way. -/
theorem answer_eq (h : assembler.Answers inquiry)
    (hother : assembler.Answers other)
    (hnodup : (assembler.names inquiry.nameClass).toList.Nodup)
    (hclass : inquiry.nameClass = other.nameClass)
    (hname : inquiry.name = other.name) : inquiry.answer = other.answer := by
  obtain ⟨position, hfound, hanswer⟩ := h
  obtain ⟨place, hplace, hsame⟩ := hother
  rw [← hclass, ← hname] at hplace
  have heq : position = place := Names.position_unique hnodup hfound hplace
  rw [hanswer, hsame, heq, hclass]

/-- A code is the position of its name. -/
theorem name?_code (h : assembler.Answers inquiry) {code : UInt8}
    (hcode : inquiry.answer = .ok code) :
    (assembler.names inquiry.nameClass).name? code.toNat
      = some inquiry.name := by
  obtain ⟨position, hfound, hanswer⟩ := h
  rw [hanswer] at hcode
  split at hcode
  · next hle =>
    obtain rfl := Except.ok.inj hcode
    have hposition : (UInt8.ofNat position).toNat = position :=
      Nat.mod_eq_of_lt (by omega)
    rw [hposition]
    exact hfound
  · cases hcode

/-- Names with the same code are the same. -/
theorem name_eq (h : assembler.Answers inquiry)
    (hother : assembler.Answers other)
    (hclass : inquiry.nameClass = other.nameClass) {code : UInt8}
    (hcode : inquiry.answer = .ok code)
    (hsame : other.answer = .ok code) : inquiry.name = other.name := by
  have hfirst := h.name?_code hcode
  have hsecond := hother.name?_code hsame
  rw [← hclass, hfirst] at hsecond
  exact Option.some.inj hsecond

end Assembler.Answers

/-! ### The law of the tables -/

/-- **Tables list names in the order of first request.**  Whatever an assembler
has been asked for, and however much of it failed: each table lists, once each,
the names that it was asked for in the order in which they were first asked
for, and the table of variables begins with the reserved name.  Every inquiry,
the first for a name as well as any later one, was answered with the position
of the name, or, if that is beyond the last byte, with an error that there are
too many names of its class.  Later requests change no position, and asking one
table changes nothing in the other.  So in one table the same name always has
the same answer, and names with the same code are the same. -/
theorem tables_list_first_requests (symbols : Symbols)
    (requests : List Request) :
    let assembler := requests.foldl Assembler.answer (.initial symbols)
    let inquiries := (Assembler.initial symbols).inquiries requests
    (∀ nameClass,
      (assembler.names nameClass).toList
        = (nameClass.reserved
          ++ namesAsked nameClass inquiries).eraseDups ∧
      (assembler.names nameClass).toList.Nodup) ∧
    assembler.variableNames.name? 0 = some substitute ∧
    (∀ inquiry ∈ inquiries, ∃ position,
      (assembler.names inquiry.nameClass).name? position
        = some inquiry.name ∧
      inquiry.answer
        = if position ≤ 255 then .ok (UInt8.ofNat position)
          else .error (.tooManyNames inquiry.nameClass)) ∧
    (∀ (later : List Request) nameClass position name,
      (assembler.names nameClass).name? position = some name →
      ((later.foldl Assembler.answer assembler).names nameClass).name? position
        = some name) ∧
    (∀ nameClass other name, other ≠ nameClass →
      (assembler.code nameClass name).2.names other
        = assembler.names other) ∧
    ∀ inquiry ∈ inquiries, ∀ other ∈ inquiries,
      inquiry.nameClass = other.nameClass →
      (inquiry.name = other.name → inquiry.answer = other.answer) ∧
      ∀ code, inquiry.answer = .ok code → other.answer = .ok code →
        inquiry.name = other.name := by
  intro assembler inquiries
  have hasks : Assembler.Asks (.initial symbols) inquiries assembler :=
    Assembler.asks_answerAll (.initial symbols) requests
  have hinitial (nameClass : NameClass) :
      ((Assembler.initial symbols).names nameClass).toList
        = nameClass.reserved := by
    cases nameClass <;> rfl
  have hnodup (nameClass : NameClass) :
      (assembler.names nameClass).toList.Nodup := by
    apply hasks.nodup
    rw [hinitial]
    cases nameClass <;> simp [NameClass.reserved]
  have hanswers := hasks.answers
  refine ⟨?_, ?_, hanswers, ?_, ?_, ?_⟩
  · intro nameClass
    refine ⟨hasks.toList_eq ?_, hnodup nameClass⟩
    rw [hinitial]
    cases nameClass <;> simp [NameClass.reserved, List.eraseDups_cons]
  · exact hasks.keeps .bound 0 substitute rfl
  · intro later nameClass position name hfound
    exact (assembler.asks_answerAll later).keeps nameClass position name hfound
  · intro nameClass other name hother
    exact assembler.names_code_of_ne hother name
  · intro inquiry hinquiry other hother hclass
    have hfirst := hanswers inquiry hinquiry
    have hsecond := hanswers other hother
    refine ⟨?_, ?_⟩
    · intro hname
      exact hfirst.answer_eq hsecond (hnodup _) hclass hname
    · intro code hcode hsame
      exact hfirst.name_eq hsecond hclass hcode hsame

/-- The parameter of a function is interned even if its body means nothing. -/
example :
    let graph : Graph := ⟨#[.var "x", .identifier "G"]⟩
    let requests := [Request.code .identifier "F",
      .batch graph [.func (.node 0) (.node 1)], .code .identifier "F"]
    let inquiries := (Assembler.initial {}).inquiries requests
    namesAsked .identifier inquiries = ["F", "F"] ∧
      namesAsked .bound inquiries = ["x"] ∧
      (requests.foldl Assembler.answer (.initial {})).variableNames.toList
        = [substitute, "x"] := by
  decide +kernel

end LambdaStack.Bytecode
