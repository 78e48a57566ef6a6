import LambdaStack.Proofs.Assembly
import LambdaStack.Proofs.Functions

/-!
# Where the reserved name is pushed

A `func` instruction is lowered to a `PUSH` of its bound variable, a `PUSH` of
its body if that is a variable, and `FUNC`.  The body is pushed under the
reserved name, whose code is 0, if it is named as the bound variable.

Two bodies are named so: the parameter itself, and a global name that stands
for a free variable which happens to be called as the parameter.

    \x.x                      PUSH 1  PUSH 0  FUNC      the parameter
    let X = x   \x.X          PUSH 1  PUSH 0  FUNC      the free variable x
    let X = x   \y.X          PUSH 2  PUSH 1  FUNC

Reading has put the variable in the place of the global name, and nothing in
the instruction tells the two apart.  Main statement: for every function of a
text, code 0 is pushed exactly in these two cases, and any other variable is
pushed under its own code.
-/

namespace LambdaStack

namespace Bytecode

/-! ### Lowering a function -/

/-- The name under which a variable is pushed in the body of a function. -/
def pushedName (parameter name : String) : String :=
  if name = parameter then substitute else name

/-- Only the parameter is pushed under the reserved name. -/
theorem pushedName_eq_substitute_iff {parameter name : String}
    (h : name ≠ substitute) :
    pushedName parameter name = substitute ↔ name = parameter := by
  unfold pushedName
  split
  · next heq => exact iff_of_true rfl heq
  · next hne => exact iff_of_false h hne

namespace Assembler

variable {assembler after : Assembler} {graph : Graph} {index : Nat}

/-- A body that is no bare identifier is pushed if it is a variable. -/
theorem planBody_of_plain {body : Operand}
    (hplain : graph.isIdentifier body = false) (symbols : Symbols)
    (parameter : String) :
    planBody graph symbols index parameter body
      = ((graph.varName? body).map fun name =>
        .named .push (pushedName parameter name)).toList := by
  unfold planBody Graph.varName?
  cases hnode : graph.resolve? body with
  | none => rfl
  | some node =>
      cases node with
      | var name => rfl
      | identifier name =>
          rw [Graph.isIdentifier, hnode] at hplain
          cases hplain
      | lam bound inner => rfl
      | app applied applicand => rfl

/-- The steps that make a function. -/
theorem plan_func {bound body : Operand} {parameter : String}
    (hbound : graph.resolve? bound = some (.var parameter))
    (hplain : graph.isIdentifier body = false) (symbols : Symbols) :
    plan graph symbols index (.func bound body)
      = .named .push parameter
        :: (((graph.varName? body).map fun name =>
          .named .push (pushedName parameter name)).toList
        ++ [.bare .func]) := by
  show planFunc graph symbols index bound body = _
  simp only [planFunc, hbound]
  rw [planBody_of_plain hplain, List.cons_append]

/-- The bytes of a function are those of its bound variable and of its body, if
that is a variable, and `FUNC`. -/
theorem lower_func {bound body : Operand} {parameter : String}
    (hbound : graph.resolve? bound = some (.var parameter))
    (hplain : graph.isIdentifier body = false)
    (h : assembler.lower graph index (.func bound body) = ⟨after, none⟩) :
    ∃ first, match graph.varName? body with
      | none => after.bytes.toList = assembler.bytes.toList
        ++ (encode .push (some first) ++ encode .func none)
      | some name => ∃ second,
        after.bytes.toList = assembler.bytes.toList
          ++ (encode .push (some first) ++ encode .push (some second)
          ++ encode .func none) ∧
        after.variableNames.position? (pushedName parameter name)
          = some second.toNat := by
  rw [lower, plan_func hbound hplain] at h
  obtain ⟨middle, hfirst, h⟩ := performAll_cons h
  obtain ⟨_, _, first, hbytes, _⟩ := perform_named hfirst
  refine ⟨first, ?_⟩
  cases hbody : graph.varName? body with
  | none =>
      rw [hbody] at h
      cases h
      dsimp only
      rw [toList_bytes_write, hbytes, List.append_assoc]
  | some name =>
      rw [hbody] at h
      obtain ⟨next, hsecond, h⟩ := performAll_cons h
      obtain ⟨_, _, second, hmore, hposition⟩ := perform_named hsecond
      cases h
      refine ⟨second, ?_, hposition⟩
      rw [toList_bytes_write, hmore, hbytes, List.append_assoc,
        List.append_assoc, List.append_assoc]

end Assembler

/-- The instruction at `index` is lowered to a function whose body is pushed
under the given code. -/
def PushesBody (program : Program) (index : Nat) (code : UInt8) : Prop :=
  ∃ bound, loweredBytes program index
    = encode .push (some bound) ++ encode .push (some code)
      ++ encode .func none

section Program

variable {program : Program} {assembler : Assembler} {index : Nat}
  (hassembly : assembleProgram program = ⟨assembler, none⟩)
  {bound body : Operand} {parameter : String}
  (h : program.code.toList[index]? = some (.func bound body))
  (hbound : program.graph.resolve? bound = some (.var parameter))
  (hplain : program.graph.isIdentifier body = false)
include hassembly h hbound hplain

/-- A body that is no variable is not pushed. -/
theorem not_pushesBody (hbody : program.graph.varName? body = none)
    (code : UInt8) : ¬ PushesBody program index code := by
  have hlower := lower_of_getElem? hassembly h
  obtain ⟨first, hbytes⟩ := Assembler.lower_func hbound hplain hlower
  rw [hbody] at hbytes
  rintro ⟨other, hother⟩
  rw [loweredBytes_of_append hbytes] at hother
  cases hother

/-- **A variable is pushed under one code**, that of its name or of the name
that stands for the parameter, and the code is 0 only for that one. -/
theorem pushesBody_iff {name : String}
    (hbody : program.graph.varName? body = some name) :
    ∃ code, (∀ other, PushesBody program index other ↔ other = code) ∧
      assembler.variableNames.name? code.toNat
        = some (pushedName parameter name) ∧
      (code = 0 ↔ pushedName parameter name = substitute) := by
  have hlower := lower_of_getElem? hassembly h
  obtain ⟨first, hbytes⟩ := Assembler.lower_func hbound hplain hlower
  rw [hbody] at hbytes
  obtain ⟨second, hbytes, hposition⟩ := hbytes
  have hzero := name?_zero_assemblerBefore hassembly (index + 1)
  obtain ⟨_, hkeeps⟩ := assemblerBefore_eq hassembly (index + 1)
  refine ⟨second, ?_, ?_, ?_⟩
  · intro other
    rw [PushesBody, loweredBytes_of_append hbytes]
    constructor
    · rintro ⟨_, hother⟩
      cases hother
      rfl
    · rintro rfl
      exact ⟨first, rfl⟩
  · exact hkeeps .bound _ _ (Names.position?_eq_some_iff.mp hposition).1
  · rw [← Names.position_eq_zero_iff hzero hposition, ← UInt8.toNat_inj]
    rfl

end Program

end Bytecode

namespace Grammar

open Bytecode

/-! ### Names of a text -/

/-- A word that is read as a name begins with a small letter. -/
theorem isLower_of_read {first : Char} {rest : List Char}
    (h : (Lexeme.read first rest).kind = .name) :
    first.isLower ∧ (Lexeme.read first rest).text
      = first :: rest.takeWhile isNameChar := by
  unfold Lexeme.read at h ⊢
  split at h
  · cases h
  · next hstart =>
    split at h
    · next hlower => simp [hstart, hlower]
    · simp only [markKind] at h
      split at h <;> cases h

/-- The names among the tokens are not the reserved one. -/
def Unreserved (tokens : List Token) : Prop :=
  ∀ token ∈ tokens, token.kind = .name → token.text ≠ some substitute

/-- A scanned name is not the reserved one, which begins with a capital
letter. -/
theorem text_next_ne_substitute (cursor : Cursor)
    (h : cursor.next.1.kind = .name) :
    cursor.next.1.text ≠ some substitute := by
  unfold Cursor.next at h ⊢
  generalize Cursor.skip false cursor.rest cursor.place = skipped at h ⊢
  obtain ⟨rest, place⟩ := skipped
  cases rest with
  | nil => cases h
  | cons first rest =>
      have hkind : (Lexeme.read first rest).kind = .name := h
      obtain ⟨hlower, htext⟩ := isLower_of_read hkind
      intro heq
      simp only [Cursor.tokenAt, hkind, htext, Kind.carriesText, if_true,
        Option.some.injEq] at heq
      have hlist := congrArg String.toList heq
      have hreserved : substitute.toList = 'S' :: "UBSTITUTE".toList := rfl
      rw [String.toList_ofList, hreserved] at hlist
      obtain ⟨rfl, _⟩ := List.cons.inj hlist
      cases hlower

theorem unreserved_tokens (cursor : Cursor) : Unreserved cursor.tokens := by
  fun_induction Cursor.tokens cursor with
  | case1 cursor hend =>
      intro token hmem
      rw [List.mem_singleton.mp hmem]
      exact text_next_ne_substitute cursor
  | case2 cursor hend ih =>
      intro token hmem
      rcases List.mem_cons.mp hmem with rfl | hlater
      · exact text_next_ne_substitute cursor
      · exact ih token hlater

theorem Unreserved.mono {tokens others : List Token} (h : Unreserved tokens)
    (hsub : others ⊆ tokens) : Unreserved others :=
  fun token hmem => h token (hsub hmem)

/-- No global name stands for a variable with the reserved name. -/
def UnreservedScope (scope : VariableScope) : Prop :=
  ∀ entry ∈ scope, entry.2 ≠ some substitute

/-- A phrase does not stand for a variable with the reserved name. -/
theorem Phrase.varName?_ne_substitute {phrase : Phrase}
    {scope : VariableScope} (htokens : Unreserved phrase.tokens)
    (hscope : UnreservedScope scope) :
    phrase.varName? scope ≠ some substitute := by
  induction phrase with
  | identifier word =>
      intro heq
      obtain ⟨name, _, hjoin⟩ := Option.bind_eq_some_iff.mp heq
      have hlookup := Option.join_eq_some_iff.mp hjoin
      obtain ⟨front, back, hentries, _⟩ := List.lookup_eq_some_iff.mp hlookup
      refine hscope (name, some substitute) ?_ rfl
      rw [hentries]
      exact List.mem_append_right _ List.mem_cons_self
  | name word => exact htokens word.1 List.mem_cons_self word.2
  | group bracket inner closing ih =>
      exact ih (htokens.mono fun token hmem => by simp [Phrase.tokens, hmem])
  | function lambda parameter dot body _ =>
      intro heq
      cases heq
  | application applied applicand _ _ =>
      intro heq
      cases heq

theorem Phrase.functions_unreserved {phrase : Phrase} {scope : VariableScope}
    (htokens : Unreserved phrase.tokens) (hscope : UnreservedScope scope) :
    ∀ function ∈ phrase.functions scope,
      function.body.varName? function.scope ≠ some substitute := by
  induction phrase with
  | identifier word => exact nofun
  | name word => exact nofun
  | group bracket inner closing ih =>
      exact ih (htokens.mono fun token hmem => by simp [Phrase.tokens, hmem])
  | function lambda parameter dot body ih =>
      have hbody : Unreserved body.tokens :=
        htokens.mono fun token hmem => by simp [Phrase.tokens, hmem]
      intro function hmem
      rcases List.mem_append.mp hmem with hinner | hself
      · exact ih hbody function hinner
      · rw [List.mem_singleton.mp hself]
        exact Phrase.varName?_ne_substitute hbody hscope
  | application applied applicand ihapplied ihapplicand =>
      intro function hmem
      rcases List.mem_append.mp hmem with hleft | hright
      · exact ihapplied (htokens.mono (List.subset_append_left _ _)) function
          hleft
      · exact ihapplicand (htokens.mono (List.subset_append_right _ _)) function
          hright

theorem Statement.scopeAfter_unreserved {statement : Statement}
    {scope : VariableScope} (htokens : Unreserved statement.tokens)
    (hscope : UnreservedScope scope) :
    UnreservedScope (statement.scopeAfter scope) := by
  have hvalue := Phrase.varName?_ne_substitute
    (htokens.mono (List.subset_append_right _ _)) hscope
  cases statement with
  | declaration letWord name equals value =>
      intro entry hmem
      rcases List.mem_append.mp hmem with hnew | hold
      · rw [Option.mem_toList] at hnew
        obtain ⟨text, _, rfl⟩ := Option.map_eq_some_iff.mp hnew
        exact hvalue
      · exact hscope entry hold
  | evaluatedDeclaration letWord name equals evalWord value =>
      intro entry hmem
      rcases List.mem_append.mp hmem with hnew | hold
      · rw [Option.mem_toList] at hnew
        obtain ⟨text, _, rfl⟩ := Option.map_eq_some_iff.mp hnew
        exact nofun
      · exact hscope entry hold
  | evaluation evalWord value => exact hscope
  | print value => exact hscope

/-- No body of a function stands for a variable with the reserved name. -/
theorem functionsOf_unreserved {statements : List Statement}
    {scope : VariableScope} (htokens : Unreserved (statementTokens statements))
    (hscope : UnreservedScope scope) :
    ∀ function ∈ functionsOf scope statements,
      function.body.varName? function.scope ≠ some substitute := by
  induction statements generalizing scope with
  | nil => exact nofun
  | cons statement rest ih =>
      rw [statementTokens_cons] at htokens
      have hfirst : Unreserved statement.tokens :=
        htokens.mono (List.subset_append_left _ _)
      intro function hmem
      rcases List.mem_append.mp hmem with hown | hlater
      · exact Phrase.functions_unreserved
          (hfirst.mono (List.subset_append_right _ _)) hscope function hown
      · exact ih (htokens.mono (List.subset_append_right _ _))
          (Statement.scopeAfter_unreserved hfirst hscope) function hlater

/-! ### Bodies -/

/-- The phrase without the brackets around it. -/
def Phrase.unbracketed : Phrase → Phrase
  | group _ inner _ => inner.unbracketed
  | phrase => phrase

namespace FunctionText

/-- The body is the parameter. -/
def BodyIsParameter (function : FunctionText) : Prop :=
  ∃ word, function.body.unbracketed = .name word ∧
    word.1.text = function.parameter.1.text

/-- The body is a global name that stands for a free variable, and that is
called as the parameter. -/
def BodyIsNamesake (function : FunctionText) : Prop :=
  ∃ word name, function.body.unbracketed = .identifier word ∧
    word.1.text = some name ∧
    function.scope.lookup name = some function.parameter.1.text

end FunctionText

/-- A phrase stands for a variable as a name or as a global name. -/
theorem Phrase.varName?_eq_some_iff {phrase : Phrase} {scope : VariableScope}
    {variableName : String} :
    phrase.varName? scope = some variableName ↔
      (∃ word, phrase.unbracketed = .name word ∧
        word.1.text = some variableName) ∨
      ∃ word name, phrase.unbracketed = .identifier word ∧
        word.1.text = some name ∧
        scope.lookup name = some (some variableName) := by
  induction phrase with
  | identifier word =>
      simp [Phrase.varName?, Phrase.unbracketed, Option.bind_eq_some_iff,
        Option.join_eq_some_iff]
  | name word => simp [Phrase.varName?, Phrase.unbracketed]
  | group bracket inner closing ih => exact ih
  | function lambda parameter dot body _ =>
      simp [Phrase.varName?, Phrase.unbracketed]
  | application applied applicand _ _ =>
      simp [Phrase.varName?, Phrase.unbracketed]

/-- The instructions of a program that make functions, with their numbers. -/
def numberedMakers (program : Program) : List (Instruction × Nat) :=
  program.code.toList.zipIdx.filter fun made => made.1.operation = .func

theorem map_fst_numberedMakers (program : Program) :
    (numberedMakers program).map Prod.fst = program.makers := by
  rw [Program.makers, ← List.zipIdx_map_fst 0 program.code.toList,
    List.filter_map]
  rfl

/-- What the lowering of a function pushes for its body. -/
structure BodyLowered (program : Program) (assembler : Assembler)
    (function : FunctionText) (index : Nat) : Prop where
  /-- the reserved code stands for the parameter, or for its namesake -/
  marker : PushesBody program index 0 ↔
    function.BodyIsParameter ∨ function.BodyIsNamesake
  /-- any other variable is pushed under its own code -/
  own : ∀ name, function.body.varName? function.scope = some name →
    function.parameter.1.text ≠ some name →
    ∃ code, code ≠ 0 ∧ PushesBody program index code ∧
      assembler.variableNames.name? code.toNat = some name

/-- An instruction that makes a function is lowered to it. -/
theorem bodyLowered {program : Program} (hprogram : program.WellFormed)
    {assembler : Assembler}
    (hassembly : assembleProgram program = ⟨assembler, none⟩)
    {function : FunctionText} {instruction : Instruction} {index : Nat}
    (hget : program.code.toList[index]? = some instruction)
    (hmakes : Makes program.graph function instruction)
    (hunreserved : function.body.varName? function.scope ≠ some substitute) :
    BodyLowered program assembler function index := by
  obtain ⟨bound, body, rfl, ⟨parameter, hparameter, hbound⟩, hbody⟩ := hmakes
  obtain ⟨hshaped, _⟩ := hprogram.has_of_mem (List.mem_of_getElem? hget)
  have hplain : program.graph.isIdentifier body = false := by
    change (program.graph.isVar bound
      && !program.graph.isIdentifier body) = true at hshaped
    rw [Bool.and_eq_true, Bool.not_eq_true'] at hshaped
    exact hshaped.2
  have hcases : function.BodyIsParameter ∨ function.BodyIsNamesake ↔
      program.graph.varName? body = some parameter := by
    rw [hbody, Phrase.varName?_eq_some_iff, ← hparameter]
    rfl
  rw [← hbody] at hunreserved
  cases hname : program.graph.varName? body with
  | none =>
      have hnothing := not_pushesBody hassembly hget hbound hplain hname
      refine ⟨?_, ?_⟩
      · rw [hcases, hname]
        exact iff_of_false (hnothing 0) nofun
      · intro name heq
        rw [← hbody, hname] at heq
        cases heq
  | some name =>
      obtain ⟨code, hpushes, hcode, hzero⟩ :=
        pushesBody_iff hassembly hget hbound hplain hname
      -- no variable of a text has the reserved name, so only the parameter's
      -- name is exchanged for it
      have hother : name ≠ substitute := by
        rintro rfl
        exact hunreserved hname
      have hreserved : pushedName parameter name = substitute ↔
          name = parameter := pushedName_eq_substitute_iff hother
      refine ⟨?_, ?_⟩
      · rw [hpushes, hcases, hname, Option.some.injEq, ← hreserved, ← hzero,
          eq_comm]
      · intro other heq hne
        rw [← hbody, hname] at heq
        obtain rfl := Option.some.inj heq
        have hfree : name ≠ parameter := by
          rintro rfl
          exact hne hparameter
        refine ⟨code, ?_, (hpushes code).mpr rfl, ?_⟩
        · rw [ne_eq, hzero, hreserved]
          exact hfree
        · rw [hcode, pushedName, if_neg hfree]

/-- The functions that a program makes are lowered in order. -/
theorem Made.bodyLowered {functions : List FunctionText} {program : Program}
    (h : Made functions program) (hprogram : program.WellFormed)
    {assembler : Assembler}
    (hassembly : assembleProgram program = ⟨assembler, none⟩)
    (hunreserved : ∀ function ∈ functions,
      function.body.varName? function.scope ≠ some substitute) :
    List.Forall₂ (fun function made =>
        Makes program.graph function made.1 ∧
        BodyLowered program assembler function made.2)
      functions (numberedMakers program) := by
  rw [Made, ← map_fst_numberedMakers, List.forall₂_map_right_iff] at h
  apply forall₂_imp_of_mem ((List.forall₂_and_left _ _).mpr ⟨hunreserved, h⟩)
  rintro ⟨instruction, index⟩ hmem function ⟨hbody, hmakes⟩
  have hget : program.code.toList[index]? = some instruction :=
    List.mem_zipIdx_iff_getElem?.mp (List.mem_of_mem_filter hmem)
  exact ⟨hmakes, Grammar.bodyLowered hprogram hassembly hget hmakes hbody⟩

/-- The program that a text is read into. -/
def textProgram (text : String) : Program :=
  (readText text .empty).reading.program

/-- **Where the reserved code is pushed.**  Take a text that is accepted and can
be lowered, and its greedy reading.  Its functions, in the order in which they
are complete, are made by its `func` instructions in order, and the lowering of
each pushes code 0 for the body exactly if the body is, in brackets or not, the
parameter itself or a global name that stands for a free variable called as the
parameter.  A body that stands for any other variable is pushed under the code
of that variable, which is not 0. -/
theorem marker_pushed_for_parameter_or_namesake (text : String)
    (haccepted : (readText text .empty).outcome = some .accepted)
    (assembler : Assembler)
    (hlowered : (assembleProgram (textProgram text)).result = .ok assembler) :
    ∃ statements, program? (sentenceOf (tokensOf text)) = some statements ∧
      List.Forall₂ (fun function made =>
          Makes (textProgram text).graph function made.1 ∧
          BodyLowered (textProgram text) assembler function made.2)
        (functionsOf [] statements) (numberedMakers (textProgram text)) := by
  have hprogram : (textProgram text).WellFormed :=
    (readsOn_attempt (Reading.resume (Source.ofText text) .empty)).wellFormed
      Program.wellFormed_empty
  obtain ⟨statements, hread, htokens, hmade⟩ := made_of_accepted haccepted
  have hunreserved : Unreserved (statementTokens statements) := by
    rw [htokens]
    exact (unreserved_tokens (Cursor.ofText text)).mono
      (List.takeWhile_subset _)
  exact ⟨statements, hread, hmade.bodyLowered hprogram
    (Assembly.eq_of_result hlowered)
    (functionsOf_unreserved hunreserved nofun)⟩

/-- A global name for a free variable as a body, and the parameter in
brackets. -/
def bracketedText : String :=
  "let X = x let F = \\y.\\z.(X) let G = \\x.((x))"

/-- The parameter in brackets is pushed as the parameter, and a free variable
with another name under its own code. -/
theorem markers_of_bracketed_parameter :
    (readText bracketedText .empty).outcome = some .accepted ∧
      (assembleProgram (textProgram bracketedText)).result
        = .ok (assembleProgram (textProgram bracketedText)).assembler ∧
      loweredBytes (textProgram bracketedText) 1 = [1, 2, 1, 1, 4] ∧
      loweredBytes (textProgram bracketedText) 4 = [1, 1, 1, 0, 4] ∧
      ∃ statements,
        program? (sentenceOf (tokensOf bracketedText)) = some statements ∧
        List.Forall₂ (fun function made =>
            Makes (textProgram bracketedText).graph function made.1 ∧
            BodyLowered (textProgram bracketedText)
              (assembleProgram (textProgram bracketedText)).assembler function
              made.2)
          (functionsOf [] statements)
          (numberedMakers (textProgram bracketedText)) := by
  obtain ⟨haccepted, hlowered, hfirst, hlast⟩ :
      (readText bracketedText .empty).outcome = some .accepted ∧
      (assembleProgram (textProgram bracketedText)).result
        = .ok (assembleProgram (textProgram bracketedText)).assembler ∧
      loweredBytes (textProgram bracketedText) 1 = [1, 2, 1, 1, 4] ∧
      loweredBytes (textProgram bracketedText) 4 = [1, 1, 1, 0, 4] := by
    decide +kernel
  exact ⟨haccepted, hlowered, hfirst, hlast,
    marker_pushed_for_parameter_or_namesake bracketedText haccepted _ hlowered⟩

/-- A global name for a free variable that is called as the parameter. -/
def namesakeText : String :=
  "let X = x let F = \\x.X"

/-- The statements of the text. -/
def namesakeStatements : List Statement :=
  [.declaration ⟨⟨.letWord, 1, 1, none, ⟨0, 3⟩⟩, rfl⟩
      ⟨⟨.identifier, 1, 5, some "X", ⟨4, 5⟩⟩, rfl⟩
      ⟨⟨.equals, 1, 7, none, ⟨6, 7⟩⟩, rfl⟩
      (.name ⟨⟨.name, 1, 9, some "x", ⟨8, 9⟩⟩, rfl⟩),
    .declaration ⟨⟨.letWord, 1, 11, none, ⟨10, 13⟩⟩, rfl⟩
      ⟨⟨.identifier, 1, 15, some "F", ⟨14, 15⟩⟩, rfl⟩
      ⟨⟨.equals, 1, 17, none, ⟨16, 17⟩⟩, rfl⟩
      (.function ⟨⟨.lambda, 1, 19, none, ⟨18, 19⟩⟩, rfl⟩
        ⟨⟨.name, 1, 20, some "x", ⟨19, 20⟩⟩, rfl⟩
        ⟨⟨.dot, 1, 21, none, ⟨20, 21⟩⟩, rfl⟩
        (.identifier ⟨⟨.identifier, 1, 22, some "X", ⟨21, 22⟩⟩, rfl⟩))]

/-- A free variable is taken for the parameter if it has its name: the body of
the only function is not the parameter, and code 0 is pushed for it. -/
theorem namesake_pushed_as_parameter :
    (readText namesakeText .empty).outcome = some .accepted ∧
      (assembleProgram (textProgram namesakeText)).error? = none ∧
      program? (sentenceOf (tokensOf namesakeText)) = some namesakeStatements ∧
      ∃ function instruction,
        functionsOf [] namesakeStatements = [function] ∧
        numberedMakers (textProgram namesakeText) = [(instruction, 1)] ∧
        PushesBody (textProgram namesakeText) 1 0 ∧
        ¬ function.BodyIsParameter := by
  obtain ⟨haccepted, hlowered, htokens, hmakers, hbytes⟩ :
      (readText namesakeText .empty).outcome = some .accepted ∧
      (assembleProgram (textProgram namesakeText)).error? = none ∧
      sentenceOf (tokensOf namesakeText)
        = statementTokens namesakeStatements ∧
      numberedMakers (textProgram namesakeText)
        = [(.func (.node 2) (.node 0), 1)] ∧
      loweredBytes (textProgram namesakeText) 1 = encode .push (some 1)
        ++ encode .push (some 0) ++ encode .func none := by
    decide +kernel
  have hfunctions : functionsOf [] namesakeStatements = [⟨[("X", some "x")],
      ⟨⟨.name, 1, 20, some "x", ⟨19, 20⟩⟩, rfl⟩,
      .identifier ⟨⟨.identifier, 1, 22, some "X", ⟨21, 22⟩⟩, rfl⟩⟩] := rfl
  refine ⟨haccepted, hlowered, ?_, _, _, hfunctions, hmakers, ⟨1, hbytes⟩, ?_⟩
  · rw [htokens]
    rfl
  · rintro ⟨word, hword, _⟩
    cases hword

end Grammar

end LambdaStack
