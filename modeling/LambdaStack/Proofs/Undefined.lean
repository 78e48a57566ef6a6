import LambdaStack.Proofs.Blame
import LambdaStack.Proofs.Scope

/-!
# Readings that stop at an undefined name

A use of a name is **undefined** if the name is neither bound from before nor
declared by an earlier statement.  Which statements are earlier is a matter of
the greedy reading, and a text need not be a sentence; but as far as the use
it has to go on to one, and the greedy reading of that sentence tells
(`UndefinedUse`).

Main statement: reading a text fails at its first undefined use and nowhere
else.  Both directions go through a sentence that the text goes on to as far as
the use (`outcome_cases`): the automaton walks it, the walk stops in the first
statement with an undefined use, and the run has looked up every use before the
one it stops at.
-/

namespace LambdaStack.Grammar

open Automaton

/-- The token with the given index is the use of a name that is not among the
given names and not declared by a statement in front of its own. -/
structure UndefinedIn (names : List String) (statements : List Statement)
    (number index : Nat) (name : String) : Prop where
  used : UsedAt (statementTokens statements) index name
  covers : Covers statements number index
  unbound : name ∉ names
  undeclared : ∀ statement ∈ statements.take number,
    statement.declared? ≠ some name

/-- In scoped statements no use is undefined. -/
theorem UndefinedIn.not_scoped {names : List String}
    {statements : List Statement} {number index count : Nat} {name : String}
    (h : UndefinedIn names statements number index name)
    (hcount : number < count) : ¬ Scoped names (statements.take count) := by
  intro hscoped
  obtain ⟨current, hcurrent, token, hmem, htext⟩ := mem_of_use h.covers h.used
  have htake : (statements.take count)[number]? = some current := by
    rw [List.getElem?_take_of_lt hcount]
    exact hcurrent
  have hmin : min number count = number := by omega
  rcases hscoped.bound htake hmem htext with hname | ⟨earlier, hearlier, heq⟩
  · exact h.unbound hname
  · rw [List.take_take, hmin] at hearlier
    exact h.undeclared earlier hearlier heq

/-- A walk that stops in a statement stops at an undefined use, if it stops at
a use of that name in the statement or in front of it. -/
theorem StopsIn.undefinedIn {draft after : Draft}
    {statements : List Statement} {before : Value} {number index place : Nat}
    {name : String} (h : StopsIn draft statements before number name after)
    (hused : UsedAt (statementTokens statements) index name)
    (hplace : Covers statements number place) (hle : index ≤ place)
    (hlt : place < (statementTokens statements).length) :
    UndefinedIn draft.names statements number index name := by
  obtain ⟨own, hown⟩ := exists_covers (Nat.lt_of_le_of_lt hle hlt)
  have hnumber : own ≤ number := hown.le_of_le hplace hle
  have hundefined : UndefinedIn draft.names statements own index name := by
    refine ⟨hused, hown, ?_, ?_⟩
    · exact fun hname => h.unbound ((h.names name).mpr (Or.inl hname))
    · intro statement hstatement hdeclared
      have hmem := List.take_subset_take_left statements hnumber hstatement
      exact h.unbound ((h.names name).mpr
        (Or.inr ⟨statement, hmem, hdeclared⟩))
  rcases Nat.lt_or_eq_of_le hnumber with hless | rfl
  · exact absurd h.inScope (hundefined.not_scoped hless)
  · exact hundefined

/-- No use is undefined in front of the one that a walk stops at, if the names
used there are bound by then. -/
theorem StopsIn.le_of_undefinedIn {draft after : Draft}
    {statements : List Statement} {before : Value} {number index : Nat}
    {name : String} (h : StopsIn draft statements before number name after)
    (hcovers : Covers statements number index)
    (hearlier : ∀ place other, place < index →
      UsedAt (statementTokens statements) place other → other ∈ after.names)
    {later place : Nat} {other : String}
    (hother : UndefinedIn draft.names statements later place other) :
    index ≤ place := by
  by_contra hgt
  have hplace : place < index := Nat.lt_of_not_le hgt
  have hnumber := hother.covers.le_of_le hcovers (Nat.le_of_lt hplace)
  rcases Nat.lt_or_eq_of_le hnumber with hless | rfl
  · exact hother.not_scoped hless h.inScope
  · -- in the same statement the bound names are those in scope
    have hbound := hearlier place other hplace hother.used
    rcases (h.names other).mp hbound with hname | ⟨statement, hmem, heq⟩
    · exact hother.unbound hname
    · exact hother.undeclared statement hmem heq

/-! ### Stretches of a tape -/

/-- The tokens that a tape carries are a stretch of it. -/
theorem stretch_eq_take {tape : Tape} {start count : Nat}
    {tokens : List Token} (h : Carries tape start tokens)
    (hcount : count ≤ tokens.length) :
    (List.range' start count).map tape = tokens.take count := by
  induction tokens generalizing start count with
  | nil =>
      obtain rfl : count = 0 := by simpa using hcount
      rfl
  | cons token tokens ih =>
      cases count with
      | zero => rfl
      | succ count =>
          obtain ⟨hfirst, hrest⟩ := h
          rw [List.range'_succ, List.map_cons, List.take_succ_cons, hfirst,
            ih hrest (by simpa using hcount)]

/-- The words of a list that a worded tape carries have their texts. -/
theorem WordedTape.worded {tape : Tape} (h : WordedTape tape) {start : Nat}
    {tokens : List Token} (hcarries : Carries tape start tokens) :
    Worded tokens := by
  intro token hmem
  have hwhole := stretch_eq_take hcarries (Nat.le_refl _)
  rw [List.take_length] at hwhole
  rw [← hwhole] at hmem
  obtain ⟨index, _, rfl⟩ := List.mem_map.mp hmem
  exact h index

/-- Being used is a matter of the tokens up to the use. -/
theorem usedAt_take {tokens : List Token} {index count : Nat} {name : String}
    (h : index < count) :
    UsedAt (tokens.take count) index name ↔ UsedAt tokens index name := by
  rw [UsedAt, UsedAt, List.getElem?_take_of_lt h, List.take_take,
    Nat.min_eq_left (Nat.le_of_lt h)]

/-- The uses on a longer stretch of a tape are those on a shorter one. -/
theorem usedAt_stretch {tape : Tape} {start index count more : Nat}
    {name : String} (hindex : index < count) (hcount : count ≤ more) :
    UsedAt ((List.range' start more).map tape) index name ↔
      UsedAt ((List.range' start count).map tape) index name := by
  rw [← usedAt_take hindex, ← List.map_take,
    List.take_range'_of_length_ge hcount]

/-- **A run over a greedy program** accepts it if it is scoped, having
elaborated it, and otherwise stops at its first undefined use, having read
nothing behind it. -/
theorem outcome_cases {tape : Tape} (htape : WordedTape tape) {draft : Draft}
    (hprogram : draft.program.WellFormed) {start : Nat}
    {statements : List Statement} (hgreedy : GreedyProgram statements)
    (hcarries : Carries tape start (statementTokens statements))
    (hend : (tape (start + (statementTokens statements).length)).kind
      = .endOfInput) :
    ∃ final,
      Reaches semantics tape (Config.initial semantics draft start) final ∧
      (Scoped draft.names statements ∧ final.phase = .halted .accepted ∧
        elaborateStatements statements draft.program
          = some final.memory.program ∨
      ∃ number index name,
        final.phase = .halted (.failed (.undefined name)) ∧
        final.taken = start + (index + 1) ∧
        UndefinedIn draft.names statements number index name ∧
        ∀ later place other,
          UndefinedIn draft.names statements later place other →
          index ≤ place) := by
  obtain ⟨final, ⟨fuel, hrun⟩, houtcome⟩ :=
    run_of_greedy semantics draft hgreedy hcarries rfl hend
  refine ⟨final, ⟨fuel, hrun⟩, ?_⟩
  have hworded : Worded (statementTokens statements) := htape.worded hcarries
  have hwhole : walkProgram semantics statements draft
      = walkStatements semantics statements draft .empty := rfl
  rw [hwhole] at houtcome
  by_cases hscoped : Scoped draft.names statements
  · obtain ⟨program, helaborate, hwalk⟩ := exists_elaborateStatements hprogram
      hworded hscoped (fun _ hname => hname) .empty
    rw [hwalk] at houtcome
    obtain ⟨hphase, hmemory⟩ := houtcome
    rw [hmemory]
    exact Or.inl ⟨hscoped, hphase, helaborate⟩
  obtain ⟨number, name, after, hstop⟩ :=
    exists_stop hprogram hworded hscoped .empty
  rw [hstop.walk] at houtcome
  obtain ⟨hphase, hmemory⟩ := houtcome
  obtain ⟨index, found, hreason, htaken, _, hused, _, hearlier⟩ :=
    use_of_failure htape hprogram hrun hphase
  obtain rfl : name = found := Refusal.undefined.inj hreason
  rw [hmemory] at hearlier
  -- the use that the walk stops at is not in front of the last token read
  obtain ⟨current, hcurrent, token, hmem, htext⟩ := hstop.used
  obtain ⟨place, hplace, hthere⟩ := exists_use_of_mem hcurrent hmem htext
  have hlt := hthere.lt_length
  have hle : index ≤ place := by
    by_contra hgt
    apply hstop.unbound
    apply hearlier place name (by omega)
    rw [usedAt_stretch (Nat.lt_succ_self place) (by omega),
      stretch_eq_take hcarries (by omega), usedAt_take (by omega)]
    exact hthere
  rw [stretch_eq_take hcarries (by omega)] at hused hearlier
  rw [usedAt_take (Nat.lt_succ_self index)] at hused
  have hundefined := hstop.undefinedIn hused hplace hle hlt
  refine Or.inr ⟨number, index, name, hphase, htaken, hundefined, ?_⟩
  intro later place other hother
  apply hstop.le_of_undefinedIn hundefined.covers _ hother
  intro place other hbefore hother
  exact hearlier place other hbefore ((usedAt_take (by omega)).mpr hother)

/-! ### Texts -/

/-- **An undefined use.**  A sentence begins with the tokens up to the given
index, and in its greedy reading the last of them is an undefined use. -/
def UndefinedUse (names : List String) (tokens : List Token) (index : Nat)
    (name : String) : Prop :=
  index < tokens.length ∧
    ∃ (statements : List Statement) (more : List Token) (number : Nat),
      GreedyProgram statements ∧ Worded more ∧
      tokens.take (index + 1) ++ more = statementTokens statements ∧
      UndefinedIn names statements number index name

/-- The undefined use that has no other in front of it. -/
def FirstUndefinedUse (names : List String) (tokens : List Token)
    (index : Nat) (name : String) : Prop :=
  UndefinedUse names tokens index name ∧
    ∀ earlier < index, ∀ other, ¬ UndefinedUse names tokens earlier other

/-- Where there is an undefined use, there is a first one. -/
theorem UndefinedUse.exists_first {names : List String} {tokens : List Token}
    {index : Nat} {name : String} (h : UndefinedUse names tokens index name) :
    ∃ first other, FirstUndefinedUse names tokens first other := by
  classical
  have hexists : ∃ index other, UndefinedUse names tokens index other :=
    ⟨index, name, h⟩
  obtain ⟨other, hother⟩ := Nat.find_spec hexists
  refine ⟨Nat.find hexists, other, hother, ?_⟩
  intro earlier hearlier found hfound
  exact Nat.find_min hexists hearlier ⟨found, hfound⟩

/-- Behind the other tokens of a tape that goes on with them stands an end of
input. -/
theorem goingOn_end (tape : Tape) (position : Nat) (more : List Token) :
    goingOn tape position more (position + more.length) = Token.endOfInput := by
  rw [goingOn, if_neg (by omega), Nat.add_sub_cancel_left,
    List.getD_eq_getElem?_getD, List.getElem?_eq_none (Nat.le_refl _)]
  rfl

theorem WordedTape.goingOn {tape : Tape} (h : WordedTape tape)
    (position : Nat) {more : List Token} (hmore : Worded more) :
    WordedTape (goingOn tape position more) := by
  intro index
  unfold Grammar.goingOn
  split
  · exact h index
  · rw [List.getD_eq_getElem?_getD]
    cases htoken : more[index - position]? with
    | none =>
        intro hkind
        rcases hkind with hkind | hkind <;> cases hkind
    | some token => exact hmore token (List.mem_of_getElem? htoken)

/-- Tokens that go on to a sentence and its end of input go on to the sentence,
if their last one is no end of input. -/
theorem exists_before_end {front rest sentence : List Token} {token : Token}
    {last : Word .endOfInput}
    (h : (front ++ [token]) ++ rest = sentence ++ [last.1])
    (hkind : token.kind ≠ .endOfInput) :
    ∃ more, more ⊆ rest ∧ (front ++ [token]) ++ more = sentence := by
  rcases List.eq_nil_or_concat rest with rfl | ⟨more, final, rfl⟩
  · rw [List.append_nil] at h
    obtain ⟨_, hlast⟩ := List.append_inj' h rfl
    rw [List.singleton_inj.mp hlast] at hkind
    exact absurd last.2 hkind
  · rw [List.concat_eq_append, ← List.append_assoc] at h
    obtain ⟨hsentence, _⟩ := List.append_inj' h rfl
    refine ⟨more, ?_, hsentence⟩
    rw [List.concat_eq_append]
    exact List.subset_append_left _ _

section Sources

variable {source : Source} {program : Program}

/-- The tokens of a source are the first of its tape. -/
theorem stretch_source {count : Nat} (h : count ≤ source.tokens.toList.length) :
    (List.range' 0 count).map source.tape
      = source.tokens.toList.take count := by
  apply List.ext_getElem?
  intro index
  rw [List.getElem?_map]
  rcases Nat.lt_or_ge index count with hlt | hge
  · rw [List.getElem?_take_of_lt hlt, List.getElem?_range' hlt,
      Array.getElem?_toList]
    have hsize : index < source.tokens.size := by
      rw [Array.length_toList] at h
      omega
    simp [Source.tape, hsize]
  · rw [List.getElem?_eq_none (by simpa using hge),
      List.getElem?_eq_none (by simp; omega)]
    rfl

/-- Only the tokens of a source are identifiers, if it closes with an end of
input. -/
theorem lt_length_of_identifier
    (hclosing : source.closing.kind = .endOfInput) {index : Nat}
    (h : (source.tape index).kind = .identifier) :
    index < source.tokens.toList.length := by
  by_contra hge
  rw [Array.length_toList, Nat.not_lt] at hge
  have hpast : source.tape index = source.closing := by
    rw [Source.tape, Array.getD_eq_getD_getElem?,
      Array.getElem?_eq_none hge]
    rfl
  rw [hpast, hclosing] at h
  cases h

/-- The words on the tape of a readable source have their texts. -/
theorem Readable.wordedTape (h : Readable source) : WordedTape source.tape := by
  intro index hkind
  rw [Source.tape, Array.getD_eq_getD_getElem?] at hkind ⊢
  cases htoken : source.tokens[index]? with
  | none =>
      rw [htoken, Option.getD_none, h.closing] at hkind
      rcases hkind with hkind | hkind <;> cases hkind
  | some token =>
      rw [htoken] at hkind
      rw [← Array.getElem?_toList] at htoken
      exact h.worded token (List.mem_of_getElem? htoken) hkind

/-- What a run comes to on a tape that goes on to a greedy program behind the
first tokens of another. -/
theorem outcome_of_going_on {tape : Tape} (htape : WordedTape tape)
    (hprogram : program.WellFormed) {statements : List Statement}
    (hgreedy : GreedyProgram statements) {count : Nat} {more : List Token}
    (hmore : Worded more)
    (hread : (List.range' 0 count).map tape ++ more
      = statementTokens statements) :
    ∃ final,
      Reaches semantics (goingOn tape count more)
        (Config.initial semantics { program } 0) final ∧
      (Scoped program.symbols.names statements ∧
        final.phase = .halted .accepted ∧
        elaborateStatements statements program = some final.memory.program ∨
      ∃ number index name,
        final.phase = .halted (.failed (.undefined name)) ∧
        final.taken = 0 + (index + 1) ∧
        UndefinedIn program.symbols.names statements number index name ∧
        ∀ later place other,
          UndefinedIn program.symbols.names statements later place other →
          index ≤ place) := by
  have hcarries := carries_goingOn tape 0 count more
  rw [hread, Nat.zero_add] at hcarries
  have hlength : (statementTokens statements).length
      = count + more.length := by
    rw [← hread]
    simp
  have hend : (goingOn tape count more
      (0 + (statementTokens statements).length)).kind = .endOfInput := by
    rw [Nat.zero_add, hlength, goingOn_end]
    rfl
  have hdraft : ({ program } : Draft).program.WellFormed := hprogram
  exact outcome_cases (htape.goingOn count hmore) hdraft hgreedy hcarries hend

/-- Reading a source on top of a program fails at an undefined use only. -/
theorem undefinedUse_of_failed (hsource : Readable source)
    (hprogram : program.WellFormed) {fuel : Nat}
    {final : Config Draft Value Refusal}
    (hrun : (Config.initial semantics { program } 0).run tables semantics
      source.tape fuel = final)
    {reason : Refusal} (hfailed : final.phase = .halted (.failed reason)) :
    ∃ index name, reason = .undefined name ∧ final.taken = index + 1 ∧
      UndefinedUse program.symbols.names source.tokens.toList index name := by
  obtain ⟨index, name, hreason, htaken, hshifted, hused, _⟩ :=
    use_of_failure hsource.wordedTape hprogram hrun hfailed
  rw [Nat.zero_add] at htaken
  refine ⟨index, name, hreason, htaken, ?_⟩
  have hkind : (source.tape index).kind = .identifier := by
    obtain ⟨⟨token, htoken, hkind, _⟩, _⟩ := hused
    simp at htoken
    rw [htoken]
    exact hkind
  have hlt := lt_length_of_identifier hsource.closing hkind
  have hviable := viable_shifted semantics source.tape { program } 0 fuel
  rw [hrun, hshifted] at hviable
  obtain ⟨rest, statements, last, htexts, hgreedy, hread⟩ :=
    hviable.exists_reading
  rw [List.range'_1_concat, List.map_append, Nat.zero_add] at hread
  obtain ⟨more, hsub, hmore⟩ := exists_before_end hread (by
    rw [hkind]
    decide)
  have hworded : Worded more :=
    fun token hmem _ => htexts token (hsub hmem)
  have hsame : (List.range' 0 index).map source.tape ++ [source.tape index]
      = (List.range' 0 (index + 1)).map source.tape := by
    rw [List.range'_1_concat, List.map_append, Nat.zero_add]
    rfl
  rw [hsame] at hmore
  obtain ⟨other, hother, houtcome⟩ := outcome_of_going_on
    hsource.wordedTape hprogram hgreedy hworded hmore
  -- the run does not see that the tape goes on differently
  obtain ⟨steps, hsteps⟩ : Reaches semantics
      (goingOn source.tape (index + 1) more)
      (Config.initial semantics { program } 0) final := by
    apply Reaches.of_agree ⟨fuel, hrun⟩
    intro place hplace
    exact goingOn_eq_of_lt source.tape more (by omega)
  have hhalted : final.isHalted := by rw [Config.isHalted, hfailed]
  have hover : other.isHalted := by
    rcases houtcome with ⟨_, hphase, _⟩ | ⟨_, _, _, hphase, _⟩ <;>
      rw [Config.isHalted, hphase]
  rw [← hsteps] at hhalted
  obtain rfl : final = other :=
    hsteps.symm.trans (run_eq_of_reaches hother hover hhalted)
  rcases houtcome with ⟨_, haccepted, _⟩ |
    ⟨number, place, found, hphase, hplace, hundefined, _⟩
  · rw [hfailed] at haccepted
    cases haccepted
  · rw [hfailed, hreason] at hphase
    cases hphase
    obtain rfl : place = index := by omega
    refine ⟨hlt, statements, more, number, hgreedy, hworded, ?_, hundefined⟩
    rw [← hmore, stretch_source hlt]

/-- Reading a source on top of a program fails at its first undefined use. -/
theorem failed_of_firstUndefinedUse (hsource : Readable source)
    (hprogram : program.WellFormed) {index : Nat} {name : String}
    (h : FirstUndefinedUse program.symbols.names source.tokens.toList index
      name) :
    ∃ final,
      Reaches semantics source.tape (Config.initial semantics { program } 0)
        final ∧
      final.phase = .halted (.failed (.undefined name)) ∧
      final.taken = index + 1 := by
  obtain ⟨⟨hlt, statements, more, number, hgreedy, hworded, hread,
    hundefined⟩, hfirst⟩ := h
  have hgoes := hread
  rw [← stretch_source hlt] at hgoes
  obtain ⟨final, hreach, houtcome⟩ := outcome_of_going_on
    hsource.wordedTape hprogram hgreedy hworded hgoes
  rcases houtcome with ⟨hscoped, _⟩ |
    ⟨own, place, found, hphase, htaken, hfound, hmin⟩
  · -- an undefined use is out of scope
    have hnumber : number < max statements.length (number + 1) := by omega
    refine absurd ?_ (hundefined.not_scoped hnumber)
    rw [List.take_of_length_le (Nat.le_max_left _ _)]
    exact hscoped
  have hplace : place ≤ index := hmin number index name hundefined
  obtain rfl : place = index := by
    by_contra hne
    have hbefore : place < index := by omega
    refine hfirst place hbefore found ⟨by omega, statements,
      (source.tokens.toList.take (index + 1)).drop (place + 1) ++ more, own,
      hgreedy, ?_, ?_, hfound⟩
    · intro token hmem
      rcases List.mem_append.mp hmem with hold | hnew
      · exact hsource.worded token
          (List.mem_of_mem_take (List.mem_of_mem_drop hold))
      · exact hworded token hnew
    · have hmin : min (place + 1) (index + 1) = place + 1 := by omega
      rw [← hread, ← List.append_assoc]
      congr 1
      conv_rhs => rw [← List.take_append_drop (place + 1)
        (source.tokens.toList.take (index + 1)), List.take_take, hmin]
  obtain rfl := hundefined.used.name_eq hfound.used
  refine ⟨final, ?_, hphase, by omega⟩
  apply hreach.of_agree
  intro later hlater
  exact (goingOn_eq_of_lt source.tape more (by omega)).symm

end Sources

/-- **Reading a text fails at its first undefined use, and for no other
reason.**  Nothing is ever missing and no operand is a bare identifier; the
reading fails because a name is undefined exactly if the text has a first
undefined use and that is its name; and then the tokens up to the use have been
read, and no others. -/
theorem readText_fails_at_first_undefined_use (text : String)
    (program : Program) (hprogram : program.WellFormed) :
    (∀ gap, (readText text program).outcome
      ≠ some (.failed (.missing gap))) ∧
    (∀ name, (readText text program).outcome
      ≠ some (.failed (.unexpanded name))) ∧
    (∀ name, (readText text program).outcome
        = some (.failed (.undefined name)) ↔
      ∃ index, FirstUndefinedUse program.symbols.names (tokensOf text) index
        name) ∧
    ∀ index name, FirstUndefinedUse program.symbols.names (tokensOf text)
        index name →
      (readText text program).reading.taken = index + 1 := by
  have hsource : Readable (.ofText text) := Or.inl ⟨text, rfl⟩
  have hhalted := isHalted_of_closing hsource.closing { program } 0
  generalize hrun : (Config.initial semantics { program } 0).run tables
    semantics (Source.ofText text).tape
    (Reading.fuel (Source.ofText text).length) = final at hhalted
  have hattempt : readText text program = _ := attempt_eq hrun
  have hfailed : ∀ reason, final.halt? = some (.failed reason) →
      ∃ index name, reason = .undefined name ∧ final.taken = index + 1 ∧
        UndefinedUse program.symbols.names (tokensOf text) index name :=
    fun reason hhalt =>
      undefinedUse_of_failed hsource hprogram hrun (phase_of_halt? hhalt)
  have hfirst : ∀ index name,
      FirstUndefinedUse program.symbols.names (tokensOf text) index name →
      final.halt? = some (.failed (.undefined name)) ∧
        final.taken = index + 1 := by
    intro index name huse
    obtain ⟨other, hreach, hphase, htaken⟩ :=
      failed_of_firstUndefinedUse hsource hprogram huse
    have hover : other.isHalted := by rw [Config.isHalted, hphase]
    rw [← hrun] at hhalted
    obtain rfl : final = other :=
      hrun.symm.trans (run_eq_of_reaches hreach hover hhalted)
    exact ⟨by rw [Config.halt?, hphase], htaken⟩
  rw [hattempt]
  refine ⟨?_, ?_, ?_, fun index name huse => (hfirst index name huse).2⟩
  · intro gap hhalt
    obtain ⟨_, _, hreason, _⟩ := hfailed _ hhalt
    cases hreason
  · intro name hhalt
    obtain ⟨_, _, hreason, _⟩ := hfailed _ hhalt
    cases hreason
  · intro name
    constructor
    · intro hhalt
      obtain ⟨index, found, _, _, huse⟩ := hfailed _ hhalt
      obtain ⟨first, other, hother⟩ := huse.exists_first
      obtain ⟨hagain, _⟩ := hfirst first other hother
      have hsame : final.halt? = some (.failed (.undefined name)) := hhalt
      rw [hsame] at hagain
      cases hagain
      exact ⟨first, hother⟩
    · rintro ⟨index, huse⟩
      exact (hfirst index name huse).1

/-- A declaration is not in scope in its own expression, however far that
reaches. -/
theorem own_name_is_undefined :
    Program.empty.WellFormed ∧
    (readText "let I = \\x.I" .empty).outcome
      = some (.failed (.undefined "I")) ∧
    (readText "let I = \\x.I" .empty).reading.taken = 7 ∧
    ∃ index, FirstUndefinedUse [] (tokensOf "let I = \\x.I") index "I" ∧
      (readText "let I = \\x.I" .empty).reading.taken = index + 1 := by
  have hprogram := Program.wellFormed_empty
  have houtcome : (readText "let I = \\x.I" .empty).outcome
      = some (.failed (.undefined "I")) := by
    decide +kernel
  have htaken : (readText "let I = \\x.I" .empty).reading.taken = 7 := by
    decide +kernel
  obtain ⟨_, _, hiff, hread⟩ := readText_fails_at_first_undefined_use
    "let I = \\x.I" .empty hprogram
  obtain ⟨index, huse⟩ := (hiff "I").mp houtcome
  exact ⟨hprogram, houtcome, htaken, index, huse, hread index "I" huse⟩

end LambdaStack.Grammar
