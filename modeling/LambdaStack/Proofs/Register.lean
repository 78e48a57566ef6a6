import Mathlib.Data.List.Nodup
import LambdaStack.Proofs.Elaboration
import LambdaStack.Proofs.Bindings
import LambdaStack.Proofs.Interning

/-!
# A map and an order

A table of bindings that lists its names in the order of their first
declaration can be kept as two structures: a **map** from names to values,
which knows no order, and the **order**, which knows no values.

    declared        map                  order    answer
    N is a          N ↦ a                N        nothing
    M is c          N ↦ a, M ↦ c         N M      nothing
    N is b          N ↦ b, M ↦ c         N M      a

All that keeps the two together is that a name goes to the end of the order
when the map had nothing for it.  Listing the bindings walks along the order
and asks the map for each name; there is nothing to list if the map has no
answer to one of them.

What one declaration keeps is `Register.Records`: the order is that of a table
of bindings, and the map answers like the table.

Main statement: `register_lists_declarations`.
-/

namespace LambdaStack

/-! ### Names in the order of first declaration -/

namespace Symbols

theorem insertAll_concat (symbols : Symbols)
    (bindings : List (String × Operand)) (name : String) (value : Operand) :
    symbols.insertAll (bindings ++ [(name, value)])
      = (symbols.insertAll bindings).insert name value :=
  symbols.insertAll_append bindings [(name, value)]

/-- **A name is listed where it was declared first.** -/
theorem names_insertAll_empty (bindings : List (String × Operand)) :
    (empty.insertAll bindings).names = (bindings.map Prod.fst).eraseDups := by
  -- from the end: whether the last declaration lists its name depends on the
  -- earlier ones
  induction bindings using List.reverseRecOn with
  | nil => rfl
  | append_singleton bindings binding ih =>
      rw [insertAll_concat, names_insert, ih, List.map_append,
        List.map_singleton, Bytecode.eraseDups_concat]
      simp only [List.mem_eraseDups]

/-- An entry of a table is what the table answers, if no name is listed
twice. -/
theorem get?_of_mem_entries {symbols : Symbols} (h : symbols.names.Nodup)
    {entry : String × Operand} (hentry : entry ∈ symbols.entries) :
    symbols.get? entry.1 = some entry.2 := by
  have hmem : some entry ∈ symbols.entries.map some :=
    List.mem_map_of_mem hentry
  rw [map_entries h] at hmem
  obtain ⟨name, _, hname⟩ := List.mem_map.mp hmem
  obtain ⟨value, hvalue, rfl⟩ := Option.map_eq_some_iff.mp hname
  exact hvalue

end Symbols

/-- Values by name, and the names in the order of their first declaration. -/
structure Register where
  values : Std.HashMap String Operand
  order : Array String

namespace Register

/-- The register without bindings. -/
def empty : Register := ⟨∅, #[]⟩

/-- Binds a name, and answers what it was bound to before. -/
def insert (register : Register) (name : String) (value : Operand) :
    Option Operand × Register :=
  let previous := register.values[name]?
  let order :=
    if previous.isNone then register.order.push name else register.order
  (previous, ⟨register.values.insert name value, order⟩)

/-- Binds names one after the other, and lists the answers. -/
def insertAll (register : Register) :
    List (String × Operand) → List (Option Operand) × Register
  | [] => ([], register)
  | (name, value) :: bindings =>
    let (previous, after) := register.insert name value
    let (answers, last) := after.insertAll bindings
    (previous :: answers, last)

/-- What a name is bound to. -/
def get? (register : Register) (name : String) : Option Operand :=
  register.values[name]?

/-- Whether a name is bound. -/
def contains (register : Register) (name : String) : Bool :=
  register.values.contains name

/-- The number of names. -/
def size (register : Register) : Nat :=
  register.order.size

/-- The bindings in the order of the names; nothing if a name has no value. -/
def list? (register : Register) : Option (List (String × Operand)) :=
  register.order.toList.mapM fun name => (register.get? name).map (name, ·)

/-- A declaration is noticed by nobody who asks for another name. -/
theorem get?_insert (register : Register) (name other : String)
    (value : Operand) :
    (register.insert name value).2.get? other
      = if other = name then some value else register.get? other := by
  simp only [get?, insert, Std.HashMap.getElem?_insert, beq_iff_eq]
  by_cases hsame : other = name
  · rw [if_pos hsame, if_pos hsame.symm]
  · rw [if_neg hsame, if_neg (Ne.symm hsame)]

/-- The register has the names of the table in their order, and binds them
alike. -/
structure Records (register : Register) (symbols : Symbols) : Prop where
  order : register.order.toList = symbols.names
  values : ∀ name, register.get? name = symbols.get? name

theorem records_empty : empty.Records .empty :=
  ⟨rfl, fun _ => Std.HashMap.getElem?_empty⟩

namespace Records

variable {register : Register} {symbols : Symbols}

/-- The map has no answer exactly for the names that the order lacks. -/
theorem isNone_iff (h : register.Records symbols) (name : String) :
    (register.get? name).isNone ↔ name ∉ symbols.names := by
  rw [h.values, Grammar.mem_names_iff, Option.isNone_iff_eq_none,
    Option.eq_none_iff_forall_ne_some, not_exists]

/-- **One declaration** keeps map and order together. -/
theorem insert (h : register.Records symbols) (name : String)
    (value : Operand) :
    (register.insert name value).2.Records (symbols.insert name value) := by
  constructor
  · have horder : (register.insert name value).2.order
        = if (register.get? name).isNone then register.order.push name
          else register.order := rfl
    rw [horder, Symbols.names_insert]
    by_cases hlisted : name ∈ symbols.names
    · have hold : ¬ (register.get? name).isNone :=
        fun hnone => (h.isNone_iff name).mp hnone hlisted
      rw [if_pos hlisted, if_neg hold, h.order]
    · rw [if_neg hlisted, if_pos ((h.isNone_iff name).mpr hlisted),
        Array.toList_push, h.order]
  · intro other
    rw [register.get?_insert]
    split
    · next hsame => rw [hsame, Symbols.get?_insert_self]
    · next hother =>
      rw [Symbols.get?_insert_of_ne symbols value hother, h.values]

/-- **All declarations.** -/
theorem insertAll (h : register.Records symbols)
    (bindings : List (String × Operand)) :
    (register.insertAll bindings).2.Records (symbols.insertAll bindings) := by
  induction bindings generalizing register symbols with
  | nil => exact h
  | cons binding bindings ih => exact ih (h.insert binding.1 binding.2)

/-- Walking along the order finds a value for every name, and so lists the
entries of the table. -/
theorem list?_eq (h : register.Records symbols)
    (hnodup : symbols.names.Nodup) :
    register.list? = some symbols.entries := by
  have hwalk : (register.order.toList.map fun name =>
      (register.get? name).map (name, ·)) = symbols.entries.map some := by
    rw [Symbols.map_entries hnodup, h.order]
    simp only [h.values]
  calc register.list?
      = (register.order.toList.map fun name =>
          (register.get? name).map (name, ·)).mapM id := by
        rw [list?, List.mapM_map]
        rfl
    _ = symbols.entries.mapM some := by
        rw [hwalk, List.mapM_map]
        rfl
    _ = some (symbols.entries.map id) := List.mapM_pure (m := Option)
    _ = some symbols.entries := by rw [List.map_id]

theorem contains_eq (h : register.Records symbols) (name : String) :
    register.contains name = decide (name ∈ symbols.names) := by
  rw [contains, Std.HashMap.contains_eq_isSome_getElem?, ← get?, h.values,
    Bool.eq_iff_iff, decide_eq_true_iff, Grammar.mem_names_iff,
    Option.isSome_iff_exists]

end Records

/-- **An answer is what the name was bound to just before.** -/
theorem answers_insertAll (register : Register)
    (bindings : List (String × Operand)) :
    (register.insertAll bindings).1
      = bindings.mapIdx fun index binding =>
          (register.insertAll (bindings.take index)).2.get? binding.1 := by
  induction bindings generalizing register with
  | nil => rfl
  | cons binding bindings ih =>
      rw [List.mapIdx_cons]
      exact congrArg (register.get? binding.1 :: ·)
        (ih (register.insert binding.1 binding.2).2)

end Register

/-- **A register lists each declared name once, in the order of first
declaration, with the value of its last one.**  Whatever was declared, the walk
along the order finds a value for every name, and lists the entries of the
table of bindings.  The register answers for a name as this list does, and has
as many names.  Every declaration was answered by what the name was bound to
before, and another one would change the value of its own name only. -/
theorem register_lists_declarations (bindings : List (String × Operand)) :
    let register := (Register.empty.insertAll bindings).2
    let entries := (Symbols.empty.insertAll bindings).entries
    register.list? = some entries ∧
    entries.map Prod.fst = (bindings.map Prod.fst).eraseDups ∧
    (entries.map Prod.fst).Nodup ∧
    (∀ entry ∈ entries, Symbols.last? bindings entry.1 = some entry.2) ∧
    (∀ name, register.get? name = entries.lookup name ∧
      register.contains name = decide (name ∈ entries.map Prod.fst)) ∧
    register.size = entries.length ∧
    (Register.empty.insertAll bindings).1
      = (bindings.mapIdx fun index binding =>
          (Register.empty.insertAll (bindings.take index)).2.get? binding.1) ∧
    ∀ name value other, (register.insert name value).2.get? other
      = if other = name then some value else register.get? other := by
  intro register entries
  have hrecords : register.Records (Symbols.empty.insertAll bindings) :=
    Register.records_empty.insertAll bindings
  have hempty : Symbols.empty.names.Nodup := List.nodup_nil
  have hnodup := Symbols.nodup_names_insertAll hempty bindings
  refine ⟨hrecords.list?_eq hnodup, Symbols.names_insertAll_empty bindings,
    hnodup, ?_, ?_, ?_, Register.answers_insertAll _ bindings, ?_⟩
  · intro entry hentry
    have hget := Symbols.get?_of_mem_entries hnodup hentry
    rw [Symbols.get?_insertAll] at hget
    exact (Option.or_none).symm.trans hget
  · exact fun name => ⟨hrecords.values name, hrecords.contains_eq name⟩
  · calc register.size
        = register.order.toList.length := Array.length_toList.symm
      _ = entries.length := by
          rw [hrecords.order, Symbols.names, List.length_map]
  · exact fun name value other => register.get?_insert name other value

/-- A name that is declared again keeps its place. -/
theorem register_of_redeclared_name :
    let register := (Register.empty.insertAll
      [("N", .node 0), ("M", .node 2), ("N", .node 1)]).2
    register.list? = some [("N", .node 1), ("M", .node 2)] ∧
    register.get? "M" = some (.node 2) ∧ register.contains "F" = false := by
  intro register
  obtain ⟨hlist, _, _, _, hlookup, _⟩ := register_lists_declarations
    [("N", .node 0), ("M", .node 2), ("N", .node 1)]
  exact ⟨hlist, (hlookup "M").1, (hlookup "F").2⟩

end LambdaStack
