import LambdaStack.Bytecode.Decode

/-!
# What can be read from a byte stream

Every byte stream consists of whole commands and of what stands behind them:

    encodings of commands     rest                     read as
    PUSH 3  FUNC  STORE 0     -                        these commands
    PUSH 3  FUNC              9 ...                    an unknown command
    PUSH 3  FUNC              STORE                    a missing operand

An operand may be any byte, also one that looks like a command or like nothing
at all, so the commands are told apart only by reading them from the beginning.
Every stream can be divided in this way (`exists_division`), and a decoder
follows the division (`Decoder.results_of_divides`), so there is only one.

Main statement: `decoding_divides_stream`.
-/

namespace LambdaStack.Bytecode

/-! ### Commands and their bytes -/

namespace Command

/-- `PUSH`, `STORE` and `LOAD` have an operand. -/
def takesOperand (command : Command) : Prop :=
  command = push ∨ command = store ∨ command = load

/-- The test agrees with the list of commands that take an operand. -/
theorem hasOperand_iff (command : Command) :
    command.hasOperand = true ↔ command.takesOperand := by
  cases command <;> simp [hasOperand, takesOperand]

/-- Bytes above the last command mean nothing. -/
theorem ofByte?_eq_none_iff (byte : UInt8) :
    ofByte? byte = none ↔ 7 < byte.toNat := by
  unfold ofByte?
  split <;> grind

/-- A byte stands for one command only, the one that is written as it. -/
theorem byte_of_ofByte? {byte : UInt8} {command : Command}
    (h : ofByte? byte = some command) : command.byte = byte := by
  apply UInt8.toNat.inj
  unfold ofByte? at h
  split at h
  all_goals cases h
  all_goals exact Eq.symm ‹_›

end Command

/-- The bytes of commands with their operands. -/
def encodeAll (commands : List (Command × Option UInt8)) : List UInt8 :=
  commands.flatMap fun command => encode command.1 command.2

/-- Exactly the commands that take an operand have one. -/
def Furnished (commands : List (Command × Option UInt8)) : Prop :=
  ∀ command ∈ commands, command.2.isSome ↔ command.1.takesOperand

/-- What an item was read from. -/
def Item.content (item : Item) : Command × Option UInt8 :=
  (item.command, item.operand)

/-- What can stand behind whole commands, at the given offset, and the error
that it is. -/
inductive Ends (offset : Nat) : List UInt8 → Option DecodeError → Prop
  | finished : Ends offset [] none
  | unknown (byte : UInt8) (bytes : List UInt8) (hbyte : 7 < byte.toNat) :
      Ends offset (byte :: bytes) (some (.unknownCommand offset byte))
  | cutOff (command : Command) (hoperand : command.takesOperand) :
      Ends offset [command.byte] (some (.missingOperand offset command))

/-- The bytes from `offset` on are those of whole commands, and what is behind
them ends in the error if there is one. -/
def Divides (offset : Nat) (bytes : List UInt8)
    (commands : List (Command × Option UInt8)) (error? : Option DecodeError) :
    Prop :=
  Furnished commands ∧
    ∃ rest, bytes = encodeAll commands ++ rest ∧
      Ends (offset + (encodeAll commands).length) rest error?

/-! ### Dividing a stream -/

section Division

variable {offset : Nat} {bytes : List UInt8} {command : Command}
  {operand : Option UInt8} {commands : List (Command × Option UInt8)}
  {error? : Option DecodeError}

/-- Commands are written one behind the other. -/
theorem encodeAll_cons (command : Command × Option UInt8)
    (commands : List (Command × Option UInt8)) :
    encodeAll (command :: commands)
      = encode command.1 command.2 ++ encodeAll commands :=
  List.flatMap_cons

/-- Where no command can be read, the stream is divided already. -/
theorem Ends.divides (h : Ends offset bytes error?) :
    Divides offset bytes [] error? :=
  ⟨by simp [Furnished], bytes, rfl, h⟩

/-- One more command in front. -/
theorem Divides.cons
    (h : Divides (offset + (encode command operand).length) bytes commands
      error?)
    (hoperand : operand.isSome ↔ command.takesOperand) :
    Divides offset (encode command operand ++ bytes)
      ((command, operand) :: commands) error? := by
  obtain ⟨hfurnished, rest, rfl, hends⟩ := h
  refine ⟨List.forall_mem_cons.mpr ⟨hoperand, hfurnished⟩, rest, ?_, ?_⟩
  · rw [encodeAll_cons, List.append_assoc]
  · rw [encodeAll_cons, List.length_append, ← Nat.add_assoc]
    exact hends

/-- **Every stream can be divided**, by induction on its length: the first byte
is no command, or lacks its operand, or is the first of a command's bytes. -/
theorem exists_division (offset : Nat) (bytes : List UInt8) :
    ∃ commands error?, Divides offset bytes commands error? := by
  induction hlength : bytes.length using Nat.strongRecOn
    generalizing offset bytes with
  | ind length ih =>
  cases bytes with
  | nil => exact ⟨[], none, Ends.finished.divides⟩
  | cons byte bytes =>
      have hshorter : bytes.length < length := by
        rw [← hlength]
        exact Nat.lt_succ_self bytes.length
      cases hbyte : Command.ofByte? byte with
      | none =>
          have hlt := (Command.ofByte?_eq_none_iff byte).mp hbyte
          exact ⟨[], _, (Ends.unknown byte bytes hlt).divides⟩
      | some command =>
          obtain rfl := Command.byte_of_ofByte? hbyte
          by_cases htakes : command.takesOperand
          · cases bytes with
            | nil => exact ⟨[], _, (Ends.cutOff command htakes).divides⟩
            | cons operand bytes =>
                have hrest : bytes.length < length :=
                  Nat.lt_of_succ_lt hshorter
                obtain ⟨commands, error?, hdivides⟩ :=
                  ih bytes.length hrest
                    (offset + (encode command (some operand)).length) bytes rfl
                exact ⟨_, error?, hdivides.cons (by simpa using htakes)⟩
          · obtain ⟨commands, error?, hdivides⟩ :=
              ih bytes.length hshorter
                (offset + (encode command none).length) bytes rfl
            exact ⟨_, error?, hdivides.cons (by simpa using htakes)⟩

end Division

/-! ### Reading a stream -/

/-- The items of commands with their operands, the first at the given
offset. -/
def itemsFrom : Nat → List (Command × Option UInt8) → List Item
  | _, [] => []
  | offset, (command, operand) :: rest =>
    ⟨offset, command, operand⟩
      :: itemsFrom (offset + (encode command operand).length) rest

namespace Decoder

variable {offset : Nat} {bytes : List UInt8} {error? : Option DecodeError}

/-- A decoder that gives nothing has no results left. -/
theorem results_of_next?_eq_none {decoder : Decoder}
    (h : decoder.next? = none) : decoder.results = [] := by
  rw [results]
  split
  · rfl
  · next hsome =>
    rw [h] at hsome
    cases hsome

/-- What a decoder gives is the first of its results. -/
theorem results_of_next?_eq_some {decoder rest : Decoder}
    {result : Except DecodeError Item}
    (h : decoder.next? = some (result, rest)) :
    decoder.results = result :: rest.results := by
  rw [results]
  split
  · next hnone =>
    rw [h] at hnone
    cases hnone
  · next hsome =>
    rw [h] at hsome
    obtain ⟨rfl, rfl⟩ := Prod.mk.inj (Option.some.inj hsome)
    rfl

/-- Nothing comes out of no bytes. -/
theorem results_nil (offset : Nat) : results ⟨offset, []⟩ = [] :=
  results_of_next?_eq_none rfl

/-- A command with its operand is the first thing read from its bytes. -/
theorem next?_encode {command : Command} {operand : Option UInt8}
    (h : operand.isSome ↔ command.takesOperand) (offset : Nat)
    (bytes : List UInt8) :
    next? ⟨offset, encode command operand ++ bytes⟩
      = some (.ok ⟨offset, command, operand⟩,
        ⟨offset + (encode command operand).length, bytes⟩) := by
  rw [← command.hasOperand_iff] at h
  cases operand with
  | none =>
      have hnone : command.hasOperand = false := by simpa using h
      simp [encode, next?, Command.ofByte?_byte, hnone]
  | some byte =>
      have hsome : command.hasOperand = true := by simpa using h
      simp [encode, next?, Command.ofByte?_byte, hsome]

/-- Behind the commands a decoder finds the error, and then nothing more. -/
theorem results_of_ends (h : Ends offset bytes error?) :
    results ⟨offset, bytes⟩ = (error?.map .error).toList := by
  cases h with
  | finished => exact results_nil offset
  | unknown byte bytes hbyte =>
      have hnone := (Command.ofByte?_eq_none_iff byte).mpr hbyte
      have hnext : next? ⟨offset, byte :: bytes⟩
          = some (.error (.unknownCommand offset byte),
            ⟨offset + 1 + bytes.length, []⟩) := by
        rw [next?, hnone]
      rw [results_of_next?_eq_some hnext, results_nil]
      rfl
  | cutOff command hoperand =>
      have htakes := command.hasOperand_iff.mpr hoperand
      have hnext : next? ⟨offset, [command.byte]⟩
          = some (.error (.missingOperand offset command),
            ⟨offset + 1, []⟩) := by
        simp only [next?, Command.ofByte?_byte, htakes, if_true]
      rw [results_of_next?_eq_some hnext, results_nil]
      rfl

/-- **A stream that is divided is read accordingly**: its commands, and then
its error. -/
theorem results_of_divides {commands : List (Command × Option UInt8)}
    (h : Divides offset bytes commands error?) :
    results ⟨offset, bytes⟩
      = (itemsFrom offset commands).map .ok ++ (error?.map .error).toList := by
  obtain ⟨hfurnished, rest, rfl, hends⟩ := h
  induction commands generalizing offset with
  | nil => exact results_of_ends hends
  | cons command commands ih =>
      obtain ⟨hfirst, hlater⟩ := List.forall_mem_cons.mp hfurnished
      rw [encodeAll_cons, List.length_append, ← Nat.add_assoc] at hends
      rw [encodeAll_cons, List.append_assoc,
        results_of_next?_eq_some (next?_encode hfirst offset _),
        ih hlater hends]
      rfl

/-- What the decoder answers when it is called, and the decoder afterwards.  A
decoder that has nothing to answer stays as it is. -/
def call (decoder : Decoder) :
    Option (Except DecodeError Item) × Decoder :=
  match decoder.next? with
  | some (result, rest) => (some result, rest)
  | none => (none, decoder)

/-- The answer to the call after so many others. -/
def answer (decoder : Decoder) : Nat → Option (Except DecodeError Item)
  | 0 => decoder.call.1
  | calls + 1 => decoder.call.2.answer calls

/-- Called again and again, a decoder answers all its results and then nothing
for ever. -/
theorem answer_eq_getElem? (decoder : Decoder) (calls : Nat) :
    decoder.answer calls = decoder.results[calls]? := by
  induction calls generalizing decoder with
  | zero =>
      cases hnext : decoder.next? with
      | none => simp [answer, call, hnext, results_of_next?_eq_none hnext]
      | some found =>
          obtain ⟨result, rest⟩ := found
          simp [answer, call, hnext, results_of_next?_eq_some hnext]
  | succ calls ih =>
      cases hnext : decoder.next? with
      | none =>
          simp [answer, call, hnext, ih, results_of_next?_eq_none hnext]
      | some found =>
          obtain ⟨result, rest⟩ := found
          simp [answer, call, hnext, ih, results_of_next?_eq_some hnext]

end Decoder

/-! ### Items -/

/-- The error if there is one, and the items if there is none. -/
def itemsUnless (items : List Item) :
    Option DecodeError → Except DecodeError (List Item)
  | none => .ok items
  | some error => .error error

/-- Items are handed out unless an error comes behind them. -/
theorem collect_append (items : List Item) (error? : Option DecodeError) :
    collect (items.map .ok ++ (error?.map .error).toList)
      = itemsUnless items error? := by
  induction items with
  | nil => cases error? <;> rfl
  | cons item items ih =>
      rw [List.map_cons, List.cons_append, collect, ih]
      cases error? <;> rfl

/-- Each item is at the end of the bytes of those before it. -/
theorem getElem?_itemsFrom (offset : Nat)
    (commands : List (Command × Option UInt8)) (index : Nat) :
    (itemsFrom offset commands)[index]?
      = commands[index]?.map fun command =>
        ⟨offset + (encodeAll (commands.take index)).length,
          command.1, command.2⟩ := by
  induction commands generalizing offset index with
  | nil => simp [itemsFrom]
  | cons command commands ih =>
      cases index with
      | zero => rfl
      | succ index =>
          rw [itemsFrom, List.getElem?_cons_succ, ih, List.getElem?_cons_succ,
            List.take_succ_cons, encodeAll_cons, List.length_append,
            Nat.add_assoc]

/-- Items at places have the commands they were made from. -/
theorem map_content_itemsFrom (offset : Nat)
    (commands : List (Command × Option UInt8)) :
    (itemsFrom offset commands).map Item.content = commands := by
  apply List.ext_getElem?
  intro index
  rw [List.getElem?_map, getElem?_itemsFrom, Option.map_map]
  exact Option.map_id_apply

/-- **A stream that is divided is decoded accordingly.** -/
theorem decode_of_divides {bytes : List UInt8}
    {commands : List (Command × Option UInt8)} {error? : Option DecodeError}
    (h : Divides 0 bytes commands error?) :
    decode bytes = itemsUnless (itemsFrom 0 commands) error? := by
  rw [decode, Decoder.ofBytes, Decoder.results_of_divides h, collect_append]

/-- The offset of each item is the length of the encodings before it. -/
def Placed (items : List Item) : Prop :=
  ∀ index item, items[index]? = some item →
    item.offset = (encodeAll ((items.take index).map Item.content)).length

/-- Items follow each other without gaps. -/
theorem placed_itemsFrom (commands : List (Command × Option UInt8)) :
    Placed (itemsFrom 0 commands) := by
  intro index item hitem
  rw [getElem?_itemsFrom, Option.map_eq_some_iff] at hitem
  obtain ⟨command, _, rfl⟩ := hitem
  rw [List.map_take, map_content_itemsFrom, Nat.zero_add]

/-- A stream that is divided without an error holds the commands only. -/
theorem divides_none_iff {bytes : List UInt8}
    {commands : List (Command × Option UInt8)} :
    Divides 0 bytes commands none ↔
      Furnished commands ∧ bytes = encodeAll commands := by
  constructor
  · rintro ⟨hfurnished, rest, rfl, hends⟩
    cases hends
    exact ⟨hfurnished, List.append_nil _⟩
  · rintro ⟨hfurnished, rfl⟩
    exact ⟨hfurnished, [], (List.append_nil _).symm, .finished⟩

/-- Decoding succeeds exactly on commands written one behind the other, and
gives them with their offsets. -/
theorem decode_eq_ok_iff {bytes : List UInt8} {items : List Item} :
    decode bytes = .ok items ↔
      ∃ commands, Furnished commands ∧ bytes = encodeAll commands ∧
        items = itemsFrom 0 commands := by
  constructor
  · intro hok
    obtain ⟨commands, error?, hdivides⟩ := exists_division 0 bytes
    rw [decode_of_divides hdivides] at hok
    cases error? with
    | none =>
        obtain ⟨hfurnished, hbytes⟩ := divides_none_iff.mp hdivides
        exact ⟨commands, hfurnished, hbytes, (Except.ok.inj hok).symm⟩
    | some error => cases hok
  · rintro ⟨commands, hfurnished, hbytes, rfl⟩
    exact decode_of_divides (divides_none_iff.mpr ⟨hfurnished, hbytes⟩)

/-- Decoding fails exactly where commands are followed by something that is
none. -/
theorem decode_eq_error_iff {bytes : List UInt8} {error : DecodeError} :
    decode bytes = .error error ↔
      ∃ commands, Divides 0 bytes commands (some error) := by
  constructor
  · intro herror
    obtain ⟨commands, error?, hdivides⟩ := exists_division 0 bytes
    rw [decode_of_divides hdivides] at herror
    cases error? with
    | none => cases herror
    | some found =>
        obtain rfl := Except.error.inj herror
        exact ⟨commands, hdivides⟩
  · rintro ⟨commands, hdivides⟩
    exact decode_of_divides hdivides

/-- **Decoding divides a stream.**  A stream is decoded to given commands, of
which exactly `PUSH`, `STORE` and `LOAD` have an operand, if and only if it is
made up of their encodings; each item that is read has such a command, and its
offset is the length of the encodings before it.  Decoding fails with an error
if and only if the stream is made up of such encodings and of what this error is
about: a byte that is no command, whatever follows it, or a `PUSH`, `STORE` or
`LOAD` that is the last byte.  A decoder that is called again and again answers
the items of the commands, then the error if there is one, and then nothing for
ever. -/
theorem decoding_divides_stream (bytes : List UInt8) :
    (∀ commands, Furnished commands →
      ((∃ items, decode bytes = .ok items ∧
          items.map Item.content = commands) ↔
        bytes = encodeAll commands)) ∧
    (∀ items, decode bytes = .ok items →
      Furnished (items.map Item.content) ∧ Placed items) ∧
    (∀ error, decode bytes = .error error ↔
      ∃ commands rest, Furnished commands ∧
        bytes = encodeAll commands ++ rest ∧
        Ends (encodeAll commands).length rest (some error)) ∧
    ∃ items error?,
      Divides 0 bytes (items.map Item.content) error? ∧ Placed items ∧
      decode bytes = itemsUnless items error? ∧
      ∀ calls, (Decoder.ofBytes bytes).answer calls
        = (items.map .ok ++ (error?.map .error).toList)[calls]? := by
  refine ⟨?_, ?_, ?_, ?_⟩
  · intro commands hfurnished
    constructor
    · rintro ⟨items, hok, rfl⟩
      obtain ⟨commands, _, hbytes, rfl⟩ := decode_eq_ok_iff.mp hok
      rw [map_content_itemsFrom]
      exact hbytes
    · intro hbytes
      have hok := decode_eq_ok_iff.mpr ⟨commands, hfurnished, hbytes, rfl⟩
      exact ⟨_, hok, map_content_itemsFrom 0 commands⟩
  · intro items hok
    obtain ⟨commands, hfurnished, _, rfl⟩ := decode_eq_ok_iff.mp hok
    rw [map_content_itemsFrom]
    exact ⟨hfurnished, placed_itemsFrom commands⟩
  · intro error
    simp only [decode_eq_error_iff, Divides, Nat.zero_add, exists_and_left]
  · obtain ⟨commands, error?, hdivides⟩ := exists_division 0 bytes
    refine ⟨itemsFrom 0 commands, error?, ?_, placed_itemsFrom commands,
      decode_of_divides hdivides, ?_⟩
    · rw [map_content_itemsFrom]
      exact hdivides
    · intro calls
      rw [Decoder.answer_eq_getElem?, Decoder.ofBytes,
        Decoder.results_of_divides hdivides]

/-- An operand may look like a command, and a lone `LOAD` at the end does not
lack its byte if it is the operand of a `PUSH`. -/
example :
    decode [1, 3] = .ok [⟨0, .push, some 3⟩] ∧
      decode [7, 1, 3, 3] = .error (.missingOperand 3 .load) ∧
      decode [2, 9, 9, 1] = .error (.unknownCommand 2 9) := by
  refine ⟨?_, ?_, ?_⟩ <;> cbv

end LambdaStack.Bytecode
