import LambdaStack.Bytecode.Command

/-!
# Decoding a byte stream

A byte stream is read command by command.  An `Item` is a command with
its operand and the offset of its byte.  Reading stops at the first byte
that is no command, and at a command whose operand is cut off.

`Decoder.next?` reads one item and is used up after an error; `decode`
reads the whole stream.  `encode` writes items back: it is the other half
of `decode`.
-/

namespace LambdaStack.Bytecode

/-- A command read from a byte stream. -/
structure Item where
  offset : Nat
  command : Command
  operand : Option UInt8
  deriving DecidableEq, Repr

namespace Item

/-- The command and its operand as text. -/
def describe (item : Item) : String :=
  match item.operand with
  | some operand => s!"{item.command.name} {operand.toNat}"
  | none => item.command.name

end Item

/-- Why a byte stream cannot be read. -/
inductive DecodeError where
  /-- a byte that is no command -/
  | unknownCommand (offset : Nat) (byte : UInt8)
  /-- the stream ends where an operand should be -/
  | missingOperand (offset : Nat) (command : Command)
  deriving DecidableEq, Repr

/-- The digits of a byte in base sixteen, always two. -/
def hexByte (byte : UInt8) : String :=
  String.ofList
    [Nat.digitChar (byte.toNat / 16), Nat.digitChar (byte.toNat % 16)]

namespace DecodeError

/-- The wording of an error. -/
def message : DecodeError → String
  | unknownCommand offset byte =>
    s!"unknown command byte 0x{hexByte byte} at offset {offset}"
  | missingOperand offset command =>
    s!"`{command.name}` at offset {offset} is missing its operand"

end DecodeError

/-- The unread part of a byte stream and the offset where it begins. -/
structure Decoder where
  offset : Nat
  bytes : List UInt8
  deriving DecidableEq, Repr

namespace Decoder

/-- A decoder at the beginning of a stream. -/
def ofBytes (bytes : List UInt8) : Decoder := ⟨0, bytes⟩

/-- The next item or error, and the decoder after it; nothing at the end
of the stream.  After an error nothing is left to read. -/
def next? : Decoder → Option (Except DecodeError Item × Decoder)
  | ⟨_, []⟩ => none
  | ⟨offset, byte :: bytes⟩ =>
    match Command.ofByte? byte with
    | none => some (.error (.unknownCommand offset byte),
        ⟨offset + 1 + bytes.length, []⟩)
    | some command =>
      if command.hasOperand then
        match bytes with
        | [] => some (.error (.missingOperand offset command),
            ⟨offset + 1, []⟩)
        | operand :: bytes =>
          some (.ok ⟨offset, command, some operand⟩, ⟨offset + 2, bytes⟩)
      else
        some (.ok ⟨offset, command, none⟩, ⟨offset + 1, bytes⟩)

/-- Reading an item or an error uses up at least one byte. -/
theorem length_bytes_next?_lt {decoder rest : Decoder}
    {result : Except DecodeError Item}
    (h : decoder.next? = some (result, rest)) :
    rest.bytes.length < decoder.bytes.length := by
  unfold next? at h
  split at h
  · simp at h
  · split at h
    · cases h
      simp
    · split at h
      · split at h
        · cases h
          simp
        · cases h
          simp only [List.length_cons]
          omega
      · cases h
        simp

/-- Everything a decoder answers before it is used up. -/
def results (decoder : Decoder) : List (Except DecodeError Item) :=
  match _ : decoder.next? with
  | none => []
  | some (result, rest) => result :: results rest
termination_by decoder.bytes.length
decreasing_by exact length_bytes_next?_lt ‹_›

end Decoder

/-- All items in front of the first error, or that error. -/
def collect : List (Except DecodeError Item) → Except DecodeError (List Item)
  | [] => .ok []
  | .error error :: _ => .error error
  | .ok item :: results => (collect results).map (item :: ·)

/-- The items of a byte stream, or the first error in it. -/
def decode (bytes : List UInt8) : Except DecodeError (List Item) :=
  collect (Decoder.ofBytes bytes).results

/-- The bytes of a command with its operand. -/
def encode (command : Command) (operand : Option UInt8) : List UInt8 :=
  command.byte :: operand.toList

end LambdaStack.Bytecode
