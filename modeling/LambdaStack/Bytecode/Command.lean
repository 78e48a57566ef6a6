/-!
# The commands of the stack machine

A program for the stack machine is a sequence of bytes.  A **command** is
one byte; `PUSH`, `STORE` and `LOAD` are followed by one more byte, their
**operand**, the code of a variable (`PUSH`) or of an identifier (`STORE`
and `LOAD`).
-/

namespace LambdaStack.Bytecode

/-- The commands, in the order of their bytes. -/
inductive Command where
  | pop
  | push
  | store
  | load
  | func
  | apply
  | eval
  | print
  deriving DecidableEq, Repr, Inhabited

namespace Command

/-- The byte of a command. -/
def byte : Command → UInt8
  | pop => 0
  | push => 1
  | store => 2
  | load => 3
  | func => 4
  | apply => 5
  | eval => 6
  | print => 7

/-- The command with a given byte. -/
def ofByte? (byte : UInt8) : Option Command :=
  match byte.toNat with
  | 0 => some pop
  | 1 => some push
  | 2 => some store
  | 3 => some load
  | 4 => some func
  | 5 => some apply
  | 6 => some eval
  | 7 => some print
  | _ => none

/-- The name of a command. -/
def name : Command → String
  | pop => "POP"
  | push => "PUSH"
  | store => "STORE"
  | load => "LOAD"
  | func => "FUNC"
  | apply => "APPLY"
  | eval => "EVAL"
  | print => "PRINT"

/-- Whether an operand byte follows. -/
def hasOperand : Command → Bool
  | push | store | load => true
  | _ => false

/-- A command is read back from its byte. -/
theorem ofByte?_byte (command : Command) :
    ofByte? command.byte = some command := by
  cases command <;> rfl

end Command

end LambdaStack.Bytecode
