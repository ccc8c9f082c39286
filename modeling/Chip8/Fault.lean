import Chip8.Number.Shortest
import Chip8.Text.Hex

/-! What can go wrong: faults of the machine and its loader, and failures from outside. -/

namespace Chip8

inductive Access where
  | read
  | write
  deriving DecidableEq, Repr

def Access.word : Access → String
  | .read => "read"
  | .write => "write"

/-- A fault carries the numbers that it is about. A caller may hand the machine any number, so they
are not limited to addresses and keys that exist. A key is missing where the register that should
name it is not there. -/
inductive Fault where
  | imageTooLarge (size limit : Float)
  | imageEmpty (size limit : Float)
  | invalidOpcode (opcode pc : Float)
  | unsupportedInstruction (opcode pc : Float)
  | stackOverflow (depth : Float)
  | stackUnderflow
  | outOfBounds (address : Float) (access : Access)
  | writeProtected (address : Float)
  | invalidKey (key : Float)
  | missingKey
  | halted (cause : Fault)
  deriving DecidableEq

namespace Fault

/-- The short name that tools match on. -/
def kind : Fault → String
  | imageTooLarge .. => "rom-too-large"
  | imageEmpty .. => "rom-empty"
  | invalidOpcode .. => "invalid-opcode"
  | unsupportedInstruction .. => "unsupported-instruction"
  | stackOverflow .. => "stack-overflow"
  | stackUnderflow => "stack-underflow"
  | outOfBounds .. => "memory-out-of-bounds"
  | writeProtected .. => "memory-write-protected"
  | invalidKey .. => "invalid-key"
  | missingKey => "invalid-key"
  | halted .. => "cpu-halted"

/-- The name of the family that a fault belongs to. -/
def family : Fault → String
  | imageTooLarge .. => "RomLoadError"
  | imageEmpty .. => "RomLoadError"
  | invalidOpcode .. => "InvalidOpcodeError"
  | unsupportedInstruction .. => "UnsupportedInstructionError"
  | stackOverflow .. => "StackOverflowError"
  | stackUnderflow => "StackUnderflowError"
  | outOfBounds .. => "MemoryAccessError"
  | writeProtected .. => "MemoryWriteProtectedError"
  | invalidKey .. => "InvalidKeyError"
  | missingKey => "InvalidKeyError"
  | halted .. => "CpuHaltedError"

def message : Fault → String
  | imageTooLarge size limit =>
    "ROM image is " ++ Number.text size ++ " bytes, limit is " ++ Number.text limit
  | imageEmpty .. => "ROM image is empty"
  | invalidOpcode opcode pc =>
    "Unknown opcode " ++ Text.hexOfNumber opcode 4 ++ " at " ++ Text.hexAddress pc
  | unsupportedInstruction opcode pc =>
    "Machine-code call " ++ Text.hexOfNumber opcode 4 ++ " at " ++ Text.hexAddress pc
      ++ " is not supported"
  | stackOverflow depth => "Call stack overflow (depth " ++ Number.text depth ++ ")"
  | stackUnderflow => "Return with empty call stack"
  | outOfBounds address access =>
    "Memory " ++ access.word ++ " out of bounds at " ++ Text.hexAddress address
  | writeProtected address => "Write to reserved interpreter area at " ++ Text.hexAddress address
  | invalidKey key => "Key index " ++ Number.text key ++ " outside 0x0-0xF"
  | missingKey => "Key index undefined outside 0x0-0xF"
  | halted cause => "CPU halted: " ++ cause.message

/-- A load fault leaves the machine untouched; every other fault stops the run. -/
def fatal : Fault → Bool
  | imageTooLarge .. => false
  | imageEmpty .. => false
  | _ => true

end Fault

/-- A value that an adapter may throw in place of an error. -/
inductive Value where
  | null
  | bool (b : Bool)
  | number (x : Float)
  | text (s : String)
  | list (vs : List Value)
  | record
  deriving Inhabited

mutual

/-- The text of a value; a list is joined by commas. -/
def Value.render : Value → String
  | .null => "null"
  | .bool b => if b then "true" else "false"
  | .number x => Number.text x
  | .text s => s
  | .list vs => Value.renderList vs
  | .record => "[object Object]"

/-- Inside a list nothing is written for null. -/
def Value.renderList : List Value → String
  | [] => ""
  | [v] => Value.renderItem v
  | v :: vs => Value.renderItem v ++ "," ++ Value.renderList vs

def Value.renderItem : Value → String
  | .null => ""
  | .bool b => if b then "true" else "false"
  | .number x => Number.text x
  | .text s => s
  | .list vs => Value.renderList vs
  | .record => "[object Object]"

end

/-- Why a call did not return: a fault, an error from outside with its class and text, or a thrown
value that is no error. -/
inductive Failure where
  | fault (f : Fault)
  | error (name message : String)
  | value (v : Value)

namespace Failure

/-- The greatest length of an array: below 32 GiB of bytes. -/
def lengthLimit : Nat := 34359738367

/-- The error for an array of a length that no array has. -/
def invalidLength (length : String) : Failure :=
  .error "RangeError" ("Invalid typed array length: " ++ length)

/-- The greatest length of a text. -/
def textLimit : Nat := 536870888

/-- The error for a text that is padded to a width that no text has. -/
def ofWidth? (width : Float) : Option Failure :=
  if Float.ofNat (textLimit + 1) ≤ width then some (.error "RangeError" "Invalid string length")
  else none

/-- What a report needs: anything that is no error is wrapped in one with its text. -/
def asError : Failure → Failure
  | .value v => .error "Error" v.render
  | failure => failure

/-- One line for tool output. -/
def describe : Failure → String
  | .fault f => f.family ++ " [" ++ f.kind ++ "]: " ++ f.message
  | .error name message => if message.isEmpty then name else message
  | .value v => v.render

end Failure

end Chip8
