/-! Points on which interpreters of the same programs differ. -/

namespace Chip8

structure Dialect where
  /-- Storing and loading registers leaves the index behind the block. -/
  blocksMoveIndex : Bool
  /-- A shift takes its operand from the second register. -/
  shiftsSecond : Bool
  /-- The bitwise operations clear the flag register. -/
  logicClearsFlag : Bool
  deriving DecidableEq, Repr

def Dialect.standard : Dialect where
  blocksMoveIndex := false
  shiftsSecond := false
  logicClearsFlag := false

end Chip8
