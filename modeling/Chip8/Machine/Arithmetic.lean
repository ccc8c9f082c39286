import Chip8.Instruction
import Chip8.Machine

/-! The operations between two registers. -/

namespace Chip8

/-- The result for the first register, and the flag if the operation has one. -/
def ArithOp.eval (op : ArithOp) (d : Dialect) (a b : UInt8) : UInt8 × Option Bool :=
  let logicFlag := if d.logicClearsFlag then some false else none
  let shifted := if d.shiftsSecond then b else a
  match op with
  | .copy => (b, none)
  | .or => (a ||| b, logicFlag)
  | .and => (a &&& b, logicFlag)
  | .xor => (a ^^^ b, logicFlag)
  | .add => (a + b, some (255 < a.toNat + b.toNat))
  | .sub => (a - b, some (b ≤ a))
  | .shiftRight => (shifted >>> 1, some (shifted.toNat % 2 == 1))
  | .subFrom => (b - a, some (a ≤ b))
  | .shiftLeft => (shifted <<< 1, some (128 ≤ shifted.toNat))

/-- Sums and differences, which need both of their operands. -/
def ArithOp.needsBoth : ArithOp → Bool
  | .add | .sub | .subFrom => true
  | _ => false

/-- The result for operands of which some may not be there. A sum or a difference comes to nothing
then, without a flag; everything else takes zero for what is missing. -/
def ArithOp.evalAvailable (op : ArithOp) (d : Dialect) (a? b? : Option UInt8) :
    UInt8 × Option Bool :=
  if op.needsBoth && (a?.isNone || b?.isNone) then (0, some false)
  else op.eval d (a?.getD 0) (b?.getD 0)

theorem ArithOp.evalAvailable_some (op : ArithOp) (d : Dialect) (a b : UInt8) :
    op.evalAvailable d (some a) (some b) = op.eval d a b := by
  simp [evalAvailable]

/-- The flag is set last, so it wins where the result goes to the flag register. -/
def Machine.arith (m : Machine) (op : ArithOp) (x y : Register) : Machine :=
  let (value, flag) := op.evalAvailable m.dialect (m.value? x) (m.value? y)
  match flag with
  | some f => (m.assign x value).setFlag f
  | none => m.assign x value

end Chip8
