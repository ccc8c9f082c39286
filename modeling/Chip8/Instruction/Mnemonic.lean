import Chip8.Instruction
import Chip8.Number.Scalar
import Chip8.Text.Hex

/-! The text of an instruction. -/

namespace Chip8

def ArithOp.mnemonic : ArithOp → String
  | .copy => "LD"
  | .or => "OR"
  | .and => "AND"
  | .xor => "XOR"
  | .add => "ADD"
  | .sub => "SUB"
  | .shiftRight => "SHR"
  | .subFrom => "SUBN"
  | .shiftLeft => "SHL"

namespace Instruction

variable {α : Type} [Scalar α]

/-- The low 32 bits of an operand in upper-case digits, at least `width` of them. -/
def operandText (a : α) (width : Nat) : String :=
  Text.hex (Scalar.toWord32 a).toNat width

def registerText (x : α) : String :=
  "V" ++ operandText x 1

def byteText (nn : α) : String :=
  "0x" ++ operandText nn 2

def addressText (nnn : α) : String :=
  "0x" ++ operandText nnn 3

def text : Instruction α → String
  | clear => "CLS"
  | ret => "RET"
  | machineCall nnn => "SYS " ++ addressText nnn
  | jump nnn => "JP " ++ addressText nnn
  | call nnn => "CALL " ++ addressText nnn
  | skipIfByte x nn => "SE " ++ registerText x ++ ", " ++ byteText nn
  | skipUnlessByte x nn => "SNE " ++ registerText x ++ ", " ++ byteText nn
  | skipIfSame x y => "SE " ++ registerText x ++ ", " ++ registerText y
  | skipUnlessSame x y => "SNE " ++ registerText x ++ ", " ++ registerText y
  | setByte x nn => "LD " ++ registerText x ++ ", " ++ byteText nn
  | addByte x nn => "ADD " ++ registerText x ++ ", " ++ byteText nn
  | arith op x y => op.mnemonic ++ " " ++ registerText x ++ ", " ++ registerText y
  | setIndex nnn => "LD I, " ++ addressText nnn
  | jumpOffset nnn => "JP V0, " ++ addressText nnn
  | random x nn => "RND " ++ registerText x ++ ", " ++ byteText nn
  | draw x y n => "DRW " ++ registerText x ++ ", " ++ registerText y ++ ", " ++ Scalar.text n
  | skipIfKey x => "SKP " ++ registerText x
  | skipUnlessKey x => "SKNP " ++ registerText x
  | readDelay x => "LD " ++ registerText x ++ ", DT"
  | waitKey x => "LD " ++ registerText x ++ ", K"
  | setDelay x => "LD DT, " ++ registerText x
  | setSound x => "LD ST, " ++ registerText x
  | addIndex x => "ADD I, " ++ registerText x
  | pointGlyph x => "LD F, " ++ registerText x
  | storeDecimal x => "LD B, " ++ registerText x
  | store x => "LD [I], " ++ registerText x
  | load x => "LD " ++ registerText x ++ ", [I]"

end Instruction

end Chip8
