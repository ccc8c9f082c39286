/-! The instructions of the machine. -/

namespace Chip8

/-- The operations between two registers. -/
inductive ArithOp where
  | copy
  | or
  | and
  | xor
  | add
  | sub
  | shiftRight
  | subFrom
  | shiftLeft
  deriving DecidableEq, Repr

/-- Operands are `x` and `y` for registers, `n` for a count of rows, `nn` for a byte and `nnn` for
an address. They are natural numbers in what a word encodes, and may be any numbers in what a caller
hands in. -/
inductive Instruction (α : Type) where
  | clear
  | ret
  | machineCall (nnn : α)
  | jump (nnn : α)
  | call (nnn : α)
  | skipIfByte (x nn : α)
  | skipUnlessByte (x nn : α)
  | skipIfSame (x y : α)
  | skipUnlessSame (x y : α)
  | setByte (x nn : α)
  | addByte (x nn : α)
  | arith (op : ArithOp) (x y : α)
  | setIndex (nnn : α)
  | jumpOffset (nnn : α)
  | random (x nn : α)
  | draw (x y n : α)
  | skipIfKey (x : α)
  | skipUnlessKey (x : α)
  | readDelay (x : α)
  | waitKey (x : α)
  | setDelay (x : α)
  | setSound (x : α)
  | addIndex (x : α)
  | pointGlyph (x : α)
  | storeDecimal (x : α)
  | store (x : α)
  | load (x : α)
  deriving DecidableEq, Repr

namespace Instruction

/-- Every operand fits its field of an instruction word, and a machine call is not one of the two
words that mean something else. -/
def InRange : Instruction Nat → Prop
  | clear => True
  | ret => True
  | machineCall nnn => nnn < 4096 ∧ nnn ≠ 0x0e0 ∧ nnn ≠ 0x0ee
  | jump nnn => nnn < 4096
  | call nnn => nnn < 4096
  | skipIfByte x nn => x < 16 ∧ nn < 256
  | skipUnlessByte x nn => x < 16 ∧ nn < 256
  | skipIfSame x y => x < 16 ∧ y < 16
  | skipUnlessSame x y => x < 16 ∧ y < 16
  | setByte x nn => x < 16 ∧ nn < 256
  | addByte x nn => x < 16 ∧ nn < 256
  | arith _ x y => x < 16 ∧ y < 16
  | setIndex nnn => nnn < 4096
  | jumpOffset nnn => nnn < 4096
  | random x nn => x < 16 ∧ nn < 256
  | draw x y n => x < 16 ∧ y < 16 ∧ n < 16
  | skipIfKey x => x < 16
  | skipUnlessKey x => x < 16
  | readDelay x => x < 16
  | waitKey x => x < 16
  | setDelay x => x < 16
  | setSound x => x < 16
  | addIndex x => x < 16
  | pointGlyph x => x < 16
  | storeDecimal x => x < 16
  | store x => x < 16
  | load x => x < 16

end Instruction

end Chip8
