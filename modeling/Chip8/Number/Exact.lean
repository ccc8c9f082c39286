/-! The exact value of a binary floating-point number, read off its bits. -/

namespace Chip8

/-- No number, an infinity, or a signed multiple of a power of two. -/
inductive Exact where
  | notANumber
  | infinite (negative : Bool)
  | finite (negative : Bool) (mantissa : Nat) (exponent : Int)
  deriving DecidableEq, Repr

namespace Exact

/-- Reads sign, exponent and fraction of a word whose fields have the given widths. -/
def ofFields (fractionBits exponentBits raw : Nat) : Exact :=
  let unit := 1 <<< fractionBits
  let fraction := raw % unit
  let biased := raw / unit % (1 <<< exponentBits)
  let negative := raw.testBit (fractionBits + exponentBits)
  let bias := (1 <<< (exponentBits - 1)) - 1 + fractionBits
  if biased + 1 = 1 <<< exponentBits then
    if fraction = 0 then .infinite negative else .notANumber
  else if biased = 0 then .finite negative fraction (1 - (bias : Int))
  else .finite negative (unit + fraction) ((biased : Int) - bias)

def ofFloat (x : Float) : Exact :=
  ofFields 52 11 x.toBits.toNat

/-- The value of a 32-bit floating-point word. -/
def ofSingle (w : UInt32) : Exact :=
  ofFields 23 8 w.toNat

/-- `mantissa * 2 ^ exponent` without its fraction. -/
def wholePart (mantissa : Nat) (exponent : Int) : Nat :=
  if 0 ≤ exponent then mantissa <<< exponent.toNat else mantissa >>> (-exponent).toNat

/-- Whether `mantissa * 2 ^ exponent` has no fraction. -/
def isWhole (mantissa : Nat) (exponent : Int) : Bool :=
  0 ≤ exponent || mantissa % (1 <<< (-exponent).toNat) == 0

/-- The integer part, toward zero; nothing for what is not finite. -/
def trunc? : Exact → Option Int
  | .finite negative m e =>
    some (if negative then -(wholePart m e : Int) else wholePart m e)
  | _ => none

/-- The value itself if it is an integer. -/
def integer? : Exact → Option Int
  | .finite negative m e =>
    if isWhole m e then (finite negative m e).trunc? else none
  | _ => none

end Exact

end Chip8
