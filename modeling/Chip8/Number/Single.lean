import Chip8.Number.Exact

/-! Rounding to 32-bit floating-point numbers. -/

namespace Chip8.Single

/-- `num / den` to the nearest integer, a half to the even neighbour. -/
def roundHalfEven (num den : Nat) : Nat :=
  let quotient := num / den
  let rest := num % den
  if 2 * rest < den then quotient
  else if den < 2 * rest then quotient + 1
  else quotient + quotient % 2

/-- The word of `mantissa * 2 ^ exponent` to the nearest 32-bit value, without its sign. Values are
spaced `2 ^ scale` apart; a mantissa that rounds up to the next power of two carries into the
exponent field, which is right for the sum of the two fields. -/
def magnitude (mantissa : Nat) (exponent : Int) : Nat :=
  if mantissa = 0 then 0
  else
    let scale : Int := max (exponent + mantissa.log2 - 23) (-149)
    let shift := exponent - scale
    let units :=
      if 0 ≤ shift then mantissa <<< shift.toNat else roundHalfEven mantissa (1 <<< (-shift).toNat)
    min (units + ((scale + 149).toNat <<< 23)) 0x7f800000

def ofExact : Exact → UInt32
  | .notANumber => 0x7fc00000
  | .infinite negative => if negative then 0xff800000 else 0x7f800000
  | .finite negative m e =>
    UInt32.ofNat (magnitude m e + if negative then 0x80000000 else 0)

/-- The word of the nearest 32-bit value. -/
def ofFloat (x : Float) : UInt32 :=
  ofExact (Exact.ofFloat x)

end Chip8.Single
