import Chip8.Number.Exact

/-! Integers and machine words taken from floating-point numbers. -/

namespace Chip8.Number

/-- The integer part, toward zero; nothing for what is not finite. -/
def trunc? (x : Float) : Option Int :=
  (Exact.ofFloat x).trunc?

/-- The number itself if it is an integer. -/
def integer? (x : Float) : Option Int :=
  (Exact.ofFloat x).integer?

/-- The integer part; what is not finite counts as zero. -/
def toInt (x : Float) : Int :=
  (trunc? x).getD 0

/-- The integer part modulo 2 ^ 32. -/
def toWord32 (x : Float) : UInt32 :=
  UInt32.ofInt (toInt x)

/-- The integer part modulo 2 ^ 16. -/
def toWord16 (x : Float) : UInt16 :=
  UInt16.ofInt (toInt x)

/-- The integer part modulo 2 ^ 8. -/
def toByte (x : Float) : UInt8 :=
  UInt8.ofInt (toInt x)

/-- The integer part modulo 2 ^ 32 with the upper half taken as negative. -/
def toSigned32 (x : Float) : Int :=
  (Int32.ofInt (toInt x)).toInt

/-- An integer that lies in `0 .. bound - 1`. -/
def index? (bound : Nat) (x : Float) : Option (Fin bound) :=
  match integer? x with
  | some (.ofNat n) => if h : n < bound then some ⟨n, h⟩ else none
  | _ => none

/-- Stands for an infinite count: no loop gets this far. -/
def endless : Nat := UInt64.size

/-- How many of 0, 1, 2, … are less than `x`. -/
def naturalsBelow (x : Float) : Nat :=
  match Exact.ofFloat x with
  | .finite false m e =>
    if Exact.isWhole m e then Exact.wholePart m e else Exact.wholePart m e + 1
  | .infinite false => endless
  | _ => 0

/-- How many of 0, 1, 2, … are at most `x`. -/
def naturalsUpTo (x : Float) : Nat :=
  match Exact.ofFloat x with
  | .finite negative m e => if negative ∧ m ≠ 0 then 0 else Exact.wholePart m e + 1
  | .infinite false => endless
  | _ => 0

/-- Rounds toward zero. -/
def truncate (x : Float) : Float :=
  if x.abs < 4503599627370496 then
    let n := x.abs.toUInt64.toFloat
    if x < 0 then -n else n
  else x

/-- Rounds toward minus infinity; a zero keeps its sign. -/
def floor (x : Float) : Float :=
  if x == 0 then x
  else
    let t := truncate x
    if x < t then t - 1 else t

/-- What is left after taking away the integer part. -/
def fraction (x : Float) : Float :=
  x - truncate x

/-- The lesser of two numbers; no number if one of them is none. -/
def least (x y : Float) : Float :=
  if x.isNaN then x else if y.isNaN then y
  else if x < y then x else if y < x then y
  else if x.toBits = 0x8000000000000000 then x else y

/-- The greater of two numbers; no number if one of them is none. -/
def greatest (x y : Float) : Float :=
  if x.isNaN then x else if y.isNaN then y
  else if y < x then x else if x < y then y
  else if x.toBits = 0x8000000000000000 then y else x

end Chip8.Number
