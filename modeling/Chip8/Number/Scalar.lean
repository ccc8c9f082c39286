import Chip8.Number.Integer
import Chip8.Number.Shortest

/-! The arithmetic of operands, addresses, screen positions and clock readings: exact on natural
numbers and integers, rounded on floating-point numbers. A definition over `Scalar` serves callers
of every kind. -/

namespace Chip8

class Scalar (α : Type) extends Add α, Sub α, Mul α, LE α where
  decLe : (a b : α) → Decidable (a ≤ b)
  ofNat : Nat → α
  /-- The remainder by a number, with the sign of the dividend. -/
  rem : α → Nat → α
  /-- The number itself if it is one of 0, 1, 2, …. -/
  natural? : α → Option Nat
  /-- How many of 0, 1, 2, … are less than the number. -/
  count : α → Nat
  /-- How many of 0, 1, 2, … are at most the number. -/
  countUpTo : α → Nat
  /-- The integer part, toward zero. -/
  toInt : α → Int
  toFloat : α → Float
  /-- The decimal text. -/
  text : α → String

namespace Scalar

instance [Scalar α] (a b : α) : Decidable (a ≤ b) :=
  decLe a b

/-- The integer part modulo 2 ^ 32. -/
def toWord32 [Scalar α] (a : α) : UInt32 :=
  UInt32.ofInt (toInt a)

/-- The integer part modulo 2 ^ 16. -/
def toWord16 [Scalar α] (a : α) : UInt16 :=
  UInt16.ofInt (toInt a)

/-- The integer part modulo 2 ^ 8. -/
def toByte [Scalar α] (a : α) : UInt8 :=
  UInt8.ofInt (toInt a)

instance : Scalar Nat where
  decLe := inferInstance
  ofNat := id
  rem a n := a % n
  natural? := some
  count := id
  countUpTo n := n + 1
  toInt := Int.ofNat
  toFloat := Float.ofNat
  text := toString

instance : Scalar Int where
  decLe := inferInstance
  ofNat := Int.ofNat
  rem a n := a.tmod n
  natural? a := if 0 ≤ a then some a.toNat else none
  count := Int.toNat
  countUpTo a := (a + 1).toNat
  toInt := id
  toFloat := Float.ofInt
  text := toString

instance : Scalar Float where
  decLe := inferInstance
  ofNat := Float.ofNat
  rem x n := x - Float.ofNat n * Number.truncate (x / Float.ofNat n)
  natural? x := match Number.integer? x with
    | some (.ofNat n) => some n
    | _ => none
  count := Number.naturalsBelow
  countUpTo := Number.naturalsUpTo
  toInt := Number.toInt
  toFloat := id
  text := Number.text

@[simp] theorem natural?_nat (n : Nat) : natural? n = some n :=
  rfl

@[simp] theorem count_nat (n : Nat) : count n = n :=
  rfl

@[simp] theorem countUpTo_nat (n : Nat) : countUpTo n = n + 1 :=
  rfl

@[simp] theorem ofNat_nat (n : Nat) : (ofNat n : Nat) = n :=
  rfl

@[simp] theorem toInt_nat (n : Nat) : toInt n = n :=
  rfl

theorem toWord16_nat (n : Nat) : toWord16 n = UInt16.ofNat n := by
  apply UInt16.toNat_inj.1
  simp [toWord16, UInt16.ofInt]
  omega

theorem toByte_nat (n : Nat) : toByte n = UInt8.ofNat n := by
  apply UInt8.toNat_inj.1
  simp [toByte, UInt8.ofInt]
  omega

end Scalar

end Chip8
