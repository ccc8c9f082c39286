import Chip8.Number.Integer

/-! How many steps a frame may take. -/

namespace Chip8.Budget

/-- About six hundred instructions in a second. -/
def standard : Nat := 10

def least : Nat := 1

def greatest : Nat := 1000

/-- Brings an integer into the limits. -/
def clamp (n : Int) : Nat :=
  max least (min greatest n.toNat)

theorem clamp_range (n : Int) : 1 ≤ clamp n ∧ clamp n ≤ 1000 := by
  simp only [clamp, least, greatest]
  omega

theorem clamp_of_range {n : Nat} (h : 1 ≤ n ∧ n ≤ 1000) : clamp n = n := by
  simp only [clamp, least, greatest, Int.toNat_natCast]
  omega

/-- The budget that any number stands for: its integer part within the limits. What is no number
stays none, and a frame with it takes no steps. -/
def ofNumber (x : Float) : Option Nat :=
  match Exact.ofFloat x with
  | .notANumber => none
  | .infinite negative => some (if negative then least else greatest)
  | .finite .. => some (clamp (Number.toInt x))

end Chip8.Budget
