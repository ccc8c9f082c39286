import Chip8.Number.Scalar

/-! The names of the sixteen byte registers. -/

namespace Chip8

/-- A register by its number. A caller from outside may name one that is not there; it holds nothing
and keeps nothing. -/
inductive Register where
  | known (number : Fin 16)
  | stray (number : Float)
  deriving DecidableEq

namespace Register

/-- The register that a number names. -/
def of {α : Type} [Scalar α] (x : α) : Register :=
  match Scalar.natural? x with
  | some n => if h : n < 16 then known ⟨n, h⟩ else stray (Scalar.toFloat x)
  | none => stray (Scalar.toFloat x)

theorem of_nat {n : Nat} (h : n < 16) : of n = known ⟨n, h⟩ := by
  simp [of, h]

def flagNumber : Fin 16 := 15

/-- The register that takes carries, borrows and collisions. -/
def flag : Register := known flagNumber

/-- The number in decimal. -/
def text : Register → String
  | known i => toString i.val
  | stray x => Number.text x

end Register

end Chip8
