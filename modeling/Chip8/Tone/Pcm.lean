import Chip8.Tone

/-! Samples as signed sixteen-bit integers. -/

namespace Chip8.Sample

/-- The level of full volume. -/
def peak : Nat := 32767

/-- `num / den` to the nearest integer, a half upward. -/
def roundHalfUp (num : Int) (den : Nat) : Int :=
  (2 * num + den) / (2 * den)

/-- The level of a sample: `peak` times its value between -1 and 1, rounded. What is no number is
silent. -/
def toPcm (s : Sample) : Int :=
  match Exact.ofSingle s with
  | .notANumber => 0
  | .infinite negative => if negative then -peak else peak
  | .finite _ 0 _ => 0
  | .finite negative m e =>
    let unit := 1 <<< (-e).toNat
    let (m, den) := if 0 ≤ e ∨ unit ≤ m then (1, 1) else (m, unit)
    roundHalfUp (if negative then -((m * peak : Nat) : Int) else (m * peak : Nat)) den

end Chip8.Sample
