import Chip8.Fault
import Chip8.Number.Integer

/-! The source of random numbers. -/

namespace Chip8

/-- The results of all calls to come, a number from zero up to below one or what is raised in its
place, and how many of them were used. Nothing depends on a source but through the results. -/
structure Source where
  results : Nat → Except Failure Float
  used : Nat

namespace Source

def next (s : Source) : Except Failure Float × Source :=
  (s.results s.used, { s with used := s.used + 1 })

/-- Scrambles the bits of a word. -/
def mix (x : UInt64) : UInt64 :=
  let x := (x ^^^ (x >>> 30)) * 0xbf58476d1ce4e5b9
  let x := (x ^^^ (x >>> 27)) * 0x94d049bb133111eb
  x ^^^ (x >>> 31)

/-- A source that never fails, with numbers that follow from a seed. -/
def seeded (seed : UInt64) : Source where
  results := fun i =>
    .ok ((mix (seed + UInt64.ofNat (i + 1) * 0x9e3779b97f4a7c15) >>> 11).toFloat / 9007199254740992)
  used := 0

/-- The byte that a random number gives. -/
def toByte (x : Float) : UInt8 :=
  Number.toByte (Number.floor (x * 256))

end Source

end Chip8
