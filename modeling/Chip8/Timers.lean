import Chip8.Number.Integer

/-! The delay and the sound timer, which count down sixty times a second. -/

namespace Chip8

structure Timers where
  delay : UInt8
  sound : UInt8
  deriving DecidableEq, Repr

namespace Timers

def initial : Timers where
  delay := 0
  sound := 0

/-- The setting that any number stands for: its integer part brought into `0 .. 255`, and zero for
what is not finite. -/
def level (x : Float) : UInt8 :=
  UInt8.ofNat (min (Number.toInt x).toNat 255)

def countDown (t : UInt8) : UInt8 :=
  if t = 0 then 0 else t - 1

@[simp] theorem toNat_countDown (t : UInt8) : (countDown t).toNat = t.toNat - 1 := by
  by_cases h : t = 0
  · simp [countDown, h]
  · have : 1 ≤ t := by
      rw [UInt8.le_iff_toNat_le]
      have := fun e => h (UInt8.toNat_inj.1 e)
      simp at this ⊢
      omega
    simp [countDown, h, UInt8.toNat_sub_of_le _ _ this]

def reset (_ : Timers) : Timers :=
  initial

def tick (t : Timers) : Timers where
  delay := countDown t.delay
  sound := countDown t.sound

def setDelay (t : Timers) (x : Float) : Timers :=
  { t with delay := level x }

def setSound (t : Timers) (x : Float) : Timers :=
  { t with sound := level x }

/-- The buzzer sounds while the sound timer runs. -/
def soundActive (t : Timers) : Bool :=
  t.sound != 0

end Timers

end Chip8
