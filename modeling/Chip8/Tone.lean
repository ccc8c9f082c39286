import Chip8.Number.Integer
import Chip8.Number.Single

/-! A square wave. Its phase is kept from one stretch to the next, so that they join. -/

namespace Chip8

/-- The word of a 32-bit floating-point number between -1 and 1. -/
abbrev Sample := UInt32

/-- `phase` counts periods, and only its fraction is kept. -/
structure Tone where
  sampleRate : Float
  frequency : Float
  volume : Float
  phase : Float

namespace Tone

def standardRate : Float := 44100

def standardFrequency : Float := 440

def standardVolume : Float := 0.25

/-- A wave at the start of a period. The volume is brought into `0 .. 1`. -/
def make (sampleRate frequency volume : Float) : Tone where
  sampleRate
  frequency
  volume := Number.greatest 0 (Number.least 1 volume)
  phase := 0

def increment (t : Tone) : Float :=
  t.frequency / t.sampleRate

def high (t : Tone) : Sample :=
  Single.ofFloat t.volume

def low (t : Tone) : Sample :=
  Single.ofFloat (-t.volume)

/-- High in the first half of a period, low in the second. -/
def sample (t : Tone) : Sample :=
  if t.phase < 0.5 then t.high else t.low

/-- The wave one sample later. -/
def next (t : Tone) : Tone :=
  { t with phase := Number.fraction (t.phase + t.increment) }

/-- Puts so many samples of two given levels behind those that are there. -/
def playLevels (high low : Sample) : Nat → Tone → Array Sample → Array Sample × Tone
  | 0, t, out => (out, t)
  | n + 1, t, out =>
    playLevels high low n t.next (out.push (if t.phase < 0.5 then high else low))

/-- Puts so many samples behind those that are there. The levels are the same all the way, and are
rounded once. -/
def play (count : Nat) (t : Tone) (out : Array Sample) : Array Sample × Tone :=
  playLevels t.high t.low count t out

theorem play_zero (t : Tone) (out : Array Sample) : play 0 t out = (out, t) :=
  rfl

theorem play_succ (n : Nat) (t : Tone) (out : Array Sample) :
    play (n + 1) t out = play n t.next (out.push t.sample) :=
  rfl

/-- So many samples; silence leaves the wave where it is. -/
def render (t : Tone) (count : Nat) (active : Bool) : Array Sample × Tone :=
  if active then play count t #[] else (Array.replicate count 0, t)

/-- The count that any number stands for: its signed 32-bit integer part, and none if that is
negative. -/
def countOf (x : Float) : Nat :=
  (Number.toSigned32 x).toNat

/-- The whole samples in one frame. -/
def samplesPerFrame (t : Tone) (framesPerSecond : Float) : Float :=
  Number.floor (t.sampleRate / framesPerSecond)

def reset (t : Tone) : Tone :=
  { t with phase := 0 }

end Tone

end Chip8
