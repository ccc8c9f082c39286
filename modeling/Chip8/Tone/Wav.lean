import Chip8.Number.Scalar
import Chip8.Tone.Pcm

/-! Sound files: one channel of sixteen-bit levels behind a header of 44 bytes. -/

namespace Chip8.Wav

def headerBytes : Nat := 44

def bytesPerSample : Nat := 2

/-- The bytes of ASCII text. -/
def tag (s : String) : List UInt8 :=
  s.toList.map fun c => UInt8.ofNat c.toNat

/-- A number in so many bytes, the lowest first. -/
def littleEndian (count n : Nat) : List UInt8 :=
  (List.range count).map fun i => UInt8.ofNat (n >>> (8 * i))

/-- A level in two bytes, negative ones in two's complement. -/
def levelBytes (level : Int) : List UInt8 :=
  let word := UInt16.ofInt level
  [word.toUInt8, (word >>> 8).toUInt8]

/-- The word of a header field, cut to an integer. A number that is negative or too large does not
fit; what is no number is written as zero. -/
def field? {α : Type} [Scalar α] (x : α) : Option UInt32 :=
  if x ≤ x ∧ ¬(Scalar.ofNat 0 ≤ x ∧ x ≤ Scalar.ofNat 4294967295) then none
  else some (Scalar.toWord32 x)

def header (dataBytes : Nat) (rate byteRate : UInt32) : List UInt8 :=
  tag "RIFF" ++ littleEndian 4 (headerBytes - 8 + dataBytes) ++ tag "WAVE"
    ++ tag "fmt " ++ littleEndian 4 16 ++ littleEndian 2 1 ++ littleEndian 2 1
    ++ littleEndian 4 rate.toNat ++ littleEndian 4 byteRate.toNat
    ++ littleEndian 2 bytesPerSample ++ littleEndian 2 16
    ++ tag "data" ++ littleEndian 4 dataBytes

/-- The file of some samples, unless a header field does not fit. -/
def encode? {α : Type} [Scalar α] (samples : Array Sample) (rate : α) :
    Option (Array UInt8) := do
  let dataBytes := samples.size * bytesPerSample
  let _ ← field? ((headerBytes - 8 + dataBytes : Nat) : Int)
  let rateField ← field? rate
  let byteRateField ← field? (rate * Scalar.ofNat bytesPerSample)
  let start := (header dataBytes rateField byteRateField).toArray
  return samples.foldl (fun out s => out ++ levelBytes s.toPcm) start

/-- The little-endian number of so many bytes from an offset on, if the file has all of them. -/
def numberAt? (file : Array UInt8) : (count offset : Nat) → Option Nat
  | 0, _ => some 0
  | count + 1, offset => do
    let low ← file[offset]?
    let high ← numberAt? file count (offset + 1)
    return low.toNat + 256 * high

/-- Whether a file is long enough for a header and starts like one. The highest bit of a byte does
not count. -/
def hasHeader (file : Array UInt8) : Bool :=
  headerBytes ≤ file.size &&
    (file.extract 0 4).toList.map (fun b => b &&& 0x7f) == tag "RIFF"

/-- The seconds that a file lasts by its header, and zero without a usable one. -/
def seconds? (file : Array UInt8) : Option Float := do
  if !hasHeader file then return 0
  let byteRate ← numberAt? file 4 28
  if byteRate = 0 then return 0
  let dataBytes ← numberAt? file 4 40
  return Float.ofNat dataBytes / Float.ofNat byteRate

/-- As above. A header that is there can be read, so that the default is never taken. -/
def seconds (file : Array UInt8) : Float :=
  (seconds? file).getD 0

end Chip8.Wav
