import Chip8.Text.Hex

/-! The 32-bit FNV-1a hash, a checksum for images and pictures. -/

namespace Chip8.Hash

def offsetBasis : UInt32 := 0x811c9dc5

def prime : UInt32 := 0x01000193

/-- Takes one byte into the hash. -/
def absorb (hash : UInt32) (byte : UInt8) : UInt32 :=
  (hash ^^^ byte.toUInt32) * prime

def fnv1a (bytes : Array UInt8) (seed : UInt32) : UInt32 :=
  bytes.foldl absorb seed

theorem fnv1a_append (a b : Array UInt8) (seed : UInt32) :
    fnv1a (a ++ b) seed = fnv1a b (fnv1a a seed) := by
  simp [fnv1a]

def hexText (hash : UInt32) : String :=
  Text.lowerHex hash.toNat 8

/-- The checksum of a byte sequence as eight digits. -/
def checksum (bytes : Array UInt8) : String :=
  hexText (fnv1a bytes offsetBasis)

end Chip8.Hash
