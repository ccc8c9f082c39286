/-! Image files: PNG with four channels, not compressed. -/

namespace Chip8.Png

/-- The bytes of a number, the highest of the four first. -/
def bigEndian (n : Nat) : Array UInt8 :=
  #[UInt8.ofNat (n >>> 24), UInt8.ofNat (n >>> 16), UInt8.ofNat (n >>> 8), UInt8.ofNat n]

def crcBit (c : UInt32) : UInt32 :=
  if c &&& 1 = 1 then (c >>> 1) ^^^ 0xedb88320 else c >>> 1

/-- Takes one byte into a cyclic redundancy check. -/
def crcByte (c : UInt32) (b : UInt8) : UInt32 :=
  (List.range 8).foldl (fun c _ => crcBit c) (c ^^^ b.toUInt32)

def crc (bytes : Array UInt8) : UInt32 :=
  ~~~ bytes.foldl crcByte 0xffffffff

/-- Two sums of the bytes modulo a prime, the sum of sums above the plain one. -/
def sumCheck (bytes : Array UInt8) : Nat :=
  let (a, b) := bytes.foldl (fun (a, b) x =>
    let a := (a + x.toNat) % 65521
    (a, (b + a) % 65521)) (1, 0)
  b * 65536 + a

/-- A named part of a file with its length and its check. -/
def chunk (name : String) (data : Array UInt8) : Array UInt8 :=
  let body := (name.toList.map fun c => UInt8.ofNat c.toNat).toArray ++ data
  bigEndian data.size ++ body ++ bigEndian (crc body).toNat

def blockSize : Nat := 65535

/-- A block that is stored as it is, behind its length and the complement of that. -/
def storedBlock (data : Array UInt8) (last : Bool) : Array UInt8 :=
  let n := data.size
  #[if last then 1 else 0, UInt8.ofNat n, UInt8.ofNat (n / 256),
    UInt8.ofNat (blockSize - n), UInt8.ofNat ((blockSize - n) / 256)] ++ data

/-- A stream of stored blocks. -/
def stored (data : Array UInt8) : Array UInt8 :=
  let count := max 1 ((data.size + blockSize - 1) / blockSize)
  let blocks := (Array.range count).flatMap fun i =>
    storedBlock (data.extract (i * blockSize) ((i + 1) * blockSize)) (i + 1 == count)
  #[0x78, 0x01] ++ blocks ++ bigEndian (sumCheck data)

/-- The rows of a picture, each behind the number of its filter, which is none. -/
def scanlines (width height : Nat) (rgba : Array UInt8) : Array UInt8 :=
  (Array.range height).flatMap fun y =>
    #[0] ++ rgba.extract (4 * width * y) (4 * width * (y + 1))

def encode (width height : Nat) (rgba : Array UInt8) : Array UInt8 :=
  #[0x89, 0x50, 0x4e, 0x47, 0x0d, 0x0a, 0x1a, 0x0a]
    ++ chunk "IHDR" (bigEndian width ++ bigEndian height ++ #[8, 6, 0, 0, 0])
    ++ chunk "IDAT" (stored (scanlines width height rgba))
    ++ chunk "IEND" #[]

end Chip8.Png
