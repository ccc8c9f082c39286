/-! The glyphs of the hexadecimal digits, kept at the bottom of memory. -/

namespace Chip8.Font

def base : Nat := 0

def glyphBytes : Nat := 5

/-- Five rows for each digit, four pixels wide in the high half of a byte. -/
def glyphs : List (List UInt8) :=
  [[0xf0, 0x90, 0x90, 0x90, 0xf0],
   [0x20, 0x60, 0x20, 0x20, 0x70],
   [0xf0, 0x10, 0xf0, 0x80, 0xf0],
   [0xf0, 0x10, 0xf0, 0x10, 0xf0],
   [0x90, 0x90, 0xf0, 0x10, 0x10],
   [0xf0, 0x80, 0xf0, 0x10, 0xf0],
   [0xf0, 0x80, 0xf0, 0x90, 0xf0],
   [0xf0, 0x10, 0x20, 0x40, 0x40],
   [0xf0, 0x90, 0xf0, 0x90, 0xf0],
   [0xf0, 0x90, 0xf0, 0x10, 0xf0],
   [0xf0, 0x90, 0xf0, 0x90, 0x90],
   [0xe0, 0x90, 0xe0, 0x90, 0xe0],
   [0xf0, 0x80, 0x80, 0x80, 0xf0],
   [0xe0, 0x90, 0x90, 0x90, 0xe0],
   [0xf0, 0x80, 0xf0, 0x80, 0xf0],
   [0xf0, 0x80, 0xf0, 0x80, 0x80]]

/-- All glyphs in a row, eighty bytes. -/
def bytes : Array UInt8 :=
  glyphs.flatten.toArray

/-- Where the glyph of a digit starts; only the low four bits of the digit count. -/
def address (digit : Nat) : Nat :=
  base + digit % 16 * glyphBytes

end Chip8.Font
