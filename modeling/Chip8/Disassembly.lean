import Chip8.Instruction.Encoding
import Chip8.Instruction.Mnemonic
import Chip8.Number.Scalar

/-! Listings of program images. -/

namespace Chip8

namespace Disassembly

/-- The text of an instruction word; a word that means nothing is shown as data. -/
def wordText (word : Int) : String :=
  match Instruction.decode word with
  | some i => i.text
  | none => "DW 0x" ++ Text.hex (UInt32.ofInt word).toNat 4

/-- What an image is made of: words, and a byte that is left over at the end. -/
inductive Chunk where
  | word (high low : UInt8)
  | byte (b : UInt8)
  deriving DecidableEq, Repr

namespace Chunk

def opcode : Chunk → Nat
  | word high low => high.toNat * 256 + low.toNat
  | byte b => b.toNat

def text : Chunk → String
  | word high low => wordText (high.toNat * 256 + low.toNat : Nat)
  | byte b => "DB 0x" ++ Text.hex b.toNat 2

end Chunk

def chunks : List UInt8 → List Chunk
  | [] => []
  | [b] => [.byte b]
  | high :: low :: rest => .word high low :: chunks rest

/-- A line of a listing, with an address in any arithmetic. -/
structure Line (α : Type) where
  address : α
  opcode : Nat
  text : String

/-- One line for every two bytes of an image that starts at `origin`. -/
def lines [Scalar α] (origin : α) (image : List UInt8) : List (Line α) :=
  (chunks image).zipIdx.map fun (c, i) =>
    ⟨origin + Scalar.ofNat (2 * i), c.opcode, c.text⟩

/-- A line shows two digits for a data byte and four for a word. -/
def Line.render [Scalar α] (l : Line α) : String :=
  let digits := if l.text.startsWith "DB" then 2 else 4
  Text.hex (Scalar.toWord32 l.address).toNat 3 ++ "  "
    ++ Text.padRight 4 (Text.hex l.opcode digits) ++ "  " ++ l.text

def listing [Scalar α] (ls : List (Line α)) : String :=
  "\n".intercalate (ls.map Line.render)

end Disassembly

end Chip8
