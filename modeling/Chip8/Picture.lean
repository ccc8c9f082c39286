import Chip8.Fault
import Chip8.Hash

/-! A still picture of the screen and the forms that it is shown in. -/

namespace Chip8

/-- Pixels row by row. Only the value 1 is lit, and a pixel that is missing is dark. -/
structure Picture where
  width : Nat
  height : Nat
  pixels : Array UInt8
  deriving DecidableEq

structure Palette where
  on : UInt8 × UInt8 × UInt8
  off : UInt8 × UInt8 × UInt8
  deriving DecidableEq

/-- White on black. -/
def Palette.standard : Palette where
  on := (0xff, 0xff, 0xff)
  off := (0, 0, 0)

def Palette.colour (p : Palette) (lit : Bool) : UInt8 × UInt8 × UInt8 :=
  if lit then p.on else p.off

namespace Picture

def isLit (p : Picture) (x y : Nat) : Bool :=
  p.pixels[y * p.width + x]? == some 1

/-- The hash of the pixels, started from the size, so that equal pixels of another size differ. -/
def fingerprint (p : Picture) : UInt32 :=
  Hash.fnv1a p.pixels
    (Hash.fnv1a #[UInt8.ofNat p.width, UInt8.ofNat p.height] Hash.offsetBasis)

def fingerprintText (p : Picture) : String :=
  Hash.hexText p.fingerprint

/-- One of the four bytes of a colour: red, green, blue, and full opacity. -/
def channel (c : UInt8 × UInt8 × UInt8) : Nat → UInt8
  | 0 => c.1
  | 1 => c.2.1
  | 2 => c.2.2
  | _ => 0xff

/-- Four bytes for each pixel, every pixel widened to `scale` by `scale`. -/
def rgba (p : Picture) (scale : Nat) (palette : Palette) : Array UInt8 :=
  Array.ofFn fun i : Fin (4 * (p.width * scale * (p.height * scale))) =>
    let pixel := i.val / 4
    let x := pixel % (p.width * scale) / scale
    let y := pixel / (p.width * scale) / scale
    channel (palette.colour (p.isLit x y)) (i.val % 4)

/-- The scale that any number stands for: its integer part, at least one, and nothing is drawn for
what is no number. -/
def scaleOf (x : Float) : Nat :=
  if x.isNaN then 0 else max 1 (Number.toInt x).toNat

/-- The error for a scale at which there are more bytes than an array has. -/
def scaleFailure? (p : Picture) (scale : Float) : Option Failure :=
  let side (n : Nat) := Float.ofNat n * Number.greatest 1 (Number.truncate scale)
  let length := side p.width * side p.height * 4
  if Float.ofNat (Failure.lengthLimit + 1) ≤ length then some (.invalidLength (Number.text length))
  else none

/-- One text for each row, with a symbol for each pixel. -/
def ascii (p : Picture) (on off : String) : List String :=
  (List.range p.height).map fun y =>
    String.join ((List.range p.width).map fun x => if p.isLit x y then on else off)

/-- A block character that shows an upper and a lower pixel. -/
def halfBlock (top bottom : Bool) : Char :=
  match top, bottom with
  | true, true => '█'
  | true, false => '▀'
  | false, true => '▄'
  | false, false => ' '

/-- Two rows of pixels in each text; below an odd last row everything is dark. -/
def halfBlocks (p : Picture) : List String :=
  (List.range ((p.height + 1) / 2)).map fun j =>
    String.ofList ((List.range p.width).map fun x =>
      halfBlock (p.isLit x (2 * j)) (2 * j + 1 < p.height && p.isLit x (2 * j + 1)))

end Picture

end Chip8
