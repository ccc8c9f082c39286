import Chip8.Number.Scalar
import Chip8.Picture

/-! The 64 by 32 monochrome screen. Sprites are drawn by flipping pixels. -/

namespace Chip8

def Display.width : Nat := 64

def Display.height : Nat := 32

/-- The pixels row by row, and whether anything was drawn since the screen was last looked at. -/
structure Display where
  pixels : Vector Bool 2048
  dirty : Bool
  deriving DecidableEq

namespace Display

def initial : Display where
  pixels := Vector.replicate 2048 false
  dirty := false

def clear (_ : Display) : Display where
  pixels := Vector.replicate 2048 false
  dirty := true

/-- The pixel with a number; there is none beyond the end. -/
def isLit (d : Display) (i : Nat) : Bool :=
  d.pixels[i]?.getD false

def flip (d : Display) (i : Nat) : Display :=
  { d with pixels := d.pixels.setIfInBounds i (!d.isLit i) }

@[simp] theorem isLit_flip (d : Display) (i j : Nat) :
    (d.flip i).isLit j = (d.isLit j ^^ (decide (i = j) && decide (j < 2048))) := by
  by_cases h : j < 2048
  · by_cases e : i = j <;> simp [isLit, flip, h, e]
  · simp [isLit, h]

section Coordinates

variable {α : Type} [Scalar α]

/-- The pixel that a column and a row of a sprite at `x`, `y` fall on. Remainders keep the sign of
the dividend, so left of the screen a sprite runs into the row above, and above the screen, or
between two pixels, there is nothing. -/
def target? (x y : α) (row column : Nat) : Option Nat :=
  let py := Scalar.rem (y + Scalar.ofNat row) height
  let px := Scalar.rem (x + Scalar.ofNat column) width
  (Scalar.natural? (py * Scalar.ofNat width + px)).filter (· < 2048)

/-- The columns of the bits that are set in a sprite row, from the left. -/
def litColumns (bits : UInt8) : List Nat :=
  (List.range 8).filter fun column => bits.toNat.testBit (7 - column)

/-- The pixels that a sprite falls on, row by row. -/
def targets (x y : α) (sprite : List UInt8) : List (Option Nat) :=
  sprite.zipIdx.flatMap fun (bits, row) =>
    (litColumns bits).map fun column => target? x y row column

/-- Flips one pixel of a sprite, and remembers whether a lit pixel went dark. -/
def plot (s : Display × Bool) (target : Option Nat) : Display × Bool :=
  match target with
  | some i => ({ s.1.flip i with dirty := true }, s.2 || s.1.isLit i)
  | none => ({ s.1 with dirty := true }, s.2)

/-- Draws a sprite, eight pixels in each byte, the highest bit leftmost. The answer tells whether
any lit pixel went dark. -/
def draw (d : Display) (x y : α) (sprite : List UInt8) : Display × Bool :=
  (targets x y sprite).foldl plot (d, false)

/-- A sprite without a place: nothing is flipped, but a set pixel marks the screen as changed. -/
def miss (d : Display) (sprite : List UInt8) : Display × Bool :=
  ({ d with dirty := d.dirty || sprite.any (· != 0) }, false)

/-- The remainder that is never negative. -/
def wrap (a : α) (n : Nat) : α :=
  Scalar.rem (Scalar.rem a n + Scalar.ofNat n) n

/-- The pixel at a position of the screen, which goes on in every direction. -/
def isLitAt (d : Display) (x y : α) : Bool :=
  match Scalar.natural? (wrap y height * Scalar.ofNat width + wrap x width) with
  | some i => d.isLit i
  | none => false

end Coordinates

def litCount (d : Display) : Nat :=
  d.pixels.toArray.foldl (fun count lit => if lit then count + 1 else count) 0

def picture (d : Display) : Picture where
  width := width
  height := height
  pixels := d.pixels.toArray.map fun lit => if lit then 1 else 0

def row (d : Display) (y : Nat) : List Bool :=
  (List.range width).map fun x => d.isLit (y * width + x)

def rows (d : Display) : List (List Bool) :=
  (List.range height).map d.row

/-- Looks at the screen: whether anything was drawn or cleared since the last time. -/
def takeDirty (d : Display) : Bool × Display :=
  (d.dirty, { d with dirty := false })

end Display

end Chip8
