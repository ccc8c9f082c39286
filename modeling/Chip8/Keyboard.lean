/-! The keys of a keyboard that stand for the keys of the pad. -/

namespace Chip8.Keyboard

/-- Four rows of four keys on the left of a keyboard, by the names of their places. -/
def layout : List (String × Nat) :=
  [("Digit1", 0x1), ("Digit2", 0x2), ("Digit3", 0x3), ("Digit4", 0xc),
   ("KeyQ", 0x4), ("KeyW", 0x5), ("KeyE", 0x6), ("KeyR", 0xd),
   ("KeyA", 0x7), ("KeyS", 0x8), ("KeyD", 0x9), ("KeyF", 0xe),
   ("KeyZ", 0xa), ("KeyX", 0x0), ("KeyC", 0xb), ("KeyV", 0xf)]

/-- The place of the key that types a digit or an ASCII letter. -/
def placeOf (c : Char) : Option String :=
  if c.isDigit then some ("Digit" ++ String.singleton c)
  else if c.isAlpha then some ("Key" ++ String.singleton c.toUpper)
  else none

/-- The pad key of a typed character or of the name of a place. -/
def keyFor (input : String) : Option Nat :=
  match input.toList with
  | [c] => (placeOf c).bind (layout.lookup ·)
  | _ => layout.lookup input

end Chip8.Keyboard
