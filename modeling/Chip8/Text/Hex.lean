import Chip8.Number.Integer

/-! Hexadecimal text. -/

namespace Chip8.Text

/-- Zeros in front until the list has `width` characters. -/
def padZeros (width : Nat) (cs : List Char) : List Char :=
  List.replicate (width - cs.length) '0' ++ cs

/-- Lower-case digits, at least `width` of them. -/
def lowerHex (n width : Nat) : String :=
  String.ofList (padZeros width (Nat.toDigits 16 n))

/-- Upper-case digits, at least `width` of them. -/
def hex (n width : Nat) : String :=
  String.ofList (padZeros width ((Nat.toDigits 16 n).map Char.toUpper))

/-- The low 32 bits of any number in upper-case digits. -/
def hexOfNumber (x : Float) (width : Nat) : String :=
  hex (Number.toWord32 x).toNat width

/-- The low 16 bits of any number as a four-digit address. -/
def hexAddress (x : Float) : String :=
  "0x" ++ hex (Number.toWord16 x).toNat 4

/-- Blanks behind a text until it has `width` characters. -/
def padRight (width : Nat) (s : String) : String :=
  s ++ String.ofList (List.replicate (width - s.length) ' ')

end Chip8.Text
