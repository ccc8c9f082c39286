/-! Blank characters around a text. -/

namespace Chip8.Text

/-- Tab, line ends, the space characters and the byte order mark. -/
def isBlank (c : Char) : Bool :=
  let n := c.toNat
  (9 ≤ n && n ≤ 13) || n == 0x20 || n == 0xa0 || n == 0x1680 || (0x2000 ≤ n && n ≤ 0x200a)
    || n == 0x2028 || n == 0x2029 || n == 0x202f || n == 0x205f || n == 0x3000 || n == 0xfeff

/-- The characters without the blanks at both ends. -/
def trim (cs : List Char) : List Char :=
  ((cs.dropWhile isBlank).reverse.dropWhile isBlank).reverse

/-- A text that holds nothing but blanks. -/
def isAllBlank (s : String) : Bool :=
  s.toList.all isBlank

/-- Trimmed, with ASCII letters in lower case. The words that settings are compared with hold no
letter that another alphabet folds to. -/
def keyword (s : String) : String :=
  String.ofList ((trim s.toList).map Char.toLower)

end Chip8.Text
