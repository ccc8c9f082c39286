import Chip8.Number.Integer
import Chip8.Text.Blank

/-! Numbers read from text. -/

namespace Chip8.Number

def digitValue? (base : Nat) (c : Char) : Option Nat :=
  let n := c.toNat
  let d :=
    if c.isDigit then n - 48
    else if c.isUpper then n - 55
    else if c.isLower then n - 87
    else 36
  if d < base then some d else none

/-- The value of a list of digits in a base; nothing if a character is no digit. -/
def natural? (base : Nat) (cs : List Char) : Option Nat :=
  cs.foldlM (fun n c => (digitValue? base c).map (base * n + ·)) 0

/-- Splits off the digits in front. -/
def spanDigits (cs : List Char) : List Char × List Char :=
  (cs.takeWhile Char.isDigit, cs.dropWhile Char.isDigit)

/-- Splits off a sign in front: whether it was a minus. -/
def spanSign : List Char → Bool × List Char
  | '-' :: cs => (true, cs)
  | '+' :: cs => (false, cs)
  | cs => (false, cs)

/-- The exponent behind the digits of a decimal; without one it is zero. -/
def exponent? : List Char → Option Int
  | [] => some 0
  | c :: cs =>
    let (negative, ds) := spanSign cs
    if (c = 'e' ∨ c = 'E') ∧ !ds.isEmpty then
      (natural? 10 ds).map fun n => if negative then -(n : Int) else n
    else none

/-- A decimal without a sign as `m * 10 ^ e`. There is a digit before or behind the point. -/
def decimal? (cs : List Char) : Option (Nat × Int) :=
  let (whole, rest) := spanDigits cs
  let (part, rest) := match rest with
    | '.' :: r => spanDigits r
    | r => ([], r)
  if whole.isEmpty ∧ part.isEmpty then none
  else do
    let m ← natural? 10 (whole ++ part)
    let e ← exponent? rest
    return (m, e - part.length)

/-- The number nearest to `m * 10 ^ e`. -/
def ofDecimal (m : Nat) (e : Int) : Float :=
  OfScientific.ofScientific m (decide (e < 0)) e.natAbs

def notANumber : Float :=
  Float.ofBits 0x7ff8000000000000

def infinity : Float :=
  Float.ofBits 0x7ff0000000000000

/-- A signed decimal or the word `Infinity`. -/
def signed (cs : List Char) : Float :=
  let (negative, cs) := spanSign cs
  let x :=
    if cs = "Infinity".toList then infinity
    else match decimal? cs with
      | some (m, e) => ofDecimal m e
      | none => notANumber
  if negative then -x else x

/-- An integer of a base, for the digits behind a base mark. -/
def based (base : Nat) (cs : List Char) : Float :=
  if cs.isEmpty then notANumber
  else match natural? base cs with
    | some n => Float.ofNat n
    | none => notANumber

/-- The number that a text writes, with blanks around it allowed: a decimal, or digits behind `0x`,
`0o` or `0b`. A blank text is zero, and any other text is no number. -/
def ofText (s : String) : Float :=
  match Text.trim s.toList with
  | [] => 0
  | '0' :: c :: cs =>
    match c.toLower with
    | 'x' => based 16 cs
    | 'o' => based 8 cs
    | 'b' => based 2 cs
    | _ => signed ('0' :: c :: cs)
  | cs => signed cs

/-- The hexadecimal integer that a text starts with, whatever comes behind it. -/
def leadingHex? (s : String) : Option Int :=
  let (negative, cs) := spanSign (s.toList.dropWhile Text.isBlank)
  let cs := match cs with
    | '0' :: 'x' :: r => r
    | '0' :: 'X' :: r => r
    | r => r
  let ds := cs.takeWhile fun c => (digitValue? 16 c).isSome
  if ds.isEmpty then none
  else (natural? 16 ds).map fun n => if negative then -(n : Int) else n

/-- A text that is missing, blank or no finite number stands for the fallback. Any other number is
brought into the limits. -/
def ofArgument (raw : Option String) (fallback least greatest : Float) : Float :=
  match raw with
  | none => fallback
  | some s =>
    let x := ofText s
    if Text.isAllBlank s || !x.isFinite then fallback
    else Number.greatest least (Number.least greatest x)

/-- Two places behind the point for a number that is not negative; a half rounds up. -/
def twoPlaces (x : Float) : String :=
  match Exact.ofFloat x with
  | .finite _ m e =>
    let hundredths :=
      if 0 ≤ e then 100 * (m <<< e.toNat)
      else (200 * m + (1 <<< (-e).toNat)) / (2 <<< (-e).toNat)
    let rest := hundredths % 100
    toString (hundredths / 100) ++ "." ++ (if rest < 10 then "0" else "") ++ toString rest
  | _ => "NaN"

end Chip8.Number
