import Chip8.Number.Exact

/-! The decimal text of a number: the fewest digits that read back as the same number. -/

namespace Chip8.Number

/-- The exponent `p` with `10 ^ p ≤ num / den < 10 ^ (p + 1)`. -/
def decimalExponent (num den : Nat) : Int :=
  if den ≤ num then ((Nat.toDigits 10 (num / den)).length : Int) - 1
  else below 400 num 0
where
  below : Nat → Nat → Nat → Int
    | 0, _, j => -(j : Int)
    | fuel + 1, scaled, j => if den ≤ scaled then -(j : Int) else below fuel (10 * scaled) (j + 1)

/-- An integer `c` such that `c * 10 ^ e` reads back as `m * 2 ^ q`, the nearer of two. The numbers
that read back lie within half a step of the value, and the step below a power of two is half as
wide; the ends of that interval belong to it if `m` is even. -/
def candidate? (m : Nat) (q e : Int) : Option Nat :=
  let a := Nat.pow 10 (-e).toNat <<< q.toNat
  let b := Nat.pow 10 e.toNat <<< (-q).toNat
  let below := if m = 1 <<< 52 ∧ -1074 < q then 1 else 2
  let readsBack (c : Nat) : Bool :=
    if m % 2 = 0 then (4 * m - below) * a ≤ 4 * c * b && 4 * c * b ≤ (4 * m + 2) * a
    else (4 * m - below) * a < 4 * c * b && 4 * c * b < (4 * m + 2) * a
  let c := m * a / b
  let rest := m * a % b
  match readsBack c, readsBack (c + 1) with
  | true, true => some (if 2 * rest < b then c else if b < 2 * rest then c + 1 else c + c % 2)
  | true, false => some c
  | false, true => some (c + 1)
  | false, false => none

/-- The shortest decimal `c * 10 ^ e` that reads back as `m * 2 ^ q`; seventeen digits always do. -/
def shortest (m : Nat) (q : Int) : Nat × Int :=
  let p := decimalExponent (m <<< q.toNat) (1 <<< (-q).toNat)
  match (List.range 17).findSome? fun k : Nat => (candidate? m q (p - k)).map (·, p - k) with
  | some found => found
  | none => (m, 0)

/-- Writes the digits `0.ds * 10 ^ n`: positionally from `1e-6` up to below `1e21`, otherwise with
an exponent. -/
def layout (ds : List Char) (n : Int) : String :=
  let k : Int := ds.length
  if k ≤ n ∧ n ≤ 21 then String.ofList (ds ++ List.replicate (n - k).toNat '0')
  else if 0 < n ∧ n ≤ 21 then
    String.ofList (ds.take n.toNat ++ '.' :: ds.drop n.toNat)
  else if -6 < n ∧ n ≤ 0 then
    "0." ++ String.ofList (List.replicate (-n).toNat '0' ++ ds)
  else
    let e := n - 1
    let mantissa := match ds with
      | d :: r@(_ :: _) => d :: '.' :: r
      | ds => ds
    String.ofList mantissa ++ (if e < 0 then "e-" else "e+") ++ toString e.natAbs

/-- The text of a number. Both zeros are written `0`. -/
def text (x : Float) : String :=
  match Exact.ofFloat x with
  | .notANumber => "NaN"
  | .infinite negative => if negative then "-Infinity" else "Infinity"
  | .finite negative m q =>
    if m = 0 then "0"
    else
      let (c, e) := shortest m q
      let all := Nat.toDigits 10 c
      let ds := (all.reverse.dropWhile (· == '0')).reverse
      (if negative then "-" else "") ++ layout ds (e + all.length)

end Chip8.Number
