import Chip8.Instruction

/-! Instruction words: sixteen bits, the family in the highest four. -/

namespace Chip8

namespace ArithOp

def code : ArithOp → Nat
  | copy => 0x0
  | or => 0x1
  | and => 0x2
  | xor => 0x3
  | add => 0x4
  | sub => 0x5
  | shiftRight => 0x6
  | subFrom => 0x7
  | shiftLeft => 0xe

def ofCode? : Nat → Option ArithOp
  | 0x0 => some copy
  | 0x1 => some or
  | 0x2 => some and
  | 0x3 => some xor
  | 0x4 => some add
  | 0x5 => some sub
  | 0x6 => some shiftRight
  | 0x7 => some subFrom
  | 0xe => some shiftLeft
  | _ => none

end ArithOp

namespace Instruction

/-- The word of an instruction whose operands are in range. -/
def encode : Instruction Nat → Nat
  | clear => 0x00e0
  | ret => 0x00ee
  | machineCall nnn => nnn
  | jump nnn => 0x1000 + nnn
  | call nnn => 0x2000 + nnn
  | skipIfByte x nn => 0x3000 + x * 256 + nn
  | skipUnlessByte x nn => 0x4000 + x * 256 + nn
  | skipIfSame x y => 0x5000 + x * 256 + y * 16
  | setByte x nn => 0x6000 + x * 256 + nn
  | addByte x nn => 0x7000 + x * 256 + nn
  | arith op x y => 0x8000 + x * 256 + y * 16 + op.code
  | skipUnlessSame x y => 0x9000 + x * 256 + y * 16
  | setIndex nnn => 0xa000 + nnn
  | jumpOffset nnn => 0xb000 + nnn
  | random x nn => 0xc000 + x * 256 + nn
  | draw x y n => 0xd000 + x * 256 + y * 16 + n
  | skipIfKey x => 0xe09e + x * 256
  | skipUnlessKey x => 0xe0a1 + x * 256
  | readDelay x => 0xf007 + x * 256
  | waitKey x => 0xf00a + x * 256
  | setDelay x => 0xf015 + x * 256
  | setSound x => 0xf018 + x * 256
  | addIndex x => 0xf01e + x * 256
  | pointGlyph x => 0xf029 + x * 256
  | storeDecimal x => 0xf033 + x * 256
  | store x => 0xf055 + x * 256
  | load x => 0xf065 + x * 256

/-- The instructions of the last family, told apart by their low byte. -/
def ofDevice? (x : Nat) : Nat → Option (Instruction Nat)
  | 0x07 => some (readDelay x)
  | 0x0a => some (waitKey x)
  | 0x15 => some (setDelay x)
  | 0x18 => some (setSound x)
  | 0x1e => some (addIndex x)
  | 0x29 => some (pointGlyph x)
  | 0x33 => some (storeDecimal x)
  | 0x55 => some (store x)
  | 0x65 => some (load x)
  | _ => none

/-- The instruction of a word below 65536; some words mean none. -/
def ofWord? (word : Nat) : Option (Instruction Nat) :=
  let x := word / 256 % 16
  let y := word / 16 % 16
  let n := word % 16
  let nn := word % 256
  let nnn := word % 4096
  match word / 4096 with
  | 0x0 =>
    if word = 0x00e0 then some clear
    else if word = 0x00ee then some ret
    else some (machineCall nnn)
  | 0x1 => some (jump nnn)
  | 0x2 => some (call nnn)
  | 0x3 => some (skipIfByte x nn)
  | 0x4 => some (skipUnlessByte x nn)
  | 0x5 => if n = 0 then some (skipIfSame x y) else none
  | 0x6 => some (setByte x nn)
  | 0x7 => some (addByte x nn)
  | 0x8 => (ArithOp.ofCode? n).map (arith · x y)
  | 0x9 => if n = 0 then some (skipUnlessSame x y) else none
  | 0xa => some (setIndex nnn)
  | 0xb => some (jumpOffset nnn)
  | 0xc => some (random x nn)
  | 0xd => some (draw x y n)
  | 0xe =>
    if nn = 0x9e then some (skipIfKey x)
    else if nn = 0xa1 then some (skipUnlessKey x)
    else none
  | 0xf => ofDevice? x nn
  | _ => none

theorem inRange_of_ofDevice? {x nn : Nat} {i : Instruction Nat} (hx : x < 16)
    (h : ofDevice? x nn = some i) : i.InRange := by
  unfold ofDevice? at h
  split at h <;> cases h <;> exact hx

/-- Only operands that fit their fields are ever read from a word. -/
theorem inRange_of_ofWord? {word : Nat} {i : Instruction Nat} (h : ofWord? word = some i) :
    i.InRange := by
  have hx : word / 256 % 16 < 16 := Nat.mod_lt _ (by decide)
  have hy : word / 16 % 16 < 16 := Nat.mod_lt _ (by decide)
  have hn : word % 16 < 16 := Nat.mod_lt _ (by decide)
  have hnn : word % 256 < 256 := Nat.mod_lt _ (by decide)
  have hnnn : word % 4096 < 4096 := Nat.mod_lt _ (by decide)
  simp only [ofWord?] at h
  split at h
  case h_1 =>
    split at h
    · cases h
      trivial
    · split at h
      · cases h
        trivial
      · cases h
        refine ⟨hnnn, ?_, ?_⟩ <;> omega
  case h_9 =>
    obtain ⟨op, _, rfl⟩ := Option.map_eq_some_iff.mp h
    exact ⟨hx, hy⟩
  case h_15 =>
    split at h
    · cases h
      exact hx
    · split at h <;> cases h
      exact hx
  case h_16 => exact inRange_of_ofDevice? hx h
  all_goals
    try split at h
    all_goals cases h
    all_goals simp [InRange, hx, hy, hn, hnn, hnnn]

/-- Decodes any integer by its low sixteen bits. -/
def decode (word : Int) : Option (Instruction Nat) :=
  ofWord? (word % 65536).toNat

end Instruction

end Chip8
